import Memtype.Proofs.Address

/-! Control transfers come to their end: seven steps of the loop after a packet the default endpoint
has the next one ready, so that a host which asks once in each round of the loop gets all of the
answer. -/

namespace Memtype

open Lib

namespace Firmware

variable {L : Layout}

def Event.isLoop : Event → Bool
  | .loop _ => true
  | _ => false

def Event.isPacket : Event → Bool
  | .packet _ _ => true
  | _ => false

/-- The receiver is free, and the next packet is in the buffer, if there is one. -/
def Settled (s : Firmware) : Prop :=
  s.drv.usbRxLen = 0 ∧ (isHandshake s.drv.usbTxLen = false ∨ s.drv.usbMsgLen = usbNoMsg)

/-- The steps of the loop until then. -/
def toSettle (s : Firmware) : ℕ :=
  if s.drv.usbRxLen = 0 then
    match s.pc with
    | .transmit => 1
    | .rx | .release => 2
    | .ready => 3
    | .sch => 4
    | .reset => 5
  else
    match s.pc with
    | .release => 2
    | .rx => 3
    | .ready => 4
    | .sch => 5
    | .reset => 6
    | .transmit => 7

theorem toSettle_bounds (s : Firmware) : 0 < s.toSettle ∧ s.toSettle ≤ 7 := by
  unfold toSettle
  split_ifs
  · cases s.pc <;> simp
  · cases s.pc <;> simp

/-- No packet is taken and the default endpoint sends nothing. -/
def Still (s : Firmware) (e : Event) : Prop := s.accepted e = [] ∧ s.controlSent e = []

theorem isHandshake_built (beyond : MsgPtr → UInt8) (s : Firmware) :
    isHandshake (s.usbBuildTxBlock beyond).usbTxLen = false := by
  have hlen : (s.usbDeviceRead beyond (if s.drv.usbMsgLen > 8 then 8 else s.drv.usbMsgLen)).2.length ≤ 8 := by
    unfold usbDeviceRead
    rw [List.length_map, List.length_range, (limit_eight s.drv.usbMsgLen).2]
    exact Nat.min_le_right _ _
  exact (isHandshake_length hlen).1

/-- What an interrupt leaves as it is in a still step. -/
theorem still_packet {s : Firmware} {pid : UInt8} {rest : List UInt8}
    (h : s.Still (.packet pid rest)) :
    (s.drv.interrupt pid rest).1.usbRxLen = s.drv.usbRxLen ∧
      (s.drv.interrupt pid rest).1.usbTxLen = s.drv.usbTxLen ∧
      (s.drv.interrupt pid rest).1.usbMsgLen = s.drv.usbMsgLen := by
  obtain ⟨hacc, hsent⟩ := h
  have hint := s.drv.interrupts pid rest
  dsimp only [accepted, controlSent, answers] at hacc hsent
  generalize s.drv.interrupt pid rest = x at hint hacc hsent
  cases hint with
  | quiet _ _ _ _ _ => exact ⟨rfl, rfl, rfl⟩
  | stored hpid hlen _ _ _ =>
    rw [if_pos ⟨hpid, rfl, hlen⟩] at hacc
    exact absurd hacc nofun
  | control _ _ _ => exact absurd hsent nofun
  | report _ _ _ => exact ⟨rfl, rfl, rfl⟩

theorem settled_step {s s' : Firmware} {e : Event} (h : s.Settled) (he : s.Still e)
    (hs : step L s e = .ret s') : s'.Settled := by
  cases e with
  | packet pid rest =>
    cases Outcome.ret.inj hs
    obtain ⟨hrx, htx, hmsg⟩ := still_packet he
    unfold Settled
    dsimp only
    rw [hrx, htx, hmsg]
    exact h
  | background ram =>
    cases Outcome.ret.inj hs
    exact h
  | loop i =>
    cases loops hs with
    | process _ hlen => exact absurd (h.1 ▸ (by decide : (0 : UInt8) < 3)) hlen
    | release _ => exact ⟨rfl, h.2⟩
    | build _ _ _ => exact ⟨h.1, .inl (isHandshake_built _ s)⟩
    | poll _ _ => exact h
    | skip _ _ => exact h
    | lines _ _ _ _ _ => exact h
    | task _ _ => exact h
    | report _ _ _ _ => exact h
    | busy _ _ => exact h

theorem toSettle_step {s s' : Firmware} {e : Event} (hlen : s.drv.usbRxLen = 0 ∨ ¬s.drv.usbRxLen < 3)
    (he : s.Still e) (hs : step L s e = .ret s') :
    s'.Settled ∨ s'.toSettle + (if e.isLoop then 1 else 0) ≤ s.toSettle := by
  cases e with
  | packet pid rest =>
    cases Outcome.ret.inj hs
    refine .inr (Nat.le_of_eq ?_)
    unfold toSettle
    dsimp only
    rw [(still_packet he).1]
    rfl
  | background ram =>
    cases Outcome.ret.inj hs
    exact .inr le_rfl
  | loop i =>
    cases loops hs with
    | poll hpc hshort =>
      have h0 : s.drv.usbRxLen = 0 := hlen.resolve_right (not_not.mpr hshort)
      exact .inr (by simp [toSettle, Event.isLoop, hpc, h0])
    | process hpc hlong =>
      have h0 : s.drv.usbRxLen ≠ 0 := fun h0 => hlong (by rw [h0]; decide)
      have hrx : (s.usbProcessRx L).drv.usbRxLen ≠ 0 := (usbProcessRx_rx s).1.len ▸ h0
      exact .inr (by simp [toSettle, Event.isLoop, hpc, h0, hrx])
    | release hpc =>
      refine .inr ?_
      simp only [toSettle, hpc, Event.isLoop, if_true, ite_self]
      decide
    | build hpc _ _ =>
      by_cases h0 : s.drv.usbRxLen = 0
      · exact .inl ⟨h0, .inl (isHandshake_built _ s)⟩
      · have hrx : (s.usbBuildTxBlock i.beyond).usbRxLen ≠ 0 := h0
        exact .inr (by simp [toSettle, Event.isLoop, hpc, h0, hrx])
    | skip hpc hskip =>
      by_cases h0 : s.drv.usbRxLen = 0
      · refine .inl ⟨h0, ?_⟩
        rcases not_and_or.mp hskip with h | h
        · exact .inl (Bool.eq_false_iff.mpr h)
        · exact .inr (not_not.mp h)
      · exact .inr (by simp [toSettle, Event.isLoop, hpc, h0])
    | lines hpc d new addr _ =>
      refine .inr ?_
      by_cases h0 : s.drv.usbRxLen = 0
      · simp [toSettle, Event.isLoop, hpc, h0]
      · simp [toSettle, Event.isLoop, hpc, h0]
    | task hpc d =>
      refine .inr ?_
      by_cases h0 : s.drv.usbRxLen = 0
      · simp [toSettle, Event.isLoop, hpc, h0]
      · simp [toSettle, Event.isLoop, hpc, h0]
    | report hpc _ d _ =>
      refine .inr ?_
      by_cases h0 : s.drv.usbRxLen = 0
      · simp [toSettle, Event.isLoop, hpc, h0, Usbdrv.usbSetInterrupt]
      · simp [toSettle, Event.isLoop, hpc, h0, Usbdrv.usbSetInterrupt]
    | busy hpc _ =>
      refine .inr ?_
      by_cases h0 : s.drv.usbRxLen = 0
      · simp [toSettle, Event.isLoop, hpc, h0]
      · simp [toSettle, Event.isLoop, hpc, h0]

/-- Seven steps of the loop are enough. -/
theorem settled_run {s s' : Firmware} {l : List Rx} {k : List Memtype.Event} (h : RxInv s l k)
    {evs : List Event} (hstill : EachStep (step L) Still (.ret s) evs)
    (hlong : 7 ≤ evs.countP Event.isLoop) (hs : run (step L) (.ret s) evs = .ret s') : s'.Settled := by
  have hg : EachStep (step L) (fun s e => s.Still e ∧ ∃ l k, RxInv s l k) (.ret s) evs :=
    eachStep_of_inv (I := fun s => ∃ l k, RxInv s l k)
      (fun s e ⟨l, k, h⟩ he => ⟨⟨he, l, k, h⟩, fun s' hs => ⟨_, _, rxInv_step h hs⟩⟩)
      (fun t ht => ⟨l, k, Outcome.ret.inj ht ▸ h⟩) hstill
  rcases rank_run (P := Settled) (m := toSettle) (p := Event.isLoop) (k := 0) (n := 7)
      (fun s e s' hset he hs => settled_step hset he.1 hs)
      (fun s e s' _ ⟨he, l, k, h⟩ hs => toSettle_step h.len he hs) (.inr (toSettle_bounds s).2) hg hs with
    h | h
  · exact h
  · have hpos := (toSettle_bounds s').1
    omega

def NoStall (u : Usbdrv) : Prop := u.usbTxLen = usbpidNak ∨ isHandshake u.usbTxLen = false

theorem processSetup_txLen (data : Bytes 8) (s : Firmware) :
    (s.processSetup L data).drv.usbTxLen = usbpidNak := by
  by_cases htype : data 0 &&& usbrqTypeMask = 0
  · exact (answers_driver htype).idle
  · unfold processSetup
    rw [if_pos htype]
    dsimp only
    cases (usbFunctionSetup L (usbRequest data) s.dev).2 <;> rfl

theorem processOut_txLen (data : Bytes 8) (len : UInt8) (s : Firmware) :
    (s.processOut L data len).drv.usbTxLen = s.drv.usbTxLen := by
  unfold processOut
  split_ifs
  · rfl
  · rfl

theorem noStall_step {s s' : Firmware} {e : Event} (h : NoStall s.drv) (hs : step L s e = .ret s') :
    NoStall s'.drv := by
  cases e with
  | packet pid rest =>
    cases Outcome.ret.inj hs
    have hint := s.drv.interrupts pid rest
    dsimp only
    generalize s.drv.interrupt pid rest = x at hint
    cases hint with
    | quiet _ _ _ _ _ => exact h
    | stored _ _ _ _ _ => exact h
    | control _ _ _ => exact .inl rfl
    | report _ _ _ => exact h
  | background ram =>
    cases Outcome.ret.inj hs
    exact h
  | loop i =>
    cases loops hs with
    | process _ _ =>
      unfold NoStall usbProcessRx
      dsimp only
      split_ifs
      · exact h
      · exact .inl (processSetup_txLen _ s)
      · rw [processOut_txLen]
        exact h
    | build _ _ _ => exact .inr (isHandshake_built _ s)
    | poll _ _ => exact h
    | release _ => exact h
    | skip _ _ => exact h
    | lines _ _ _ _ _ => exact h
    | task _ _ => exact h
    | report _ _ _ _ => exact h
    | busy _ _ => exact h

def forControl (u : Usbdrv) (b b' : UInt8) : Prop :=
  b <<< 1 = u.usbDeviceAddr ∧ (b' <<< 1 ||| b >>> 7) &&& 0xf = 0

instance (u : Usbdrv) (b b' : UInt8) : Decidable (forControl u b b') :=
  inferInstanceAs (Decidable (_ ∧ _))

/-- What an IN for the default endpoint is answered with, and what it leaves. -/
theorem settled_in {s : Firmware} (hset : s.Settled) (hstall : NoStall s.drv) (hhalf : s.drv.Half)
    {b b' : UInt8} (htok : forControl s.drv b b') (hmsg : MsgInv s) :
    s.answers (.packet usbpidIn [b, b']) =
        (match s.toSend with
        | [] => [.handshake usbpidNak]
        | p :: _ => [.control p]) ∧
      toSend { s with drv := (s.drv.interrupt usbpidIn [b, b']).1 } = s.toSend.tail := by
  obtain ⟨h1, h2⟩ := Usbdrv.received_take hhalf usbpidIn b b'
  have haddr : (s.drv.take usbpidIn [b, b']).address = s.drv.usbDeviceAddr := by
    unfold Usbdrv.address
    rw [h1]
    exact htok.1
  have hep : (s.drv.take usbpidIn [b, b']).endpoint = 0 := by
    unfold Usbdrv.endpoint
    rw [h1, h2]
    exact htok.2
  have hfree : ¬1 ≤ s.drv.usbRxLen := by
    rw [hset.1]
    decide
  have hin : s.drv.interrupt usbpidIn [b, b'] =
      if (s.drv.take usbpidIn [b, b']).address ≠ s.drv.usbDeviceAddr then
        ({ s.drv.take usbpidIn [b, b'] with usbCurrentTok := 0 }, [])
      else (s.drv.take usbpidIn [b, b']).handleIn := rfl
  have hhandle : (s.drv.take usbpidIn [b, b']).handleIn =
      if isHandshake s.drv.usbTxLen then (s.drv.take usbpidIn [b, b'], [.handshake s.drv.usbTxLen])
      else (Usbdrv.usbSendAndReti { s.drv.take usbpidIn [b, b'] with usbTxLen := usbpidNak },
        [.control ((List.ofFn s.drv.usbTxBuf).take (s.drv.usbTxLen.toNat - 1))]) := by
    unfold Usbdrv.handleIn
    rw [hep]
    exact if_neg hfree
  have hans : s.answers (.packet usbpidIn [b, b']) = (s.drv.interrupt usbpidIn [b, b']).2 := rfl
  have hmove := (toSend_packet hmsg usbpidIn [b, b']).1
  unfold controlSent at hmove
  rw [hans] at hmove ⊢
  rw [hin, if_neg (not_not.mpr haddr), hhandle] at hmove ⊢
  by_cases hidle : isHandshake s.drv.usbTxLen = true
  · rw [if_pos hidle] at hmove ⊢
    have hnone : s.toSend = [] := by
      unfold toSend inBuffer toBuild
      rw [if_pos hidle, if_pos (hset.2.resolve_left fun h => absurd (hidle.symm.trans h) nofun)]
      rfl
    rw [hnone] at hmove ⊢
    rw [hstall.resolve_right fun h => absurd (hidle.symm.trans h) nofun]
    exact ⟨rfl, hmove.symm⟩
  · rw [if_neg hidle] at hmove ⊢
    rw [hmove]
    exact ⟨rfl, rfl⟩

/-- A round: steps without a packet, and then the IN with these two bytes. -/
structure Round where
  steps : List Event
  low : UInt8
  high : UInt8

namespace Round

def events (x : Round) : List Event := x.steps ++ [.packet usbpidIn [x.low, x.high]]

/-- The loop gets round. -/
def Whole (x : Round) : Prop := (∀ e ∈ x.steps, e.isPacket = false) ∧ 7 ≤ x.steps.countP Event.isLoop

instance (x : Round) : Decidable x.Whole := inferInstanceAs (Decidable (_ ∧ _))

end Round

/-- The packets of a run are tokens for the default endpoint. -/
def Asks (s : Firmware) : Event → Prop
  | .packet _ [b, b'] => forControl s.drv b b'
  | .packet _ _ => False
  | _ => True

theorem still_of_steps {evs : List Event} (h : ∀ e ∈ evs, e.isPacket = false) (o : Outcome Firmware) :
    EachStep (step L) Still o evs := by
  induction evs generalizing o with
  | nil => simp
  | cons e evs ih =>
    cases o with
    | spin s => trivial
    | ret s =>
      refine ⟨?_, ih (fun e he => h e (List.mem_cons_of_mem _ he)) _⟩
      cases e with
      | packet pid rest => exact absurd (h _ List.mem_cons_self) nofun
      | loop i => exact ⟨rfl, rfl⟩
      | background ram => exact ⟨rfl, rfl⟩

theorem collect_still {α : Type*} {F : Firmware → Event → List α} (hF : ∀ s e, s.Still e → F s e = [])
    {o : Outcome Firmware} {evs : List Event} (h : EachStep (step L) Still o evs) :
    collect (step L) F o evs = [] := by
  induction evs generalizing o with
  | nil => simp
  | cons e evs ih =>
    cases o with
    | spin s => simp
    | ret s => rw [collect, hF s e h.1, ih h.2, List.append_nil]

/-- What holds along a run whatever the host has sent. -/
structure Sound (s : Firmware) : Prop where
  rx : ∃ l k, RxInv s l k
  stall : NoStall s.drv

theorem Sound.step {s s' : Firmware} {e : Event} (h : Sound s) (hs : step L s e = .ret s') :
    Sound s' := by
  obtain ⟨l, k, hrx⟩ := h.rx
  exact ⟨⟨_, _, rxInv_step hrx hs⟩, noStall_step h.stall hs⟩

theorem Sound.run {s s' : Firmware} {evs : List Event} (h : Sound s)
    (hs : run (Firmware.step L) (.ret s) evs = .ret s') : Sound s' :=
  inv_ret (fun _ _ _ h hs => h.step hs) (fun _ ht => Outcome.ret.inj ht ▸ h) hs

theorem sound_powerOn {flash eeprom ram : Mem} {evs : List Event} {s : Firmware}
    (hs : run (Firmware.step L) (powerOn L flash eeprom ram) evs = .ret s) : Sound s := by
  refine ⟨⟨_, _, rxInv_run hs⟩, inv_ret (P := fun s => NoStall s.drv)
    (fun _ _ _ => noStall_step) (fun t ht => ?_) hs⟩
  rw [(powerOn_ret ht).2.1]
  exact .inl rfl

theorem waiting_of_settled {s : Firmware} (h : s.Settled) : s.waiting = [] := if_pos (.inl h.1)

theorem accepted_in (s : Firmware) (rest : List UInt8) : s.accepted (.packet usbpidIn rest) = [] := by
  unfold accepted
  exact if_neg (Usbdrv.acked_in rfl)

/-- A whole round, from the end of its steps. -/
theorem round_in {s t : Firmware} {x : Round} (h : Sound s) (hx : x.Whole)
    (ht : run (step L) (.ret s) x.steps = .ret t) (hasks : forControl t.drv x.low x.high)
    (hmsg : MsgInv t) :
    t.controlSent (.packet usbpidIn [x.low, x.high]) = t.toSend.take 1 ∧
      toSend { t with drv := (t.drv.interrupt usbpidIn [x.low, x.high]).1 } = t.toSend.tail ∧
      MsgInv { t with drv := (t.drv.interrupt usbpidIn [x.low, x.high]).1 } ∧
      waiting { t with drv := (t.drv.interrupt usbpidIn [x.low, x.high]).1 } = [] := by
  have hstill := still_of_steps (L := L) hx.1 (.ret s)
  obtain ⟨l, k, hrx⟩ := h.rx
  have hset := settled_run hrx hstill hx.2 ht
  have hsound := h.run ht
  obtain ⟨l', k', hrx'⟩ := hsound.rx
  obtain ⟨hans, hrest⟩ := settled_in hset hsound.stall hrx'.half hasks hmsg
  refine ⟨?_, hrest, (toSend_packet hmsg _ _).2, ?_⟩
  · unfold controlSent
    rw [hans]
    cases t.toSend <;> rfl
  · exact (toSend_step (L := L) hmsg (waiting_of_settled hset) (accepted_in t _) rfl).2.2

/-- With nothing waiting, each whole round brings the next packet. -/
theorem rounds_sent {s s' : Firmware} {l : List Round} (h : Sound s) (hmsg : MsgInv s)
    (hw : s.waiting = []) (hl : ∀ x ∈ l, x.Whole)
    (hasks : EachStep (step L) Asks (.ret s) (l.flatMap Round.events))
    (hs : run (step L) (.ret s) (l.flatMap Round.events) = .ret s') :
    collect (step L) controlSent (.ret s) (l.flatMap Round.events) = s.toSend.take l.length := by
  induction l generalizing s with
  | nil => rfl
  | cons x l ih =>
    have hx := hl x List.mem_cons_self
    have hstill := still_of_steps (L := L) hx.1 (.ret s)
    rw [List.flatMap_cons, Round.events, List.append_assoc] at hs hasks ⊢
    rw [run_append] at hs
    have hrest := (eachStep_append.mp hasks).2
    rw [collect_append, collect_still (fun _ _ h => h.2) hstill, List.nil_append]
    cases ht : run (step L) (.ret s) x.steps with
    | spin t =>
      rw [ht, run_spin] at hs
      cases hs
    | ret t =>
      rw [ht] at hs hrest
      obtain ⟨hsame, hmsg'⟩ := toSend_run hmsg hw (collect_still (fun _ _ h => h.1) hstill) ht
      rw [collect_still (fun _ _ h => h.2) hstill, List.nil_append] at hsame
      obtain ⟨hsent, htail, hnext, hwait⟩ := round_in h hx ht hrest.1 hmsg'
      rw [List.singleton_append, collect, hsent, hsame]
      have hafter := ih ((h.run ht).step (L := L) (e := .packet usbpidIn [x.low, x.high]) rfl) hnext
        hwait (fun y hy => hl y (List.mem_cons_of_mem _ hy)) hrest.2 hs
      refine (congrArg _ hafter).trans ?_
      rw [htail, hsame, List.length_cons]
      cases s.toSend with
      | nil => simp
      | cons p ps => rfl

/-- A host that, after a SETUP, asks once in each whole round of the loop gets one packet of the
answer in each of the first rounds, until it has all of them. -/
theorem control_complete {flash eeprom ram : Mem} {evs : List Event} {pid : UInt8}
    {rest : List UInt8} {s s' : Firmware} {r : Rx} {l : List Round}
    (hs : run (step L) (powerOn L flash eeprom ram) evs = .ret s)
    (hacc : s.accepted (.packet pid rest) = [r]) (htok : r.token = usbpidSetup) (hlen : r.len = 8)
    (hstray : ¬Stray r.data) (hne : l ≠ []) (hl : ∀ x ∈ l, x.Whole)
    (hasks : EachStep (step L) Asks (step L s (.packet pid rest)) (l.flatMap Round.events))
    (hs' : run (step L) (step L s (.packet pid rest)) (l.flatMap Round.events) = .ret s') :
    ∃ pre i post t, l.flatMap Round.events = pre ++ .loop i :: post ∧
      run (step L) (step L s (.packet pid rest)) pre = .ret t ∧ t.pc = .rx ∧ t.drv.rx = r ∧
      collect (step L) controlSent (step L s (.packet pid rest)) (l.flatMap Round.events) =
        (asked L r.data t).take l.length := by
  obtain ⟨x, l, rfl⟩ := List.exists_cons_of_ne_nil hne
  have hnext := (acked_run hs hacc).1
  have hrx := rxInv_run hnext
  have hw := waiting_accepted (rxInv_run hs) hacc
  have hsound := sound_powerOn hnext
  have hx := hl x List.mem_cons_self
  have hstep : step L s (.packet pid rest) = .ret { s with drv := (s.drv.interrupt pid rest).1 } := rfl
  rw [hstep] at hasks hs' ⊢
  generalize Firmware.mk s.dev (s.drv.interrupt pid rest).1 s.pc = s₁ at hrx hw hsound hasks hs'
  have hstill := still_of_steps (L := L) hx.1 (.ret s₁)
  have hnone := collect_still (L := L) (fun _ _ h => h.2) hstill
  rw [List.flatMap_cons, Round.events, List.append_assoc, List.singleton_append] at hs' hasks ⊢
  rw [run_append] at hs'
  have hrest := (eachStep_append.mp hasks).2
  cases ht : run (step L) (.ret s₁) x.steps with
  | spin t =>
    rw [ht, run_spin] at hs'
    cases hs'
  | ret t =>
    rw [ht] at hs' hrest
    have hset := settled_run hrx hstill hx.2 ht
    -- the whole turn in the first round has taken the SETUP
    obtain hwait | ⟨pre, i, post, u, hsteps, hpre, hpc, hr, hasked, hmsg⟩ :=
      waiting_run hrx hw htok hlen hstray (collect_still (fun _ _ h => h.1) hstill) ht
    · exact absurd (hwait.1.symm.trans (waiting_of_settled hset)) nofun
    rw [hnone, List.nil_append] at hasked
    obtain ⟨hsent, htail, hmsg', hwait'⟩ := round_in hsound hx ht hrest.1 hmsg
    have hafter := rounds_sent ((hsound.run ht).step (L := L) (e := .packet usbpidIn [x.low, x.high]) rfl)
      hmsg' hwait' (fun y hy => hl y (List.mem_cons_of_mem _ hy)) hrest.2 hs'
    refine ⟨pre, i, post ++ .packet usbpidIn [x.low, x.high] :: l.flatMap Round.events, u, ?_, hpre,
      hpc, hr, ?_⟩
    · rw [hsteps, List.append_assoc, List.cons_append]
    · rw [collect_append, hnone, List.nil_append, ht, collect, hsent, hasked]
      refine (congrArg _ hafter).trans ?_
      rw [htail, hasked, List.length_cons]
      cases asked L r.data u with
      | nil => simp
      | cons p ps => rfl

instance (s : Firmware) : (e : Event) → Decidable (Asks s e)
  | .packet _ [b, b'] => inferInstanceAs (Decidable (forControl s.drv b b'))
  | .packet _ [] | .packet _ [_] | .packet _ (_ :: _ :: _ :: _) => .isFalse id
  | .loop _ | .background _ => .isTrue trivial

def sampleRound : Round := ⟨Event.passes 7, 0, 0⟩

theorem control_complete_getDescriptor :
    let o := step sampleLayout tokenTaken (.packet usbpidData0 (List.ofFn getDescriptor.data ++ [0, 0]))
    let evs := (List.replicate 3 sampleRound).flatMap Round.events
    ∃ pre i post t, evs = pre ++ .loop i :: post ∧ run (step sampleLayout) o pre = .ret t ∧ t.pc = .rx ∧
      t.drv.rx = getDescriptor ∧ collect (step sampleLayout) controlSent o evs =
        (asked sampleLayout getDescriptor.data t).take (List.replicate 3 sampleRound).length :=
  control_complete run_tokenTaken (by decide +kernel) rfl rfl (by decide)
    (List.cons_ne_nil _ _) (by decide +kernel) (by decide +kernel)
    (Outcome.eq_ret_of_returns (by decide +kernel))

end Firmware

end Memtype
