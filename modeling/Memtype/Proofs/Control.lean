import Memtype.Proofs.Requests

/-! Control transfers in whole runs: only a SETUP or a data packet that `usbPoll` takes changes what
the default endpoint has to send. -/

namespace Memtype

open Lib

/-- A packet after which nothing is read through an old pointer. -/
def Rx.Legal (r : Rx) : Prop := r.token = usbpidSetup → r.len = 8 → ¬Firmware.Stray r.data

instance (r : Rx) : Decidable r.Legal := inferInstanceAs (Decidable (_ → _ → _))

namespace Firmware

variable {L : Layout}

theorem msgInv_process {s : Firmware} (h : MsgInv s) (hpc : s.pc = .rx) (hlegal : s.drv.rx.Legal) :
    MsgInv { s.usbProcessRx L with pc := .release } := by
  have hrom := rom_of_fixed h fun h => by
    rw [hpc] at h
    exact absurd h.1 (by decide)
  have hkeep : MsgInv { s with pc := .release } := by
    refine msgInv_congr h (sameTx_refl _) (fun hl => object_rom (hrom hl) s _) fun hl => .inl (hrom hl)
  unfold usbProcessRx
  dsimp only
  split_ifs with htok hlen
  · exact hkeep
  · exact (toSend_setup (hlegal htok (not_not.mp hlen))).2
  · unfold processOut
    split_ifs
    · have hdead {d : Device} : ¬Live ⟨d, { s.drv with usbMsgLen := 0 }, .release⟩ := fun hl => hl.2 rfl
      exact ⟨fun hl => absurd hl hdead, fun hl => absurd hl hdead, fun hl => absurd hl hdead⟩
    · exact hkeep

theorem msgInv_step {s s' : Firmware} {e : Event} (h : MsgInv s) (hlegal : ∀ r ∈ s.waiting, r.Legal)
    (hs : step L s e = .ret s') : MsgInv s' := by
  cases e with
  | packet pid rest =>
    cases Outcome.ret.inj hs
    exact (toSend_packet h pid rest).2
  | background ram =>
    cases Outcome.ret.inj hs
    have hobj (o : MsgObj) : object { s with dev := { s.dev with ram := ram } } o = s.object o := by
      cases o <;> rfl
    exact msgInv_congr h (sameTx_refl _) (fun _ => hobj _) h.fixed
  | loop i =>
    have hl := loops hs
    by_cases hrx : s.pc ≠ .rx ∨ s.drv.usbRxLen < 3
    · exact (toSend_loop h hl hrx).2
    · obtain ⟨hpc, hlen⟩ := not_or.mp hrx
      cases hl with
      | process _ _ =>
        refine msgInv_process h (not_not.mp hpc) (hlegal _ ?_)
        unfold waiting
        rw [if_neg (not_or.mpr ⟨fun h0 => hlen (by rw [h0]; decide), by rw [not_not.mp hpc]; decide⟩)]
        exact List.mem_singleton_self _
      | poll _ h => exact absurd h hlen
      | _ h => exact absurd (h.symm.trans (not_not.mp hpc)) (by decide)

/-- While a packet waits the interrupt routine sends nothing and takes nothing. -/
theorem waiting_step {s s' : Firmware} {e : Event} {r : Rx} {l : List Rx}
    {evs : List Memtype.Event} (h : RxInv s l evs) (hw : s.waiting = [r])
    (hs : step L s e = .ret s') : s.controlSent e = [] ∧
      (s'.waiting = [r] ∨ ∃ i, e = .loop i ∧ s.pc = .rx ∧ s.drv.rx = r ∧
        s' = { s.usbProcessRx L with pc := .release }) := by
  have hrx : s.drv.usbRxLen ≠ 0 ∧ s.pc ≠ .release ∧ s.drv.rx = r := by
    unfold waiting at hw
    split_ifs at hw with hc
    exact ⟨fun h => hc (.inl h), fun h => hc (.inr h), List.singleton_inj.mp hw⟩
  obtain ⟨hne, hpc, hr⟩ := hrx
  have hlen : ¬s.drv.usbRxLen < 3 := h.len.resolve_left hne
  have hkeep {u : Usbdrv} {d : Device} {pc : Pc} (hsame : s.drv.SameRx u) (hpc' : pc ≠ .release) :
      waiting ⟨d, u, pc⟩ = [r] := by
    refine (if_neg (not_or.mpr ⟨by rwa [hsame.len], hpc'⟩)).trans ?_
    rw [← hr]
    unfold Usbdrv.rx
    rw [hsame.data, hsame.len, hsame.token]
  have hrefl : s.drv.SameRx s.drv := ⟨rfl, rfl, rfl, rfl⟩
  cases e with
  | packet pid rest =>
    cases Outcome.ret.inj hs
    have hdata := Usbdrv.rxData_take h.half pid rest
    have hint := s.drv.interrupts pid rest
    dsimp only [controlSent, answers]
    generalize s.drv.interrupt pid rest = x at hint
    cases hint with
    | quiet tok ans htok hans hacked =>
      refine ⟨List.filterMap_eq_nil_iff.mpr fun a ha => ?_, .inl (hkeep ⟨hdata, rfl, rfl, rfl⟩ hpc)⟩
      obtain ⟨h, rfl⟩ := hans a ha
      rfl
    | stored _ _ _ _ hfree => exact absurd hfree hne
    | control _ hfree _ => exact absurd hfree hne
    | report _ hfree _ => exact absurd hfree hne
  | background ram =>
    cases Outcome.ret.inj hs
    exact ⟨rfl, .inl (hkeep hrefl hpc)⟩
  | loop i =>
    refine ⟨rfl, ?_⟩
    cases loops hs with
    | poll _ h => exact absurd h hlen
    | process hpc _ => exact .inr ⟨i, rfl, hpc, hr, rfl⟩
    | release h => exact absurd h hpc
    | build _ _ _ => exact .inl (hkeep ⟨rfl, rfl, rfl, rfl⟩ (by decide))
    | skip _ _ => exact .inl (hkeep hrefl (by decide))
    | lines _ d new addr _ => exact .inl (hkeep ⟨rfl, rfl, rfl, rfl⟩ (by decide))
    | task _ d => exact .inl (hkeep hrefl (by decide))
    | report _ _ d _ => exact .inl (hkeep ⟨rfl, rfl, rfl, rfl⟩ (by decide))
    | busy _ _ => exact .inl (hkeep hrefl (by decide))

/-- Without a new packet from the host, what has been sent and what is still to be sent stay the
same together. -/
theorem toSend_step {s s' : Firmware} {e : Event} (h : MsgInv s) (hw : s.waiting = [])
    (hacc : s.accepted e = []) (hs : step L s e = .ret s') :
    s.toSend = s.controlSent e ++ s'.toSend ∧ MsgInv s' ∧ s'.waiting = [] := by
  have hfree : s.drv.usbRxLen = 0 ∨ s.pc = .release := by
    unfold waiting at hw
    split_ifs at hw with hc
    exact hc
  have hkeep {u : Usbdrv} {d : Device} {pc : Pc} (hlen : u.usbRxLen = s.drv.usbRxLen)
      (hpc : s.pc = .release → pc = .release) : waiting ⟨d, u, pc⟩ = [] :=
    if_pos (hfree.imp hlen.trans hpc)
  cases e with
  | packet pid rest =>
    cases Outcome.ret.inj hs
    obtain ⟨hsend, hmsg⟩ := toSend_packet h pid rest
    refine ⟨hsend, hmsg, ?_⟩
    have hint := s.drv.interrupts pid rest
    dsimp only [accepted] at hacc
    generalize s.drv.interrupt pid rest = x at hint hacc
    cases hint with
    | quiet _ _ _ _ _ => exact hkeep rfl id
    | stored hpid hlen _ _ _ =>
      rw [if_pos ⟨hpid, rfl, hlen⟩] at hacc
      exact absurd hacc nofun
    | control _ _ _ => exact hkeep rfl id
    | report _ _ _ => exact hkeep rfl id
  | background ram =>
    have hmsg := msgInv_step h (by rw [hw]; exact nofun) hs
    cases Outcome.ret.inj hs
    have hobj (o : MsgObj) : object { s with dev := { s.dev with ram := ram } } o = s.object o := by
      cases o <;> rfl
    exact ⟨(toSend_congr (sameTx_refl _) fun _ => hobj _).symm, hmsg, hkeep rfl id⟩
  | loop i =>
    have hl := loops hs
    have hrx : s.pc ≠ .rx ∨ s.drv.usbRxLen < 3 := hfree.symm.imp
      (fun h => by rw [h]; decide) fun h => by rw [h]; decide
    obtain ⟨hsend, hmsg⟩ := toSend_loop h hl hrx
    refine ⟨hsend.symm, hmsg, ?_⟩
    have hfree' (hpc : s.pc ≠ .release) : s.drv.usbRxLen = 0 := hfree.resolve_right hpc
    cases hl with
    | release _ => exact if_pos (.inl rfl)
    | process hpc hlen => exact absurd hrx (not_or.mpr ⟨not_not.mpr hpc, hlen⟩)
    | poll hpc _ => exact if_pos (.inl (hfree' (by rw [hpc]; decide)))
    | build hpc _ _ => exact if_pos (.inl (hfree' (by rw [hpc]; decide)))
    | skip hpc _ => exact if_pos (.inl (hfree' (by rw [hpc]; decide)))
    | lines hpc _ _ _ _ => exact if_pos (.inl (hfree' (by rw [hpc]; decide)))
    | task hpc _ => exact if_pos (.inl (hfree' (by rw [hpc]; decide)))
    | report hpc _ _ _ => exact if_pos (.inl (hfree' (by rw [hpc]; decide)))
    | busy hpc _ => exact if_pos (.inl (hfree' (by rw [hpc]; decide)))

theorem toSend_run {s s' : Firmware} {evs : List Event} (h : MsgInv s) (hw : s.waiting = [])
    (hacc : collect (step L) accepted (.ret s) evs = []) (hs : run (step L) (.ret s) evs = .ret s') :
    collect (step L) controlSent (.ret s) evs ++ s'.toSend = s.toSend ∧ MsgInv s' := by
  induction evs generalizing s with
  | nil =>
    cases Outcome.ret.inj hs
    exact ⟨rfl, h⟩
  | cons e evs ih =>
    rw [run_cons, Outcome.bind_ret] at hs
    rw [collect, List.append_eq_nil_iff] at hacc
    cases he : step L s e with
    | spin t =>
      rw [he, run_spin] at hs
      cases hs
    | ret t =>
      obtain ⟨hsend, hmsg, hwait⟩ := toSend_step h hw hacc.1 he
      rw [he] at hs hacc
      obtain ⟨hrest, hend⟩ := ih hmsg hwait hacc.2 hs
      rw [collect, he, List.append_assoc, hrest, hsend]
      exact ⟨rfl, hend⟩

/-- From the acknowledgement of a packet to the step that takes it, and on from there. What was
begun before does not matter: nothing of it goes out while the packet waits. -/
theorem taken_run {P : Firmware → Prop} {r : Rx}
    (hP : ∀ s e s', P s → s.waiting = [r] → s'.waiting = [r] → step L s e = .ret s' → P s')
    (htake : ∀ t, P t → t.drv.rx = r → MsgInv { t.usbProcessRx L with pc := .release })
    {s s' : Firmware} {evs : List Event} {l : List Rx} {k : List Memtype.Event} (h : RxInv s l k)
    (hw : s.waiting = [r]) (hs₀ : P s) (hacc : collect (step L) accepted (.ret s) evs = [])
    (hs : run (step L) (.ret s) evs = .ret s') :
    (s'.waiting = [r] ∧ P s' ∧ collect (step L) controlSent (.ret s) evs = []) ∨
    ∃ pre i post t, evs = pre ++ .loop i :: post ∧ run (step L) (.ret s) pre = .ret t ∧ t.pc = .rx ∧
      t.drv.rx = r ∧ P t ∧ step L t (.loop i) = .ret { t.usbProcessRx L with pc := .release } ∧
      collect (step L) controlSent (.ret s) evs ++ s'.toSend =
        toSend { t.usbProcessRx L with pc := .release } ∧ MsgInv s' := by
  induction evs generalizing s l k with
  | nil =>
    cases Outcome.ret.inj hs
    exact .inl ⟨hw, hs₀, rfl⟩
  | cons e evs ih =>
    rw [run_cons, Outcome.bind_ret] at hs
    rw [collect, List.append_eq_nil_iff] at hacc
    cases he : step L s e with
    | spin t =>
      rw [he, run_spin] at hs
      cases hs
    | ret t =>
      obtain ⟨hsent, hnext⟩ := waiting_step h hw he
      have hinv := rxInv_step h he
      rw [he] at hs hacc
      rw [collect, he, hsent, List.nil_append]
      rcases hnext with hwait | ⟨i, rfl, hpc, hr, ht⟩
      · rcases ih hinv hwait (hP s e t hs₀ hw hwait he) hacc.2 hs with
          hdone | ⟨pre, i, post, t', rfl, hrun, hrest⟩
        · exact .inl hdone
        · refine .inr ⟨e :: pre, i, post, t', rfl, ?_, hrest⟩
          rw [run_cons, Outcome.bind_ret, he, hrun]
      · have hwait : t.waiting = [] := by
          rw [ht]
          exact if_pos (.inr rfl)
        have hmsg : MsgInv t := ht ▸ htake s hs₀ hr
        refine .inr ⟨[], i, evs, s, rfl, rfl, hpc, hr, hs₀, ht ▸ he, ?_⟩
        rw [← ht]
        exact toSend_run hmsg hwait hacc.2 hs

theorem processRx_setup {s : Firmware} {r : Rx} (hr : s.drv.rx = r) (htok : r.token = usbpidSetup)
    (hlen : r.len = 8) : s.usbProcessRx L = s.processSetup L r.data := by
  subst hr
  have htok' : s.drv.usbRxToken = usbpidSetup := htok
  have hlen' : s.drv.usbRxLen - 3 = 8 := hlen
  unfold usbProcessRx
  dsimp only
  rw [if_pos htok', if_neg (not_not.mpr hlen')]
  rfl

theorem waiting_run {s s' : Firmware} {evs : List Event} {r : Rx} {l : List Rx}
    {k : List Memtype.Event} (h : RxInv s l k) (hw : s.waiting = [r]) (htok : r.token = usbpidSetup)
    (hlen : r.len = 8) (hstray : ¬Stray r.data)
    (hacc : collect (step L) accepted (.ret s) evs = []) (hs : run (step L) (.ret s) evs = .ret s') :
    (s'.waiting = [r] ∧ collect (step L) controlSent (.ret s) evs = []) ∨
    ∃ pre i post t, evs = pre ++ .loop i :: post ∧ run (step L) (.ret s) pre = .ret t ∧ t.pc = .rx ∧
      t.drv.rx = r ∧ collect (step L) controlSent (.ret s) evs ++ s'.toSend = asked L r.data t ∧
      MsgInv s' := by
  have htake (t : Firmware) (hr : t.drv.rx = r) :
      toSend { t.usbProcessRx L with pc := .release } = asked L r.data t ∧
        MsgInv { t.usbProcessRx L with pc := .release } := by
    rw [processRx_setup hr htok hlen]
    exact toSend_setup hstray
  rcases taken_run (P := fun _ => True) (fun _ _ _ _ _ _ _ => trivial) (fun t _ hr => (htake t hr).2)
      h hw trivial hacc hs with
    ⟨hwait, -, hnone⟩ | ⟨pre, i, post, t, he, hpre, hpc, hr, -, -, hsend, hmsg⟩
  · exact .inl ⟨hwait, hnone⟩
  · exact .inr ⟨pre, i, post, t, he, hpre, hpc, hr, hsend.trans (htake t hr).1, hmsg⟩

theorem waiting_accepted {s : Firmware} {l : List Rx} {k : List Memtype.Event} {pid : UInt8}
    {rest : List UInt8} {r : Rx} (h : RxInv s l k) (hacc : s.accepted (.packet pid rest) = [r]) :
    waiting { s with drv := (s.drv.interrupt pid rest).1 } = [r] := by
  obtain ⟨done, hl, -⟩ := (h.packet pid rest).split
  rw [hacc] at hl
  have hbusy : waiting { s with drv := (s.drv.interrupt pid rest).1 } =
      [(s.drv.interrupt pid rest).1.rx] := by
    refine if_neg (not_or.mpr ?_)
    have hint := s.drv.interrupts pid rest
    dsimp only [accepted] at hacc
    generalize s.drv.interrupt pid rest = x at hint hacc
    cases hint with
    | quiet _ _ _ _ hn =>
      rw [if_neg hn] at hacc
      exact absurd hacc nofun
    | stored _ hlen hfit _ hfree =>
      refine ⟨fun h0 => ?_, fun hpc => h.pc hpc hfree⟩
      have hlt : rest.length < 11 := hfit
      have h1 := congrArg UInt8.toNat h0
      dsimp only at h1
      rw [UInt8.toNat_ofNat', UInt8.toNat_zero] at h1
      omega
    | control hpid _ _ =>
      rw [if_neg (Usbdrv.acked_in hpid)] at hacc
      exact absurd hacc nofun
    | report hpid _ _ =>
      rw [if_neg (Usbdrv.acked_in hpid)] at hacc
      exact absurd hacc nofun
  rw [hbusy] at hl ⊢
  rw [(List.append_inj_right' hl rfl)]

theorem delivers_asked (L : Layout) (data : Bytes 8) (s : Firmware) :
    Usbdrv.Delivers (asked L data s) ((reply L data s).getD []) := by
  unfold asked
  cases reply L data s with
  | some r => exact Usbdrv.delivers_packets r
  | none => exact Usbdrv.delivers_nil

theorem acked_run {flash eeprom ram : Mem} {evs : List Event} {s : Firmware} {pid : UInt8}
    {rest : List UInt8} {r : Rx} (hs : run (step L) (powerOn L flash eeprom ram) evs = .ret s)
    (hacc : s.accepted (.packet pid rest) = [r]) :
    run (step L) (powerOn L flash eeprom ram) (evs ++ [.packet pid rest]) =
        .ret { s with drv := (s.drv.interrupt pid rest).1 } ∧
      collect (step L) accepted (powerOn L flash eeprom ram) (evs ++ [.packet pid rest]) =
        collect (step L) accepted (powerOn L flash eeprom ram) evs ++ [r] := by
  rw [run_append, collect_append, hs, collect_singleton, hacc]
  exact ⟨rfl, rfl⟩

/-- From the moment a SETUP is acknowledged until the host sends something else, the data packets
that the default endpoint sends are those that the request asks for, without a gap, from the first
on: none of an earlier transfer, none twice. They are the answer to the request cut to its `wLength`,
in packets that a receiver accepts. -/
theorem control_reply {flash eeprom ram : Mem} {evs evs' : List Event} {pid : UInt8}
    {rest : List UInt8} {s s' : Firmware} {r : Rx}
    (hs : run (step L) (powerOn L flash eeprom ram) evs = .ret s)
    (hacc : s.accepted (.packet pid rest) = [r]) (htok : r.token = usbpidSetup) (hlen : r.len = 8)
    (hstray : ¬Stray r.data) (hs' : run (step L) (step L s (.packet pid rest)) evs' = .ret s')
    (hquiet : collect (step L) accepted (step L s (.packet pid rest)) evs' = []) :
    (s'.waiting = [r] ∧ collect (step L) controlSent (step L s (.packet pid rest)) evs' = []) ∨
    ∃ pre i post t, evs' = pre ++ .loop i :: post ∧
      run (step L) (step L s (.packet pid rest)) pre = .ret t ∧ t.pc = .rx ∧ t.drv.rx = r ∧
      collect (step L) controlSent (step L s (.packet pid rest)) evs' ++ s'.toSend =
        asked L r.data t ∧
      Usbdrv.Delivers (asked L r.data t) ((reply L r.data t).getD []) := by
  have hnext := rxInv_run (acked_run hs hacc).1
  rcases waiting_run hnext (waiting_accepted (rxInv_run hs) hacc) htok hlen hstray hquiet hs'
    with hwait | ⟨pre, i, post, t, he, hpre, hpc, hr, hsend, -⟩
  · exact .inl hwait
  · exact .inr ⟨pre, i, post, t, he, hpre, hpc, hr, hsend, delivers_asked L r.data t⟩

def getDescriptor : Rx := ⟨usbpidSetup, ![0x80, 6, 0, 1, 0, 0, 18, 0], 8⟩

/-- The host goes on asking until a short packet. -/
def fetch (n : ℕ) : List Event :=
  (List.replicate n (Event.passes 6 ++ [.token usbpidIn])).flatten

def getDescriptorRun : List Event :=
  [.token usbpidSetup, .packet usbpidData0 (List.ofFn getDescriptor.data ++ [0, 0])] ++ fetch 3

def tokenTaken : Firmware := (run (step sampleLayout) sampleFirmware [.token usbpidSetup]).state

theorem run_tokenTaken : run (step sampleLayout)
    (powerOn sampleLayout (fun _ => 0) (factoryEeprom sampleLayout) fun _ => 0) [.token usbpidSetup] =
      .ret tokenTaken := Outcome.eq_ret_of_returns (by decide +kernel)

theorem control_reply_getDescriptor :
    let o := step sampleLayout tokenTaken (.packet usbpidData0 (List.ofFn getDescriptor.data ++ [0, 0]))
    let s' := (run (step sampleLayout) o (fetch 3)).state
    (s'.waiting = [getDescriptor] ∧ collect (step sampleLayout) controlSent o (fetch 3) = []) ∨
    ∃ pre i post t, fetch 3 = pre ++ .loop i :: post ∧
      run (step sampleLayout) o pre = .ret t ∧ t.pc = .rx ∧ t.drv.rx = getDescriptor ∧
      collect (step sampleLayout) controlSent o (fetch 3) ++ s'.toSend =
        asked sampleLayout getDescriptor.data t ∧
      Usbdrv.Delivers (asked sampleLayout getDescriptor.data t)
        ((reply sampleLayout getDescriptor.data t).getD []) :=
  control_reply run_tokenTaken (by decide +kernel) rfl rfl (by decide)
    (Outcome.eq_ret_of_returns (by decide +kernel)) (by decide +kernel)

end Firmware

end Memtype
