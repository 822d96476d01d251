import Memtype.Proofs.Lock

/-! The hand-over of a data packet: `UCP_Decode` accepts it, `UCP_Task` passes it on and
`UCP_WriteTask` copies it. As long as neither a packet of a wrong length nor a button
gets in between, what is copied is what was accepted. -/

namespace Memtype

open Lib

def sinceOpen (pick : Call → Option (Bytes 8)) (l : List Call) : List (Bytes 8) :=
  l.foldl (fun acc c => if c = .openWrite then [] else acc ++ (pick c).toList) []

def Call.accepted : Call → Option (Bytes 8)
  | .accept p => some p
  | _ => none

def Call.copied : Call → Option (Bytes 8)
  | .copy _ p => some p
  | _ => none

def Call.isTransfer : Call → Bool
  | .openWrite | .accept _ | .copy .. => true
  | _ => false

theorem sinceOpen_snoc (pick : Call → Option (Bytes 8)) (l : List Call) (c : Call) :
    sinceOpen pick (l ++ [c]) = if c = .openWrite then [] else sinceOpen pick l ++ (pick c).toList := by
  unfold sinceOpen
  rw [List.foldl_append]
  rfl

theorem sinceOpen_append {pick : Call → Option (Bytes 8)} (l : List Call) {m : List Call}
    (h : ∀ c ∈ m, c ≠ .openWrite ∧ pick c = none) : sinceOpen pick (l ++ m) = sinceOpen pick l := by
  induction m using List.reverseRecOn with
  | nil => rw [List.append_nil]
  | append_singleton m c ih =>
    obtain ⟨hc, hp⟩ := h c (by simp)
    rw [← List.append_assoc, sinceOpen_snoc, if_neg hc, hp, ih fun c hc => h c (by simp [hc])]
    simp

theorem accepted_none {c : Call} (h : c.isTransfer = false) :
    c ≠ .openWrite ∧ c.accepted = none ∧ c.copied = none := by
  cases c <;> simp_all [Call.isTransfer, Call.accepted, Call.copied]

theorem not_transfer_of_isPrint {c : Call} (h : c.isPrint = true ∨ c.isMenu = true) :
    c.isTransfer = false := by
  cases c <;> simp_all [Call.isPrint, Call.isMenu, Call.isTransfer]

def NoTransfer (d d' : Device) : Prop :=
  ∃ m, d'.calls = d.calls ++ m ∧ ∀ c ∈ m, c.isTransfer = false

theorem NoTransfer.same {d d' : Device} (h : d'.calls = d.calls) : NoTransfer d d' :=
  ⟨[], by simp [h], by simp⟩

theorem NoTransfer.of_calm {d d' : Device} (h : Calm d d') : NoTransfer d d' := by
  obtain ⟨m, hm, hp⟩ := h.calls
  exact ⟨m, hm, fun c hc => not_transfer_of_isPrint (.inl (hp c hc))⟩

theorem copied_same {d d' : Device} (h : NoTransfer d d') :
    sinceOpen Call.copied d'.calls = sinceOpen Call.copied d.calls := by
  obtain ⟨m, hm, hn⟩ := h
  rw [hm]
  apply sinceOpen_append
  intro c hc
  obtain ⟨ho, -, hp⟩ := accepted_none (hn c hc)
  exact ⟨ho, hp⟩

theorem accepted_same {d d' : Device} (h : NoTransfer d d') :
    sinceOpen Call.accepted d'.calls = sinceOpen Call.accepted d.calls := by
  obtain ⟨m, hm, hn⟩ := h
  rw [hm]
  apply sinceOpen_append
  intro c hc
  obtain ⟨ho, hp, -⟩ := accepted_none (hn c hc)
  exact ⟨ho, hp⟩

theorem NoTransfer.trans {a b c : Device} (h1 : NoTransfer a b) (h2 : NoTransfer b c) :
    NoTransfer a c := by
  obtain ⟨m, hm, hm'⟩ := h1
  obtain ⟨n, hn, hn'⟩ := h2
  refine ⟨m ++ n, by rw [hn, hm, List.append_assoc], fun c hc => ?_⟩
  rcases List.mem_append.mp hc with hc | hc
  · exact hm' c hc
  · exact hn' c hc

theorem NoTransfer.button {L : Layout} {b : Button} {d d' : Device} (h : ButtonStep L b d d') :
    NoTransfer d d' := by
  obtain ⟨m, hm, hp⟩ := button_calls h
  exact ⟨m, hm, fun c hc => not_transfer_of_isPrint (hp c hc)⟩

/-- The button makes the menu call `UCP_Lock` or `UCP_Unlock`. -/
def Device.switches (L : Layout) (d : Device) (b : Button) : Prop :=
  d.uif.uifState = .start ∨ d.uif.uifState = .userInput ∧ b = .left ∨
    d.uif.uifState = .options ∧ b = .right ∨
    d.uif.uifState = .userInput ∧ b = .right ∧ d.usi.userTextIndex = 3 ∧ d.pin ≠ erasePin ∧
      pinMatches L d.eeprom d.pin = true

instance (L : Layout) (d : Device) (b : Button) : Decidable (d.switches L b) :=
  inferInstanceAs (Decidable (_ ∨ _ ∧ _ ∨ _ ∧ _ ∨ _ ∧ _ ∧ _ ∧ _ ∧ _))

def Event.switchesUcp (L : Layout) (d : Device) (e : Event) : Prop :=
  ∃ b ∈ e.handled d, d.switches L b

instance (L : Layout) (d : Device) (e : Event) : Decidable (e.switchesUcp L d) :=
  inferInstanceAs (Decidable (∃ b ∈ e.handled d, d.switches L b))

def Ucp.pending (u : Ucp) : Bool := u.usbWrite || u.usbWriteAccepted

theorem Ucp.not_pending {u : Ucp} :
    ¬u.pending = true ↔ u.usbWrite = false ∧ u.usbWriteAccepted = false := by
  simp [Ucp.pending]

theorem button_ucp {L : Layout} {b : Button} {d d' : Device} (h : ButtonStep L b d d') :
    d'.ucp = d.ucp ∨ d.switches L b ∧ ∃ s, s ≠ .writting ∧ d'.ucp = { d.ucp with ucpState := s } := by
  cases h with
  | quiet h hu => exact .inl hu
  | options h0 hb h hu => exact .inl hu
  | lock h0 h hu =>
    exact .inr ⟨by rcases h0 with h0 | h0 <;> simp [Device.switches, h0], .deviceLocked, nofun, hu⟩
  | optLock h0 hb d1 h hf he hk hc hu => exact .inl hu
  | back h0 hb h hu => exact .inr ⟨.inr (.inr (.inl ⟨h0, hb⟩)), .idle, nofun, hu⟩
  | accepted h0 hb hi hp hm d1 d2 h hf he hk hc h' hu =>
    exact .inr ⟨.inr (.inr (.inr ⟨h0, hb, hi, hp, hm⟩)), .idle, nofun, hu⟩
  | refused h0 hb hi hp hm d1 h hf he hu => exact .inl hu
  | erased h0 hb hi hp d1 h hf he hk hc hu => exact .inl hu

theorem Still.switches {L : Layout} {d d1 : Device} (h : Still d d1) (b : Button) :
    d1.switches L b ↔ d.switches L b := by
  unfold Device.switches Device.pin
  rw [h.uif, h.usi, h.calm.eeprom]

/-- Data is pending only while the transfer is open, and for one half of the hand-over. -/
structure PendingInv (u : Ucp) : Prop where
  writting : u.pending = true → u.ucpState = .writting
  one : ¬(u.usbWrite = true ∧ u.usbWriteAccepted = true)

theorem pendingInv_none {u : Ucp} (h : ¬u.pending = true) : PendingInv u :=
  ⟨fun hp => absurd hp h, fun hw => h (by simp [Ucp.pending, hw])⟩

theorem PendingInv.none {u : Ucp} (h : PendingInv u) (hs : u.ucpState ≠ .writting) :
    u.usbWrite = false ∧ u.usbWriteAccepted = false :=
  Ucp.not_pending.mp fun hp => hs (h.writting hp)

theorem pendingInv_decode {L : Layout} {data : Bytes 8} {len : UInt8} {d d' : Device}
    (h : DecodeStep L data len d d') (hd : PendingInv d.ucp) : PendingInv d'.ucp := by
  have hn (hs : d.ucp.ucpState ≠ .writting) := hd.none hs
  cases h with
  | size h => exact ⟨hd.writting, hd.one⟩
  | locked h h0 => exact ⟨hd.writting, hd.one⟩
  | accept h h0 hw ho => exact ⟨fun _ => h0, by simp [Ucp.received, hw]⟩
  | reject h h0 hw => exact pendingInv_none (by simp [Ucp.pending])
  | half h h0 => exact pendingInv_none (Ucp.not_pending.mpr (hn (by simp [h0])))
  | pinDone h h0 => exact pendingInv_none (Ucp.not_pending.mpr (hn (by simp [h0])))
  | eepromDone h h0 => exact pendingInv_none (Ucp.not_pending.mpr (hn (by simp [h0])))
  | eepromRefused h h0 => exact pendingInv_none (Ucp.not_pending.mpr (hn (by simp [h0])))
  | openWrite h h0 => exact pendingInv_none (Ucp.not_pending.mpr (hn (by simp [h0])))
  | setPin h h0 => exact pendingInv_none (Ucp.not_pending.mpr (hn h0.2.1))
  | keyboard h h0 => exact pendingInv_none (Ucp.not_pending.mpr (hn h0.2.1))
  | command s r o e t h h0 => exact pendingInv_none (Ucp.not_pending.mpr (hn h0.2.1))

theorem pendingInv_task {d d' : Device} (h : TaskStep d d') (hd : PendingInv d.ucp) :
    PendingInv d'.ucp := by
  cases h with
  | same => exact hd
  | promote h0 ha => exact ⟨fun _ => h0, by simp⟩
  | read s r o h0 hs =>
    refine pendingInv_none (Ucp.not_pending.mpr (hd.none ?_))
    rcases h0 with h0 | h0 <;> simp [h0]

theorem pendingInv_write {L : Layout} {d d' : Device} (hs : ucpWriteTask L d = .ret d')
    (hd : PendingInv d.ucp) : PendingInv d'.ucp := by
  cases hw : d.ucp.usbWrite with
  | false =>
    rw [writeTask_none L d hw] at hs
    cases hs
    exact hd
  | true =>
    obtain ⟨hw', ha⟩ := writeTask_flags hw hs
    have hone : d.ucp.usbWriteAccepted = false := by
      simpa using fun ha => hd.one ⟨hw, ha⟩
    exact pendingInv_none (Ucp.not_pending.mpr ⟨hw', ha.trans hone⟩)

theorem pendingInv_step {L : Layout} {d d' : Device} {e : Event} (hd : PendingInv d.ucp)
    (hg : d.ucp.pending = true → ¬e.switchesUcp L d) (hs : step L d e = .ret d') :
    PendingInv d'.ucp := by
  cases step_ret_cases hs with
  | still h => rwa [h.ucp]
  | poll rq =>
    have h := pendingInv_task (task_cases L d) hd
    exact h
  | decode data len => exact pendingInv_decode (decode_cases L data len d) hd
  | write => exact pendingInv_write hs hd
  | button b he d1 h hb =>
    rcases button_ucp hb with hu | ⟨hsw, s, -, hu⟩
    · rwa [hu, h.ucp]
    · have hp : ¬d.ucp.pending = true := fun hp => hg hp ⟨b, he, (h.switches b).mp hsw⟩
      rw [hu, h.ucp]
      exact pendingInv_none hp
  | calibrate meas hf hk hc hu => rwa [hu]

/-- The packets copied since the WRITE command are, in their order and each at most once,
packets accepted since then; and nothing was ever copied outside a transfer. -/
def CopiesAccepted (d : Device) : Prop :=
  (sinceOpen Call.copied d.calls).Sublist (sinceOpen Call.accepted d.calls) ∧
    ∀ st p, Call.copy st p ∈ d.calls → st = .writting

def Event.wrongLength : Event → Bool
  | .write _ len => len ≠ 8
  | _ => false

/-- While data is pending, a packet of a wrong length arrives, or the menu locks or
unlocks the protocol. -/
def Event.disturbs (L : Layout) (d : Device) (e : Event) : Prop :=
  d.ucp.pending = true ∧ (e.wrongLength = true ∨ e.switchesUcp L d)

instance (L : Layout) (d : Device) (e : Event) : Decidable (e.disturbs L d) :=
  inferInstanceAs (Decidable (_ ∧ (_ ∨ _)))

def Device.pendingPackets (d : Device) : List (Bytes 8) :=
  if d.ucp.pending then [d.ucp.customReport] else []

structure BufferInv (d : Device) : Prop where
  pending : PendingInv d.ucp
  order : (sinceOpen Call.copied d.calls ++ d.pendingPackets).Sublist
    (sinceOpen Call.accepted d.calls)
  state : ∀ st p, Call.copy st p ∈ d.calls → st = .writting

theorem BufferInv.copiesAccepted {d : Device} (hd : BufferInv d) : CopiesAccepted d :=
  ⟨(List.sublist_append_left _ _).trans hd.order, hd.state⟩

theorem copiesAccepted_quiet {d d' : Device} (hd : CopiesAccepted d) (hc : NoTransfer d d') :
    CopiesAccepted d' := by
  refine ⟨?_, fun st p hp => ?_⟩
  · rw [copied_same hc, accepted_same hc]
    exact hd.1
  · obtain ⟨m, hm, hn⟩ := hc
    rw [hm] at hp
    rcases List.mem_append.mp hp with hp | hp
    · exact hd.2 st p hp
    · exact absurd (hn _ hp) (by simp [Call.isTransfer])

/-- A step after which nothing is pending. -/
theorem bufferInv_none {d : Device} (hd : CopiesAccepted d) (hp : ¬d.ucp.pending = true) :
    BufferInv d := by
  refine ⟨pendingInv_none hp, ?_, hd.2⟩
  rw [show d.pendingPackets = [] from if_neg hp, List.append_nil]
  exact hd.1

/-- A step that leaves the pending packet where it was. -/
theorem bufferInv_quiet {d d' : Device} (hd : BufferInv d) (hc : NoTransfer d d')
    (hp : d'.ucp.pending = d.ucp.pending) (hi : PendingInv d'.ucp)
    (hr : d.ucp.pending = true → d'.ucp.customReport = d.ucp.customReport) : BufferInv d' := by
  have hpend : d'.pendingPackets = d.pendingPackets := by
    unfold Device.pendingPackets
    rw [hp]
    split_ifs with h
    · rw [hr h]
    · rfl
  refine ⟨hi, ?_, (copiesAccepted_quiet hd.copiesAccepted hc).2⟩
  rw [hpend, copied_same hc, accepted_same hc]
  exact hd.order

theorem NoTransfer.call {d d' : Device} {c : Call} (h : NoTransfer d d')
    (hc : c.isTransfer = false) : NoTransfer d (d'.call c) :=
  h.trans ⟨[c], rfl, by simpa using hc⟩

/-- An accepted packet joins those accepted before, and is the one pending. -/
theorem bufferInv_accept {d : Device} {u : Ucp} {data : Bytes 8} (hd : CopiesAccepted d)
    (hp : u.pending = true) (hr : u.customReport = data) (hi : PendingInv u) :
    BufferInv ((d.setUcp u).call (.accept data)) := by
  refine ⟨hi, ?_, fun st p hm => ?_⟩
  · rw [show ((d.setUcp u).call (.accept data)).pendingPackets = [data] by
      simp [Device.pendingPackets, hp, hr], call_calls, setUcp_calls, sinceOpen_snoc, sinceOpen_snoc]
    simpa [Call.copied, Call.accepted] using hd.1
  · rcases List.mem_append.mp hm with hm | hm
    · exact hd.2 st p hm
    · simp at hm

theorem bufferInv_decode {L : Layout} {data : Bytes 8} {len : UInt8} {d d' : Device}
    (h : DecodeStep L data len d d') (hd : BufferInv d)
    (hg : d.ucp.pending = true → len = 8) : BufferInv d' := by
  have hn (hs : d.ucp.ucpState ≠ .writting) (hc : NoTransfer d d')
      (hw : d'.ucp.usbWrite = d.ucp.usbWrite) (ha : d'.ucp.usbWriteAccepted = d.ucp.usbWriteAccepted) :
      BufferInv d' := by
    obtain ⟨h1, h2⟩ := hd.pending.none hs
    refine bufferInv_none (copiesAccepted_quiet hd.copiesAccepted hc) (Ucp.not_pending.mpr ?_)
    rw [hw, ha]
    exact ⟨h1, h2⟩
  cases h with
  | size h =>
    have hp : ¬d.ucp.pending = true := fun hp => h (hg hp)
    exact bufferInv_none (copiesAccepted_quiet hd.copiesAccepted (.same rfl)) hp
  | accept h h0 hw ho =>
    exact bufferInv_accept hd.copiesAccepted (by simp [Ucp.pending]) rfl
      ⟨fun _ => h0, by simp [Ucp.received, hw]⟩
  | reject h h0 hw =>
    refine bufferInv_none (copiesAccepted_quiet hd.copiesAccepted (.same rfl)) ?_
    simp [Ucp.pending]
  | openWrite h h0 hc =>
    refine bufferInv_none ⟨?_, fun st p hp => ?_⟩ ?_
    · rw [call_calls, setUcp_calls, sinceOpen_snoc, sinceOpen_snoc]
      simp
    · rcases List.mem_append.mp hp with hp | hp
      · exact hd.state st p hp
      · simp at hp
    · exact Ucp.not_pending.mpr (hd.pending.none (by simp [h0]))
  | locked h h0 => exact hn (by simp [h0]) (.same rfl) rfl rfl
  | half h h0 => exact hn (by simp [h0]) ⟨[_], rfl, by simp [Call.isTransfer]⟩ rfl rfl
  | pinDone h h0 =>
    exact hn (by simp [h0]) ⟨[.eepromUpdate d.ucp.readOffset data, .uifInit],
      List.append_assoc .., by simp [Call.isTransfer]⟩ rfl rfl
  | eepromDone h h0 => exact hn (by simp [h0]) ⟨[_], rfl, by simp [Call.isTransfer]⟩ rfl rfl
  | eepromRefused h h0 => exact hn (by simp [h0]) (.same rfl) rfl rfl
  | setPin h h0 => exact hn h0.2.1 ⟨[_], rfl, by simp [Call.isTransfer]⟩ rfl rfl
  | keyboard h h0 => exact hn h0.2.1 ⟨[_], rfl, by simp [Call.isTransfer]⟩ rfl rfl
  | command s r o e t h h0 => exact hn h0.2.1 (.same rfl) rfl rfl

theorem bufferInv_task {L : Layout} {d : Device} (hd : BufferInv d) : BufferInv (ucpTask L d) := by
  have h := task_cases L d
  generalize ucpTask L d = d' at h
  have hi := pendingInv_task h hd.pending
  cases h with
  | same => exact hd
  | promote h0 ha =>
    have hp : d.ucp.pending = true := by simp [Ucp.pending, ha]
    exact bufferInv_quiet hd (.same rfl) (by rw [hp]; simp [Ucp.pending]) hi fun _ => rfl
  | read s r o h0 hs =>
    refine bufferInv_none (copiesAccepted_quiet hd.copiesAccepted (.same rfl)) ?_
    refine Ucp.not_pending.mpr (hd.pending.none ?_)
    rcases h0 with h0 | h0 <;> simp [h0]

/-- The copy is that of the pending packet. -/
theorem copiesAccepted_write {L : Layout} {d : Device} (hd : BufferInv d) :
    CopiesAccepted (ucpWriteTask L d).state := by
  cases hw : d.ucp.usbWrite with
  | false =>
    rw [writeTask_none L d hw]
    exact hd.copiesAccepted
  | true =>
    have hcalls := writeTask_calls L hw
    have hp : d.ucp.pending = true := by simp [Ucp.pending, hw]
    have ho := hd.order
    rw [show d.pendingPackets = [d.ucp.customReport] from if_pos hp] at ho
    refine ⟨?_, fun st p hm => ?_⟩
    · rw [hcalls, sinceOpen_snoc, sinceOpen_snoc]
      simpa [Call.copied, Call.accepted] using ho
    · rw [hcalls] at hm
      rcases List.mem_append.mp hm with hm | hm
      · exact hd.state st p hm
      · have hst : st = d.ucp.ucpState := by simp_all
        rw [hst, hd.pending.writting hp]

theorem bufferInv_step {L : Layout} {d d' : Device} {e : Event} (hd : BufferInv d)
    (hg : ¬e.disturbs L d) (hs : step L d e = .ret d') : BufferInv d' := by
  have hi := pendingInv_step hd.pending (fun hp hsw => hg ⟨hp, .inr hsw⟩) hs
  cases step_ret_cases hs with
  | still h => exact bufferInv_quiet hd (.of_calm h.calm) (by rw [h.ucp]) hi fun _ => by rw [h.ucp]
  | poll rq =>
    have h := bufferInv_task (L := L) hd
    exact bufferInv_quiet h ((NoTransfer.same rfl).call rfl) rfl hi fun _ => rfl
  | decode data len =>
    refine bufferInv_decode (decode_cases L data len d) hd fun hp => ?_
    exact not_not.mp fun hlen => hg ⟨hp, .inl (by simpa [Event.wrongLength] using hlen)⟩
  | write =>
    have hc := copiesAccepted_write (L := L) hd
    rw [show ucpWriteTask L d = _ from hs] at hc
    cases hw : d.ucp.usbWrite with
    | false =>
      rw [writeTask_none L d hw]
      exact hd
    | true =>
      obtain ⟨hw', ha⟩ := writeTask_flags hw hs
      have hone : d.ucp.usbWriteAccepted = false := by
        simpa using fun ha => hd.pending.one ⟨hw, ha⟩
      exact bufferInv_none hc (Ucp.not_pending.mpr ⟨hw', ha.trans hone⟩)
  | button b he d1 h hb =>
    have hc := (NoTransfer.of_calm h.calm).trans (.button hb)
    rcases button_ucp hb with hu | ⟨hsw, s, -, hu⟩
    · exact bufferInv_quiet hd hc (by rw [hu, h.ucp]) hi fun _ => by rw [hu, h.ucp]
    · have hp : ¬d.ucp.pending = true := fun hp => hg ⟨hp, .inr ⟨b, he, (h.switches b).mp hsw⟩⟩
      refine bufferInv_none (copiesAccepted_quiet hd.copiesAccepted hc) ?_
      rw [hu, h.ucp]
      exact hp
  | calibrate meas hf hk hc hu => exact bufferInv_quiet hd (.same hc) (by rw [hu]) hi fun _ => by rw [hu]

theorem bufferInv_powerOn {L : Layout} {flash eeprom ram : Mem} {d : Device}
    (h : powerOn L flash eeprom ram = .ret d) : BufferInv d := by
  obtain ⟨c, v, rfl⟩ := powerOn_ret h
  refine bufferInv_none ⟨?_, fun st p hp => ?_⟩ (by simp [Ucp.pending])
  · simp [sinceOpen, uifInit, printStr, Device.call, Call.copied]
  · simp [uifInit, printStr, Device.call] at hp

/-- In a run from power-on in which nothing disturbs pending data, `UCP_WriteTask` copies
only accepted packets, in order, and only in state `WRITTING`. -/
theorem copiesAccepted_run (L : Layout) (flash eeprom ram : Mem) (evs : List Event)
    (hg : EachStep (step L) (fun d e => ¬e.disturbs L d) (powerOn L flash eeprom ram) evs) :
    Always (step L) CopiesAccepted (powerOn L flash eeprom ram) evs := by
  refine always_of_inv (I := BufferInv) (fun d hd => hd.copiesAccepted) (fun d e hd hg => ?_)
    (fun d h => bufferInv_powerOn h) hg
  have hr (d' : Device) (hs : step L d e = .ret d') := bufferInv_step hd hg hs
  refine ⟨?_, hr⟩
  cases hs : step L d e with
  | ret d' => exact (hr d' hs).copiesAccepted
  | spin d' =>
    have hc := step_cases L d e
    rw [hs, Outcome.state_spin] at hc
    cases hc with
    | still h => exact copiesAccepted_quiet hd.copiesAccepted (.of_calm h.calm)
    | button b he d1 h hb =>
      exact copiesAccepted_quiet hd.copiesAccepted ((NoTransfer.of_calm h.calm).trans (.button hb))
    | calibrate meas hf hk hc hu => exact copiesAccepted_quiet hd.copiesAccepted (.same hc)
    | write => exact copiesAccepted_write hd
    | poll rq => exact absurd hs nofun
    | decode data len => exact absurd hs nofun

def sampleWrite : List Event :=
  [.write ![3, 0, 0, 8, 0, 0, 0, 0] 8, .write ![1, 2, 3, 4, 5, 6, 7, 8] 8, .getReport 2, .writeTask]

theorem copiesAccepted_sampleWrite :
    Always (step sampleLayout) CopiesAccepted sampleBoot (enterFactoryPin ++ sampleWrite) :=
  copiesAccepted_run sampleLayout (fun _ => 0) (factoryEeprom sampleLayout) (fun _ => 0)
    (enterFactoryPin ++ sampleWrite) (by decide +kernel)

/-- A packet of one byte between the data and the deferred write is stored in its place. -/
theorem not_copiesAccepted_wrongLength : ¬∀ L flash eeprom ram evs,
    Always (step L) CopiesAccepted (powerOn L flash eeprom ram) evs := by
  intro h
  have hd := always_state (by decide +kernel) (h sampleLayout (fun _ => 0)
    (factoryEeprom sampleLayout) (fun _ => 0) (enterFactoryPin ++
      [.write ![3, 0, 0, 8, 0, 0, 0, 0] 8, .write ![1, 2, 3, 4, 5, 6, 7, 8] 8, .write 0 1,
        .getReport 2, .writeTask]))
  exact absurd hd.1 (by decide +kernel)

end Memtype
