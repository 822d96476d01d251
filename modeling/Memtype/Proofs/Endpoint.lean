import Memtype.Proofs.Control

/-! The keyboard's endpoint. A report is made only when the one before has been sent, so that the
host gets every report once, in the order in which `printUpdate` makes them, and with PIDs that tell
a new report from a repeated one. -/

namespace Memtype

open Lib

def reported (L : Layout) (d : Device) : Event → List (List UInt8)
  | .printUpdate => [reportBuffer (printUpdate L d)]
  | _ => []

/-- A SETUP that starts the endpoint's PIDs anew: SET_INTERFACE. -/
def Rx.Resets (r : Rx) : Prop :=
  r.token = usbpidSetup ∧ r.len = 8 ∧ r.data 0 &&& usbrqTypeMask = 0 ∧ r.data 1 = 11

instance (r : Rx) : Decidable r.Resets := inferInstanceAs (Decidable (_ ∧ _ ∧ _ ∧ _))

def Answer.reportPacket : Answer → Option (List UInt8)
  | .interrupt p => some p
  | _ => none

namespace Usbdrv

/-- The PIDs of a list of packets that starts with DATA0. -/
def Alternate (ps : List (List UInt8)) : Prop :=
  ps.map List.head? = (List.range ps.length).map fun i => some (toggle^[i] usbpidData0)

/-- A host that takes a packet only if its PID is not that of the one before. -/
def receive : UInt8 → List (List UInt8) → List (List UInt8)
  | _, [] => []
  | pid, p :: ps =>
    if p.head? = some pid then payload p :: receive (toggle pid) ps else receive pid ps

theorem receive_alternating (pid : UInt8) (ps : List (List UInt8))
    (h : ps.map List.head? = (List.range ps.length).map fun i => some (toggle^[i] pid)) :
    receive pid ps = ps.map payload := by
  induction ps generalizing pid with
  | nil => rfl
  | cons p ps ih =>
    rw [List.map_cons, List.length_cons, List.range_succ_eq_map, List.map_cons, List.map_map,
      List.cons.injEq] at h
    have hp : p.head? = some pid := h.1
    rw [receive, if_pos hp, List.map_cons, ih (toggle pid) h.2]

theorem alternate_snoc {ps : List (List UInt8)} (h : Alternate ps) {p : List UInt8}
    (hp : p.head? = some (toggle^[ps.length] usbpidData0)) : Alternate (ps ++ [p]) := by
  unfold Alternate
  rw [List.map_append, h, List.map_singleton, hp, List.length_append, List.length_singleton,
    List.range_succ, List.map_append, List.map_singleton]

theorem alternate_prefix {ps ps' : List (List UInt8)} (h : Alternate (ps ++ ps')) : Alternate ps := by
  unfold Alternate at h ⊢
  have h' := congrArg (List.take ps.length) h
  rw [← List.map_take, ← List.map_take, List.take_left, List.take_range, List.length_append,
    Nat.min_eq_left (Nat.le_add_right _ _)] at h'
  exact h'

def reportBuffered (u : Usbdrv) : List (List UInt8) :=
  if isHandshake u.usbTxStatus1.len then []
  else [(List.ofFn u.usbTxStatus1.buffer).take (u.usbTxStatus1.len.toNat - 1)]

/-- A new report in an empty buffer. -/
theorem reportBuffered_set {u : Usbdrv} (hready : isHandshake u.usbTxStatus1.len = true)
    {l : List UInt8} (hl : l.length ≤ 8) :
    (u.usbSetInterrupt l).reportBuffered = [framed (toggle (u.usbTxStatus1.buffer 0)) l] ∧
      (u.usbSetInterrupt l).usbTxStatus1.buffer 0 = toggle (u.usbTxStatus1.buffer 0) := by
  obtain ⟨hdata, hnat⟩ := Firmware.isHandshake_length hl
  unfold usbSetInterrupt reportBuffered
  dsimp only
  rw [if_pos hready]
  constructor
  · rw [hdata, if_neg nofun, hnat, Nat.add_sub_assoc (by decide), take_append _ hl]
    rfl
  · rw [append_apply _ (Nat.succ_pos _)]
    rfl

/-- `usbResetDataToggling` changes no more than the PID of the packet in the buffer. -/
theorem reportBuffered_reset (u : Usbdrv) :
    u.usbResetDataToggling.reportBuffered.map List.tail = u.reportBuffered.map List.tail ∧
      u.usbResetDataToggling.reportBuffered.map List.length = u.reportBuffered.map List.length := by
  have htail : (List.ofFn (Function.update u.usbTxStatus1.buffer 0 usbpidData1)).tail =
      (List.ofFn u.usbTxStatus1.buffer).tail := by
    rw [List.ofFn_succ, List.ofFn_succ]
    rfl
  unfold reportBuffered usbResetDataToggling
  dsimp only
  split_ifs
  · exact ⟨rfl, rfl⟩
  · refine ⟨?_, by simp⟩
    rw [List.map_singleton, List.map_singleton, List.tail_take_eq_take_tail,
      List.tail_take_eq_take_tail, htail]

end Usbdrv

namespace Firmware

variable {L : Layout}

def reportsSent (s : Firmware) (e : Event) : List (List UInt8) :=
  (s.answers e).filterMap Answer.reportPacket

def reportsMade (L : Layout) (s : Firmware) (e : Event) : List (List UInt8) :=
  collect (Memtype.step L) (reported L) (.ret s.dev) (s.events e)

/-- The reports sent so far and the one in the buffer are those made, and each is whole. -/
structure ReportInv (s : Firmware) (sent made : List (List UInt8)) : Prop where
  made : (sent ++ s.drv.reportBuffered).map Usbdrv.payload = made
  crc : ∀ p ∈ sent ++ s.drv.reportBuffered, UsbAsm.Accepted (UsbAsm.wire p.tail)

structure PidInv (s : Firmware) (sent : List (List UInt8)) : Prop where
  pids : Usbdrv.Alternate (sent ++ s.drv.reportBuffered)
  next : Usbdrv.toggle (s.drv.usbTxStatus1.buffer 0) =
    Usbdrv.toggle^[(sent ++ s.drv.reportBuffered).length] usbpidData0

theorem usbDriverSetup_status (data : Bytes 8) (u : Usbdrv) :
    (u.usbDriverSetup data).1.usbTxStatus1 =
      if data 1 = 11 then u.usbResetDataToggling.usbTxStatus1 else u.usbTxStatus1 := by
  unfold Usbdrv.usbDriverSetup Usbdrv.point
  dsimp only
  split_ifs <;> simp_all [Usbdrv.usbResetDataToggling]

theorem processSetup_status (data : Bytes 8) (s : Firmware) :
    (s.processSetup L data).drv.usbTxStatus1 =
      if data 0 &&& usbrqTypeMask = 0 ∧ data 1 = 11 then s.drv.usbResetDataToggling.usbTxStatus1
      else s.drv.usbTxStatus1 := by
  unfold processSetup
  by_cases htype : data 0 &&& usbrqTypeMask = 0
  · rw [if_neg (not_not.mpr htype)]
    refine (usbDriverSetup_status data s.drv.newSetup).trans ?_
    by_cases h11 : data 1 = 11
    · rw [if_pos h11, if_pos ⟨htype, h11⟩]
      rfl
    · rw [if_neg h11, if_neg fun h => h11 h.2]
      rfl
  · rw [if_pos htype, if_neg fun h => htype h.1]
    dsimp only
    cases (usbFunctionSetup L (usbRequest data) s.dev).2 <;> rfl

theorem usbProcessRx_status (s : Firmware) : (s.usbProcessRx L).drv.usbTxStatus1 =
    if s.drv.rx.Resets then s.drv.usbResetDataToggling.usbTxStatus1 else s.drv.usbTxStatus1 := by
  have hiff : s.drv.rx.Resets ↔ s.drv.usbRxToken = usbpidSetup ∧ s.drv.usbRxLen - 3 = 8 ∧
      s.drv.rxData 0 &&& usbrqTypeMask = 0 ∧ s.drv.rxData 1 = 11 := Iff.rfl
  unfold usbProcessRx
  dsimp only
  split_ifs with htok hlen hres hres hres
  · exact absurd (hiff.mp hres).2.1 hlen
  · rfl
  · exact (processSetup_status _ s).trans (if_pos (hiff.mp hres).2.2)
  · exact (processSetup_status _ s).trans (if_neg fun h => hres (hiff.mpr ⟨htok, not_not.mp hlen, h⟩))
  · exact absurd (hiff.mp hres).1 htok
  · unfold processOut
    split_ifs <;> rfl

theorem reportBuffered_congr {u u' : Usbdrv} (h : u'.usbTxStatus1 = u.usbTxStatus1) :
    u'.reportBuffered = u.reportBuffered := by
  unfold Usbdrv.reportBuffered
  rw [h]

theorem map_payload_congr {ps ps' : List (List UInt8)} (ht : ps'.map List.tail = ps.map List.tail)
    (hl : ps'.map List.length = ps.map List.length) :
    ps'.map Usbdrv.payload = ps.map Usbdrv.payload := by
  have h (ps : List (List UInt8)) : ps.map Usbdrv.payload =
      List.zipWith (fun t n => t.take (n - 3)) (ps.map List.tail) (ps.map List.length) := by
    rw [List.zipWith_map, List.zipWith_self]
    rfl
  rw [h, h, ht, hl]

theorem forall_tail {P : List UInt8 → Prop} {ps : List (List UInt8)} :
    (∀ p ∈ ps, P p.tail) ↔ ∀ t ∈ ps.map List.tail, P t := by
  rw [List.forall_mem_map]

theorem ReportInv.congr {s s' : Firmware} {sent made : List (List UInt8)} (h : ReportInv s sent made)
    (ht : s'.drv.reportBuffered.map List.tail = s.drv.reportBuffered.map List.tail)
    (hl : s'.drv.reportBuffered.map List.length = s.drv.reportBuffered.map List.length) :
    ReportInv s' sent made := by
  refine ⟨?_, ?_⟩
  · rw [List.map_append, map_payload_congr ht hl, ← List.map_append]
    exact h.made
  · have hcrc := forall_tail (P := fun t => UsbAsm.Accepted (UsbAsm.wire t)).mp h.crc
    refine forall_tail (P := fun t => UsbAsm.Accepted (UsbAsm.wire t)).mpr ?_
    rw [List.map_append, ht, ← List.map_append]
    exact hcrc

theorem ReportInv.same {s s' : Firmware} {sent made : List (List UInt8)} (h : ReportInv s sent made)
    (hst : s'.drv.usbTxStatus1 = s.drv.usbTxStatus1) : ReportInv s' sent made :=
  h.congr (by rw [reportBuffered_congr hst]) (by rw [reportBuffered_congr hst])

theorem PidInv.same {s s' : Firmware} {sent : List (List UInt8)} (h : PidInv s sent)
    (hst : s'.drv.usbTxStatus1 = s.drv.usbTxStatus1) : PidInv s' sent := by
  constructor
  · rw [reportBuffered_congr hst]
    exact h.pids
  · rw [reportBuffered_congr hst, hst]
    exact h.next

/-- An IN that is answered from the endpoint's buffer moves the packet from there to the host; no
other packet has a part in it. -/
theorem report_packet (s : Firmware) (pid : UInt8) (rest : List UInt8) :
    s.reportsSent (.packet pid rest) ++ (s.drv.interrupt pid rest).1.reportBuffered =
        s.drv.reportBuffered ∧
      (s.drv.interrupt pid rest).1.usbTxStatus1.buffer = s.drv.usbTxStatus1.buffer := by
  have hint := s.drv.interrupts pid rest
  unfold reportsSent
  dsimp only [answers]
  generalize s.drv.interrupt pid rest = x at hint
  cases hint with
  | quiet tok ans _ hans _ =>
    have hnone : ans.filterMap Answer.reportPacket = [] := by
      refine List.filterMap_eq_nil_iff.mpr fun a ha => ?_
      obtain ⟨h, rfl⟩ := hans a ha
      rfl
    exact ⟨by rw [hnone]; rfl, rfl⟩
  | stored _ _ _ _ _ => exact ⟨rfl, rfl⟩
  | control _ _ _ => exact ⟨rfl, rfl⟩
  | report _ _ hlen =>
    refine ⟨?_, rfl⟩
    have hold : s.drv.reportBuffered = [_] := if_neg (Bool.eq_false_iff.mp hlen)
    have hnew : Usbdrv.reportBuffered (Usbdrv.usbSendAndReti { s.drv.take pid rest with
        usbTxStatus1 := { s.drv.usbTxStatus1 with len := usbpidNak } }) = [] :=
      if_pos (by decide : isHandshake usbpidNak = true)
    rw [hold, hnew]
    rfl

theorem reportsMade_other {s : Firmware} {i : Inputs}
    (h : s.pc ≠ .ready ∨ isHandshake s.drv.usbTxStatus1.len = false) :
    s.reportsMade L (.loop i) = [] := by
  unfold reportsMade events
  dsimp only
  cases hpc : s.pc with
  | rx =>
    dsimp only
    unfold Rx.events
    split_ifs <;> rfl
  | reset =>
    dsimp only
    split_ifs
    · exact collect_singleton _ _ _
    · rfl
  | ready =>
    dsimp only
    rw [if_neg (Bool.eq_false_iff.mp (h.resolve_left (not_not.mpr hpc)))]
    rfl
  | sch => exact collect_singleton _ _ _
  | release => rfl
  | transmit => rfl

theorem reportsMade_ready {s : Firmware} {i : Inputs} {d : Device} (hpc : s.pc = .ready)
    (hready : isHandshake s.drv.usbTxStatus1.len = true)
    (hd : run (Memtype.step L) (.ret s.dev) [.writeTask, .ledTask, .printUpdate] = .ret d) :
    s.reportsMade L (.loop i) = [reportBuffer d] := by
  unfold reportsMade events
  rw [hpc]
  dsimp only
  rw [if_pos hready]
  cases hw : ucpWriteTask L s.dev with
  | spin t => simp [Memtype.step, hw] at hd
  | ret t =>
    simp only [Memtype.step, hw, run_cons, run_nil, Outcome.bind_ret, Outcome.ret.injEq] at hd
    rw [← hd]
    simp [reported, Memtype.step, hw, collect]

theorem length_reportBuffer (d : Device) : (reportBuffer d).length ≤ 8 := (by decide : 3 ≤ 8)

theorem reportInv_step {s s' : Firmware} {e : Event} {sent made : List (List UInt8)}
    (h : ReportInv s sent made) (hs : step L s e = .ret s') :
    ReportInv s' (sent ++ s.reportsSent e) (made ++ s.reportsMade L e) := by
  have hother {i : Inputs} (hpc : s.pc ≠ .ready ∨ isHandshake s.drv.usbTxStatus1.len = false)
      (hinv : ReportInv s' sent made) :
      ReportInv s' (sent ++ s.reportsSent (.loop i)) (made ++ s.reportsMade L (.loop i)) := by
    rw [reportsMade_other hpc, List.append_nil]
    exact (List.append_nil sent).symm ▸ hinv
  cases e with
  | packet pid rest =>
    cases Outcome.ret.inj hs
    obtain ⟨hmove, -⟩ := report_packet s pid rest
    have hnone : s.reportsMade L (.packet pid rest) = [] := rfl
    rw [hnone, List.append_nil]
    constructor
    · rw [List.append_assoc, hmove]
      exact h.made
    · rw [List.append_assoc, hmove]
      exact h.crc
  | background ram =>
    cases Outcome.ret.inj hs
    have hnone : s.reportsMade L (.background ram) = [] := rfl
    rw [hnone, List.append_nil]
    exact (List.append_nil sent).symm ▸ h.same rfl
  | loop i =>
    cases loops hs with
    | poll hpc _ => exact hother (.inl (by rw [hpc]; decide)) (h.same rfl)
    | process hpc _ =>
      refine hother (.inl (by rw [hpc]; decide)) ?_
      have hst := usbProcessRx_status (L := L) s
      by_cases hr : s.drv.rx.Resets
      · rw [if_pos hr] at hst
        obtain ⟨ht, hl⟩ := Usbdrv.reportBuffered_reset s.drv
        have hbuf := reportBuffered_congr hst
        exact h.congr ((congrArg _ hbuf).trans ht) ((congrArg _ hbuf).trans hl)
      · exact h.same (hst.trans (if_neg hr))
    | release hpc => exact hother (.inl (by rw [hpc]; decide)) (h.same rfl)
    | build hpc _ _ => exact hother (.inl (by rw [hpc]; decide)) (h.same rfl)
    | skip hpc _ => exact hother (.inl (by rw [hpc]; decide)) (h.same rfl)
    | lines hpc _ _ _ _ => exact hother (.inl (by rw [hpc]; decide)) (h.same rfl)
    | task hpc _ => exact hother (.inl (by rw [hpc]; decide)) (h.same rfl)
    | report hpc hready d hd =>
      have hsent : sent ++ s.reportsSent (.loop i) = sent := List.append_nil sent
      obtain ⟨hbuf, -⟩ := Usbdrv.reportBuffered_set hready (length_reportBuffer d)
      have hold : s.drv.reportBuffered = [] := if_pos hready
      have hmade := h.made
      have hcrc := h.crc
      rw [hold, List.append_nil] at hmade hcrc
      rw [hsent, reportsMade_ready hpc hready hd]
      constructor
      · dsimp only
        rw [hbuf, List.map_append, hmade, List.map_singleton, Usbdrv.payload_framed]
      · dsimp only
        rw [hbuf, List.forall_mem_append, List.forall_mem_singleton]
        exact ⟨hcrc, Usbdrv.accepted_framed _ _⟩
    | busy hpc hbusy => exact hother (.inr hbusy) (h.same rfl)

theorem pidInv_step {s s' : Firmware} {e : Event} {sent : List (List UInt8)} (h : PidInv s sent)
    (hres : ∀ r ∈ s.waiting, ¬r.Resets) (hs : step L s e = .ret s') :
    PidInv s' (sent ++ s.reportsSent e) := by
  cases e with
  | packet pid rest =>
    cases Outcome.ret.inj hs
    obtain ⟨hmove, hbuf⟩ := report_packet s pid rest
    constructor
    · rw [List.append_assoc, hmove]
      exact h.pids
    · rw [List.append_assoc, hmove, hbuf]
      exact h.next
  | background ram =>
    cases Outcome.ret.inj hs
    exact (List.append_nil sent).symm ▸ h.same rfl
  | loop i =>
    have hsent : sent ++ s.reportsSent (.loop i) = sent := List.append_nil sent
    rw [hsent]
    cases loops hs with
    | process hpc hlen =>
      refine h.same ((usbProcessRx_status s).trans (if_neg (hres _ ?_)))
      unfold waiting
      rw [if_neg (not_or.mpr ⟨fun h0 => hlen (by rw [h0]; decide), by rw [hpc]; decide⟩)]
      exact List.mem_singleton_self _
    | report hpc hready d hd =>
      obtain ⟨hbuf, hpid⟩ := Usbdrv.reportBuffered_set hready (length_reportBuffer d)
      have hold : s.drv.reportBuffered = [] := if_pos hready
      have hpids := h.pids
      have hnext := h.next
      rw [hold, List.append_nil] at hpids hnext
      constructor
      · dsimp only
        rw [hbuf]
        exact Usbdrv.alternate_snoc hpids (congrArg some hnext)
      · dsimp only
        rw [hbuf, hpid, hnext, List.length_append, List.length_singleton, Function.iterate_succ_apply']
    | poll _ _ => exact h.same rfl
    | release _ => exact h.same rfl
    | build _ _ _ => exact h.same rfl
    | skip _ _ => exact h.same rfl
    | lines _ _ _ _ _ => exact h.same rfl
    | task _ _ => exact h.same rfl
    | busy _ _ => exact h.same rfl

theorem pidInv_powerOn {flash eeprom ram : Mem} {s : Firmware}
    (h : powerOn L flash eeprom ram = .ret s) : PidInv s [] := by
  obtain ⟨-, hdrv, -⟩ := powerOn_ret h
  have hnone : s.drv.reportBuffered = [] := by
    rw [hdrv]
    exact if_pos (by decide : isHandshake usbpidNak = true)
  constructor
  · rw [hnone]
    rfl
  · rw [hnone, hdrv]
    rfl

/-- While no SETUP starts them anew the PIDs of the reports alternate, from DATA0 on. -/
theorem pids_run {flash eeprom ram : Mem} {evs : List Event} {s : Firmware}
    (h : run (step L) (powerOn L flash eeprom ram) evs = .ret s)
    (hres : ∀ r ∈ collect (step L) accepted (powerOn L flash eeprom ram) evs, ¬r.Resets) :
    Usbdrv.Alternate (collect (step L) reportsSent (powerOn L flash eeprom ram) evs) := by
  have hinv : PidInv s ([] ++ collect (step L) reportsSent (powerOn L flash eeprom ram) evs) :=
    inv_logs (I := fun s sent _ => PidInv s sent) (G := fun _ _ => ([] : List Unit))
      (fun s e s' sent _ h hgood hs => pidInv_step h hgood hs) (k := []) (fun s hs => pidInv_powerOn hs)
      (waiting_each (fun s hs => rxInv_powerOn hs) hres) h
  exact Usbdrv.alternate_prefix hinv.pids

theorem reportInv_powerOn {flash eeprom ram : Mem} {s : Firmware}
    (h : powerOn L flash eeprom ram = .ret s) : ReportInv s [] [] := by
  obtain ⟨-, hdrv, -⟩ := powerOn_ret h
  have hnone : s.drv.reportBuffered = [] := by
    rw [hdrv]
    exact if_pos (by decide : isHandshake usbpidNak = true)
  exact ⟨by rw [hnone]; rfl, by rw [hnone]; exact nofun⟩

/-- What the host gets from the keyboard's endpoint, with the report that is still in its buffer, is
what `printUpdate` makes in the run of the device; a host that drops repeated packets loses nothing
by it. -/
theorem reports_delivered {flash eeprom ram : Mem} {evs : List Event} {s : Firmware}
    (h : run (step L) (powerOn L flash eeprom ram) evs = .ret s) :
    let sent := collect (step L) reportsSent (powerOn L flash eeprom ram) evs
    let made := collect (Memtype.step L) (reported L) (Memtype.powerOn L flash eeprom ram)
      (collect (step L) events (powerOn L flash eeprom ram) evs)
    sent.map Usbdrv.payload ++ s.drv.reportBuffered.map Usbdrv.payload = made ∧
      (∀ p ∈ sent, UsbAsm.Accepted (UsbAsm.wire p.tail)) ∧
      ((∀ r ∈ collect (step L) accepted (powerOn L flash eeprom ram) evs, ¬r.Resets) →
        Usbdrv.receive usbpidData0 sent = sent.map Usbdrv.payload) := by
  intro sent made
  have hinv : ReportInv s ([] ++ sent)
      ([] ++ collect (step L) (reportsMade L) (powerOn L flash eeprom ram) evs) :=
    inv_logs (fun _ _ _ _ _ h _ hs => reportInv_step h hs) (fun s hs => reportInv_powerOn hs)
      (eachStep_true _ evs) h
  have hmade : made = collect (step L) (reportsMade L) (powerOn L flash eeprom ram) evs := by
    have hmap : Memtype.powerOn L flash eeprom ram = (powerOn L flash eeprom ram).map dev :=
      (dev_powerOn flash eeprom ram).symm
    change collect (Memtype.step L) (reported L) (Memtype.powerOn L flash eeprom ram) _ = _
    rw [hmap, collect_project dev_step]
    rfl
  refine ⟨?_, fun p hp => hinv.crc p (List.mem_append_left _ hp), fun hres => ?_⟩
  · rw [← List.map_append, hmade]
    exact hinv.made
  · exact Usbdrv.receive_alternating usbpidData0 sent (pids_run h hres)

def polls : List Event :=
  Event.passes 12 ++ [.packet usbpidIn [0x80, 0]] ++ Event.passes 12 ++ [.packet usbpidIn [0x80, 0]]

theorem reports_delivered_polls :
    let sent := collect (step sampleLayout) reportsSent sampleFirmware polls
    let made := collect (Memtype.step sampleLayout) (reported sampleLayout)
      (Memtype.powerOn sampleLayout (fun _ => 0) (factoryEeprom sampleLayout) fun _ => 0)
      (collect (step sampleLayout) events sampleFirmware polls)
    sent.map Usbdrv.payload ++ (run (step sampleLayout) sampleFirmware polls).state.drv.reportBuffered.map
        Usbdrv.payload = made ∧
      (∀ p ∈ sent, UsbAsm.Accepted (UsbAsm.wire p.tail)) ∧
      ((∀ r ∈ collect (step sampleLayout) accepted sampleFirmware polls, ¬r.Resets) →
        Usbdrv.receive usbpidData0 sent = sent.map Usbdrv.payload) :=
  reports_delivered (Outcome.eq_ret_of_returns (by decide +kernel))

end Firmware

end Memtype
