import Memtype.Proofs.BusSteps

/-! The firmware with its driver and its interrupts is the device with its events, and the packets
that it acknowledges are what these events come from: each once, in the order of the bus. -/

namespace Memtype

open Lib

structure Usbdrv.SameRx (u u' : Usbdrv) : Prop where
  data : u'.rxData = u.rxData
  offset : u'.usbInputBufOffset = u.usbInputBufOffset
  len : u'.usbRxLen = u.usbRxLen
  token : u'.usbRxToken = u.usbRxToken

namespace Firmware

variable {L : Layout}

theorem usbFunctionSetup_none {rq : UsbRequest} {d : Device} : (usbFunctionSetup L rq d).2 = none ↔
    rq.bmRequestType &&& usbrqTypeMask = usbrqTypeClass ∧ rq.bRequest = usbrqHidSetReport ∧
      rq.wValue0 = 2 := by
  unfold usbFunctionSetup
  split_ifs <;> simp_all [usbrqHidGetIdle, usbrqHidSetIdle, usbrqHidGetProtocol, usbrqHidSetProtocol,
    usbrqHidGetReport, usbrqHidSetReport]

theorem userRw_eq {u : Usbdrv} {f : UInt8} (h : u.usbMsgFlags = f) :
    u.userRw = decide (f &&& usbFlgUseUserRw ≠ 0) := by
  rw [← h]
  rfl

theorem driverReply_flags (data : Bytes 8) (u : Usbdrv) :
    (u.newSetup.driverReply data).usbMsgFlags = 0 ∨
      (u.newSetup.driverReply data).usbMsgFlags = usbFlgMsgptrIsRom := by
  unfold Usbdrv.driverReply Usbdrv.usbDriverSetup
  dsimp only
  split_ifs
  all_goals first | exact .inl rfl | exact .inr rfl

theorem userRw_driverReply (data : Bytes 8) (u : Usbdrv) :
    (u.newSetup.driverReply data).userRw = false := by
  rcases driverReply_flags data u with h | h
  · exact (userRw_eq h).trans (by decide)
  · exact (userRw_eq h).trans (by decide)

theorem sameRx_driverReply (data : Bytes 8) (u : Usbdrv) :
    u.SameRx (u.newSetup.driverReply data) := by
  unfold Usbdrv.driverReply Usbdrv.usbDriverSetup
  dsimp only
  split_ifs
  all_goals exact ⟨rfl, rfl, rfl, rfl⟩

theorem functionReply_rx (data : Bytes 8) (reply : Option (List UInt8)) (u : Usbdrv) :
    u.SameRx (u.newSetup.functionReply data reply) ∧
      (u.newSetup.functionReply data reply).userRw = reply.isNone := by
  cases reply with
  | some r => exact ⟨⟨rfl, rfl, rfl, rfl⟩, (userRw_eq (f := 0) rfl).trans
      (by decide : decide ((0 : UInt8) &&& usbFlgUseUserRw ≠ 0) = false)⟩
  | none => exact ⟨⟨rfl, rfl, rfl, rfl⟩, (userRw_eq (f := usbFlgUseUserRw) rfl).trans (by decide)⟩

theorem processSetup_rx (data : Bytes 8) (s : Firmware) :
    s.drv.SameRx (s.processSetup L data).drv ∧ (s.processSetup L data).drv.userRw =
      decide (data 0 &&& usbrqTypeMask = usbrqTypeClass ∧ data 1 = usbrqHidSetReport ∧ data 2 = 2) := by
  unfold processSetup
  split_ifs with htype
  · refine ⟨(functionReply_rx _ _ _).1, (functionReply_rx _ _ _).2.trans ?_⟩
    rw [Bool.eq_iff_iff, Option.isNone_iff_eq_none, usbFunctionSetup_none, decide_eq_true_iff]
    rfl
  · refine ⟨sameRx_driverReply _ _, (userRw_driverReply _ _).trans ?_⟩
    rw [not_not.mp htype]
    exact (decide_eq_false fun h => absurd h.1 (by decide)).symm

theorem processOut_rx (data : Bytes 8) (len : UInt8) (s : Firmware) :
    s.drv.SameRx (s.processOut L data len).drv ∧
      (s.processOut L data len).drv.userRw = s.drv.userRw := by
  unfold processOut
  split_ifs
  · exact ⟨⟨rfl, rfl, rfl, rfl⟩, rfl⟩
  · exact ⟨⟨rfl, rfl, rfl, rfl⟩, rfl⟩

theorem usbProcessRx_rx (s : Firmware) : s.drv.SameRx (s.usbProcessRx L).drv ∧
    (s.usbProcessRx L).drv.userRw = s.drv.rx.mode s.drv.userRw := by
  unfold usbProcessRx Rx.mode Usbdrv.rx
  dsimp only
  split_ifs with h1 h2 h3 h3 h3
  · exact absurd h3.2 h2
  · exact ⟨⟨rfl, rfl, rfl, rfl⟩, rfl⟩
  · exact processSetup_rx _ s
  · exact absurd ⟨h1, not_not.mp h2⟩ h3
  · exact absurd h3.1 h1
  · exact processOut_rx _ _ s

/-- The packets that the host has seen acknowledged, as they are then in the buffer. -/
def accepted (s : Firmware) : Event → List Rx
  | .packet pid rest =>
    if Usbdrv.Acked pid rest (s.drv.interrupt pid rest).2 then
      [⟨s.drv.usbCurrentTok, fun i => rest.getD i (s.drv.received (1 + i)),
        UInt8.ofNat (rest.length - 2)⟩]
    else []
  | _ => []

def handedOn (s : Firmware) (e : Event) : List Memtype.Event :=
  (s.events e).filter Memtype.Event.fromHost

def waiting (s : Firmware) : List Rx :=
  if s.drv.usbRxLen = 0 ∨ s.pc = .release then [] else [s.drv.rx]

structure RxInv (s : Firmware) (l : List Rx) (evs : List Memtype.Event) : Prop where
  half : s.drv.Half
  len : s.drv.usbRxLen = 0 ∨ ¬s.drv.usbRxLen < 3
  pc : s.pc = .release → s.drv.usbRxLen ≠ 0
  split : ∃ done, l = done ++ s.waiting ∧ evs = hostEvents false done ∧
    s.drv.userRw = hostMode false done

theorem handedOn_rx {s : Firmware} {i : Inputs} (hpc : s.pc = .rx) (hlen : ¬s.drv.usbRxLen < 3) :
    s.handedOn (.loop i) = s.drv.rx.events s.drv.userRw := by
  unfold handedOn events
  rw [hpc]
  dsimp only
  rw [if_neg hlen, List.filter_eq_self]
  intro e he
  unfold Rx.events at he
  split_ifs at he
  all_goals simp_all [Memtype.Event.fromHost]

theorem handedOn_other {s : Firmware} {i : Inputs} (h : s.pc ≠ .rx ∨ s.drv.usbRxLen < 3) :
    s.handedOn (.loop i) = [] := by
  unfold handedOn events
  cases hpc : s.pc with
  | rx =>
    dsimp only
    rw [if_pos (h.resolve_left (not_not.mpr hpc))]
    rfl
  | reset =>
    dsimp only
    split_ifs
    · rfl
    · rfl
  | ready =>
    dsimp only
    split_ifs
    · rfl
    · rfl
  | sch => rfl
  | release => rfl
  | transmit => rfl

/-- A step that leaves the waiting packet as it is. -/
theorem RxInv.congr {s s' : Firmware} {l : List Rx} {evs : List Memtype.Event} (h : RxInv s l evs)
    (hrx : s.drv.SameRx s'.drv) (hrw : s'.drv.userRw = s.drv.userRw)
    (hpc : s'.pc = .release ↔ s.pc = .release) : RxInv s' l evs := by
  have hdrv : s'.drv.rx = s.drv.rx := by
    unfold Usbdrv.rx
    rw [hrx.data, hrx.len, hrx.token]
  have hwait : s'.waiting = s.waiting := by
    unfold waiting
    rw [hrx.len, hdrv]
    simp only [hpc]
  refine ⟨?_, ?_, ?_, ?_⟩
  · unfold Usbdrv.Half
    rw [hrx.offset]
    exact h.half
  · rw [hrx.len]
    exact h.len
  · rw [hrx.len, hpc]
    exact h.pc
  · rw [hwait, hrw]
    exact h.split

theorem RxInv.packet {s : Firmware} {l : List Rx} {evs : List Memtype.Event} (h : RxInv s l evs)
    (pid : UInt8) (rest : List UInt8) :
    RxInv { s with drv := (s.drv.interrupt pid rest).1 } (l ++ s.accepted (.packet pid rest)) evs := by
  have hdata := Usbdrv.rxData_take h.half pid rest
  have hint := s.drv.interrupts pid rest
  dsimp only [accepted]
  generalize s.drv.interrupt pid rest = r at hint
  cases hint with
  | quiet tok ans htok hans hacked =>
    rw [if_neg hacked, List.append_nil]
    exact h.congr ⟨hdata, rfl, rfl, rfl⟩ rfl Iff.rfl
  | stored hpid hlen hfit htok hfree =>
    obtain ⟨done, hl, hevs, hrw⟩ := h.split
    have hlt : rest.length < 11 := hfit
    have hcnt : (UInt8.ofNat (rest.length + 1)).toNat = rest.length + 1 := by
      rw [UInt8.toNat_ofNat']
      omega
    have hle : ¬UInt8.ofNat (rest.length + 1) < 3 := by
      rw [UInt8.lt_iff_toNat_lt, hcnt, show (3 : UInt8).toNat = 3 from rfl]
      omega
    have hne : UInt8.ofNat (rest.length + 1) ≠ 0 := fun h0 => hle (by rw [h0]; decide)
    have hrel : s.pc ≠ .release := fun hp => h.pc hp hfree
    rw [if_pos ⟨hpid, rfl, hlen⟩]
    refine ⟨?_, .inr hle, fun _ => hne, done, ?_, hevs, hrw⟩
    · change 11 - s.drv.usbInputBufOffset = 0 ∨ 11 - s.drv.usbInputBufOffset = 11
      rcases h.half with h0 | h0
      · exact .inr (by rw [h0]; rfl)
      · exact .inl (by rw [h0]; rfl)
    · have hold : s.waiting = [] := if_pos (.inl hfree)
      have hnew : waiting { s with drv := { s.drv.take pid rest with
          usbRxLen := UInt8.ofNat (rest.length + 1), usbRxToken := s.drv.usbCurrentTok,
          usbInputBufOffset := 11 - s.drv.usbInputBufOffset } } =
          [⟨s.drv.usbCurrentTok, fun i => rest.getD i (s.drv.received (1 + i)),
            UInt8.ofNat (rest.length - 2)⟩] := by
        refine (if_neg (not_or.mpr ⟨hne, hrel⟩)).trans ?_
        unfold Usbdrv.rx
        congr 2
        · exact Usbdrv.rxData_swapped h.half pid hfit
        · apply UInt8.toNat_inj.mp
          rw [UInt8.toNat_sub, hcnt, UInt8.toNat_ofNat', show (3 : UInt8).toNat = 3 from rfl]
          omega
      rw [hnew, hl, hold, List.append_nil]
  | control hpid hfree hlen =>
    rw [if_neg (Usbdrv.acked_in hpid), List.append_nil]
    exact h.congr ⟨hdata, rfl, rfl, rfl⟩ rfl Iff.rfl
  | report hpid hfree hlen =>
    rw [if_neg (Usbdrv.acked_in hpid), List.append_nil]
    exact h.congr ⟨hdata, rfl, rfl, rfl⟩ rfl Iff.rfl

theorem RxInv.loop {s s' : Firmware} {l : List Rx} {evs : List Memtype.Event} {i : Inputs}
    (h : RxInv s l evs) (hs : Loops L i s s') : RxInv s' l (evs ++ s.handedOn (.loop i)) := by
  have hother (h' : s.pc ≠ .rx ∨ s.drv.usbRxLen < 3) (hinv : RxInv s' l evs) :
      RxInv s' l (evs ++ s.handedOn (.loop i)) := by
    rw [handedOn_other h', List.append_nil]
    exact hinv
  have hkeep {u : Usbdrv} {d : Device} {pc : Pc} (hne : s.pc ≠ .release) (hpc : pc ≠ .release)
      (hrx : s.drv.SameRx u) (hrw : u.userRw = s.drv.userRw) : RxInv ⟨d, u, pc⟩ l evs :=
    h.congr hrx hrw ⟨fun h => absurd h hpc, fun h => absurd h hne⟩
  have hsame : s.drv.SameRx s.drv := ⟨rfl, rfl, rfl, rfl⟩
  cases hs with
  | poll hpc hlen => exact hother (.inr hlen) (hkeep (by rw [hpc]; decide) (by decide) hsame rfl)
  | process hpc hlen =>
    obtain ⟨done, hl, hevs, hrw⟩ := h.split
    obtain ⟨hrx, hmode⟩ := usbProcessRx_rx (L := L) s
    have hne : s.drv.usbRxLen ≠ 0 := fun h0 => hlen (by rw [h0]; decide)
    have hwait : s.waiting = [s.drv.rx] := if_neg (not_or.mpr ⟨hne, by rw [hpc]; decide⟩)
    rw [handedOn_rx hpc hlen]
    refine ⟨?_, .inr ?_, fun _ => ?_, done ++ [s.drv.rx], ?_, ?_, ?_⟩
    · unfold Usbdrv.Half
      rw [hrx.offset]
      exact h.half
    · rw [hrx.len]
      exact hlen
    · rw [hrx.len]
      exact hne
    · rw [hl, hwait]
      exact (List.append_nil _).symm.trans (congrArg _ (if_pos (.inr rfl)).symm)
    · rw [hostEvents_snoc, ← hevs, ← hrw]
    · rw [hostMode_snoc, ← hrw]
      exact hmode
  | release hpc =>
    obtain ⟨done, hl, hevs, hrw⟩ := h.split
    have hwait : s.waiting = [] := if_pos (.inr hpc)
    refine hother (.inl (by rw [hpc]; decide)) ⟨h.half, .inl rfl, nofun, done, ?_, hevs, hrw⟩
    rw [hl, hwait]
    rfl
  | build hpc hidle hmsg =>
    exact hother (.inl (by rw [hpc]; decide)) (hkeep (by rw [hpc]; decide) (by decide)
      ⟨rfl, rfl, rfl, rfl⟩ rfl)
  | skip hpc _ =>
    exact hother (.inl (by rw [hpc]; decide)) (hkeep (by rw [hpc]; decide) (by decide) hsame rfl)
  | lines hpc d new addr _ =>
    exact hother (.inl (by rw [hpc]; decide)) (hkeep (by rw [hpc]; decide) (by decide)
      ⟨rfl, rfl, rfl, rfl⟩ rfl)
  | task hpc d =>
    exact hother (.inl (by rw [hpc]; decide)) (hkeep (by rw [hpc]; decide) (by decide) hsame rfl)
  | report hpc _ d _ =>
    exact hother (.inl (by rw [hpc]; decide)) (hkeep (by rw [hpc]; decide) (by decide)
      ⟨rfl, rfl, rfl, rfl⟩ rfl)
  | busy hpc _ =>
    exact hother (.inl (by rw [hpc]; decide)) (hkeep (by rw [hpc]; decide) (by decide) hsame rfl)

theorem rxInv_step {s s' : Firmware} {e : Event} {l : List Rx} {evs : List Memtype.Event}
    (h : RxInv s l evs) (hs : step L s e = .ret s') :
    RxInv s' (l ++ s.accepted e) (evs ++ s.handedOn e) := by
  cases e with
  | packet pid rest =>
    cases Outcome.ret.inj hs
    exact (List.append_nil evs).symm ▸ h.packet pid rest
  | background ram =>
    cases Outcome.ret.inj hs
    have hkeep : RxInv { s with dev := { s.dev with ram := ram } } l evs :=
      h.congr ⟨rfl, rfl, rfl, rfl⟩ rfl Iff.rfl
    have hnone : s.handedOn (.background ram) = [] := rfl
    rw [hnone, List.append_nil]
    exact (List.append_nil l).symm ▸ hkeep
  | loop i => exact (List.append_nil l).symm ▸ h.loop (loops hs)

theorem powerOn_ret {flash eeprom ram : Mem} {s : Firmware}
    (h : powerOn L flash eeprom ram = .ret s) : s.pc = .rx ∧ s.drv = Usbdrv.usbResetDataToggling {} ∧
      Memtype.powerOn L flash eeprom ram = .ret s.dev := by
  unfold powerOn at h
  cases hd : Memtype.powerOn L flash eeprom ram with
  | spin d => exact absurd (hd ▸ h) nofun
  | ret d =>
    rw [hd] at h
    cases Outcome.ret.inj h
    exact ⟨rfl, rfl, rfl⟩

theorem rxInv_powerOn {flash eeprom ram : Mem} {s : Firmware}
    (h : powerOn L flash eeprom ram = .ret s) : RxInv s [] [] := by
  obtain ⟨hpc, hdrv, -⟩ := powerOn_ret h
  have hlen : s.drv.usbRxLen = 0 := by rw [hdrv]; rfl
  have hwait : s.waiting = [] := if_pos (.inl hlen)
  have hrw : s.drv.userRw = false := by rw [hdrv]; rfl
  exact ⟨.inl (by rw [hdrv]; rfl), .inl hlen, fun h => absurd (hpc.symm.trans h) nofun,
    [], hwait.symm, rfl, hrw⟩

theorem rxInv_run {flash eeprom ram : Mem} {evs : List Event} {s : Firmware}
    (h : run (step L) (powerOn L flash eeprom ram) evs = .ret s) :
    RxInv s (collect (step L) accepted (powerOn L flash eeprom ram) evs)
      (collect (step L) handedOn (powerOn L flash eeprom ram) evs) :=
  inv_logs (fun _ _ _ _ _ h _ hs => rxInv_step h hs) (l := []) (k := [])
    (fun _ hs => rxInv_powerOn hs) (eachStep_true _ evs) h

/-- What the packets of a run have in common, the waiting ones have. -/
theorem waiting_each {P : Rx → Prop} {o : Outcome Firmware} {l : List Rx} {k : List Memtype.Event}
    (ho : ∀ s, o = .ret s → RxInv s l k) {evs : List Event}
    (h : ∀ r ∈ l ++ collect (step L) accepted o evs, P r) :
    EachStep (step L) (fun s _ => ∀ r ∈ s.waiting, P r) o evs := by
  induction evs generalizing o l k with
  | nil => simp
  | cons e evs ih =>
    cases o with
    | spin s => simp
    | ret s =>
      obtain ⟨done, hl, -⟩ := (ho s rfl).split
      rw [collect, ← List.append_assoc] at h
      refine ⟨fun r hr => h r ?_, ih (fun t ht => rxInv_step (ho s rfl) ht) h⟩
      rw [hl, List.append_assoc, List.append_assoc]
      exact List.mem_append_right _ (List.mem_append_left _ hr)

theorem dev_powerOn (flash eeprom ram : Mem) :
    (powerOn L flash eeprom ram).map dev = Memtype.powerOn L flash eeprom ram := by
  unfold powerOn
  cases Memtype.powerOn L flash eeprom ram with
  | spin d => rfl
  | ret d => rfl

/-- Every run of the firmware, with its interrupts anywhere, is a run of the device; the requests
and data packets in it are those of the acknowledged packets, in their order and each once, but for
one that `usbPoll` may have still to take. -/
theorem firmware_refines {flash eeprom ram : Mem} {evs : List Event} {s : Firmware}
    (h : run (step L) (powerOn L flash eeprom ram) evs = .ret s) :
    run (Memtype.step L) (Memtype.powerOn L flash eeprom ram)
        (collect (step L) events (powerOn L flash eeprom ram) evs) = .ret s.dev ∧
      ∃ done, collect (step L) accepted (powerOn L flash eeprom ram) evs = done ++ s.waiting ∧
        (collect (step L) events (powerOn L flash eeprom ram) evs).filter Memtype.Event.fromHost =
          hostEvents false done := by
  constructor
  · rw [← dev_powerOn, ← run_project dev_step, h]
    rfl
  · obtain ⟨done, hl, hk, -⟩ := (rxInv_run h).split
    exact ⟨done, hl, (filter_collect ..).trans hk⟩

def sampleFirmware : Outcome Firmware :=
  powerOn sampleLayout (fun _ => 0) (factoryEeprom sampleLayout) fun _ => 0

/-- A token for the device before it has an address. -/
def Event.token (pid : UInt8) : Event := .packet pid [0, 0]

def Event.passes (n : ℕ) : List Event := List.replicate n (.loop {})

def setReport : List Event :=
  [.token usbpidSetup, .packet usbpidData0 [0x21, 9, 2, 3, 0, 0, 8, 0, 0, 0]] ++ Event.passes 7 ++
  [.token usbpidOut, .packet usbpidData1 [5, 0, 0, 0, 0, 0, 0, 0, 0, 0]] ++ Event.passes 7

theorem firmware_refines_setReport :
    run (Memtype.step sampleLayout)
        (Memtype.powerOn sampleLayout (fun _ => 0) (factoryEeprom sampleLayout) fun _ => 0)
        (collect (step sampleLayout) events sampleFirmware setReport) =
      .ret (run (step sampleLayout) sampleFirmware setReport).state.dev ∧
    ∃ done, collect (step sampleLayout) accepted sampleFirmware setReport =
        done ++ (run (step sampleLayout) sampleFirmware setReport).state.waiting ∧
      (collect (step sampleLayout) events sampleFirmware setReport).filter Memtype.Event.fromHost =
        hostEvents false done :=
  firmware_refines (Outcome.eq_ret_of_returns (by decide +kernel))

end Firmware

end Memtype
