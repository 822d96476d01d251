import Memtype.Proofs.Control

/-! What lies outside the objects that `usbMsgPtr` is set to has no part in a run. -/

namespace Memtype

open Lib

namespace Firmware

variable {L : Layout}

/-- What holds in every run in which no SETUP that the host has sent is stray. -/
structure BusInv (s : Firmware) (l : List Rx) (evs : List Memtype.Event) : Prop extends
    RxInv s l evs where
  msg : (∀ r ∈ l, r.Legal) → MsgInv s

theorem busInv_step {s s' : Firmware} {e : Event} {l : List Rx} {evs : List Memtype.Event}
    (h : BusInv s l evs) (hs : step L s e = .ret s') :
    BusInv s' (l ++ s.accepted e) (evs ++ s.handedOn e) := by
  refine ⟨rxInv_step h.toRxInv hs, fun hlegal => ?_⟩
  have hl (r : Rx) (hr : r ∈ l) : r.Legal := hlegal r (List.mem_append_left _ hr)
  refine msgInv_step (h.msg hl) (fun r hr => hl r ?_) hs
  obtain ⟨done, hdone, -⟩ := h.split
  rw [hdone]
  exact List.mem_append_right _ hr

theorem busInv_powerOn {flash eeprom ram : Mem} {s : Firmware}
    (h : powerOn L flash eeprom ram = .ret s) : BusInv s [] [] := by
  refine ⟨rxInv_powerOn h, fun _ => ?_⟩
  obtain ⟨-, hdrv, -⟩ := powerOn_ret h
  have hmsg : s.drv.usbMsgLen = usbNoMsg := by rw [hdrv]; rfl
  exact ⟨fun hl => absurd hmsg hl.1, fun hl => absurd hmsg hl.1, fun hl => absurd hmsg hl.1⟩

def Event.seeing (beyond : MsgPtr → UInt8) : Event → Event
  | .loop i => .loop { i with beyond := beyond }
  | e => e

theorem usbBuildTxBlock_seeing {s : Firmware} (h : MsgInv s) (hmsg : s.drv.usbMsgLen ≠ usbNoMsg)
    (beyond beyond' : MsgPtr → UInt8) : s.usbBuildTxBlock beyond = s.usbBuildTxBlock beyond' := by
  have hwant := (limit_eight s.drv.usbMsgLen).1
  have hread (b : MsgPtr → UInt8) := usbDeviceRead_message h hmsg b hwant
  unfold usbBuildTxBlock
  dsimp only
  rw [hread, hread]
  rfl

theorem step_seeing {s : Firmware} (h : MsgInv s) (beyond : MsgPtr → UInt8) (e : Event) :
    step L s (e.seeing beyond) = step L s e := by
  cases e with
  | packet pid rest => rfl
  | background ram => rfl
  | loop i =>
    change loop L { i with beyond := beyond } s = loop L i s
    unfold loop
    cases hpc : s.pc with
    | transmit =>
      dsimp only
      split_ifs with hb
      · rw [usbBuildTxBlock_seeing h hb.2 beyond i.beyond]
      · rfl
    | _ => rfl

theorem run_seeing {s : Firmware} {l : List Rx} {k : List Memtype.Event} (h : BusInv s l k)
    (beyond : MsgPtr → UInt8) {evs : List Event}
    (hlegal : ∀ r ∈ l ++ collect (step L) accepted (.ret s) evs, r.Legal) :
    run (step L) (.ret s) (evs.map (Event.seeing beyond)) = run (step L) (.ret s) evs ∧
      collect (step L) answers (.ret s) (evs.map (Event.seeing beyond)) =
        collect (step L) answers (.ret s) evs := by
  induction evs generalizing s l k with
  | nil => exact ⟨rfl, rfl⟩
  | cons e evs ih =>
    have hstep := step_seeing (L := L) (h.msg fun r hr => hlegal r (List.mem_append_left _ hr)) beyond e
    have hans : s.answers (e.seeing beyond) = s.answers e := by cases e <;> rfl
    rw [List.map_cons, run_cons, run_cons, Outcome.bind_ret, Outcome.bind_ret, collect, collect, hstep,
      hans]
    cases he : step L s e with
    | spin t => simp
    | ret t =>
      rw [collect, he, ← List.append_assoc] at hlegal
      obtain ⟨hrun, hcollect⟩ := ih (busInv_step h he) hlegal
      exact ⟨hrun, by rw [hcollect]⟩

/-- While no SETUP is stray, nothing that lies outside the objects which `usbMsgPtr` is set to has a
part in what the device does or sends. -/
theorem reads_inside {flash eeprom ram : Mem} {evs : List Event}
    (hlegal : ∀ r ∈ collect (step L) accepted (powerOn L flash eeprom ram) evs, r.Legal)
    (beyond : MsgPtr → UInt8) :
    run (step L) (powerOn L flash eeprom ram) (evs.map (Event.seeing beyond)) =
        run (step L) (powerOn L flash eeprom ram) evs ∧
      collect (step L) answers (powerOn L flash eeprom ram) (evs.map (Event.seeing beyond)) =
        collect (step L) answers (powerOn L flash eeprom ram) evs := by
  cases ho : powerOn L flash eeprom ram with
  | spin s => simp
  | ret s =>
    rw [ho] at hlegal
    exact run_seeing (busInv_powerOn ho) beyond hlegal

theorem reads_inside_getDescriptor :
    run (step sampleLayout) sampleFirmware (getDescriptorRun.map (Event.seeing fun _ => 0xff)) =
        run (step sampleLayout) sampleFirmware getDescriptorRun ∧
      collect (step sampleLayout) answers sampleFirmware
          (getDescriptorRun.map (Event.seeing fun _ => 0xff)) =
        collect (step sampleLayout) answers sampleFirmware getDescriptorRun :=
  reads_inside (by decide +kernel) _

/-- After a request for the keyboard's report, one that is stray is answered with twenty bytes from
where the report is in RAM. -/
def strayRun : List Event :=
  [.token usbpidSetup, .packet usbpidData0 [0xa1, 1, 1, 1, 0, 0, 3, 0, 0, 0]] ++ fetch 1 ++
    [.token usbpidSetup, .packet usbpidData0 [0xa1, 9, 2, 3, 0, 0, 20, 0, 0, 0]] ++ fetch 3

theorem not_reads_inside_stray :
    collect (step sampleLayout) answers sampleFirmware (strayRun.map (Event.seeing fun _ => 0xff)) ≠
      collect (step sampleLayout) answers sampleFirmware strayRun := by
  decide +kernel

end Firmware

end Memtype
