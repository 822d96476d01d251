import Memtype.Proofs.Bus
import Memtype.Proofs.Vault

/-! The vault behind the driver: interrupts may come between any two steps of the loop, and the
device that they talk to is still the vault of whoever presses its buttons. -/

namespace Memtype

namespace Firmware

open Lib Vault

def action (s : Firmware) : Event → List Button
  | .loop i =>
    match s.pc with
    | .sch => ((Memtype.Event.schTask i.timer i.adc).handled s.dev).toList
    | .rx | .release | .transmit | .reset | .ready => []
  | .packet _ _ | .background _ => []

def actions (L : Layout) : Outcome Firmware → List Event → List Button := collect (step L) action

variable {L : Layout}

/-- What comes from the host handles no button. -/
theorem handled_rxEvents {r : Rx} {rw : Bool} {e : Memtype.Event} (h : e ∈ r.events rw) (d : Device) :
    e.handled d = none := by
  unfold Rx.events at h
  split_ifs at h
  · rw [List.mem_singleton.mp h]
    rfl
  · exact absurd h List.not_mem_nil
  · rw [List.mem_singleton.mp h]
    rfl
  · exact absurd h List.not_mem_nil

/-- The buttons of a step are those of its events. -/
theorem action_events (s : Firmware) (e : Event) :
    collect (Memtype.step L) (fun d e => (e.handled d).toList) (.ret s.dev) (s.events e) =
      s.action e := by
  cases e with
  | packet pid rest => rfl
  | background ram => rfl
  | loop i =>
    unfold events action
    cases hpc : s.pc with
    | rx =>
      dsimp only
      split_ifs
      · rfl
      · refine collect_eq_nil (fun d e he => ?_) _
        rw [handled_rxEvents he]
        rfl
    | release | transmit => rfl
    | reset =>
      dsimp only
      split_ifs
      · exact collect_singleton _ _ _
      · rfl
    | sch => exact collect_singleton _ _ _
    | ready =>
      dsimp only
      split_ifs
      · refine collect_eq_nil (fun d e he => ?_) _
        simp only [List.mem_cons, List.not_mem_nil, or_false] at he
        obtain rfl | rfl | rfl := he
        · rfl
        · rfl
        · rfl
      · rfl

theorem actions_eq (flash eeprom ram : Mem) (evs : List Event) :
    Memtype.actions L (Memtype.powerOn L flash eeprom ram)
      (collect (step L) events (powerOn L flash eeprom ram) evs) =
        actions L (powerOn L flash eeprom ram) evs := by
  rw [← dev_powerOn]
  refine (collect_project dev_step _ _ _).trans ?_
  simp only [action_events]
  rfl

/-- The vault behind the driver, in every run of the firmware in which nothing that reaches the
device stores something: neither what `usbPoll` hands on of the acknowledged packets nor the end of
a reset. -/
theorem firmware_vault (L : Layout) (flash eeprom ram : Mem) {n : ℕ} [NeZero n] {c : ℕ → UInt16}
    (hr : Ring L flash n c) (evs : List Event)
    (hs : ∀ e ∈ collect (step L) events (powerOn L flash eeprom ram) evs, ¬e.stores) :
    Follows L flash c ((run (step L) (powerOn L flash eeprom ram) evs).map dev)
      ((Safe.start (n := n) (eeprom.read L.lockHash 16)).presses
        (actions L (powerOn L flash eeprom ram) evs)) := by
  obtain ⟨d, hd, h⟩ := powerOn_shows hr eeprom ram
  have hrun := h.run hr hs
  rw [← hd, actions_eq] at hrun
  rwa [run_project dev_step, dev_powerOn]

/-- Ten passes of the loop, in which the scheduler has its tick and samples RIGHT once. -/
def tick (k : ℕ) : List Event :=
  (List.range 10).flatMap fun j =>
    List.replicate 5 (.loop { timer := UInt8.ofNat (10 * k + j + 1), adc := some 255 })

/-- The host asks for the version, then RIGHT is held until it is handled. -/
def infoAndRight : List Event := setReport ++ (List.range 6).flatMap tick

theorem firmware_vault_infoAndRight : ∃ v d, (run (step sampleLayout)
      (powerOn sampleLayout twoRecords (factoryEeprom sampleLayout) fun _ => 0) infoAndRight).map dev = .ret d ∧
    Shows sampleLayout twoRecords (n := 2) (fun i => if i = 0 then 0 else 8) v d ∧
    v.screen = .entry none [] 0 := by
  have h := firmware_vault sampleLayout twoRecords (factoryEeprom sampleLayout) (fun _ => 0)
    ring_twoRecords infoAndRight (by decide +kernel)
  have hactions : actions sampleLayout (powerOn sampleLayout twoRecords (factoryEeprom sampleLayout)
      fun _ => 0) infoAndRight = [.right] := by decide +kernel
  have hv : ((Safe.start (n := 2) ((factoryEeprom sampleLayout).read sampleLayout.lockHash 16)).presses
      [.right]).map Vault.screen = some (.entry none [] 0) := by decide +kernel
  rw [hactions] at h
  generalize (Safe.start (n := 2) _).presses _ = r at h hv
  cases h with
  | shows ho hshows => exact ⟨_, _, ho, hshows, Option.some_inj.mp hv⟩
  | erased ho hstored => exact absurd hv nofun

end Firmware

end Memtype
