import Memtype.Proofs.Ring

/-! When moving up ends. The links of the store have to lead from the cached `next` back to the
selected offset. Moving along a fresh cache keeps this; copying a packet of a WRITE, and moving on
from a cache that flash has left behind, may break it. -/

namespace Memtype

open Lib

/-- The links lead from the cached `next` back to the selected offset. -/
def Device.linksBack (L : Layout) (d : Device) : Prop :=
  Leads (link L d.flash.mem) d.crd.credential.next (d.selected L)

def Event.browses (d : Device) (e : Event) : Prop :=
  d.uif.uifState = .credentials ∧ (e.handled d = some .up ∨ e.handled d = some .down)

/-- The step copies a packet of a WRITE, or moves on from a record that is not kept as it is in
flash or that is its own successor. -/
def Event.strays (L : Layout) (d : Device) (e : Event) : Prop :=
  e.isWriteTask = true ∧ d.ucp.usbWrite = true ∨
    e.browses d ∧ (¬d.cacheFresh ∨ d.crd.credential.next = d.selected L)

section

variable {L : Layout} {d d' : Device}

theorem linksBack_congr (h : d.linksBack L) (hf : d'.flash = d.flash)
    (hc : d'.crd.credential = d.crd.credential) : d'.linksBack L := by
  unfold Device.linksBack Device.selected at h ⊢
  rwa [hf, hc]

theorem linksBack_select {cred : UInt16} (h : cred ∈ Function.periodicPts (link L d.flash.mem)) :
    (d.select L cred).linksBack L := by
  unfold Device.linksBack
  rw [select_next, select_selected, select_flash]
  exact leads_succ_iff.mpr h

theorem fresh_next (h : d.cacheFresh) :
    d.crd.credential.next = link L d.flash.mem (d.selected L) := by
  obtain ⟨o, ho, hn, -⟩ := h
  unfold link record Device.selected
  rw [UInt16.sub_add_cancel, ho, hn]
  rfl

theorem fresh_periodic (h : d.cacheFresh) (hd : d.linksBack L) :
    d.selected L ∈ Function.periodicPts (link L d.flash.mem) := by
  unfold Device.linksBack at hd
  rw [fresh_next h] at hd
  exact leads_succ_iff.mp hd

theorem linksBack_next (hn : ∃ a, d.flash.mem a = 0) (h : d.cacheFresh) (hd : d.linksBack L) :
    (crdNext L d).state.linksBack L := by
  rw [next_select hn, fresh_next h]
  have hp : link L d.flash.mem (d.selected L) ∈ Function.periodicPts (link L d.flash.mem) :=
    (leads_apply _ _).periodic (fresh_periodic h hd)
  exact linksBack_congr (linksBack_select hp) rfl rfl

theorem linksBack_previous (hn : ∃ a, d.flash.mem a = 0) (h : d.cacheFresh) (hd : d.linksBack L)
    (hne : d.crd.credential.next ≠ d.selected L) : (crdPrevious L d).state.linksBack L := by
  obtain ⟨i, hlt, hi, hmin⟩ := Leads.first hd
  rw [card_offsets] at hlt
  rw [previous_select hn hi hmin hlt]
  cases i with
  | zero => exact absurd hi hne
  | succ i =>
    -- what was come through on a cycle is on it
    have hnext : d.crd.credential.next ∈ Function.periodicPts (link L d.flash.mem) := by
      rw [fresh_next h]
      exact (leads_apply _ _).periodic (fresh_periodic h hd)
    have hp : lastcred L d (i + 1) ∈ Function.periodicPts (link L d.flash.mem) :=
      Leads.periodic ⟨i, rfl⟩ hnext
    exact linksBack_congr (linksBack_select hp) rfl rfl

/-- A step that handles no button and copies no packet keeps the store and the selected record. -/
theorem step_keepsRecord (L : Layout) {e : Event} (h : e.handled d = none)
    (hw : ¬(e.isWriteTask = true ∧ d.ucp.usbWrite = true)) :
    (step L d e).state.flash = d.flash ∧
      (step L d e).state.crd.credential = d.crd.credential := by
  cases e with
  | setup rq =>
    by_cases hq : rq.asksReport = true
    · have hs : step L d (.setup rq) = .ret _ := congrArg Outcome.ret (setup_report L hq)
      obtain ⟨u, hu⟩ := task_core L d
      rw [hs, hu]
      exact ⟨rfl, rfl⟩
    · obtain ⟨u, l, hs, -⟩ := setup_other L d hq
      have hs : step L d (.setup rq) = .ret _ := congrArg Outcome.ret hs
      rw [hs]
      exact ⟨rfl, rfl⟩
  | write data len =>
    have hd := decode_cases L data len d
    have hs : step L d (.write data len) = .ret (ucpDecode L data len d) := rfl
    rw [hs, Outcome.state_ret]
    generalize ucpDecode L data len d = d' at hd
    cases hd <;> exact ⟨rfl, rfl⟩
  | writeTask =>
    have hs := writeTask_none L d (eq_false_of_ne_true fun hu => hw ⟨rfl, hu⟩)
    have hs : step L d .writeTask = .ret d := hs
    rw [hs]
    exact ⟨rfl, rfl⟩
  | printUpdate => exact ⟨(printStep_update L d).flash, (printStep_update L d).credential⟩
  | ledTask =>
    unfold step ledTask
    dsimp only
    split_ifs <;> exact ⟨rfl, rfl⟩
  | schTask timer adc =>
    obtain ⟨u, s, a, hs⟩ := schTask_idle L h
    have hs : step L d (.schTask timer adc) = .ret _ := hs
    rw [hs]
    exact ⟨rfl, rfl⟩
  | button b =>
    obtain ⟨u, hs⟩ := button_idle L h
    rw [hs]
    exact ⟨rfl, rfl⟩
  | usbReset meas =>
    unfold step osccalStart
    dsimp only
    split <;> exact ⟨rfl, rfl⟩
  | background ram => exact ⟨rfl, rfl⟩

theorem step_keepsFlash (L : Layout) {e : Event} (hw : ¬(e.isWriteTask = true ∧ d.ucp.usbWrite = true)) :
    (step L d e).state.flash = d.flash := by
  cases h : e.handled d with
  | none => exact (step_keepsRecord L h hw).1
  | some b =>
    obtain ⟨u, s, a, hc, rfl, hb, hst⟩ := step_handled L h
    have hf := button_flash (uifTask_cases L { d with uib := u, sch := s, adcValue := a } hc hb)
    rw [hst]
    exact hf

/-- Every other step keeps the way back. -/
theorem linksBack_step {e : Event} (hn : ∃ a, d.flash.mem a = 0) (hd : d.linksBack L)
    (hs : ¬e.strays L d) : (step L d e).state.linksBack L := by
  cases h : e.handled d with
  | none =>
    obtain ⟨hf, hc⟩ := step_keepsRecord L h fun hw => hs (.inl hw)
    exact linksBack_congr hd hf hc
  | some b =>
    have hf := step_keepsFlash L fun hw => hs (.inl hw)
    obtain ⟨u, s, a, -, rfl, -, hst⟩ := step_handled L h
    rw [hst] at hf ⊢
    rcases uifTask_select L { d with uib := u, sch := s, adcValue := a } with hk | ⟨h0, hk⟩
    · exact linksBack_congr hd hf hk
    have hbr : e.browses d := by
      refine ⟨h0, ?_⟩
      rw [h]
      rcases hk with ⟨hk, -⟩ | ⟨hk, -⟩
      · exact .inl (congrArg some hk)
      · exact .inr (congrArg some hk)
    have hfresh : d.cacheFresh := not_not.mp fun hn => hs (.inr ⟨hbr, .inl hn⟩)
    have hne : d.crd.credential.next ≠ d.selected L := fun hn => hs (.inr ⟨hbr, .inr hn⟩)
    rcases hk with ⟨-, hk⟩ | ⟨-, hk⟩
    · rw [hk]
      exact linksBack_previous hn hfresh hd hne
    · rw [hk]
      exact linksBack_next hn hfresh hd

end

theorem powerOn_linksBack {L : Layout} {flash eeprom ram : Mem} {d : Device}
    (h0 : 0 ∈ Function.periodicPts (link L flash)) (hd : powerOn L flash eeprom ram = .ret d)
    (hn : ∃ a, d.flash.mem a = 0) : d.linksBack L := by
  have hf : d.flash.mem = flash := by
    obtain ⟨c, v, rfl⟩ := powerOn_ret hd
    rfl
  rw [hf] at hn
  have hi : crdInit L (uifInit L { flash := { mem := flash }, eeprom := eeprom, ram := ram }) =
    .ret _ := load_select hn 0
  unfold powerOn at hd
  dsimp only at hd
  rw [hi] at hd
  cases hd
  refine linksBack_congr (linksBack_select (L := L)
    (d := uifInit L { flash := { mem := flash }, eeprom := eeprom, ram := ram }) h0) ?_ ?_
  · unfold osccalInit
    dsimp only
    split_ifs <;> rfl
  · unfold osccalInit
    dsimp only
    split_ifs <;> rfl

/-- Moving up ends exactly when the links lead back. They do in every state of a run that starts
with offset 0 on a cycle of links, and whose straying steps leave a way back. -/
theorem movesUp_run (L : Layout) (flash eeprom ram : Mem) (evs : List Event)
    (h0 : 0 ∈ Function.periodicPts (link L flash))
    (hg : EachStep (step L) (fun d e => e.strays L d → (step L d e).state.linksBack L)
      (powerOn L flash eeprom ram) evs) :
    (∀ d, (∃ a, d.flash.mem a = 0) → ((crdPrevious L d).returns = true ↔ d.linksBack L)) ∧
      Always (step L) (fun d => d.uif.uifState = .credentials → (∃ a, d.flash.mem a = 0) →
        (crdPrevious L d).returns = true) (powerOn L flash eeprom ram) evs := by
  refine ⟨fun d hn => previous_returns hn, ?_⟩
  refine always_of_inv (I := fun d => (∃ a, d.flash.mem a = 0) → d.linksBack L)
    (fun d hd _ hn => (previous_returns hn).mpr (hd hn)) (fun d e hd hg => ?_)
    (fun d hd hn => powerOn_linksBack h0 hd hn) hg
  have hstep : (∃ a, (step L d e).state.flash.mem a = 0) → (step L d e).state.linksBack L := by
    intro hn
    by_cases hs : e.strays L d
    · exact hg hs
    rw [step_keepsFlash L fun hw => hs (.inl hw)] at hn
    exact linksBack_step hn (hd hn) hs
  refine ⟨fun _ hn => (previous_returns hn).mpr (hstep hn), fun d' hd' hn => ?_⟩
  rw [hd'] at hstep
  exact hstep hn

instance (d : Device) (e : Event) : Decidable (e.browses d) := inferInstanceAs (Decidable (_ ∧ _))

theorem movesUp_factoryPin : Always (step sampleLayout) (fun d => d.uif.uifState = .credentials →
    (∃ a, d.flash.mem a = 0) → (crdPrevious sampleLayout d).returns = true) sampleBoot
      enterFactoryPin := by
  have hquiet : EachStep (step sampleLayout) (fun d e =>
      ¬(e.isWriteTask = true ∧ d.ucp.usbWrite = true) ∧ ¬e.browses d) sampleBoot enterFactoryPin := by
    decide +kernel
  have h0 : link sampleLayout (fun _ => 0) 0 = 0 := by decide +kernel
  exact (movesUp_run sampleLayout (fun _ => 0) (factoryEeprom sampleLayout) (fun _ => 0) enterFactoryPin
    (Function.mk_mem_periodicPts Nat.one_pos h0)
    (hquiet.mono fun d e hq hs => absurd hs fun h => h.elim hq.1 fun h => hq.2 h.1)).2

/-- A WRITE of two records without a name, at 0 and at 3; both link to the second. -/
def linkedWrite : List Event :=
  [.write ![3, 0, 0, 8, 0, 0, 0, 0] 8, .write ![0, 3, 0, 0, 3, 0, 0, 0] 8, .getReport 2, .writeTask]

/-- Nothing links back to the first record. -/
theorem not_movesUp_linked : ¬∀ L flash eeprom ram d, Reachable L flash eeprom ram d →
    d.uif.uifState = .credentials → (∀ off, ∃ j : ℕ, d.flash.mem (off + UInt16.ofNat j) = 0) →
      (crdPrevious L d).returns = true := by
  intro h
  have hr : run (step sampleLayout) sampleBoot (enterFactoryPin ++ linkedWrite) = .ret _ :=
    Outcome.eq_ret_of_returns (by decide +kernel)
  generalize hd : (run (step sampleLayout) sampleBoot (enterFactoryPin ++ linkedWrite)).state = d at hr
  have h0 : d.flash.mem 0 = 0 := by
    rw [← hd]
    decide +kernel
  have hnul (off : UInt16) : ∃ j : ℕ, d.flash.mem (off + UInt16.ofNat j) = 0 := by
    refine ⟨(0 - off).toNat, ?_⟩
    rwa [UInt16.ofNat_toNat, UInt16.add_comm, UInt16.sub_add_cancel]
  have hstate : d.uif.uifState = .credentials := by
    rw [← hd]
    decide +kernel
  have hnext : d.crd.credential.next = 3 := by
    rw [← hd]
    decide +kernel
  have hsel : d.selected sampleLayout = 0 := by
    rw [← hd]
    decide +kernel
  have hlink : link sampleLayout d.flash.mem 3 = 3 := by
    rw [← hd]
    decide +kernel
  have hl := (previous_returns ⟨0, h0⟩).mp (h _ _ _ _ d ⟨_, hr⟩ hstate hnul)
  rw [hnext, hsel] at hl
  exact absurd (leads_fixed hlink hl) (by decide)

end Memtype
