import Memtype.Proofs.Lock
import Memtype.Proofs.Queue

/-! Cancelling a detail: `print_deleteStr` takes it out of the queue only when it is at most
the current string, with a part of it typed, and `CRD_apply` has queued it to its end. -/

namespace Memtype

open Lib

/-- `print_deleteStr` was called after the last `CRD_printDetail`. -/
def cancelled (l : List Call) : Bool :=
  l.foldl (fun b c => match c with
    | .deleteStr => true
    | .printDetail .. => false
    | _ => b) false

/-- Nothing of a detail is typed or queued between its cancel and the next detail. -/
def StaysCancelled (l : List Call) : Prop :=
  ∀ l1 c l2, l = l1 ++ c :: l2 → c.isDetail = true → cancelled l1 = false

theorem cancelled_append (l m : List Call) (hm : ∀ c ∈ m, (!c.isMark) = true) :
    cancelled (l ++ m) = cancelled l := by
  induction m using List.reverseRecOn with
  | nil => rw [List.append_nil]
  | append_singleton m c ih =>
    have hc := hm c (by simp)
    rw [← List.append_assoc, ← ih fun c hc => hm c (List.mem_append_left _ hc)]
    unfold cancelled
    rw [List.foldl_append]
    cases c <;> first | rfl | exact absurd hc nofun

theorem staysCancelled_nil : StaysCancelled [] := by
  intro l1 c l2 h
  simp at h

theorem staysCancelled_snoc {l : List Call} {c : Call} (hl : StaysCancelled l)
    (hc : c.isDetail = true → cancelled l = false) : StaysCancelled (l ++ [c]) := by
  intro l1 x l2 h hx
  rcases List.eq_nil_or_concat l2 with rfl | ⟨m, y, rfl⟩
  · obtain ⟨rfl, hxc⟩ := List.append_inj' h rfl
    cases hxc
    exact hc hx
  · rw [List.concat_eq_append, ← List.cons_append, ← List.append_assoc] at h
    obtain ⟨rfl, -⟩ := List.append_inj' h rfl
    exact hl l1 x m rfl hx

section

variable {d d' : Device}

theorem staysCancelled_noDetail (h : StaysCancelled d.calls) (ha : NoDetail d d') :
    StaysCancelled d'.calls := by
  obtain ⟨m, hm, hp⟩ := ha
  rw [hm]
  clear hm
  induction m using List.reverseRecOn with
  | nil => rwa [List.append_nil]
  | append_singleton m c ih =>
    rw [← List.append_assoc]
    apply staysCancelled_snoc (ih fun c hc => hp c (List.mem_append_left _ hc))
    intro hc
    have hn := hp c (by simp)
    simp [hc] at hn

theorem staysCancelled_noMark (h : StaysCancelled d.calls) (hc : cancelled d.calls = false)
    (ha : NoMark d d') : StaysCancelled d'.calls ∧ cancelled d'.calls = false := by
  obtain ⟨m, hm, hp⟩ := ha
  rw [hm]
  clear hm
  refine ⟨?_, (cancelled_append _ m hp).trans hc⟩
  induction m using List.reverseRecOn with
  | nil => rwa [List.append_nil]
  | append_singleton m c ih =>
    have hp' : ∀ c ∈ m, (!c.isMark) = true := fun c hc => hp c (List.mem_append_left _ hc)
    rw [← List.append_assoc]
    exact staysCancelled_snoc (ih hp') fun _ => (cancelled_append _ m hp').trans hc

end

namespace Device

/-- A cancel in this state leaves nothing of a detail: what is in the queue is the current
string, and a part of it is typed. -/
def cancellable (L : Layout) (d : Device) : Prop :=
  (∀ i, (d.prn.strBuf i).live L → i = d.prn.actString ∧ d.prn.eos = false) ∧ d.applyDone

instance (L : Layout) (d : Device) : Decidable (d.cancellable L) :=
  inferInstanceAs (Decidable ((∀ _, _ → _) ∧ _))

def reprints (d : Device) (b : Button) : Prop :=
  d.uif.uifState = .credentials ∧ b = .right ∨
    d.uif.uifState = .options ∧ (b = .up ∨ b = .down)

instance (d : Device) (b : Button) : Decidable (d.reprints b) :=
  inferInstanceAs (Decidable (_ ∧ _ ∨ _ ∧ _))

end Device

structure Cancels (d d' : Device) : Prop where
  prn : d'.prn = { d.prn with kbdStatus := .delete } ∨
    ∃ str info, d'.prn = ({ d.prn with kbdStatus := .delete } : Print).print str info 0
  applied : d'.applied = d.applied
  calls : NoDetail d d'

theorem applyDone_print {d d' : Device} (h : d.applyDone) (p : Print)
    (hp : p.strBuf = d.prn.strBuf) (hc : d'.applied = d.applied)
    (hd : d'.prn = p ∨ ∃ str info, d'.prn = p.print str info 0) : d'.applyDone := by
  unfold Device.applyDone at h ⊢
  rw [hc]
  refine h.imp_right fun h => ?_
  rw [← hp] at h
  rcases hd with hd | ⟨str, info, hd⟩
  · rwa [hd]
  · rw [hd]
    exact Print.callback_print h

theorem Cancels.spent {L : Layout} {d d' : Device} (h : Cancels d d') (hd : d.cancellable L) :
    d'.spent L := by
  have hs : ({ d.prn with kbdStatus := .delete } : Print).spent L := by
    intro i hi
    obtain ⟨ha, he⟩ := hd.1 i hi
    exact ⟨ha, .inl ⟨he, .inl rfl⟩⟩
  refine ⟨?_, applyDone_print hd.2 { d.prn with kbdStatus := .delete } rfl h.applied h.prn⟩
  rcases h.prn with hp | ⟨str, info, hp⟩
  · rwa [hp]
  · rw [hp]
    exact Print.spent_print hs str info

theorem cancels_crdFsmStart (d : Device) : Cancels d (crdFsmStart d) :=
  ⟨.inr ⟨_, _, rfl⟩, rfl, .calls [.deleteStr] rfl rfl⟩

theorem cancels_usiFailed (L : Layout) (d : Device) :
    Cancels d (usiFailed L (usiChecked L false (printDeleteStr d))) := by
  unfold usiFailed
  dsimp only
  split_ifs
  · exact ⟨.inr ⟨_, _, rfl⟩, rfl, .calls [.deleteStr, .pinCheck _ _ false] rfl rfl⟩
  · exact ⟨.inr ⟨_, _, rfl⟩, rfl, .calls [.deleteStr, .pinCheck _ _ false, .resetPin] rfl rfl⟩

theorem cancels_usiFsm (L : Layout) (b : Button) (d : Device) (hb : b ≠ .notPressed) :
    Cancels d (usiFsm L b d).state := by
  cases b with
  | left => exact ⟨.inr ⟨_, _, rfl⟩, rfl, .calls [.deleteStr] rfl rfl⟩
  | up => exact ⟨.inr ⟨_, _, rfl⟩, rfl, .calls [.deleteStr] rfl rfl⟩
  | down => exact ⟨.inr ⟨_, _, rfl⟩, rfl, .calls [.deleteStr] rfl rfl⟩
  | notPressed => exact absurd rfl hb
  | right =>
    unfold usiFsm
    dsimp only
    split_ifs
    · unfold usiPinCheck
      split_ifs
      · dsimp only
        exact ⟨.inl rfl, rfl, .calls [.deleteStr, .resetPin] rfl rfl⟩
      · cases pinMatches L (printDeleteStr d).eeprom (printDeleteStr d).pin with
        | true =>
          have h := cancels_crdFsmStart (usiChecked L true (printDeleteStr d))
          have hc : NoDetail d (usiChecked L true (printDeleteStr d)) :=
            .calls [.deleteStr, .pinCheck _ _ true] rfl rfl
          exact ⟨h.prn, h.applied, hc.trans h.calls⟩
        | false => exact cancels_usiFailed L d
    · exact ⟨.inr ⟨_, _, rfl⟩, rfl, .calls [.deleteStr] rfl rfl⟩

theorem Browses.cancels {d d' : Device} (h : Browses (printDeleteStr d) d') : Cancels d d' := by
  obtain ⟨c, rfl | rfl⟩ := h
  · exact ⟨.inl rfl, rfl, .calls [.deleteStr] rfl rfl⟩
  · exact ⟨.inr ⟨_, _, rfl⟩, rfl, .calls [.deleteStr] rfl rfl⟩

/-- Every button that prints no detail cancels. -/
theorem uifTask_cancels (L : Layout) (d : Device) (hc : d.uib.buttonChanged = true)
    (hb : d.uib.buttonPressed ≠ .notPressed) (hr : ¬d.reprints d.uib.buttonPressed) :
    Cancels d (uifTask L d).state := by
  unfold uifTask
  rw [if_pos ⟨hc, hb⟩]
  generalize d.uib.buttonPressed = b at hb hr
  split
  · exact ⟨.inr ⟨_, _, rfl⟩, rfl, .calls [.deleteStr] rfl rfl⟩
  · next h0 =>
    cases b with
    | left => exact ⟨.inr ⟨_, _, rfl⟩, rfl, .calls [.deleteStr, .uifInit] rfl rfl⟩
    | right => exact cancels_crdFsmStart d
    | up => exact absurd (.inr ⟨h0, .inl rfl⟩) hr
    | down => exact absurd (.inr ⟨h0, .inr rfl⟩) hr
    | notPressed => exact absurd rfl hb
  · exact cancels_usiFsm L b d hb
  · next h0 =>
    cases b with
    | left => exact ⟨.inr ⟨_, _, rfl⟩, rfl, .calls [.deleteStr, .deleteStr] rfl rfl⟩
    | up => exact (browses_previous L (printDeleteStr d)).cancels
    | down => exact (browses_next L (printDeleteStr d)).cancels
    | right => exact absurd (.inl ⟨h0, rfl⟩) hr
    | notPressed => exact absurd rfl hb

structure Begins (d d' : Device) : Prop where
  uif : d'.uif.uifState = d.uif.uifState
  calls : ∃ d1 start stop, NoDetail d d1 ∧ NoMark (Device.call d1 (.printDetail start stop)) d'

theorem begins_printDetail (L : Layout) (start stop : UInt8) {d d1 : Device} (h : NoDetail d d1)
    (hu : d1.uif.uifState = d.uif.uifState) : Begins d (crdPrintDetail L start stop d1) := by
  refine ⟨?_, { d1 with crd := { d1.crd with
    position := 0, counter := 0, crdStart := start, crdStop := stop } }, start, stop,
    h.trans (.same rfl), noMark_apply L _⟩
  exact (congrArg Uif.uifState (printStep_printDetail L start stop d1).uif).trans hu

theorem Begins.led {d d' d1 : Device} {l : Led} (h : Begins d d')
    (hl : d1 = { d' with led := l }) : Begins d d1 := by
  obtain ⟨hu, d2, start, stop, hd, hm⟩ := h
  subst hl
  exact ⟨hu, d2, start, stop, hd, hm.trans (.same rfl)⟩

theorem begins_optApply (L : Layout) {d d1 : Device} (h : NoDetail d d1)
    (hu : d1.uif.uifState = d.uif.uifState) : Begins d (optApply L d1) := by
  have hd : NoDetail d (printDeleteStr d1) := h.trans (.calls [.deleteStr] rfl rfl)
  unfold optApply
  split_ifs
  · exact (begins_printDetail L crdPass (crdPass + 1) hd hu).led rfl
  · exact (begins_printDetail L crdUser (crdUser + 1) hd hu).led rfl

theorem uifTask_begins (L : Layout) (d : Device) (hc : d.uib.buttonChanged = true)
    (hb : d.uib.buttonPressed ≠ .notPressed) (hr : d.reprints d.uib.buttonPressed) :
    Begins d (uifTask L d).state := by
  unfold uifTask
  rw [if_pos ⟨hc, hb⟩]
  generalize d.uib.buttonPressed = b at hr
  rcases hr with ⟨h0, rfl⟩ | ⟨h0, rfl | rfl⟩
  · rw [h0]
    exact begins_printDetail L crdUser crdEnd (.calls [.deleteStr] rfl rfl) rfl
  · rw [h0]
    exact begins_optApply L (.calls [.deleteStr] rfl rfl) rfl
  · rw [h0]
    exact begins_optApply L (.same rfl) rfl

theorem Begins.stays {d d' : Device} (h : Begins d d') (hd : StaysCancelled d.calls) :
    StaysCancelled d'.calls ∧ cancelled d'.calls = false := by
  obtain ⟨d1, start, stop, h1, h2⟩ := h.calls
  have hs := staysCancelled_snoc (c := .printDetail start stop) (staysCancelled_noDetail hd h1) nofun
  refine staysCancelled_noMark (d := d1.call (.printDetail start stop)) hs ?_ h2
  rw [call_calls]
  unfold cancelled
  rw [List.foldl_append]
  rfl

namespace Device

/-- The queue, what `CRD_apply` goes by, and the menu. -/
def typing (d : Device) : Print × (UInt8 × UInt8) × Uif := (d.prn, d.applied, d.uif)

end Device

structure Aside (d d' : Device) : Prop where
  typing : d'.typing = d.typing
  calls : Adds Call.isAside d d'

theorem Aside.spent {L : Layout} {d d' : Device} (h : Aside d d') (hd : d.spent L) :
    d'.spent L := by
  have hp : d'.prn = d.prn := congrArg (fun t => t.1) h.typing
  have ha : d'.applied = d.applied := congrArg (fun t => t.2.1) h.typing
  unfold Device.spent Device.applyDone at hd ⊢
  rwa [hp, ha]

theorem Aside.uif {d d' : Device} (h : Aside d d') : d'.uif = d.uif :=
  congrArg (fun t => t.2.2) h.typing

theorem aside_setup (L : Layout) (rq : UsbRequest) (d : Device) :
    Aside d (usbFunctionSetup L rq d).1 := by
  by_cases h : rq.asksReport = true
  · obtain ⟨u, hu⟩ := task_core L d
    rw [setup_report L h, hu]
    exact ⟨rfl, .calls [.reply 2 _] rfl rfl⟩
  · obtain ⟨u, l, hs, hl⟩ := setup_other L d h
    rw [hs]
    refine ⟨rfl, l, rfl, fun c hc => ?_⟩
    rw [hl c hc]
    rfl

theorem aside_decode {L : Layout} {data : Bytes 8} {len : UInt8} {d : Device}
    (hc : ¬(Event.write data len).completesPin d) : Aside d (ucpDecode L data len d) := by
  have h := decode_cases L data len d
  generalize ucpDecode L data len d = d' at h
  cases h with
  | pinDone h h0 ho he hl => exact absurd ⟨h, h0, ho, he, hl⟩ hc
  | accept => exact ⟨rfl, .calls [.accept _] rfl rfl⟩
  | half => exact ⟨rfl, .calls [.eepromUpdate _ _] rfl rfl⟩
  | eepromDone => exact ⟨rfl, .calls [.eepromUpdate _ _] rfl rfl⟩
  | openWrite => exact ⟨rfl, .calls [.openWrite] rfl rfl⟩
  | setPin => exact ⟨rfl, .calls [.setPin] rfl rfl⟩
  | keyboard => exact ⟨rfl, .calls [.keyboard] rfl rfl⟩
  | _ => exact ⟨rfl, .same rfl⟩

theorem WriteStep.typing {d d' : Device} (h : WriteStep d d') : d'.typing = d.typing :=
  (congrArg Device.typing h.frame :)

theorem aside_writeTask (L : Layout) (d : Device) : Aside d (ucpWriteTask L d).state := by
  have hs := writeTask_step L d
  generalize (ucpWriteTask L d).state = d' at hs ⊢
  cases hs with
  | idle hw => exact ⟨rfl, .refl d⟩
  | wrote hw d1 h w =>
    exact ⟨h.typing, .calls [.copy d.ucp.ucpState d.ucp.customReport] h.calls rfl⟩

/-- An event that handles no button, completes no SET_PIN and is not `printUpdate`. -/
theorem aside_step (L : Layout) {d : Device} {e : Event} (hp : e ≠ .printUpdate)
    (hb : e.handled d = none) (hc : ¬e.completesPin d) : Aside d (step L d e).state := by
  cases e with
  | setup rq => exact aside_setup L rq d
  | write data len => exact aside_decode hc
  | writeTask => exact aside_writeTask L d
  | printUpdate => exact absurd rfl hp
  | ledTask =>
    unfold step ledTask
    dsimp only
    split_ifs <;> exact ⟨rfl, .same rfl⟩
  | schTask timer adc =>
    obtain ⟨u, s, a, hs⟩ := schTask_idle L hb
    have hs : step L d (.schTask timer adc) = .ret _ := hs
    rw [hs]
    exact ⟨rfl, .same rfl⟩
  | button b =>
    obtain ⟨u, hu⟩ := button_idle L hb
    rw [hu]
    exact ⟨rfl, .same rfl⟩
  | usbReset meas =>
    unfold step osccalStart
    dsimp only
    split <;> exact ⟨rfl, .same rfl⟩
  | background ram => exact ⟨rfl, .same rfl⟩

/-- The step leaves a detail behind: it cancels in a state where that is not enough, or goes
back to `START` by SET_PIN, which cancels nothing. -/
def Event.leavesDetail (L : Layout) (d : Device) (e : Event) : Prop :=
  (∃ b ∈ e.handled d, ¬d.reprints b) ∧ ¬d.cancellable L ∨ e.completesPin d ∧ ¬d.spent L

instance (L : Layout) (d : Device) (e : Event) : Decidable (e.leavesDetail L d) :=
  inferInstanceAs (Decidable ((∃ b ∈ _, _) ∧ _ ∨ _ ∧ _))

/-- Either no detail is left, or the last one is not cancelled and the menu is open. -/
structure CancelInv (L : Layout) (d : Device) : Prop where
  stays : StaysCancelled d.calls
  rest : d.spent L ∨ cancelled d.calls = false ∧ d.menuOpen

def CancelStep (L : Layout) (d d' : Device) : Prop := CancelInv L d' ∧ (d.asksPin → NoDetail d d')

theorem cancelStep_spent {L : Layout} {d d' : Device} (h : CancelInv L d) (hs : d'.spent L)
    (hn : NoDetail d d') : CancelStep L d d' :=
  ⟨⟨staysCancelled_noDetail h.stays hn, .inl hs⟩, fun _ => hn⟩

theorem cancelStep_open {L : Layout} {d d' : Device} (ho : d.menuOpen)
    (hu : d'.uif.uifState = d.uif.uifState) (h : StaysCancelled d'.calls ∧ cancelled d'.calls = false) :
    CancelStep L d d' :=
  ⟨⟨h.1, .inr ⟨h.2, (Device.menuOpen_congr hu).mpr ho⟩⟩,
    fun ha => absurd ha (Device.not_asksPin_of_menuOpen ho)⟩

theorem cancelStep_handled (L : Layout) {d : Device} {e : Event} {b : Button} (h : CancelInv L d)
    (hb : e.handled d = some b) (hg : ¬e.leavesDetail L d) : CancelStep L d (step L d e).state := by
  obtain ⟨u, s, a, hc, rfl, hn, hs⟩ := step_handled L hb
  rw [hs]
  by_cases hr : d.reprints u.buttonPressed
  · have hbeg := uifTask_begins L { d with uib := u, sch := s, adcValue := a } hc hn hr
    have ho : d.menuOpen := hr.imp And.left And.left
    exact cancelStep_open ho hbeg.uif (hbeg.stays h.stays)
  · have hcan := uifTask_cancels L { d with uib := u, sch := s, adcValue := a } hc hn hr
    have hd : d.cancellable L := by
      by_contra hd
      exact hg (.inl ⟨⟨_, hb, hr⟩, hd⟩)
    exact cancelStep_spent h (hcan.spent hd) hcan.calls

theorem cancelStep_completesPin (L : Layout) {d : Device} {e : Event} (h : CancelInv L d)
    (hc : e.completesPin d) (hg : ¬e.leavesDetail L d) : CancelStep L d (step L d e).state := by
  have hd : d.spent L := by
    by_contra hd
    exact hg (.inr ⟨hc, hd⟩)
  obtain ⟨data, hs⟩ := completesPin_step L hc
  rw [hs]
  refine cancelStep_spent h ⟨Print.spent_print hd.1 L.uifInitStr .flash, ?_⟩
    (.calls [.eepromUpdate _ _, .uifInit] rfl rfl)
  exact applyDone_print hd.2 d.prn rfl rfl (.inr ⟨_, _, rfl⟩)

/-- What a step that leaves no detail behind does. -/
theorem cancelInv_step (L : Layout) {d : Device} {e : Event} (h : CancelInv L d)
    (hg : ¬e.leavesDetail L d) : CancelStep L d (step L d e).state := by
  cases hb : e.handled d with
  | some b => exact cancelStep_handled L h hb hg
  | none =>
    by_cases hc : e.completesPin d
    · exact cancelStep_completesPin L h hc hg
    by_cases hp : e = .printUpdate
    · subst hp
      rcases h.rest with hd | ⟨hd, ho⟩
      · obtain ⟨hs, hn⟩ := update_spent (L := L) hd
        exact cancelStep_spent h hs hn
      · apply cancelStep_open ho (congrArg Uif.uifState (printStep_update L d).uif)
        exact staysCancelled_noMark h.stays hd (noMark_update L d)
    · have ha := aside_step L hp hb hc
      rcases h.rest with hd | ⟨hd, ho⟩
      · exact cancelStep_spent h (ha.spent hd) (ha.calls.mono Call.isAside_detail)
      · apply cancelStep_open ho (congrArg Uif.uifState ha.uif)
        exact staysCancelled_noMark h.stays hd (ha.calls.mono Call.isAside_mark)

theorem cancelInv_powerOn {L : Layout} {flash eeprom ram : Mem} {d : Device}
    (h : powerOn L flash eeprom ram = .ret d) : CancelInv L d := by
  obtain ⟨c, v, rfl⟩ := powerOn_ret h
  refine ⟨staysCancelled_snoc staysCancelled_nil nofun, .inl ⟨?_, .inl (UInt8.le_refl 0)⟩⟩
  have hnone : ({} : Print).spent L := Print.spent_of_none fun i hi => hi.1 rfl
  exact Print.spent_print hnone L.uifInitStr .flash

/-- A cancelled detail stays cancelled throughout the run, and no step of it types or queues
anything of a detail while the device asks for the PIN. -/
def CancelsHold (L : Layout) (o : Outcome Device) (evs : List Event) : Prop :=
  Always (step L) (fun d => StaysCancelled d.calls) o evs ∧
    EachStep (step L) (fun d e => d.asksPin → NoDetail d (step L d e).state) o evs

/-- Cancels hold in every run from power-on no step of which leaves a detail behind. -/
theorem cancelsHold_run (L : Layout) (flash eeprom ram : Mem) (evs : List Event)
    (hg : EachStep (step L) (fun d e => ¬e.leavesDetail L d) (powerOn L flash eeprom ram) evs) :
    CancelsHold L (powerOn L flash eeprom ram) evs := by
  have hkeep (d : Device) (e : Event) (hd : CancelInv L d) (hg : ¬e.leavesDetail L d)
      (d' : Device) (h : step L d e = .ret d') : CancelInv L d' := by
    have hs := (cancelInv_step L hd hg).1
    rwa [h] at hs
  constructor
  · apply always_of_inv (I := CancelInv L) (fun d hd => hd.stays) _ (fun d h => cancelInv_powerOn h) hg
    intro d e hd hg
    exact ⟨(cancelInv_step L hd hg).1.stays, hkeep d e hd hg⟩
  · apply eachStep_of_inv (I := CancelInv L) _ (fun d h => cancelInv_powerOn h) hg
    intro d e hd hg
    exact ⟨(cancelInv_step L hd hg).2, hkeep d e hd hg⟩

def sampleStore : Mem := Mem.write (fun _ => 0) 0x1003 16 fun i => sampleBlock (Fin.ofNat 16 i)

/-- The user alone is printed from OPTIONS, and LEFT locks the device while it is typed. -/
def lockInUser : List Event :=
  enterFactoryPin ++ List.replicate 77 .printUpdate ++ [.button .left, .button .up] ++
    List.replicate 22 .printUpdate ++ [.button .left] ++ List.replicate 30 .printUpdate

theorem cancelsHold_lockInUser : CancelsHold sampleLayout
    (powerOn sampleLayout sampleStore (factoryEeprom sampleLayout) fun _ => 0) lockInUser :=
  cancelsHold_run _ _ _ _ _ (by decide +kernel)

/-- The same lock, by LEFT from CREDENTIALS and LEFT again, while all fields are printed. -/
def lockInDetail : List Event :=
  enterFactoryPin ++ List.replicate 77 .printUpdate ++ [.button .right] ++
    List.replicate 20 .printUpdate ++ [.button .left, .button .left] ++
    List.replicate 16 .printUpdate

/-- The device is locked, asks for the PIN, and types the password. -/
theorem not_cancelsHold_lockInDetail : ¬∀ L flash eeprom ram evs,
    CancelsHold L (powerOn L flash eeprom ram) evs := by
  intro h
  have hs := always_state (by decide +kernel)
    (h sampleLayout sampleStore (factoryEeprom sampleLayout) (fun _ => 0) lockInDetail).1
  have hl := hs _ (.press .detail 112) []
    (List.dropLast_append_getLast? _ (by decide +kernel)).symm rfl
  exact absurd hl (by decide +kernel)

end Memtype
