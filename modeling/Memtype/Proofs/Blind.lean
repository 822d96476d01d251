import Memtype.Proofs.Frames

/-! No code but that of ucp.c looks at the report that the host sent last, or whether it was
accepted, and none looks at the record of calls. -/

namespace Memtype

open Lib

def Device.blind (d : Device) : Device :=
  { d with ucp := { d.ucp with customReport := fun _ => 0, usbWriteAccepted := false }, calls := [] }

/-- Code that looks neither at the last report and its acceptance nor at the record of calls. -/
abbrev Blind (f : Device → Device) : Prop := Through Device.blind f

abbrev BlindCall (f : Device → Outcome Device) : Prop := CallThrough Device.blind f

theorem blind_deleteStr : Blind printDeleteStr := fun _ => rfl

theorem blind_prn (p : Print → Print) : Blind fun d => { d with prn := p d.prn } := fun _ => rfl

theorem blind_applyDecrypt : Blind applyDecrypt :=
  Through.ite (fun _ => Iff.rfl) (fun _ => rfl) fun _ => rfl

theorem blind_applyQueue (L : Layout) (n : ℕ) : Blind (applyQueue L n) :=
  Through.ite (fun _ => Iff.rfl) (fun _ => rfl) fun _ => rfl

theorem blind_apply (L : Layout) : Blind (crdApply L) := by
  refine Through.ite (fun _ => Iff.rfl) (fun _ => rfl) ?_
  have hqueue (n : ℕ) :
      Blind fun d => { applyQueue L n d with crd := applyAdvance n (applyQueue L n d).crd } := by
    have hadv : Blind fun d => { d with crd := applyAdvance n d.crd } := fun _ => rfl
    exact (blind_applyQueue L n).comp hadv
  have hsize (d : Device) : applySize d.crd = applySize d.blind.crd := rfl
  have hall := blind_applyDecrypt.comp (Through.read hsize hqueue)
  exact hall

theorem blind_printDetail (L : Layout) (start stop : UInt8) : Blind (crdPrintDetail L start stop) := by
  have h : Blind fun d => Device.call { d with crd := { d.crd with
      position := 0, counter := 0, crdStart := start, crdStop := stop } } (.printDetail start stop) :=
    fun _ => rfl
  exact h.comp (blind_apply L)

theorem pressKey_eos (L : Layout) (src : KeySource) (c : UInt8) (d : Device) :
    (printPressKey L src c d).prn.eos = d.prn.eos := rfl

theorem blind_released (L : Layout) : Blind (printReleased L) := by
  intro d
  have happ : (crdApply L { d with prn := d.prn.freeAct }).blind =
      (crdApply L { d.blind with prn := d.prn.freeAct }).blind :=
    ((blind_prn Print.freeAct).comp (blind_apply L)) d
  have hp : (crdApply L { d.blind with prn := d.prn.freeAct }).prn =
      (crdApply L { d with prn := d.prn.freeAct }).prn := (congrArg Device.prn happ.symm :)
  unfold printReleased
  rw [show readChar L d.blind = readChar L d from rfl, show d.blind.prn = d.prn from rfl]
  dsimp only
  rw [hp]
  simp only [pressKey_eos]
  split_ifs
  · rfl
  · exact (congrArg (fun x : Device => { x with prn :=
      { (crdApply L { d with prn := d.prn.freeAct }).prn with eos := true } }) happ :)
  · exact happ
  all_goals rfl

theorem blind_delete (L : Layout) : Blind (printDelete L) := by
  intro d
  unfold printDelete
  rw [show d.blind.prn = d.prn from rfl]
  split_ifs <;> rfl

theorem blind_update (L : Layout) : Blind (printUpdate L) := by
  intro d
  unfold printUpdate
  rw [show d.blind.prn = d.prn from rfl]
  cases d.prn.kbdStatus with
  | released => exact blind_released L d
  | delete => exact blind_delete L d
  | init | idle =>
    dsimp only
    split_ifs <;> rfl
  | pressed | deletePressed => rfl

theorem blind_load (L : Layout) (cred : UInt16) : BlindCall (crdLoadCredential L cred) := by
  intro d
  unfold crdLoadCredential
  rw [show d.blind.flash = d.flash from rfl]
  dsimp only
  split <;> rfl

theorem blind_crdPrint : Blind crdPrint := fun _ => rfl

theorem blind_next (L : Layout) : BlindCall (crdNext L) := by
  have h : BlindCall fun d => crdLoadCredential L d.crd.credential.next d :=
    fun d => blind_load L d.crd.credential.next d
  exact h.bind blind_crdPrint.call

/-- What is left of a device walked to, whether the walk ends or not. -/
def blindWalk (o : Outcome (UInt16 × Device)) : Outcome (UInt16 × Device) :=
  o.map fun p => (p.1, p.2.blind)

theorem blind_previousLoop (L : Layout) (cur : UInt16) (fuel : ℕ) (last : UInt16) (d : Device) :
    blindWalk (crdPreviousLoop L cur fuel last d) = blindWalk (crdPreviousLoop L cur fuel last d.blind) := by
  induction fuel generalizing last d with
  | zero => rfl
  | succ fuel ih =>
    have hl := blind_load L d.crd.credential.next d
    unfold crdPreviousLoop
    rw [show d.blind.crd = d.crd from rfl]
    split_ifs
    · rfl
    · cases h1 : crdLoadCredential L d.crd.credential.next d with
      | ret a =>
        cases h2 : crdLoadCredential L d.crd.credential.next d.blind with
        | ret b =>
          rw [h1, h2] at hl
          dsimp only
          rw [ih, Outcome.ret.inj hl, ← ih]
        | spin b =>
          rw [h1, h2] at hl
          cases hl
      | spin a =>
        cases h2 : crdLoadCredential L d.crd.credential.next d.blind with
        | ret b =>
          rw [h1, h2] at hl
          cases hl
        | spin b =>
          rw [h1, h2] at hl
          exact congrArg (fun s => Outcome.spin (d.crd.credential.next, s)) (Outcome.spin.inj hl)

theorem blind_previous (L : Layout) : BlindCall (crdPrevious L) := by
  intro d
  have hl := blind_previousLoop L (d.crd.credential.name - L.credentials) 65538 0 d
  have hend (cred : UInt16) : BlindCall fun d =>
      (crdLoadCredential L cred d).bind fun d => .ret (crdPrint d) :=
    (blind_load L cred).bind blind_crdPrint.call
  unfold crdPrevious
  rw [show d.blind.crd = d.crd from rfl]
  cases h1 : crdPreviousLoop L (d.crd.credential.name - L.credentials) 65538 0 d with
  | ret p =>
    cases h2 : crdPreviousLoop L (d.crd.credential.name - L.credentials) 65538 0 d.blind with
    | ret q =>
      rw [h1, h2] at hl
      obtain ⟨hlast, hdev⟩ := Prod.mk.inj (Outcome.ret.inj hl)
      dsimp only
      rw [hlast]
      exact (hend q.1).eq hdev
    | spin q =>
      rw [h1, h2] at hl
      exact absurd hl nofun
  | spin p =>
    cases h2 : crdPreviousLoop L (d.crd.credential.name - L.credentials) 65538 0 d.blind with
    | ret q =>
      rw [h1, h2] at hl
      exact absurd hl nofun
    | spin q =>
      rw [h1, h2] at hl
      exact congrArg Outcome.spin (Prod.mk.inj (Outcome.spin.inj hl)).2

theorem blind_led (l : LedStatus) : Blind fun d => { d with led := { d.led with led := l } } :=
  fun _ => rfl

theorem blind_optApply (L : Layout) : Blind (optApply L) := by
  intro d
  unfold optApply
  rw [show d.blind.uif = d.uif from rfl]
  split_ifs
  · exact ((blind_deleteStr.comp (blind_printDetail L _ _)).comp (blind_led .blinkRed)) d
  · exact ((blind_deleteStr.comp (blind_printDetail L _ _)).comp (blind_led .blinkGreen)) d

theorem blind_optFsm (L : Layout) (b : Button) : Blind (optFsm L b) := by
  intro d
  cases b with
  | left | right | notPressed => rfl
  | up => exact (blind_optApply L).eq rfl
  | down => exact (blind_optApply L).eq rfl

theorem blind_crdFsm (L : Layout) (b : Button) : BlindCall (crdFsm L b) := by
  intro d
  cases b with
  | left | notPressed => rfl
  | up => exact (blind_previous L).eq rfl
  | down => exact (blind_next L).eq rfl
  | right => exact congrArg Outcome.ret ((blind_printDetail L _ _).eq rfl)

theorem blind_failed (L : Layout) : Blind (usiFailed L) := by
  intro d
  unfold usiFailed
  rw [show d.blind.usi = d.usi from rfl]
  split_ifs <;> rfl

theorem blind_usiFsm (L : Layout) (b : Button) : BlindCall (usiFsm L b) := by
  cases b with
  | left | up | down | notPressed => exact fun _ => rfl
  | right =>
    intro d
    unfold usiFsm usiPinCheck
    dsimp only
    rw [show (printDeleteStr d.blind).usi = (printDeleteStr d).usi from rfl,
      show (printDeleteStr d.blind).pin = (printDeleteStr d).pin from rfl,
      show (printDeleteStr d.blind).eeprom = (printDeleteStr d).eeprom from rfl]
    split_ifs
    · rfl
    · cases pinMatches L (printDeleteStr d).eeprom (printDeleteStr d).pin with
      | true => rfl
      | false =>
        exact congrArg Outcome.ret ((blind_failed L).eq
          (show (usiChecked L false (printDeleteStr d)).blind = _ from rfl))
    · rfl

theorem blind_uifTask (L : Layout) : BlindCall (uifTask L) := by
  intro d
  unfold uifTask
  rw [show d.blind.uib = d.uib from rfl, show d.blind.uif = d.uif from rfl]
  split_ifs
  · cases d.uif.uifState with
    | start => rfl
    | options => exact congrArg Outcome.ret (blind_optFsm L _ d)
    | userInput => exact blind_usiFsm L _ d
    | credentials => exact blind_crdFsm L _ d
  · rfl

theorem blind_ledTask : Blind ledTask := by
  intro d
  unfold ledTask
  rw [show d.blind.led = d.led from rfl]
  dsimp only
  split_ifs <;> rfl

theorem blind_schTask (L : Layout) (timer : UInt8) (adc : Option UInt8) :
    BlindCall (schTask L timer adc) := by
  intro d
  unfold schTask schTask10ms
  rw [show d.blind.sch = d.sch from rfl]
  dsimp only
  split_ifs
  · refine (blind_uifTask L).eq ?_
    cases adc <;> rfl
  · rfl
  · rfl

theorem blind_osccalStart (L : Layout) (meas : Measure) : BlindCall (osccalStart L meas) := by
  intro d
  unfold osccalStart
  dsimp only
  split <;> rfl

/-- Every event but those of the protocol. -/
theorem blind_step (L : Layout) (e : Event) (hs : ∀ rq, e ≠ .setup rq)
    (hw : ∀ data len, e ≠ .write data len) (ht : e ≠ .writeTask) :
    BlindCall fun d => step L d e := by
  cases e with
  | setup rq => exact absurd rfl (hs rq)
  | write data len => exact absurd rfl (hw data len)
  | writeTask => exact absurd rfl ht
  | printUpdate => exact (blind_update L).call
  | ledTask => exact blind_ledTask.call
  | schTask timer adc => exact blind_schTask L timer adc
  | button b =>
    intro d
    exact (blind_uifTask L).eq rfl
  | usbReset meas => exact blind_osccalStart L meas
  | background ram => exact fun _ => rfl

end Memtype
