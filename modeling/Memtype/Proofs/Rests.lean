import Memtype.Proofs.BlockDue

/-! The steps that go on with no detail, and where `printUpdate` does. -/

namespace Memtype

open Lib

def Call.isOther : Call → Bool
  | .decrypt _ | .printDetail .. => false
  | _ => true

theorem isOther_eq {c : Call} (h : c.isOther = true) : c.block = none ∧ c.isPrintDetail = false := by
  cases c <;> simp_all [Call.isOther, Call.block, Call.isPrintDetail]

/-- Neither `CRD_printDetail` nor `CRD_apply` is called; `pin` says that a PIN is checked. -/
structure Rests (pin : Prop) (d d' : Device) : Prop where
  crd : ∃ c k, d'.crd = { d.crd with credential := c, cipher := k } ∧ (k = d.crd.cipher ∨ pin)
  callbacks : (∀ i, (d.prn.strBuf i).callback = false) → ∀ i, (d'.prn.strBuf i).callback = false
  calls : Adds Call.isOther d d'

section

variable {L : Layout} {d d' : Device} {pin : Prop}

theorem Rests.nothing (h : Rests pin d d') : d.blocksTo d' = [] ∧ d.beginsTo d' = false := by
  obtain ⟨l, hl, hp⟩ := h.calls
  unfold Device.blocksTo Device.beginsTo
  rw [callsTo_eq hl]
  refine ⟨List.filterMap_eq_nil_iff.mpr fun c hc => (isOther_eq (hp c hc)).1, ?_⟩
  exact List.any_eq_false.mpr fun c hc => by simp [(isOther_eq (hp c hc)).2]

theorem Rests.applyDone (h : Rests pin d d') (hd : d.applyDone) : d'.applyDone := by
  obtain ⟨c, k, hc, -⟩ := h.crd
  refine hd.imp (fun hd => ?_) h.callbacks
  unfold Device.applied at hd ⊢
  rwa [hc]

/-- A queue that is left as it is, or takes one plain string. -/
theorem callbacks_kept {p : Print} (hp : p.strBuf = d.prn.strBuf)
    (h : d'.prn = p ∨ ∃ str info, d'.prn = p.print str info 0)
    (hd : ∀ i, (d.prn.strBuf i).callback = false) (i : Fin 5) :
    (d'.prn.strBuf i).callback = false := by
  rw [← hp] at hd
  rcases h with h | ⟨str, info, h⟩
  · rw [h]
    exact hd i
  · rw [h]
    exact Print.callback_print hd i

/-- `USI_fsm` where it checks the PIN. -/
theorem usiFsm_rest (L : Layout) (b : Button) (d : Device) (hb : b ≠ .notPressed) :
    (∃ k, (usiFsm L b d).state.crd = { d.crd with cipher := k } ∧
      (k = d.crd.cipher ∨ b = .right ∧ d.usi.userTextIndex = 3)) ∧
      Adds Call.isOther d (usiFsm L b d).state := by
  cases b with
  | left => exact ⟨⟨_, rfl, .inl rfl⟩, .calls [.deleteStr] rfl rfl⟩
  | up => exact ⟨⟨_, rfl, .inl rfl⟩, .calls [.deleteStr] rfl rfl⟩
  | down => exact ⟨⟨_, rfl, .inl rfl⟩, .calls [.deleteStr] rfl rfl⟩
  | notPressed => exact absurd rfl hb
  | right =>
    unfold usiFsm
    dsimp only
    split_ifs with hi
    · unfold usiPinCheck
      split_ifs
      · exact ⟨⟨_, rfl, .inl rfl⟩, .calls [.deleteStr, .resetPin] rfl rfl⟩
      · have hp : Button.right = .right ∧ d.usi.userTextIndex = 3 := ⟨rfl, hi⟩
        cases pinMatches L (printDeleteStr d).eeprom (printDeleteStr d).pin with
        | true => exact ⟨⟨_, rfl, .inr hp⟩, .calls [.deleteStr, .pinCheck _ _ true, .deleteStr] rfl rfl⟩
        | false =>
          dsimp only
          unfold usiFailed
          dsimp only
          split_ifs
          · exact ⟨⟨_, rfl, .inr hp⟩, .calls [.deleteStr, .pinCheck _ _ false] rfl rfl⟩
          · exact ⟨⟨_, rfl, .inr hp⟩, .calls [.deleteStr, .pinCheck _ _ false, .resetPin] rfl rfl⟩
    · exact ⟨⟨_, rfl, .inl rfl⟩, .calls [.deleteStr] rfl rfl⟩

theorem browses_rest {d d' : Device} (h : Browses (printDeleteStr d) d') :
    (∃ c k, d'.crd = { d.crd with credential := c, cipher := k } ∧ k = d.crd.cipher) ∧
      Adds Call.isOther d d' := by
  obtain ⟨c, rfl | rfl⟩ := h
  · exact ⟨⟨_, _, rfl, rfl⟩, .calls [.deleteStr] rfl rfl⟩
  · exact ⟨⟨_, _, rfl, rfl⟩, .calls [.deleteStr] rfl rfl⟩

/-- Every button that prints no detail. -/
theorem uifTask_rests (L : Layout) (d : Device) (hc : d.uib.buttonChanged = true)
    (hb : d.uib.buttonPressed ≠ .notPressed) (hr : ¬d.reprints d.uib.buttonPressed) :
    Rests (d.uif.uifState = .userInput ∧ d.uib.buttonPressed = .right ∧ d.usi.userTextIndex = 3)
      d (uifTask L d).state := by
  have hq := (uifTask_cancels L d hc hb hr).prn
  suffices h : (∃ c k, (uifTask L d).state.crd = { d.crd with credential := c, cipher := k } ∧
      (k = d.crd.cipher ∨ d.uif.uifState = .userInput ∧ d.uib.buttonPressed = .right ∧
        d.usi.userTextIndex = 3)) ∧ Adds Call.isOther d (uifTask L d).state from
    ⟨h.1, callbacks_kept (p := { d.prn with kbdStatus := .delete }) rfl hq, h.2⟩
  unfold uifTask
  rw [if_pos ⟨hc, hb⟩]
  generalize d.uib.buttonPressed = b at hb hr
  split
  · exact ⟨⟨_, _, rfl, .inl rfl⟩, .calls [.deleteStr] rfl rfl⟩
  · next h0 =>
    cases b with
    | left => exact ⟨⟨_, _, rfl, .inl rfl⟩, .calls [.deleteStr, .uifInit] rfl rfl⟩
    | right => exact ⟨⟨_, _, rfl, .inl rfl⟩, .calls [.deleteStr] rfl rfl⟩
    | up => exact absurd (.inr ⟨h0, .inl rfl⟩) hr
    | down => exact absurd (.inr ⟨h0, .inr rfl⟩) hr
    | notPressed => exact absurd rfl hb
  · next h0 =>
    obtain ⟨⟨k, hk, hp⟩, ha⟩ := usiFsm_rest L b d hb
    exact ⟨⟨_, k, hk, hp.imp_right fun hp => ⟨h0, hp⟩⟩, ha⟩
  · next h0 =>
    cases b with
    | left => exact ⟨⟨_, _, rfl, .inl rfl⟩, .calls [.deleteStr, .deleteStr] rfl rfl⟩
    | up =>
      obtain ⟨⟨c, k, hk, hp⟩, ha⟩ := browses_rest (browses_previous L (printDeleteStr d))
      exact ⟨⟨c, k, hk, .inl hp⟩, ha⟩
    | down =>
      obtain ⟨⟨c, k, hk, hp⟩, ha⟩ := browses_rest (browses_next L (printDeleteStr d))
      exact ⟨⟨c, k, hk, .inl hp⟩, ha⟩
    | right => exact absurd (.inl ⟨h0, rfl⟩) hr
    | notPressed => exact absurd rfl hb

theorem rests_same {pin : Prop} (hc : d'.crd = d.crd) (hp : d'.prn = d.prn)
    (ha : Adds Call.isOther d d') : Rests pin d d' := by
  refine ⟨⟨d.crd.credential, d.crd.cipher, hc, .inl rfl⟩, fun h => ?_, ha⟩
  rwa [hp]

theorem rests_decode (L : Layout) (data : Bytes 8) (len : UInt8) (d : Device) :
    Rests pin d (ucpDecode L data len d) := by
  have h := decode_cases L data len d
  generalize ucpDecode L data len d = d' at h
  cases h with
  | pinDone =>
    refine ⟨⟨_, _, rfl, .inl rfl⟩, ?_, .calls [.eepromUpdate _ _, .uifInit] rfl rfl⟩
    exact callbacks_kept rfl (.inr ⟨_, _, rfl⟩)
  | accept => exact rests_same rfl rfl (.calls [.accept _] rfl rfl)
  | half => exact rests_same rfl rfl (.calls [.eepromUpdate _ _] rfl rfl)
  | eepromDone => exact rests_same rfl rfl (.calls [.eepromUpdate _ _] rfl rfl)
  | openWrite => exact rests_same rfl rfl (.calls [.openWrite] rfl rfl)
  | setPin => exact rests_same rfl rfl (.calls [.setPin] rfl rfl)
  | keyboard => exact rests_same rfl rfl (.calls [.keyboard] rfl rfl)
  | _ => exact rests_same rfl rfl (.same rfl)

theorem rests_setup (L : Layout) (rq : UsbRequest) (d : Device) :
    Rests pin d (usbFunctionSetup L rq d).1 := by
  by_cases h : rq.asksReport = true
  · obtain ⟨u, hu⟩ := task_core L d
    rw [setup_report L h, hu]
    exact rests_same rfl rfl (.calls [.reply 2 _] rfl rfl)
  · obtain ⟨u, l, hs, hl⟩ := setup_other L d h
    rw [hs]
    refine rests_same rfl rfl ⟨l, rfl, fun c hc => ?_⟩
    rw [hl c hc]
    rfl

theorem WriteStep.crd (h : WriteStep d d') : d'.crd = { d.crd with credential := d'.crd.credential } :=
  (congrArg (fun s => { s.crd with credential := d'.crd.credential }) h.frame :)

theorem WriteStep.prn (h : WriteStep d d') : d'.prn = d.prn := (congrArg Device.prn h.frame :)

theorem rests_writeTask (L : Layout) (d : Device) : Rests pin d (ucpWriteTask L d).state := by
  have hs := writeTask_step L d
  generalize (ucpWriteTask L d).state = d' at hs ⊢
  cases hs with
  | idle hw => exact rests_same rfl rfl (.refl d)
  | wrote hw d1 h w =>
    refine ⟨⟨_, _, h.crd, .inl rfl⟩, fun hcb i => ?_,
      .calls [.copy d.ucp.ucpState d.ucp.customReport] h.calls rfl⟩
    exact (congrArg (fun p : Print => (p.strBuf i).callback) h.prn).trans (hcb i)

/-- The step is none of `printUpdate` and none that prints a detail. -/
theorem rests_step (L : Layout) {d : Device} {e : Event} (hp : e.isPrintUpdate = false)
    (hr : ¬∃ b ∈ e.handled d, d.reprints b) : Rests (e.checksPin d) d (step L d e).state := by
  cases hb : e.handled d with
  | some b =>
    obtain ⟨u, s, a, hc, rfl, hn, hs⟩ := step_handled L hb
    rw [hs]
    have h := uifTask_rests L { d with uib := u, sch := s, adcValue := a } hc hn
      fun h => hr ⟨_, hb, h⟩
    obtain ⟨c, k, hk, hp⟩ := h.crd
    refine ⟨⟨c, k, hk, hp.imp_right fun ⟨h0, h1, h2⟩ => ?_⟩, h.callbacks, h.calls⟩
    rw [show u.buttonPressed = .right from h1] at hb
    exact ⟨hb, h0, h2⟩
  | none =>
    cases e with
    | setup rq => exact rests_setup L rq d
    | write data len => exact rests_decode L data len d
    | writeTask => exact rests_writeTask L d
    | printUpdate => exact absurd hp nofun
    | ledTask =>
      unfold step ledTask
      dsimp only
      split_ifs <;> exact rests_same rfl rfl (.same rfl)
    | schTask timer adc =>
      obtain ⟨u, s, a, hs⟩ := schTask_idle L hb
      have hs : step L d (.schTask timer adc) = .ret _ := hs
      rw [hs]
      exact rests_same rfl rfl (.same rfl)
    | button b =>
      obtain ⟨u, hu⟩ := button_idle L hb
      rw [hu]
      exact rests_same rfl rfl (.same rfl)
    | usbReset meas =>
      unfold step osccalStart
      dsimp only
      split <;> exact rests_same rfl rfl (.same rfl)
    | background ram => exact rests_same rfl rfl (.same rfl)

theorem rests_press (L : Layout) (src : KeySource) (c : UInt8) (d : Device) :
    Rests pin d (printPressKey L src c d) :=
  ⟨⟨_, _, rfl, .inl rfl⟩, id, .calls [.press src c] rfl rfl⟩

/-- A step on the queue that sets no `callback`. -/
theorem rests_prn {p : Print} (h : ∀ i, (p.strBuf i).callback = (d.prn.strBuf i).callback) :
    Rests pin d { d with prn := p } :=
  ⟨⟨_, _, rfl, .inl rfl⟩, fun hd i => (h i).trans (hd i), .same rfl⟩

theorem Rests.prn {p : Print} (h : Rests pin d d')
    (hp : ∀ i, (p.strBuf i).callback = (d'.prn.strBuf i).callback) :
    Rests pin d { d' with prn := p } := by
  obtain ⟨c, k, hc, hk⟩ := h.crd
  exact ⟨⟨c, k, hc, hk⟩, fun hd i => (hp i).trans (h.callbacks hd i), h.calls.trans (.same rfl)⟩

theorem rests_released (L : Layout) {d : Device}
    (h : ¬(d.prn.slot.callback = true ∧ d.prn.slot.len = 0)) : Rests pin d (printReleased L d) := by
  have hstep := Print.callback_setAct (p := d.prn) (s := { d.prn.slot with
    strPtr := d.prn.slot.strPtr + 1 }) rfl
  by_cases h1 : d.prn.slot.callback = false ∧ readChar L d = 0
  · unfold printReleased
    dsimp only
    rw [if_pos h1]
    exact rests_prn Print.callback_freeAct
  by_cases h3 : readChar L d = synchronousIdleKey
  · rw [released_pause h1 h h3]
    exact ⟨⟨_, _, rfl, .inl rfl⟩, fun hd i => (hstep i).trans (hd i), .calls [.pause] rfl rfl⟩
  obtain ⟨q, hq, hb, -⟩ := released_press h1 h h3
  rw [hq]
  refine ⟨⟨_, _, rfl, .inl rfl⟩, fun hd i => ?_, .calls [.press _ _] rfl rfl⟩
  rw [call_prn, hb]
  exact (hstep i).trans (hd i)

theorem rests_delete (L : Layout) (d : Device) : Rests pin d (printDelete L d) := by
  unfold printDelete
  dsimp only
  split_ifs
  · exact (rests_press L .erase 0x08 d).prn fun _ => rfl
  · exact rests_prn Print.callback_freeAct
  · exact rests_prn fun _ => rfl

/-- `printUpdate` where it does not call `CRD_apply`. -/
theorem rests_update (L : Layout) {d : Device} (h : ¬d.appliesNext) : Rests pin d (printUpdate L d) := by
  unfold printUpdate
  split
  · split_ifs <;> exact rests_prn fun _ => rfl
  · exact rests_prn Print.callback_decLen
  · next hk => exact rests_released L fun hs => h ⟨hk, hs⟩
  · split_ifs
    · exact rests_prn fun _ => rfl
    · exact rests_prn Print.callback_decLen
  · exact rests_delete L d
  · exact rests_prn fun _ => rfl

/-- `printUpdate` where it does. -/
theorem update_applies (L : Layout) {d : Device} (h : d.appliesNext) : ∃ q,
    printUpdate L d = { crdApply L { d with prn := d.prn.freeAct } with prn := q } := by
  obtain ⟨hk, hs⟩ := h
  unfold printUpdate
  rw [hk]
  dsimp only
  unfold printReleased
  dsimp only
  have h1 : ¬(d.prn.slot.callback = false ∧ readChar L d = 0) := fun h1 =>
    absurd (hs.1.symm.trans h1.1) nofun
  rw [if_neg h1, if_pos hs]
  split_ifs
  · exact ⟨_, rfl⟩
  · exact ⟨(crdApply L { d with prn := d.prn.freeAct }).prn, rfl⟩

end

end Memtype
