import Memtype.Proofs.Frames

/-! Inversion: what a button event, and what any event, can do to the protocol, the
menu state, the key and the two memories. Every invariant of the development is
proved by cases on these two relations. -/

namespace Memtype

open Lib

inductive ButtonStep (L : Layout) (b : Button) (d : Device) : Device → Prop
  | quiet {d'} (h : Calm d d') (hu : d'.ucp = d.ucp) (hs : d'.uif.uifState = d.uif.uifState) :
      ButtonStep L b d d'
  | options {d'} (h0 : d.uif.uifState = .credentials) (hb : b = .left) (h : Calm d d')
      (hu : d'.ucp = d.ucp) (hs : d'.uif.uifState = .options) : ButtonStep L b d d'
  /-- `USI_Init` -/
  | lock {d'} (h0 : d.uif.uifState = .start ∨ d.uif.uifState = .userInput ∧ b = .left)
      (h : Calm d d') (hu : d'.ucp = { d.ucp with ucpState := .deviceLocked })
      (hs : d'.uif.uifState = .userInput) : ButtonStep L b d d'
  /-- `opt_lock` -/
  | optLock {d'} (h0 : d.uif.uifState = .options) (hb : b = .left) (d1 : Device) (h : Calm d d1)
      (hf : d'.flash = d1.flash) (he : d'.eeprom = d1.eeprom)
      (hk : d'.crd.cipher.key = d1.crd.cipher.key) (hc : d'.calls = d1.calls ++ [.uifInit])
      (hu : d'.ucp = d.ucp) (hs : d'.uif.uifState = .start) : ButtonStep L b d d'
  /-- back from OPTIONS, without a check -/
  | back {d'} (h0 : d.uif.uifState = .options) (hb : b = .right) (h : Calm d d')
      (hu : d'.ucp = { d.ucp with ucpState := .idle }) (hs : d'.uif.uifState = .credentials) :
      ButtonStep L b d d'
  | accepted {d'} (h0 : d.uif.uifState = .userInput) (hb : b = .right)
      (hi : d.usi.userTextIndex = 3) (hp : d.pin ≠ erasePin)
      (hm : pinMatches L d.eeprom d.pin = true)
      (d1 d2 : Device) (h : Calm d d1) (hf : d2.flash = d1.flash) (he : d2.eeprom = d1.eeprom)
      (hk : d2.crd.cipher.key = (noekeonEncrypt (pinCipher d.pin)).key)
      (hc : d2.calls = d1.calls ++ [.pinCheck d.pin (d.eeprom.read L.lockHash 16) true])
      (h' : Calm d2 d') (hu : d'.ucp = { d.ucp with ucpState := .idle })
      (hs : d'.uif.uifState = .credentials) : ButtonStep L b d d'
  | refused {d'} (h0 : d.uif.uifState = .userInput) (hb : b = .right)
      (hi : d.usi.userTextIndex = 3) (hp : d.pin ≠ erasePin)
      (hm : pinMatches L d.eeprom d.pin = false)
      (d1 : Device) (h : Calm d d1) (hf : d'.flash = d1.flash)
      (he : d'.eeprom = d.eeprom ∧
          d'.calls = d1.calls ++ [.pinCheck d.pin (d.eeprom.read L.lockHash 16) false] ∨
        d.usi.pinRetries = 0 ∧ d'.eeprom = (usiResetPin L d).eeprom ∧
          d'.calls = d1.calls ++ [.pinCheck d.pin (d.eeprom.read L.lockHash 16) false, .resetPin])
      (hu : d'.ucp = d.ucp) (hs : d'.uif.uifState = .userInput) : ButtonStep L b d d'
  /-- the erase PIN; the call does not return -/
  | erased {d'} (h0 : d.uif.uifState = .userInput) (hb : b = .right)
      (hi : d.usi.userTextIndex = 3) (hp : d.pin = erasePin) (d1 : Device) (h : Calm d d1)
      (hf : d'.flash = d1.flash) (he : d'.eeprom = (usiResetPin L d).eeprom)
      (hk : d'.crd.cipher.key = d1.crd.cipher.key) (hc : d'.calls = d1.calls ++ [.resetPin])
      (hu : d'.ucp = d.ucp) (hs : d'.uif.uifState = .userInput) : ButtonStep L b d d'

/-- A button event makes no call of the protocol. -/
theorem button_calls {L : Layout} {b : Button} {d d' : Device} (h : ButtonStep L b d d') :
    ∃ l, d'.calls = d.calls ++ l ∧ ∀ c ∈ l, c.isPrint = true ∨ c.isMenu = true := by
  have hc {d' : Device} (h : Calm d d') :
      ∃ l, d'.calls = d.calls ++ l ∧ ∀ c ∈ l, c.isPrint = true ∨ c.isMenu = true := by
    obtain ⟨l, hl, hp⟩ := h.calls
    exact ⟨l, hl, fun c hc => .inl (hp c hc)⟩
  have hm {d1 : Device} (h : Calm d d1) (m : List Call) (hm : ∀ c ∈ m, c.isMenu = true) :
      ∃ l, d1.calls ++ m = d.calls ++ l ∧ ∀ c ∈ l, c.isPrint = true ∨ c.isMenu = true := by
    obtain ⟨l, hl, hp⟩ := h.calls
    refine ⟨l ++ m, by rw [hl, List.append_assoc], fun c hc => ?_⟩
    exact (List.mem_append.mp hc).imp (hp c) (hm c)
  cases h with
  | quiet h | options _ _ h | lock _ h | back _ _ h => exact hc h
  | optLock h0 hb d1 h hf he hk hcalls =>
    rw [hcalls]
    exact hm h _ (by simp [Call.isMenu])
  | accepted h0 hb hi hp hm' d1 d2 h hf he hk hcalls h' =>
    obtain ⟨l, hl, hl'⟩ := hm h [.pinCheck d.pin (d.eeprom.read L.lockHash 16) true]
      (by simp [Call.isMenu])
    obtain ⟨m, hm, hm'⟩ := h'.calls
    refine ⟨l ++ m, by rw [hm, hcalls, hl, List.append_assoc], fun c hc => ?_⟩
    rcases List.mem_append.mp hc with hc | hc
    · exact hl' c hc
    · exact .inl (hm' c hc)
  | refused h0 hb hi hp hm' d1 h hf he =>
    rcases he with ⟨-, he⟩ | ⟨-, -, he⟩
    all_goals
      rw [he]
      exact hm h _ (by simp [Call.isMenu])
  | erased h0 hb hi hp d1 h hf he hk hcalls =>
    rw [hcalls]
    exact hm h _ (by simp [Call.isMenu])

theorem button_flash {L : Layout} {b : Button} {d d' : Device} (h : ButtonStep L b d d') :
    d'.flash = d.flash := by
  cases h with
  | quiet h | options _ _ h | lock _ h | back _ _ h => exact h.flash
  | accepted h0 hb hi hp hm d1 d2 h hf he hk hc h' => rw [h'.flash, hf, h.flash]
  | optLock h0 hb d1 h hf => exact hf.trans h.flash
  | refused h0 hb hi hp hm d1 h hf => exact hf.trans h.flash
  | erased h0 hb hi hp d1 h hf => exact hf.trans h.flash

theorem calm_deleteStr (d : Device) : Calm d (printDeleteStr d) := (printStep_deleteStr d).calm

theorem usiInit_lock (L : Layout) (d : Device) :
    Calm d (usiInit L d) ∧ (usiInit L d).ucp = { d.ucp with ucpState := .deviceLocked } ∧
      (usiInit L d).uif.uifState = d.uif.uifState :=
  ⟨.same rfl rfl rfl rfl, rfl, rfl⟩

theorem crdFsmStart_unlock (d : Device) :
    Calm d (crdFsmStart d) ∧ (crdFsmStart d).ucp = { d.ucp with ucpState := .idle } ∧
      (crdFsmStart d).uif.uifState = .credentials :=
  ⟨⟨rfl, rfl, rfl, ⟨[.deleteStr], rfl, by simp [Call.isPrint]⟩⟩, rfl, rfl⟩

theorem PrintStep.led {d d' d1 : Device} {l : Led} (h : PrintStep d d')
    (hl : d1 = { d' with led := l }) :
    Calm d d1 ∧ d1.ucp = d.ucp ∧ d1.uif.uifState = d.uif.uifState := by
  subst hl
  exact ⟨⟨h.flash, h.eeprom, h.key, h.calls⟩, h.ucp, congrArg Uif.uifState h.uif⟩

/-- `opt_apply` prints a detail, and turns the LED on. -/
theorem optApply_print (L : Layout) (d : Device) :
    ∃ d1, PrintStep d d1 ∧ ∃ l, optApply L d = { d1 with led := l } := by
  have h (start stop : UInt8) : PrintStep d (crdPrintDetail L start stop (printDeleteStr d)) :=
    (printStep_deleteStr d).trans (printStep_printDetail L start stop _)
  unfold optApply
  split_ifs
  · exact ⟨_, h crdPass (crdPass + 1), _, rfl⟩
  · exact ⟨_, h crdUser (crdUser + 1), _, rfl⟩

theorem optApply_calm (L : Layout) (d : Device) :
    Calm d (optApply L d) ∧ (optApply L d).ucp = d.ucp ∧
      (optApply L d).uif.uifState = d.uif.uifState := by
  obtain ⟨d1, h, l, he⟩ := optApply_print L d
  rw [he]
  exact h.led rfl

theorem crdFsm_cases (L : Layout) (b : Button) (d : Device) (h0 : d.uif.uifState = .credentials) :
    ButtonStep L b d (crdFsm L b d).state := by
  have hd := printStep_deleteStr d
  have hq {d' : Device} (h : Still (printDeleteStr d) d') : ButtonStep L b d d' :=
    .quiet (hd.calm.trans h.calm) (h.ucp.trans hd.ucp)
      (congrArg Uif.uifState (h.uif.trans hd.uif))
  cases b with
  | left =>
    exact .options h0 rfl ⟨rfl, rfl, rfl, .calls [.deleteStr, .deleteStr] rfl rfl⟩ rfl rfl
  | up => exact hq (browses_previous L _).still
  | right => exact hq (printStep_printDetail L _ _ _).still
  | down => exact hq (browses_next L _).still
  | notPressed => exact hq (.refl _)

theorem optFsm_cases (L : Layout) (b : Button) (d : Device) (h0 : d.uif.uifState = .options) :
    ButtonStep L b d (optFsm L b d) := by
  cases b with
  | left => exact .optLock h0 rfl (printDeleteStr d) (calm_deleteStr d) rfl rfl rfl rfl rfl rfl
  | up =>
    obtain ⟨h, hu, hs⟩ := optApply_calm L { printDeleteStr d with uif :=
      { d.uif with optionsIndex := uifIncrement d.uif.optionsIndex maxOptSize } }
    exact .quiet ((calm_deleteStr d).trans ⟨h.flash, h.eeprom, h.key, h.calls⟩) hu hs
  | right =>
    obtain ⟨h, hu, hs⟩ := crdFsmStart_unlock d
    exact .back h0 rfl h hu hs
  | down =>
    obtain ⟨h, hu, hs⟩ := optApply_calm L { d with uif :=
      { d.uif with optionsIndex := uifDecrement d.uif.optionsIndex maxOptSize } }
    exact .quiet ⟨h.flash, h.eeprom, h.key, h.calls⟩ hu hs
  | notPressed => exact .quiet (.refl d) rfl rfl

theorem usiFailed_cases (L : Layout) (d : Device) :
    (usiFailed L d).flash = d.flash ∧ (usiFailed L d).ucp = d.ucp ∧
      (usiFailed L d).uif.uifState = d.uif.uifState ∧
      ((usiFailed L d).eeprom = d.eeprom ∧ (usiFailed L d).calls = d.calls ∨
        d.usi.pinRetries = 0 ∧ (usiFailed L d).eeprom = (usiResetPin L d).eeprom ∧
          (usiFailed L d).calls = d.calls ++ [.resetPin]) := by
  unfold usiFailed
  split_ifs with hr
  · exact ⟨rfl, rfl, rfl, .inl ⟨rfl, rfl⟩⟩
  · refine ⟨rfl, rfl, rfl, .inr ⟨?_, rfl, rfl⟩⟩
    rw [gt_iff_lt, UInt8.lt_iff_toNat_lt] at hr
    exact UInt8.toNat_inj.mp (Nat.eq_zero_of_not_pos hr)

theorem usiFsm_cases (L : Layout) (b : Button) (d : Device) (h0 : d.uif.uifState = .userInput) :
    ButtonStep L b d (usiFsm L b d).state := by
  have hd := calm_deleteStr d
  cases b with
  | left =>
    obtain ⟨h, hu, hs⟩ := usiInit_lock L (printDeleteStr d)
    exact .lock (.inr ⟨h0, rfl⟩) (hd.trans h) hu (hs.trans h0)
  | up => exact .quiet (hd.trans (.same rfl rfl rfl rfl)) rfl rfl
  | down => exact .quiet (hd.trans (.same rfl rfl rfl rfl)) rfl rfl
  | notPressed => exact .quiet (.refl d) rfl rfl
  | right =>
    unfold usiFsm
    dsimp only
    split_ifs with hi
    · unfold usiPinCheck
      split_ifs with hp
      · exact .erased h0 rfl hi hp (printDeleteStr d) hd rfl rfl rfl rfl rfl h0
      · -- the outcome of the check decides between the two other cases
        cases hm : pinMatches L (printDeleteStr d).eeprom (printDeleteStr d).pin with
        | true =>
          obtain ⟨h, hu, hs⟩ := crdFsmStart_unlock (usiChecked L true (printDeleteStr d))
          exact .accepted h0 rfl hi hp hm (printDeleteStr d) (usiChecked L true (printDeleteStr d))
            hd rfl rfl rfl rfl h hu hs
        | false =>
          obtain ⟨hf, hu, hs, hc⟩ := usiFailed_cases L (usiChecked L false (printDeleteStr d))
          refine .refused h0 rfl hi hp hm (printDeleteStr d) hd hf ?_ hu (hs.trans h0)
          rcases hc with ⟨he, hc⟩ | ⟨hr, he, hc⟩
          · exact .inl ⟨he, hc⟩
          · refine .inr ⟨hr, he, hc.trans ?_⟩
            rw [show (usiChecked L false (printDeleteStr d)).calls = (printDeleteStr d).calls ++
              [.pinCheck d.pin (d.eeprom.read L.lockHash 16) false] from rfl, List.append_assoc]
            rfl
    · exact .quiet (hd.trans (.same rfl rfl rfl rfl)) rfl rfl

/-- What `UIF_Task` can do with a button. -/
theorem uifTask_cases (L : Layout) (d : Device) (hc : d.uib.buttonChanged = true)
    (hb : d.uib.buttonPressed ≠ .notPressed) :
    ButtonStep L d.uib.buttonPressed d (uifTask L d).state := by
  unfold uifTask
  rw [if_pos ⟨hc, hb⟩]
  split
  · next h0 =>
    obtain ⟨h, hu, hs⟩ := usiInit_lock L
      (printDeleteStr { d with uif := { d.uif with uifState := .userInput } })
    refine .lock (.inl h0) ((calm_deleteStr d).trans ?_) hu hs
    exact ⟨h.flash, h.eeprom, h.key, h.calls⟩
  · next h0 => exact optFsm_cases L _ d h0
  · next h0 => exact usiFsm_cases L _ d h0
  · next h0 => exact crdFsm_cases L _ d h0

theorem uifTask_idle (L : Layout) (d : Device)
    (h : ¬(d.uib.buttonChanged = true ∧ d.uib.buttonPressed ≠ .notPressed)) :
    uifTask L d = .ret d := if_neg h

/-- A step that handles a button is `UIF_Task` with that button. -/
theorem step_handled (L : Layout) {d : Device} {e : Event} {b : Button} (h : e.handled d = some b) :
    ∃ u s a, u.buttonChanged = true ∧ u.buttonPressed = b ∧ b ≠ .notPressed ∧
      step L d e = uifTask L { d with uib := u, sch := s, adcValue := a } := by
  cases e with
  | button b' =>
    simp only [Event.handled] at h
    split_ifs at h with hb
    cases h
    exact ⟨{ d.uib with buttonPressed := b, buttonChanged := true }, d.sch, d.adcValue, rfl, rfl,
      hb, rfl⟩
  | schTask timer adc =>
    simp only [Event.handled] at h
    split_ifs at h with hb
    obtain ⟨ht, hk, hc, hn⟩ := hb
    cases h
    refine ⟨(uibTask (admTask adc d)).uib, { lastTimerVal := timer, tick := d.sch.tick + 1 },
      (admTask adc d).adcValue, hc, rfl, hn, ?_⟩
    unfold step schTask schTask10ms
    dsimp only
    rw [if_pos ht, if_pos hk]
    cases adc <;> rfl
  | _ => exact absurd h nofun

inductive StepCase (L : Layout) (d : Device) : Event → Device → Prop
  | still {e d'} (h : Still d d') : StepCase L d e d'
  | poll (rq : UsbRequest) : StepCase L d (.setup rq)
      ((ucpTask L d).call (.reply 2 (List.ofFn (ucpTask L d).ucp.customReport)))
  | decode (data : Bytes 8) (len : UInt8) : StepCase L d (.write data len) (ucpDecode L data len d)
  | write : StepCase L d .writeTask (ucpWriteTask L d).state
  | button {e d'} (b : Button) (he : e.handled d = some b) (d1 : Device) (h : Still d d1)
      (hb : ButtonStep L b d1 d') : StepCase L d e d'
  | calibrate {d'} (meas : Measure) (hf : d'.flash = d.flash) (hk : d'.crd = d.crd)
      (hc : d'.calls = d.calls) (hu : d'.ucp = d.ucp) (hs : d'.uif = d.uif) (hi : d'.usi = d.usi)
      (he : d'.eeprom = d.eeprom ∨ ∃ v, d'.eeprom = d.eeprom.write L.osccalEep 1 fun _ => v) :
      StepCase L d (.usbReset meas) d'

theorem handled_cases (L : Layout) {d : Device} {e : Event} {b : Button}
    (h : e.handled d = some b) : StepCase L d e (step L d e).state := by
  obtain ⟨u, s, a, hc, rfl, hn, hs⟩ := step_handled L h
  rw [hs]
  have hb := uifTask_cases L { d with uib := u, sch := s, adcValue := a } hc hn
  refine .button u.buttonPressed h _ ?_ hb
  exact .same rfl rfl

/-- Without a button to handle, `SCH_Task` only samples. -/
theorem schTask_idle (L : Layout) {timer : UInt8} {adc : Option UInt8} {d : Device}
    (h : (Event.schTask timer adc).handled d = none) :
    ∃ u s a, schTask L timer adc d = .ret { d with uib := u, sch := s, adcValue := a } := by
  simp only [Event.handled] at h
  unfold schTask schTask10ms
  dsimp only
  split_ifs with ht hk
  · rw [uifTask_idle]
    · cases adc <;> exact ⟨_, _, _, rfl⟩
    · intro hc
      rw [if_pos ⟨ht, hk, by cases adc <;> exact hc⟩] at h
      exact absurd h nofun
  · exact ⟨d.uib, _, d.adcValue, rfl⟩
  · exact ⟨d.uib, d.sch, d.adcValue, rfl⟩

theorem schTask_cases (L : Layout) (timer : UInt8) (adc : Option UInt8) (d : Device) :
    StepCase L d (.schTask timer adc) (schTask L timer adc d).state := by
  cases h : (Event.schTask timer adc).handled d with
  | some b => exact handled_cases L h
  | none =>
    obtain ⟨u, s, a, hs⟩ := schTask_idle L h
    rw [hs]
    exact .still (.same rfl rfl)

def UsbRequest.asksReport (rq : UsbRequest) : Bool :=
  rq.bmRequestType &&& usbrqTypeMask = usbrqTypeClass ∧ rq.bRequest = usbrqHidGetReport ∧
    rq.wValue0 = 2

theorem setup_report (L : Layout) {rq : UsbRequest} {d : Device} (h : rq.asksReport = true) :
    (usbFunctionSetup L rq d).1 =
      (ucpTask L d).call (.reply 2 (List.ofFn (ucpTask L d).ucp.customReport)) := by
  obtain ⟨h0, h1, h2⟩ : rq.bmRequestType &&& usbrqTypeMask = usbrqTypeClass ∧
    rq.bRequest = usbrqHidGetReport ∧ rq.wValue0 = 2 := by simpa [UsbRequest.asksReport] using h
  unfold usbFunctionSetup
  rw [if_neg (not_not.mpr h0), if_neg (by rw [h1]; decide), if_neg (by rw [h1]; decide),
    if_neg (by rw [h1]; decide), if_neg (by rw [h1]; decide), if_pos h1, if_neg (by rw [h2]; decide),
    if_pos h2]

/-- Every other request reaches the HID settings and the keyboard report at most, and sets the
settings to what they and the request say. -/
theorem setup_answers (L : Layout) {rq : UsbRequest} (h : ¬rq.asksReport = true) :
    ∃ f : Usb → Usb, ∀ d : Device, ∃ l,
      (usbFunctionSetup L rq d).1 = { d with usb := f d.usb, calls := d.calls ++ l } ∧
        ∀ c ∈ l, c = .reply 1 (reportBuffer d) := by
  have quiet (f : Usb → Usb) : ∃ g : Usb → Usb, ∀ d : Device, ∃ l,
      { d with usb := f d.usb } = { d with usb := g d.usb, calls := d.calls ++ l } ∧
        ∀ c ∈ l, c = .reply 1 (reportBuffer d) :=
    ⟨f, fun d => ⟨[], by rw [List.append_nil], fun _ hc => absurd hc List.not_mem_nil⟩⟩
  simp only [usbFunctionSetup]
  by_cases h0 : rq.bmRequestType &&& usbrqTypeMask ≠ usbrqTypeClass
  · simp only [if_pos h0]
    exact quiet id
  simp only [if_neg h0]
  by_cases h1 : rq.bRequest = usbrqHidGetIdle
  · simp only [if_pos h1]
    exact quiet id
  simp only [if_neg h1]
  by_cases h2 : rq.bRequest = usbrqHidSetIdle
  · simp only [if_pos h2]
    exact quiet fun u => { u with idleRate := rq.wValue1 }
  simp only [if_neg h2]
  by_cases h3 : rq.bRequest = usbrqHidGetProtocol
  · simp only [if_pos h3]
    exact quiet id
  simp only [if_neg h3]
  by_cases h4 : rq.bRequest = usbrqHidSetProtocol
  · simp only [if_pos h4]
    exact quiet fun u => { u with protocolVersion := rq.wValue1 }
  simp only [if_neg h4]
  by_cases h5 : rq.bRequest = usbrqHidGetReport
  · simp only [if_pos h5]
    by_cases h6 : rq.wValue0 = 1
    · simp only [if_pos h6]
      exact ⟨id, fun d => ⟨[.reply 1 (reportBuffer d)], rfl, fun c hc => List.mem_singleton.mp hc⟩⟩
    · have h7 : ¬rq.wValue0 = 2 := by
        intro h7
        exact h (by simpa [UsbRequest.asksReport, h5, h7] using h0)
      simp only [if_neg h6, if_neg h7]
      exact quiet id
  · simp only [if_neg h5]
    split_ifs <;> exact quiet id

theorem setup_other (L : Layout) {rq : UsbRequest} (d : Device) (h : ¬rq.asksReport = true) :
    ∃ u l, (usbFunctionSetup L rq d).1 = { d with usb := u, calls := d.calls ++ l } ∧
      ∀ c ∈ l, c = .reply 1 (reportBuffer d) := by
  obtain ⟨f, hf⟩ := setup_answers L h
  exact ⟨f d.usb, hf d⟩

theorem setup_cases (L : Layout) (rq : UsbRequest) (d : Device) :
    StepCase L d (.setup rq) (usbFunctionSetup L rq d).1 := by
  by_cases h : rq.asksReport = true
  · rw [setup_report L h]
    exact .poll rq
  · obtain ⟨u, l, hs, hl⟩ := setup_other L d h
    rw [hs]
    refine .still ⟨⟨rfl, rfl, rfl, l, rfl, fun c hc => ?_⟩, rfl, rfl, rfl⟩
    rw [hl c hc]
    rfl

/-- A `UIF_Task` without a button to handle. -/
theorem button_idle (L : Layout) {d : Device} {b : Button} (h : (Event.button b).handled d = none) :
    ∃ u, step L d (.button b) = .ret { d with uib := u } := by
  refine ⟨{ d.uib with buttonPressed := b, buttonChanged := true }, uifTask_idle L _ ?_⟩
  rintro ⟨-, hn⟩
  simp only [Event.handled] at h
  rw [if_pos hn] at h
  exact absurd h nofun

theorem usbReset_cases (L : Layout) (meas : Measure) (d : Device) :
    StepCase L d (.usbReset meas) (osccalStart L meas d).state := by
  unfold osccalStart
  dsimp only
  split
  · exact .calibrate meas rfl rfl rfl rfl rfl rfl (.inl rfl)
  · exact .calibrate meas rfl rfl rfl rfl rfl rfl (.inr ⟨_, rfl⟩)

/-- What a step can do. -/
theorem step_cases (L : Layout) (d : Device) (e : Event) : StepCase L d e (step L d e).state := by
  cases e with
  | setup rq => exact setup_cases L rq d
  | write data len => exact .decode data len
  | writeTask => exact .write
  | printUpdate => exact .still (printStep_update L d).still
  | ledTask =>
    unfold step ledTask
    dsimp only
    split_ifs <;> exact .still (.same rfl rfl)
  | schTask timer adc => exact schTask_cases L timer adc d
  | button b =>
    cases h : (Event.button b).handled d with
    | some b => exact handled_cases L h
    | none =>
      obtain ⟨u, hu⟩ := button_idle L h
      rw [hu]
      exact .still (.same rfl rfl)
  | usbReset meas => exact usbReset_cases L meas d
  | background ram => exact .still (.same rfl rfl)

theorem step_ret_cases {L : Layout} {d d' : Device} {e : Event} (h : step L d e = .ret d') :
    StepCase L d e d' := by
  have hc := step_cases L d e
  rwa [h, Outcome.state_ret] at hc

end Memtype
