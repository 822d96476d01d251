import Memtype.Proofs.Locked

/-! Two devices with different secrets and the same locked history cannot be told apart
over the command channel. -/

namespace Memtype

open Lib

namespace Device

/-- What the menus and the protocol of a locked device go by. -/
def front (d : Device) : Device :=
  { flash := { mem := fun _ => 0 }, eeprom := fun _ => 0, ram := fun _ => 0, ucp := d.ucp,
    uif := d.uif, usi := d.usi, uib := d.uib, sch := d.sch, adcValue := d.adcValue }

end Device

theorem PrintStep.front {d d' : Device} (h : PrintStep d d') : d'.front = d.front :=
  (congrArg Device.front h.core :)

theorem usiFailed_front (L : Layout) (d : Device) :
    (usiFailed L d).front = (usiFailed L d.front).front := by
  unfold usiFailed
  rw [show d.front.usi = d.usi from rfl]
  split_ifs <;> rfl

theorem usiRight_front {L : Layout} {d : Device}
    (hp : ¬(d.usi.userTextIndex = 3 ∧ d.pin ≠ erasePin ∧ pinMatches L d.eeprom d.pin = true)) :
    ((usiFsm L .right d).state.front =
        if d.usi.userTextIndex = 3 then
          if d.pin = erasePin then d.front else (usiFailed L d.front).front
        else (usiAccept L d.front).front) ∧
      (usiFsm L .right d).returns = !decide (d.usi.userTextIndex = 3 ∧ d.pin = erasePin) := by
  unfold usiFsm
  dsimp only
  by_cases hi : d.usi.userTextIndex = 3
  · rw [if_pos (show (printDeleteStr d).usi.userTextIndex = 3 from hi), if_pos hi]
    unfold usiPinCheck
    by_cases he : d.pin = erasePin
    · rw [if_pos (show (printDeleteStr d).pin = erasePin from he), if_pos he]
      exact ⟨rfl, by simp [hi, he]⟩
    · rw [if_neg (show ¬(printDeleteStr d).pin = erasePin from he), if_neg he]
      have hm : pinMatches L (printDeleteStr d).eeprom (printDeleteStr d).pin = false :=
        eq_false_of_ne_true fun hm => hp ⟨hi, he, hm⟩
      rw [hm]
      exact ⟨usiFailed_front L (usiChecked L false (printDeleteStr d)), by simp [he]⟩
  · rw [if_neg (show ¬(printDeleteStr d).usi.userTextIndex = 3 from hi), if_neg hi]
    exact ⟨rfl, by simp [hi]⟩

theorem usiFsm_front {L : Layout} {d t : Device} (b : Button) (h : d.front = t.front)
    (hd : ¬(b = .right ∧ d.usi.userTextIndex = 3 ∧ d.pin ≠ erasePin ∧
      pinMatches L d.eeprom d.pin = true))
    (ht : ¬(b = .right ∧ t.usi.userTextIndex = 3 ∧ t.pin ≠ erasePin ∧
      pinMatches L t.eeprom t.pin = true)) :
    (usiFsm L b d).state.front = (usiFsm L b t).state.front ∧
      (usiFsm L b d).returns = (usiFsm L b t).returns := by
  have hu : d.usi = t.usi := (congrArg Device.usi h :)
  have hpin : d.pin = t.pin := by
    unfold Device.pin
    rw [hu]
  have hf (f : Device → Device) (hf : ∀ d, (f d).front = (f d.front).front) :
      (f d).front = (f t).front := by rw [hf d, hf t, h]
  cases b with
  | left => exact ⟨hf (fun d => usiInit L (printDeleteStr d)) fun _ => rfl, rfl⟩
  | up => exact ⟨hf (fun d => usiNext L (printDeleteStr d)) fun _ => rfl, rfl⟩
  | down => exact ⟨hf (fun d => usiPrevious L (printDeleteStr d)) fun _ => rfl, rfl⟩
  | notPressed => exact ⟨h, rfl⟩
  | right =>
    obtain ⟨h1, h2⟩ := usiRight_front fun hc => hd ⟨rfl, hc⟩
    obtain ⟨h3, h4⟩ := usiRight_front fun hc => ht ⟨rfl, hc⟩
    rw [h1, h2, h3, h4, h, hu, hpin]
    exact ⟨rfl, rfl⟩

def Device.accepts (L : Layout) (d : Device) (b : Button) : Prop :=
  d.uif.uifState = .userInput ∧ b = .right ∧ d.usi.userTextIndex = 3 ∧ d.pin ≠ erasePin ∧
    pinMatches L d.eeprom d.pin = true

theorem uifTask_front {L : Layout} {d t : Device} (h : d.front = t.front) (ha : d.asksPin)
    (hd : d.uib.buttonChanged = true → ¬d.accepts L d.uib.buttonPressed)
    (ht : t.uib.buttonChanged = true → ¬t.accepts L t.uib.buttonPressed) :
    (uifTask L d).state.front = (uifTask L t).state.front ∧
      (uifTask L d).returns = (uifTask L t).returns := by
  have hb : d.uib = t.uib := (congrArg Device.uib h :)
  have hu : d.uif = t.uif := (congrArg Device.uif h :)
  by_cases hc : d.uib.buttonChanged = true ∧ d.uib.buttonPressed ≠ .notPressed
  · have hc' := hc
    rw [hb] at hc'
    unfold uifTask
    rw [if_pos hc, if_pos hc']
    rcases ha with h0 | h0
    · rw [h0, show t.uif.uifState = .start by rw [← hu, h0]]
      have hf (d : Device) : (usiInit L (printDeleteStr { d with uif :=
          { d.uif with uifState := .userInput } })).front =
        (usiInit L (printDeleteStr { d.front with uif :=
          { d.front.uif with uifState := .userInput } })).front := rfl
      exact ⟨(hf d).trans (by rw [h]; exact (hf t).symm), rfl⟩
    · have h1 : t.uif.uifState = .userInput := by rw [← hu, h0]
      rw [h0, h1]
      dsimp only
      rw [hb] at hd ⊢
      exact usiFsm_front _ h (fun ha => hd hc'.1 ⟨h0, ha⟩) fun ha => ht hc'.1 ⟨h1, ha⟩
  · have hc' := hc
    rw [hb] at hc'
    rw [uifTask_idle L d hc, uifTask_idle L t hc']
    exact ⟨h, rfl⟩

theorem schTask_front {L : Layout} {d t : Device} (timer : UInt8) (adc : Option UInt8)
    (h : d.front = t.front) (ha : d.asksPin)
    (hd : ¬(Event.schTask timer adc).pinAccepted L d)
    (ht : ¬(Event.schTask timer adc).pinAccepted L t) :
    (schTask L timer adc d).state.front = (schTask L timer adc t).state.front ∧
      (schTask L timer adc d).returns = (schTask L timer adc t).returns := by
  have hs : d.sch = t.sch := (congrArg Device.sch h :)
  have hna (d : Device) (hd : ¬(Event.schTask timer adc).pinAccepted L d)
      (h1 : d.sch.lastTimerVal ≠ timer) (h2 : (d.sch.tick + 1) % 10 = 0)
      (hc : (uibTask (admTask adc d)).uib.buttonChanged = true) :
      ¬d.accepts L (uibTask (admTask adc d)).uib.buttonPressed := by
    rintro ⟨h0, hb, hi, hp, hm⟩
    refine hd ⟨⟨?_, h0, hi⟩, hp, hm⟩
    simp only [Event.handled]
    rw [if_pos ⟨h1, h2, hc, by rw [hb]; decide⟩, hb]
  have hf (f : Device → Device) (hf : ∀ d, (f d).front = (f d.front).front) :
      (f d).front = (f t).front := by rw [hf d, hf t, h]
  unfold schTask schTask10ms
  dsimp only
  by_cases h1 : d.sch.lastTimerVal ≠ timer
  · have h1' : t.sch.lastTimerVal ≠ timer := by rwa [← hs]
    rw [if_pos h1, if_pos h1']
    by_cases h2 : (d.sch.tick + 1) % 10 = 0
    · have h2' : (t.sch.tick + 1) % 10 = 0 := by rwa [← hs]
      rw [if_pos h2, if_pos h2']
      refine uifTask_front (hf (fun d => uibTask (admTask adc { d with sch :=
        { lastTimerVal := timer, tick := d.sch.tick + 1 } })) fun d => ?_) ?_ ?_ ?_
      · cases adc <;> rfl
      · cases adc <;> exact ha
      · intro hc
        cases adc <;> exact hna d hd h1 h2 hc
      · intro hc
        cases adc <;> exact hna t ht h1' h2' hc
    · rw [if_neg h2, if_neg (show ¬(t.sch.tick + 1) % 10 = 0 by rwa [← hs])]
      exact ⟨hf (fun d => { d with sch := { lastTimerVal := timer, tick := d.sch.tick + 1 } })
        fun _ => rfl, rfl⟩
  · rw [if_neg h1, if_neg (show ¬t.sch.lastTimerVal ≠ timer by rwa [← hs])]
    exact ⟨h, rfl⟩

/-- Two locked devices that agree so far. -/
structure Alike (d t : Device) : Prop where
  front : d.front = t.front
  replies : d.replies = t.replies
  state : d.ucp.ucpState = .deviceLocked
  usbWrite : d.ucp.usbWrite = false
  asks : d.asksPin

theorem Alike.ucp {d t : Device} (h : Alike d t) : d.ucp = t.ucp := (congrArg Device.ucp h.front :)

/-- Only a GET_REPORT for report 2 is answered there. -/
theorem replies_step {L : Layout} {d : Device} {e : Event} (hl : d.ucp.ucpState = .deviceLocked)
    (hw : d.ucp.usbWrite = false) (he : ∀ rq, e ≠ .setup rq) :
    (step L d e).state.replies = d.replies := by
  have h := step_cases L d e
  generalize (step L d e).state = d' at h
  cases h with
  | still h => exact replies_calm h.calm
  | poll rq => exact absurd rfl (he rq)
  | decode data len =>
    rw [decode_locked L data len hl]
    rfl
  | write => rw [writeTask_none L d hw, Outcome.state_ret]
  | button b he d1 h hb =>
    obtain ⟨m, hm, hp⟩ := button_calls hb
    exact (replies_append hm hp).trans (replies_calm h.calm)
  | calibrate meas hf hk hc => exact replies_append (m := []) (by rw [hc, List.append_nil]) (by simp)

/-- A locked device answers a GET_REPORT for report 2 with what the last packet left. -/
theorem setup_locked {L : Layout} {d : Device} (rq : UsbRequest)
    (hl : d.ucp.ucpState = .deviceLocked) :
    (usbFunctionSetup L rq d).1.front = d.front ∧
      (usbFunctionSetup L rq d).1.replies =
        if rq.asksReport then d.replies ++ [.reply 2 (List.ofFn d.ucp.customReport)]
        else d.replies := by
  by_cases h : rq.asksReport = true
  · rw [setup_report L h, if_pos h, task_locked L hl]
    exact ⟨rfl, replies_reply d _⟩
  · obtain ⟨u, l, hs, hl⟩ := setup_other L d h
    rw [hs, if_neg h]
    exact ⟨rfl, replies_append rfl fun c hc => .inl (by rw [hl c hc]; rfl)⟩

/-- The device as `UIF_Task` finds it with a button. -/
def pressed (b : Button) (d : Device) : Device :=
  { d with uib := { d.uib with buttonPressed := b, buttonChanged := true } }

/-- One event keeps two devices alike. -/
theorem alike_step {L : Layout} {d t : Device} {e : Event} (h : Alike d t)
    (hd : ¬e.pinAccepted L d) (ht : ¬e.pinAccepted L t) :
    Alike (step L d e).state (step L t e).state ∧
      (step L d e).returns = (step L t e).returns := by
  have hlt : t.ucp.ucpState = .deviceLocked := by rw [← h.ucp, h.state]
  have hwt : t.ucp.usbWrite = false := by rw [← h.ucp, h.usbWrite]
  have hls := locked_step h.state h.asks hd fun _ => h.usbWrite
  obtain ⟨r, hr⟩ := hls.ucp
  -- the front is what is left to show
  suffices hf : (step L d e).state.front = (step L t e).state.front ∧
      (step L d e).state.replies = (step L t e).state.replies ∧
      (step L d e).returns = (step L t e).returns from
    ⟨⟨hf.1, hf.2.1, by rw [hr]; exact h.state, by rw [hr]; exact h.usbWrite, hls.asks⟩, hf.2.2⟩
  have hrep (he : ∀ rq, e ≠ .setup rq) :
      (step L d e).state.replies = (step L t e).state.replies := by
    rw [replies_step h.state h.usbWrite he, replies_step hlt hwt he, h.replies]
  cases e with
  | setup rq =>
    obtain ⟨h1, h2⟩ := setup_locked (L := L) rq h.state
    obtain ⟨h3, h4⟩ := setup_locked (L := L) rq hlt
    refine ⟨h1.trans (h.front.trans h3.symm), h2.trans ?_, rfl⟩
    rw [h.replies, h.ucp]
    exact h4.symm
  | write data len =>
    refine ⟨?_, hrep nofun, rfl⟩
    show (ucpDecode L data len d).front = (ucpDecode L data len t).front
    rw [decode_locked L data len h.state, decode_locked L data len hlt]
    have hf (d : Device) : (d.setUcp ((d.ucp.received data).error
      (if len ≠ 8 then ucpErrSize else ucpErrLocked))).front = (d.front.setUcp
        ((d.front.ucp.received data).error (if len ≠ 8 then ucpErrSize else ucpErrLocked))).front := rfl
    rw [hf d, hf t, h.front]
  | writeTask =>
    have hs (d : Device) (hw : d.ucp.usbWrite = false) : step L d .writeTask = .ret d :=
      writeTask_none L d hw
    rw [hs d h.usbWrite, hs t hwt]
    exact ⟨h.front, h.replies, rfl⟩
  | printUpdate =>
    refine ⟨?_, hrep nofun, rfl⟩
    exact (printStep_update L d).front.trans (h.front.trans (printStep_update L t).front.symm)
  | ledTask =>
    have hf (d : Device) : (ledTask d).front = d.front := by
      unfold ledTask
      dsimp only
      split_ifs <;> rfl
    exact ⟨(hf d).trans (h.front.trans (hf t).symm), hrep nofun, rfl⟩
  | schTask timer adc =>
    obtain ⟨h1, h2⟩ := schTask_front timer adc h.front h.asks hd ht
    exact ⟨h1, hrep nofun, h2⟩
  | button b =>
    have hf (d : Device) : (pressed b d).front = (pressed b d.front).front := rfl
    have hna (d : Device) (hd : ¬(Event.button b).pinAccepted L d) : ¬d.accepts L b := by
      rintro ⟨h0, rfl, hi, hp, hm⟩
      exact hd ⟨⟨rfl, h0, hi⟩, hp, hm⟩
    obtain ⟨h1, h2⟩ := uifTask_front (L := L) (d := pressed b d) (t := pressed b t)
      (by rw [hf d, hf t, h.front]) h.asks (fun _ => hna d hd) fun _ => hna t ht
    exact ⟨h1, hrep nofun, h2⟩
  | usbReset meas =>
    have hf (d : Device) : (osccalStart L meas d).state.front = d.front := by
      unfold osccalStart
      dsimp only
      split <;> rfl
    refine ⟨(hf d).trans (h.front.trans (hf t).symm), hrep nofun, ?_⟩
    show (osccalStart L meas d).returns = (osccalStart L meas t).returns
    unfold osccalStart
    dsimp only
    split <;> rfl
  | background ram => exact ⟨h.front, hrep nofun, rfl⟩

/-- Flash is as at power-on, and so is EEPROM but for the calibration byte, unless it has
the factory hash for the old one. -/
structure Untouched (L : Layout) (flash eeprom : Mem) (d : Device) : Prop where
  flash : d.flash.mem = flash ∧ d.flash.spm = []
  eeprom : (∀ a, a ≠ L.osccalEep → d.eeprom a = eeprom a) ∨
    ∀ a, a ≠ L.osccalEep →
      d.eeprom a = eeprom.write L.lockHash 16 (fun i => lockHashPgm (Fin.ofNat 16 i)) a

theorem untouched_step {L : Layout} {flash eeprom : Mem} {d d' : Device} {e : Event}
    (hu : Untouched L flash eeprom d) (h : LockedStep L e d d') : Untouched L flash eeprom d' := by
  refine ⟨by rw [h.flash]; exact hu.flash, ?_⟩
  rcases h.eeprom with he | he | ⟨-, v, he⟩
  · rw [he]
    exact hu.eeprom
  · refine .inr fun a ha => ?_
    rw [he]
    simp only [usiResetPin, call_eeprom]
    by_cases hin : (a - L.lockHash).toNat < 16
    · rw [Mem.write_in hin, Mem.write_in hin]
    · rw [Mem.write_out (not_lt.mp hin), Mem.write_out (not_lt.mp hin)]
      rcases hu.eeprom with h0 | h0
      · exact h0 a ha
      · rw [h0 a ha, Mem.write_out (not_lt.mp hin)]
  · have hsame (a : UInt16) (ha : a ≠ L.osccalEep) : d'.eeprom a = d.eeprom a := by
      rw [he]
      exact Mem.write_out (Mem.toNat_sub_pos ha)
    rcases hu.eeprom with h0 | h0
    · exact .inl fun a ha => (hsame a ha).trans (h0 a ha)
    · exact .inr fun a ha => (hsame a ha).trans (h0 a ha)

theorem untouched_run {L : Layout} {flash eeprom ram : Mem} {d : Device}
    (h : powerOn L flash eeprom ram = .ret d) {evs : List Event}
    (hg : EachStep (step L) (fun d e => ¬e.pinAccepted L d) (.ret d) evs) :
    Untouched L flash eeprom (run (step L) (.ret d) evs).state := by
  have hr := inv_run_of (P := fun d => (d.ucp.ucpState = .deviceLocked ∧ d.ucp.usbWrite = false ∧
      d.asksPin) ∧ Untouched L flash eeprom d) (fun s e hs hg => ?_) (o := .ret d) ?_ hg
  · exact hr.2
  · obtain ⟨⟨hl, hw, ha⟩, hu⟩ := hs
    have hs := locked_step hl ha hg fun _ => hw
    obtain ⟨r, hr⟩ := hs.ucp
    refine ⟨⟨?_, ?_, hs.asks⟩, untouched_step hu hs⟩
    · rw [hr]
      exact hl
    · rw [hr]
      exact hw
  · obtain ⟨c, v, rfl⟩ := powerOn_ret h
    exact ⟨⟨rfl, rfl, .inl rfl⟩, ⟨rfl, rfl⟩, .inl fun _ _ => rfl⟩

/-- Two devices that have booted on any flash, EEPROM and RAM, and that see the same events
without a successful PIN check, answer every GET_REPORT for report 2 alike and keep what
they hold. -/
theorem locked_twoRuns (L : Layout) (flash₁ eeprom₁ ram₁ flash₂ eeprom₂ ram₂ : Mem)
    (d₁ d₂ : Device) (h₁ : powerOn L flash₁ eeprom₁ ram₁ = .ret d₁)
    (h₂ : powerOn L flash₂ eeprom₂ ram₂ = .ret d₂) (evs : List Event)
    (hg₁ : EachStep (step L) (fun d e => ¬e.pinAccepted L d) (.ret d₁) evs)
    (hg₂ : EachStep (step L) (fun d e => ¬e.pinAccepted L d) (.ret d₂) evs) :
    (run (step L) (.ret d₁) evs).state.replies = (run (step L) (.ret d₂) evs).state.replies ∧
      Untouched L flash₁ eeprom₁ (run (step L) (.ret d₁) evs).state ∧
      Untouched L flash₂ eeprom₂ (run (step L) (.ret d₂) evs).state := by
  refine ⟨?_, untouched_run h₁ hg₁, untouched_run h₂ hg₂⟩
  have ha : Alike d₁ d₂ := by
    obtain ⟨c₁, v₁, rfl⟩ := powerOn_ret h₁
    obtain ⟨c₂, v₂, rfl⟩ := powerOn_ret h₂
    exact ⟨rfl, rfl, rfl, rfl, .inl rfl⟩
  have hstep (s t : Device) (e : Event) (hst : Alike s t) (hs : ¬e.pinAccepted L s)
      (ht : ¬e.pinAccepted L t) : Alike (step L s e).state (step L t e).state ∧
        (step L s e).returns = (step L t e).returns := alike_step hst hs ht
  exact (rel_run hstep (o := .ret d₁) (p := .ret d₂) ha rfl hg₁ hg₂).1.replies

def wrongPin : List Event :=
  [.write ![2, 0, 0, 8, 0, 0, 0, 0] 8, .getReport 2, .button .right, .button .up, .button .right,
    .button .right, .button .right, .button .right, .getReport 2, .writeTask]

def otherBoot : Outcome Device :=
  powerOn sampleLayout (Mem.write (fun _ => 0) 0x1000 4 fun _ => 7) (fun _ => 0) fun _ => 0

theorem locked_twoRuns_wrongPin :
    (run (step sampleLayout) (.ret sampleBoot.state) wrongPin).state.replies =
        (run (step sampleLayout) (.ret otherBoot.state) wrongPin).state.replies ∧
      Untouched sampleLayout (fun _ => 0) (factoryEeprom sampleLayout)
        (run (step sampleLayout) (.ret sampleBoot.state) wrongPin).state ∧
      Untouched sampleLayout (Mem.write (fun _ => 0) 0x1000 4 fun _ => 7) (fun _ => 0)
        (run (step sampleLayout) (.ret otherBoot.state) wrongPin).state :=
  locked_twoRuns sampleLayout (fun _ => 0) (factoryEeprom sampleLayout) (fun _ => 0)
    (Mem.write (fun _ => 0) 0x1000 4 fun _ => 7) (fun _ => 0) (fun _ => 0) sampleBoot.state
    otherBoot.state (Outcome.eq_ret_of_returns (by decide +kernel))
    (Outcome.eq_ret_of_returns (by decide +kernel)) wrongPin (by decide +kernel) (by decide +kernel)

end Memtype
