import Memtype.Proofs.Protocol

/-! The two locks: that of the menus (`UIF_state`) and that of the protocol
(`UCP_state`), and the PIN between them. -/

namespace Memtype

open Lib

namespace Device

/-- The device asks for the PIN, or is about to. -/
def asksPin (d : Device) : Prop := d.uif.uifState = .start ∨ d.uif.uifState = .userInput

def menuOpen (d : Device) : Prop := d.uif.uifState = .credentials ∨ d.uif.uifState = .options

theorem asksPin_or_menuOpen (d : Device) : d.asksPin ∨ d.menuOpen := by
  unfold asksPin menuOpen
  cases d.uif.uifState <;> simp

theorem not_asksPin_of_menuOpen {d : Device} (h : d.menuOpen) : ¬d.asksPin := by
  rcases h with h | h <;> simp [asksPin, h]

theorem menuOpen_congr {d d' : Device} (h : d'.uif.uifState = d.uif.uifState) :
    d'.menuOpen ↔ d.menuOpen := by
  unfold menuOpen
  rw [h]

end Device

def Event.checksPin (d : Device) (e : Event) : Prop :=
  e.handled d = some .right ∧ d.uif.uifState = .userInput ∧ d.usi.userTextIndex = 3

def Event.pinAccepted (L : Layout) (d : Device) (e : Event) : Prop :=
  e.checksPin d ∧ d.pin ≠ erasePin ∧ pinMatches L d.eeprom d.pin = true

instance (d : Device) (e : Event) : Decidable (e.checksPin d) :=
  inferInstanceAs (Decidable (_ ∧ _ ∧ _))

instance (L : Layout) (d : Device) (e : Event) : Decidable (e.pinAccepted L d) :=
  inferInstanceAs (Decidable (_ ∧ _ ∧ _))

/-- An open menu was open before, or a PIN was accepted. -/
theorem menuOpen_button {L : Layout} {b : Button} {d d' : Device} (h : ButtonStep L b d d')
    (ho : d'.menuOpen) :
    d.menuOpen ∧ Calm d d' ∧ (d'.ucp = d.ucp ∨ d'.ucp = { d.ucp with ucpState := .idle }) ∨
      b = .right ∧ d.uif.uifState = .userInput ∧ d.usi.userTextIndex = 3 ∧ d.pin ≠ erasePin ∧
        pinMatches L d.eeprom d.pin = true ∧ d'.ucp.ucpState = .idle ∧
          d'.crd.cipher.key = (noekeonEncrypt (pinCipher d.pin)).key := by
  cases h with
  | quiet h hu hs => exact .inl ⟨(Device.menuOpen_congr hs).mp ho, h, .inl hu⟩
  | options h0 hb h hu hs => exact .inl ⟨.inl h0, h, .inl hu⟩
  | back h0 hb h hu hs => exact .inl ⟨.inr h0, h, .inr hu⟩
  | accepted h0 hb hi hp hm d1 d2 h hf he hk hc h' hu hs =>
    refine .inr ⟨hb, h0, hi, hp, hm, ?_, h'.key.trans hk⟩
    rw [hu]
  | lock h0 h hu hs => simp [Device.menuOpen, hs] at ho
  | optLock h0 hb d1 h hf he hk hc hu hs => simp [Device.menuOpen, hs] at ho
  | refused h0 hb hi hp hm d1 h hf he hu hs => simp [Device.menuOpen, hs] at ho
  | erased h0 hb hi hp d1 h hf he hk hc hu hs => simp [Device.menuOpen, hs] at ho

theorem uif_decode {L : Layout} {data : Bytes 8} {len : UInt8} {d d' : Device}
    (h : DecodeStep L data len d d') :
    d'.uif.uifState = d.uif.uifState ∨ d'.uif.uifState = .start := by
  cases h with
  | pinDone => exact .inr rfl
  | _ => exact .inl rfl

theorem key_decode {L : Layout} {data : Bytes 8} {len : UInt8} {d d' : Device}
    (h : DecodeStep L data len d d') : d'.crd.cipher.key = d.crd.cipher.key := by
  cases h <;> rfl

theorem unlocked_decode {L : Layout} {data : Bytes 8} {len : UInt8} {d d' : Device}
    (h : DecodeStep L data len d d') (hd : d.ucp.ucpState ≠ .deviceLocked) :
    d'.ucp.ucpState ≠ .deviceLocked := by
  cases h with
  | locked h h0 => exact absurd h0 hd
  | command s r o e t h h0 hs => rcases hs with rfl | rfl | rfl <;> simp [hd]
  | size | accept | half | pinDone => exact hd
  | _ => simp [Ucp.protocolError, Ucp.error]

theorem task_state (L : Layout) (d : Device) :
    (ucpTask L d).ucp.ucpState = d.ucp.ucpState ∨ (ucpTask L d).ucp.ucpState = .reading ∨
      (ucpTask L d).ucp.ucpState = .idle := by
  have h := task_cases L d
  generalize ucpTask L d = d' at h
  cases h with
  | same => exact .inl rfl
  | promote h0 ha => exact .inl rfl
  | read s r o h0 hs => exact .inr hs

/-- The deferred write ends the transfer or leaves the protocol state alone. -/
theorem writeTask_core (L : Layout) (d : Device) :
    (ucpWriteTask L d).state.uif = d.uif ∧
      (ucpWriteTask L d).state.crd.cipher.key = d.crd.cipher.key ∧
      ((ucpWriteTask L d).state.ucp.ucpState = d.ucp.ucpState ∨
        (ucpWriteTask L d).state.ucp.ucpState = .idle) := by
  have hs := writeTask_step L d
  generalize (ucpWriteTask L d).state = d' at hs ⊢
  cases hs with
  | idle hw => exact ⟨rfl, rfl, .inl rfl⟩
  | wrote hw d1 h w => exact ⟨h.uif, h.key, h.state⟩

/-- An open menu was open before the step, or the step accepted a PIN. -/
theorem menuOpen_step (L : Layout) (d : Device) (e : Event) (ho : (step L d e).state.menuOpen) :
    d.menuOpen ∧ (step L d e).state.crd.cipher.key = d.crd.cipher.key ∧
        (d.ucp.ucpState ≠ .deviceLocked → (step L d e).state.ucp.ucpState ≠ .deviceLocked) ∨
      e.pinAccepted L d ∧ (step L d e).state.ucp.ucpState = .idle ∧
        ∀ i, (step L d e).state.crd.cipher.key i = d.pin (Fin.ofNat 4 i) := by
  have h := step_cases L d e
  generalize (step L d e).state = d' at h ho
  cases h with
  | still h => exact .inl ⟨(Device.menuOpen_congr (by rw [h.uif])).mp ho, h.calm.key, by simp [h.ucp]⟩
  | poll rq =>
    obtain ⟨u, hu⟩ := task_core L d
    have hs := task_state L d
    refine .inl ⟨?_, ?_, fun hd => ?_⟩
    · simpa [hu, Device.menuOpen] using ho
    · simp [hu]
    · rcases hs with hs | hs | hs <;> simp [hs, hd]
  | decode data len =>
    have h := decode_cases L data len d
    refine .inl ⟨?_, key_decode h, unlocked_decode h⟩
    rcases uif_decode h with hs | hs
    · exact (Device.menuOpen_congr hs).mp ho
    · simp [Device.menuOpen, hs] at ho
  | write =>
    obtain ⟨hu, hk, hs⟩ := writeTask_core L d
    refine .inl ⟨(Device.menuOpen_congr (by rw [hu])).mp ho, hk, fun hd => ?_⟩
    rcases hs with hs | hs <;> simp [hs, hd]
  | button b he d1 h hb =>
    rcases menuOpen_button hb ho with ⟨hm, hc, hu⟩ | ⟨rfl, h0, hi, hp, hm, hu, hk⟩
    · refine .inl ⟨(Device.menuOpen_congr (by rw [h.uif])).mp hm, hc.key.trans h.calm.key, fun hd => ?_⟩
      rcases hu with hu | hu <;> simp [hu, h.ucp, hd]
    · have hpin : d1.pin = d.pin := by unfold Device.pin; rw [h.usi]
      rw [h.uif] at h0
      rw [h.usi] at hi
      rw [hpin] at hp hm hk
      rw [h.calm.eeprom] at hm
      exact .inr ⟨⟨⟨he, h0, hi⟩, hp, hm⟩, hu, fun i => congrFun hk i⟩
  | calibrate meas hf hk hc hu hs hi he =>
    exact .inl ⟨(Device.menuOpen_congr (by rw [hs])).mp ho, by rw [hk], by simp [hu]⟩

/-- No PIN check is called while a menu is open. -/
theorem not_checksPin_of_menuOpen {d : Device} (h : d.menuOpen) (e : Event) : ¬e.checksPin d := by
  rintro ⟨-, h0, -⟩
  rcases h with h | h <;> simp [h0] at h

/-- The run opened the menu by a PIN check that succeeded: since then no check was called
and the menu stayed open, and the key is that PIN four times. -/
def OpenedByPin (L : Layout) (o : Outcome Device) (evs : List Event) (d : Device) : Prop :=
  ∃ pre e post s s', evs = pre ++ e :: post ∧ run (step L) o pre = .ret s ∧ e.pinAccepted L s ∧
    step L s e = .ret s' ∧ Always (step L) Device.menuOpen (.ret s') post ∧
    EachStep (step L) (fun t e => ¬e.checksPin t) (.ret s') post ∧
    ∀ i, d.crd.cipher.key i = s.pin (Fin.ofNat 4 i)

theorem openedByPin_snoc {L : Layout} {o : Outcome Device} {evs : List Event} {e : Event}
    {d d' : Device} (hr : run (step L) o evs = .ret d) (hd : d.menuOpen)
    (h : OpenedByPin L o evs d) (hs : step L d e = .ret d') (hm : d'.menuOpen)
    (hk : d'.crd.cipher.key = d.crd.cipher.key) : OpenedByPin L o (evs ++ [e]) d' := by
  obtain ⟨pre, e0, post, s, s', rfl, hp, ha, hs', hall, heach, hkey⟩ := h
  have hpost : run (step L) (.ret s') post = .ret d := by
    rw [run_append, hp, run_cons, Outcome.bind_ret, hs'] at hr
    exact hr
  refine ⟨pre, e0, post ++ [e], s, s', by simp, hp, ha, hs', ?_, ?_, by rw [hk]; exact hkey⟩
  · exact always_snoc hall hpost (by rwa [hs])
  · refine eachStep_append.mpr ⟨heach, ?_⟩
    rw [hpost]
    simpa using not_checksPin_of_menuOpen hd e

/-- In every state reached from power-on, an open menu was opened by a PIN check that
succeeded since `START`, and `cipher.key` is still made of that PIN. -/
theorem menuOpen_openedByPin (L : Layout) (flash eeprom ram : Mem) (evs : List Event) (d : Device)
    (hr : run (step L) (powerOn L flash eeprom ram) evs = .ret d) (hm : d.menuOpen) :
    OpenedByPin L (powerOn L flash eeprom ram) evs d := by
  induction evs using List.reverseRecOn generalizing d with
  | nil =>
    obtain ⟨c, v, rfl⟩ := powerOn_ret hr
    simp [Device.menuOpen, uifInit, printStr, Device.call] at hm
  | append_singleton evs e ih =>
    rw [run_append] at hr
    cases ho : run (step L) (powerOn L flash eeprom ram) evs with
    | spin t => simp [ho] at hr
    | ret t =>
      have hs : step L t e = .ret d := by simpa [ho] using hr
      have hst := menuOpen_step L t e
      rw [hs] at hst
      rcases hst hm with ⟨ht, hk, -⟩ | ⟨ha, -, hk⟩
      · exact openedByPin_snoc ho ht (ih t ho ht) hs hm hk
      · exact ⟨evs, e, [], t, d, rfl, ho, ha, hs, by simpa using hm, by simp, hk⟩

def enterFactoryPin : List Event := List.replicate 5 (.button .right)

/-- A device that was never used before, as `main` enters its loop. -/
def sampleBoot : Outcome Device :=
  powerOn sampleLayout (fun _ => 0) (factoryEeprom sampleLayout) fun _ => 0

theorem openedByPin_factoryPin : OpenedByPin sampleLayout sampleBoot enterFactoryPin
    (run (step sampleLayout) sampleBoot enterFactoryPin).state :=
  menuOpen_openedByPin _ _ _ _ _ _ (Outcome.eq_ret_of_returns (by decide +kernel))
    (.inl (by decide +kernel))

def Device.refusesAll (L : Layout) (d : Device) : Prop :=
  ∀ data len, ∃ r, ucpDecode L data len d = d.setUcp { d.ucp with customReport := r } ∧
    r 0 = ucpCmdError

/-- While the menu asks for the PIN, the protocol is locked. -/
def LocksAgree (L : Layout) (d : Device) : Prop :=
  d.asksPin → d.ucp.ucpState = .deviceLocked ∧ d.refusesAll L

theorem refusesAll_of_locked (L : Layout) {d : Device} (h : d.ucp.ucpState = .deviceLocked) :
    d.refusesAll L := by
  intro data len
  have hd := decode_cases L data len d
  generalize ucpDecode L data len d = d' at hd
  cases hd with
  | size hl => exact ⟨_, rfl, rfl⟩
  | locked hl h0 => exact ⟨_, rfl, rfl⟩
  | command s r o e t hl h0 hs => exact absurd h h0.1
  | setPin hl h0 => exact absurd h h0.1
  | keyboard hl h0 => exact absurd h h0.1
  | _ => simp_all

def Event.completesPin (d : Device) : Event → Prop
  | .write _ len => len = 8 ∧ d.ucp.ucpState = .writeEeprom ∧ d.ucp.readOffset < d.ucp.readEnd ∧
      d.ucp.readEnd ≤ d.ucp.readOffset + 8 ∧ d.ucp.lockAfterSetPin = true
  | _ => False

instance (d : Device) : (e : Event) → Decidable (e.completesPin d)
  | .write _ _ => inferInstanceAs (Decidable (_ ∧ _ ∧ _ ∧ _ ∧ _))
  | .setup _ | .writeTask | .printUpdate | .ledTask | .schTask .. | .button _ | .usbReset _
  | .background _ => .isFalse id

/-- The last packet of SET_PIN calls `UIF_Init`. -/
theorem completesPin_step (L : Layout) {d : Device} {e : Event} (h : e.completesPin d) :
    ∃ data, step L d e = .ret ((uifInit L (eepromStored data d)).setUcp
      { (eepromStored data d).ucp with lockAfterSetPin := false }) := by
  cases e with
  | write data len =>
    obtain ⟨hlen, h0, ho, he, hl⟩ := h
    refine ⟨data, congrArg Outcome.ret ?_⟩
    have hd' := decode_cases L data len d
    generalize ucpDecode L data len d = d' at hd'
    cases hd' with
    | pinDone => rfl
    | _ => simp_all
  | _ => exact h.elim

/-- The menu goes back to the PIN without `UCP_Lock`: LEFT in OPTIONS, or the end of SET_PIN. -/
def Event.locksMenuOnly (d : Device) (e : Event) : Prop :=
  e.handled d = some .left ∧ d.uif.uifState = .options ∨ e.completesPin d

structure LockInv (d : Device) : Prop where
  asking : d.asksPin → d.ucp.ucpState = .deviceLocked ∧ d.ucp.usbWrite = false
  opened : d.menuOpen → d.ucp.ucpState ≠ .deviceLocked

theorem asksPin_button {L : Layout} {b : Button} {d d' : Device} (h : ButtonStep L b d d')
    (ha : d'.asksPin) (hg : ¬(b = .left ∧ d.uif.uifState = .options)) :
    d.asksPin ∧ (d'.ucp = d.ucp ∨ d'.ucp = { d.ucp with ucpState := .deviceLocked }) := by
  cases h with
  | quiet h hu hs =>
    unfold Device.asksPin at ha
    rw [hs] at ha
    exact ⟨ha, .inl hu⟩
  | lock h0 h hu hs => exact ⟨h0.imp id And.left, .inr hu⟩
  | optLock h0 hb => exact absurd ⟨hb, h0⟩ hg
  | refused h0 hb hi hp hm d1 h hf he hu hs => exact ⟨.inr h0, .inl hu⟩
  | erased h0 hb hi hp d1 h hf he hk hc hu hs => exact ⟨.inr h0, .inl hu⟩
  | options h0 hb h hu hs => simp [Device.asksPin, hs] at ha
  | back h0 hb h hu hs => simp [Device.asksPin, hs] at ha
  | accepted h0 hb hi hp hm d1 d2 h hf he hk hc h' hu hs => simp [Device.asksPin, hs] at ha

theorem task_locked (L : Layout) {d : Device} (h : d.ucp.ucpState = .deviceLocked) :
    ucpTask L d = d := by
  unfold ucpTask
  dsimp only
  rw [h]

theorem asksPin_step (L : Layout) (d : Device) (e : Event) (hd : LockInv d)
    (hg : ¬e.locksMenuOnly d) (ha : (step L d e).state.asksPin) :
    (step L d e).state.ucp.ucpState = .deviceLocked ∧ (step L d e).state.ucp.usbWrite = false := by
  have h := step_cases L d e
  generalize (step L d e).state = d' at h ha
  cases h with
  | still h =>
    rw [h.ucp]
    refine hd.asking ?_
    unfold Device.asksPin at ha
    rwa [h.uif] at ha
  | poll rq =>
    obtain ⟨u, hu⟩ := task_core L d
    rw [hu] at ha
    have h := hd.asking ha
    rw [task_locked L h.1]
    exact h
  | decode data len =>
    have h := decode_cases L data len d
    generalize ucpDecode L data len d = d' at h ha
    have hn (hu : d'.uif = d.uif) : d.ucp.ucpState = .deviceLocked ∧ d.ucp.usbWrite = false := by
      unfold Device.asksPin at ha
      rw [hu] at ha
      exact hd.asking ha
    cases h with
    | size h => exact hn rfl
    | locked h h0 => exact hn rfl
    | pinDone h h0 ho he hl => exact absurd (.inr ⟨h, h0, ho, he, hl⟩) hg
    | command s r o e t h h0 hs => exact absurd (hn rfl).1 h0.1
    | setPin h h0 => exact absurd (hn rfl).1 h0.1
    | keyboard h h0 => exact absurd (hn rfl).1 h0.1
    | openWrite h h0 => exact absurd (hn rfl).1 (by simp [h0])
    | accept h h0 => exact absurd (hn rfl).1 (by simp [h0])
    | reject h h0 => exact absurd (hn rfl).1 (by simp [h0])
    | half h h0 => exact absurd (hn rfl).1 (by simp [h0])
    | eepromDone h h0 => exact absurd (hn rfl).1 (by simp [h0])
    | eepromRefused h h0 => exact absurd (hn rfl).1 (by simp [h0])
  | write =>
    unfold Device.asksPin at ha
    rw [(writeTask_core L d).1] at ha
    have h := hd.asking ha
    rw [writeTask_none L d h.2]
    exact h
  | button b he d1 h hb =>
    have hg' : ¬(b = .left ∧ d1.uif.uifState = .options) := by
      rintro ⟨rfl, h0⟩
      rw [h.uif] at h0
      exact hg (.inl ⟨he, h0⟩)
    obtain ⟨ha', hu⟩ := asksPin_button hb ha hg'
    unfold Device.asksPin at ha'
    rw [h.uif] at ha'
    have hd' := hd.asking ha'
    rcases hu with hu | hu <;> simp [hu, h.ucp, hd']
  | calibrate meas hf hk hc hu hs hi he =>
    rw [hu]
    refine hd.asking ?_
    unfold Device.asksPin at ha
    rwa [hs] at ha

theorem lockInv_step (L : Layout) (d : Device) (e : Event) (hd : LockInv d)
    (hg : ¬e.locksMenuOnly d) : LockInv (step L d e).state := by
  refine ⟨asksPin_step L d e hd hg, fun ho => ?_⟩
  rcases menuOpen_step L d e ho with ⟨hm, -, hu⟩ | ⟨-, hu, -⟩
  · exact hu (hd.opened hm)
  · rw [hu]
    decide

/-- Each of the two ways back to the PIN leaves the protocol as it was: open. -/
theorem locksMenuOnly_step (L : Layout) (d : Device) (e : Event) (hd : LockInv d)
    (hg : e.locksMenuOnly d) : ¬LocksAgree L (step L d e).state := by
  intro h
  rcases hg with ⟨hb, h0⟩ | hc
  · obtain ⟨u, s, a, hu, hb, hn, hs⟩ := step_handled L hb
    have ho : step L d e = .ret (optLock L { d with uib := u, sch := s, adcValue := a }) := by
      rw [hs]
      unfold uifTask
      rw [if_pos ⟨hu, by rw [hb]; exact hn⟩]
      simp only [h0, hb]
      rfl
    rw [ho] at h
    exact hd.opened (.inr h0) (h (.inl rfl)).1
  · obtain ⟨data, hs⟩ := completesPin_step L hc
    rw [hs] at h
    have h0 : d.ucp.ucpState = .writeEeprom := by
      cases e with
      | write data len => exact hc.2.1
      | _ => exact hc.elim
    exact absurd (h (.inl rfl)).1 (by simp [h0])

theorem lockInv_powerOn {L : Layout} {flash eeprom ram : Mem} {d : Device}
    (h : powerOn L flash eeprom ram = .ret d) : LockInv d := by
  obtain ⟨c, v, rfl⟩ := powerOn_ret h
  refine ⟨fun _ => ⟨rfl, rfl⟩, fun ho => ?_⟩
  simp [Device.menuOpen, uifInit, printStr, Device.call] at ho

/-- The two locks agree along a run from power-on if and only if no step of it leaves the
menus without locking the protocol. -/
theorem locksAgree_iff (L : Layout) (flash eeprom ram : Mem) (evs : List Event) :
    Always (step L) (LocksAgree L) (powerOn L flash eeprom ram) evs ↔
      EachStep (step L) (fun d e => ¬e.locksMenuOnly d) (powerOn L flash eeprom ram) evs := by
  have hP (d : Device) (hd : LockInv d) : LocksAgree L d := fun ha =>
    ⟨(hd.asking ha).1, refusesAll_of_locked L (hd.asking ha).1⟩
  refine always_iff (I := LockInv) hP (fun d e hd hg => ?_)
    (fun d e hd hg => locksMenuOnly_step L d e hd (not_not.mp hg)) (fun d h => lockInv_powerOn h) evs
  have hs := lockInv_step L d e hd hg
  exact ⟨hP _ hs, fun d' h => by rwa [h] at hs⟩

/-- After `opt_lock` the menu is at `START` and the protocol open. -/
theorem not_locksAgree_optLock : ¬∀ L flash eeprom ram d,
    Reachable L flash eeprom ram d → LocksAgree L d := by
  intro h
  have hd := h sampleLayout (fun _ => 0) (factoryEeprom sampleLayout) (fun _ => 0)
    (run (step sampleLayout) sampleBoot
      (enterFactoryPin ++ [.button .left, .button .left])).state
    ⟨_, Outcome.eq_ret_of_returns (by decide +kernel)⟩ (.inl (by decide +kernel))
  exact absurd hd.1 (by decide +kernel)

end Memtype
