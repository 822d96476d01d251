import Memtype.Proofs.Buffer
import Memtype.Proofs.Deferred

/-! A device whose protocol is locked: what is left of the outside world's power over it,
and what it shows. -/

namespace Memtype

open Lib

/-- Pending data leaves room in the buffer, in whatever state the protocol is. -/
structure FillInv (u : Ucp) : Prop where
  pending : u.usbWrite = true → u.buffIndex.toNat < 64
  writting : u.ucpState = .writting → u.buffIndex.toNat ≤ u.readOffset.toNat % 64

theorem fillInv_decode {L : Layout} {data : Bytes 8} {len : UInt8} {d d' : Device}
    (h : DecodeStep L data len d d') (hd : FillInv d.ucp) : FillInv d'.ucp := by
  cases h with
  | size h => exact ⟨hd.pending, hd.writting⟩
  | locked h h0 => exact ⟨hd.pending, hd.writting⟩
  | accept h h0 hw ho => exact ⟨hd.pending, hd.writting⟩
  | reject h h0 hw => exact ⟨nofun, nofun⟩
  | openWrite h h0 hc => exact ⟨fun _ => Nat.zero_lt_succ _, fun _ => Nat.zero_le _⟩
  | half h h0 => exact ⟨hd.pending, fun hs => absurd (h0.symm.trans hs) nofun⟩
  | pinDone h h0 => exact ⟨hd.pending, fun hs => absurd (h0.symm.trans hs) nofun⟩
  | eepromDone h h0 => exact ⟨hd.pending, nofun⟩
  | eepromRefused h h0 => exact ⟨hd.pending, nofun⟩
  | setPin h h0 => exact ⟨hd.pending, nofun⟩
  | keyboard h h0 => exact ⟨hd.pending, nofun⟩
  | command s r o e t h h0 hs =>
    refine ⟨hd.pending, fun hw => ?_⟩
    rcases hs with rfl | rfl | rfl
    · exact absurd hw h0.2.1
    · exact absurd hw nofun
    · exact absurd hw nofun

theorem fillInv_task {d d' : Device} (h : TaskStep d d') (hd : FillInv d.ucp) : FillInv d'.ucp := by
  cases h with
  | same => exact hd
  | promote h0 ha =>
    refine ⟨fun _ => ?_, hd.writting⟩
    have := hd.writting h0
    simp only [setUcp_ucp]
    omega
  | read s r o h0 hs =>
    refine ⟨hd.pending, fun hw => ?_⟩
    rcases hs with rfl | rfl <;> exact absurd hw nofun

theorem fillInv_write {L : Layout} {d d' : Device} (hd : FillInv d.ucp)
    (hs : ucpWriteTask L d = .ret d') : FillInv d'.ucp := by
  cases writeTask_ret hs with
  | idle hw => exact hd
  | wrote hw d1 hl hst =>
    refine ⟨nofun, fun h0 => ?_⟩
    rcases hst.state with h1 | h1
    · have hf : d1.ucp.buffIndex.toNat ≤ d1.ucp.readOffset.toNat % 64 :=
        writeLoop_fill (d := d.call _) (hd.writting (h1.symm.trans h0)) hl
      exact hf
    · exact absurd (h1.symm.trans h0) nofun

theorem fillInv_step {L : Layout} {d d' : Device} {e : Event} (hd : FillInv d.ucp)
    (hs : step L d e = .ret d') : FillInv d'.ucp := by
  cases step_ret_cases hs with
  | still h => rwa [h.ucp]
  | poll rq =>
    have h := fillInv_task (task_cases L d) hd
    exact h
  | decode data len => exact fillInv_decode (decode_cases L data len d) hd
  | write => exact fillInv_write hd hs
  | button b he d1 h hb =>
    have h1 : FillInv d1.ucp := by rwa [h.ucp]
    cases hb with
    | lock h0 h hu =>
      rw [hu]
      exact ⟨h1.pending, nofun⟩
    | back h0 hb h hu =>
      rw [hu]
      exact ⟨h1.pending, nofun⟩
    | accepted h0 hb hi hp hm d1 d2 h hf he hk hc h' hu =>
      rw [hu]
      exact ⟨h1.pending, nofun⟩
    | quiet h hu => rwa [hu]
    | options h0 hb h hu => rwa [hu]
    | optLock h0 hb d2 h hf he hk hc hu => rwa [hu]
    | refused h0 hb hi hp hm d2 h hf he hu => rwa [hu]
    | erased h0 hb hi hp d2 h hf he hk hc hu => rwa [hu]
  | calibrate meas hf hk hc hu => rwa [hu]

theorem reachable_fillInv {L : Layout} {flash eeprom ram : Mem} {d : Device}
    (h : Reachable L flash eeprom ram d) : FillInv d.ucp := by
  obtain ⟨evs, hr⟩ := h
  refine inv_ret (P := fun d => FillInv d.ucp) (fun s e s' hs => fillInv_step hs) (fun s hs => ?_) hr
  obtain ⟨c, v, rfl⟩ := powerOn_ret hs
  exact ⟨nofun, nofun⟩

/-- A locked protocol means that no menu is open. -/
theorem reachable_asksPin {L : Layout} {flash eeprom ram : Mem} {d : Device}
    (h : Reachable L flash eeprom ram d) (hl : d.ucp.ucpState = .deviceLocked) : d.asksPin := by
  obtain ⟨evs, hr⟩ := h
  have hi : d.menuOpen → d.ucp.ucpState ≠ .deviceLocked := by
    refine inv_ret (P := fun d => d.menuOpen → d.ucp.ucpState ≠ .deviceLocked)
      (fun s e s' hs hs' ho => ?_) (fun s hs => (lockInv_powerOn hs).opened) hr
    have hm := menuOpen_step L s e
    rw [hs'] at hm
    rcases hm ho with ⟨h0, -, hu⟩ | ⟨-, hu, -⟩
    · exact hu (hs h0)
    · rw [show s'.ucp.ucpState = .idle from hu]
      decide
  rcases d.asksPin_or_menuOpen with ha | hm
  · exact ha
  · exact absurd hl (hi hm)

/-- What a step of a locked device can do when it neither accepts a PIN nor writes. -/
structure LockedStep (L : Layout) (e : Event) (d d' : Device) : Prop where
  ucp : ∃ r, d'.ucp = { d.ucp with customReport := r }
  asks : d'.asksPin
  flash : d'.flash = d.flash
  eeprom : d'.eeprom = d.eeprom ∨ d'.eeprom = (usiResetPin L d).eeprom ∨
    (∃ meas, e = .usbReset meas) ∧ ∃ v, d'.eeprom = d.eeprom.write L.osccalEep 1 fun _ => v

theorem lockedStep_button {L : Layout} {e : Event} {b : Button} {d d' : Device}
    (hb : ButtonStep L b d d') (hl : d.ucp.ucpState = .deviceLocked) (ha : d.asksPin)
    (hp : ¬(b = .right ∧ d.uif.uifState = .userInput ∧ d.usi.userTextIndex = 3 ∧
      d.pin ≠ erasePin ∧ pinMatches L d.eeprom d.pin = true)) : LockedStep L e d d' := by
  have hm (h : d.menuOpen) : False := Device.not_asksPin_of_menuOpen h ha
  have hsame : { d.ucp with customReport := d.ucp.customReport } = d.ucp := rfl
  cases hb with
  | quiet h hu hs =>
    refine ⟨⟨_, hu.trans hsame.symm⟩, ?_, h.flash, .inl h.eeprom⟩
    unfold Device.asksPin
    rwa [hs]
  | lock h0 h hu hs =>
    refine ⟨⟨d.ucp.customReport, ?_⟩, .inr hs, h.flash, .inl h.eeprom⟩
    rw [hu, ← hl]
  | refused h0 hb hi hp' hm' d1 h hf he hu hs =>
    refine ⟨⟨_, hu.trans hsame.symm⟩, .inr hs, hf.trans h.flash, ?_⟩
    rcases he with ⟨he, -⟩ | ⟨-, he, -⟩
    · exact .inl he
    · exact .inr (.inl he)
  | erased h0 hb hi hp' d1 h hf he hk hc hu hs =>
    exact ⟨⟨_, hu.trans hsame.symm⟩, .inr hs, hf.trans h.flash, .inr (.inl he)⟩
  | accepted h0 hb hi hp' hm' => exact absurd ⟨hb, h0, hi, hp', hm'⟩ hp
  | options h0 => exact (hm (.inl h0)).elim
  | back h0 => exact (hm (.inr h0)).elim
  | optLock h0 => exact (hm (.inr h0)).elim

theorem lockedStep_still {L : Layout} {e : Event} {d d' : Device} (h : Still d d')
    (ha : d.asksPin) : LockedStep L e d d' := by
  refine ⟨⟨d.ucp.customReport, h.ucp⟩, ?_, h.calm.flash, .inl h.calm.eeprom⟩
  unfold Device.asksPin
  rwa [h.uif]

theorem locked_step {L : Layout} {d : Device} {e : Event} (hl : d.ucp.ucpState = .deviceLocked)
    (ha : d.asksPin) (hp : ¬e.pinAccepted L d) (hw : e = .writeTask → d.ucp.usbWrite = false) :
    LockedStep L e d (step L d e).state := by
  have h := step_cases L d e
  generalize (step L d e).state = d' at h
  cases h with
  | still h => exact lockedStep_still h ha
  | poll rq =>
    rw [task_locked L hl]
    exact ⟨⟨_, rfl⟩, ha, rfl, .inl rfl⟩
  | decode data len =>
    obtain ⟨r, hr, -⟩ := refusesAll_of_locked L hl data len
    rw [hr]
    exact ⟨⟨r, rfl⟩, ha, rfl, .inl rfl⟩
  | write =>
    rw [writeTask_none L d (hw rfl)]
    exact lockedStep_still (.refl d) ha
  | button b he d1 h hb =>
    have h1 := lockedStep_still (L := L) (e := e) h ha
    have hpin : d1.pin = d.pin := by
      unfold Device.pin
      rw [h.usi]
    have h2 := lockedStep_button (e := e) hb (by rw [h.ucp, hl]) h1.asks (by
      rintro ⟨rfl, h0, hi, hpe, hm⟩
      rw [h.uif] at h0
      rw [h.usi] at hi
      rw [hpin] at hpe hm
      rw [h.calm.eeprom] at hm
      exact hp ⟨⟨he, h0, hi⟩, hpe, hm⟩)
    obtain ⟨r, hr⟩ := h2.ucp
    refine ⟨⟨r, by rw [hr, h.ucp]⟩, h2.asks, h2.flash.trans h.calm.flash, ?_⟩
    rcases h2.eeprom with he | he | ⟨hm, v, he⟩
    · exact .inl (he.trans h.calm.eeprom)
    · refine .inr (.inl (he.trans ?_))
      simp only [usiResetPin, call_eeprom, h.calm.eeprom]
    · exact .inr (.inr ⟨hm, v, by rw [he, h.calm.eeprom]⟩)
  | calibrate meas hf hk hc hu hs hi he =>
    refine ⟨⟨d.ucp.customReport, hu⟩, ?_, hf, ?_⟩
    · unfold Device.asksPin
      rwa [hs]
    · rcases he with he | ⟨v, he⟩
      · exact .inl he
      · exact .inr (.inr ⟨⟨meas, rfl⟩, v, he⟩)

/-- Still locked, flash as it was and no SPM command given since, and in EEPROM at most the
factory hash in place of the old one. -/
structure Inert (L : Layout) (d d' : Device) : Prop where
  state : d'.ucp.ucpState = .deviceLocked
  flash : d'.flash = d.flash
  eeprom : d'.eeprom = d.eeprom ∨ d'.eeprom = (usiResetPin L d).eeprom

/-- A write is pending and its 8 bytes reach a multiple of 64 or the end of the transfer. -/
def Ucp.flushPending (u : Ucp) : Prop :=
  u.usbWrite = true ∧ ∃ k < 8, u.dueAfter (k + 1) = true

/-- The end of a USB reset, where the oscillator is calibrated. -/
def Event.isReset : Event → Bool
  | .usbReset _ => true
  | _ => false

/-- A pending write that is not flushed leaves the lock alone. -/
theorem inert_write {L : Layout} {d d' : Device} (hd : Inert L d d') (ha : d'.asksPin)
    (hf : ¬d'.ucp.flushPending) :
    Inert L d (ucpWriteTask L d').state ∧ (ucpWriteTask L d').state.asksPin ∧
      ¬(ucpWriteTask L d').state.ucp.flushPending := by
  cases hw : d'.ucp.usbWrite with
  | false =>
    rw [writeTask_none L d' hw]
    exact ⟨hd, ha, hf⟩
  | true =>
    have hq : ∀ k < (List.ofFn d'.ucp.customReport).length,
        (d'.call (.copy d'.ucp.ucpState d'.ucp.customReport)).ucp.dueAfter (k + 1) = false := by
      intro k hk
      rw [List.length_ofFn] at hk
      exact eq_false_of_ne_true fun hdue => hf ⟨hw, k, hk, hdue⟩
    obtain ⟨t, hr⟩ := writeLoop_quiet (L := L) hq
    rw [writeTask_pending L d' hw, hr]
    exact ⟨⟨hd.state, hd.flash, hd.eeprom⟩, ha, fun hp => absurd hp.1 nofun⟩

theorem inert_step {L : Layout} {d d' : Device} {e : Event} (hd : Inert L d d') (ha : d'.asksPin)
    (hf : ¬d'.ucp.flushPending) (hp : ¬e.pinAccepted L d') (hr : e.isReset = false) :
    Inert L d (step L d' e).state ∧ (step L d' e).state.asksPin ∧
      ¬(step L d' e).state.ucp.flushPending := by
  by_cases hw : e = .writeTask
  · subst hw
    exact inert_write hd ha hf
  · have h := locked_step hd.state ha hp fun h => absurd h hw
    obtain ⟨r, hu⟩ := h.ucp
    refine ⟨⟨by rw [hu]; exact hd.state, h.flash.trans hd.flash, ?_⟩, h.asks, ?_⟩
    · rcases h.eeprom with he | he | ⟨⟨meas, rfl⟩, -⟩
      · rw [he]
        exact hd.eeprom
      · right
        rw [he]
        rcases hd.eeprom with h0 | h0
        · simp only [usiResetPin, call_eeprom, h0]
        · simp only [usiResetPin, call_eeprom, h0, Mem.write_write]
      · exact absurd hr nofun
    · rw [hu]
      exact hf

/-- From a reachable locked state the lock holds against every further sequence of events
without a successful PIN check, if and only if no pending write is about to be flushed. -/
theorem inert_iff (L : Layout) (flash eeprom ram : Mem) (d : Device)
    (hr : Reachable L flash eeprom ram d) (hl : d.ucp.ucpState = .deviceLocked) :
    (∀ evs, EachStep (step L) (fun s e => ¬e.pinAccepted L s ∧ e.isReset = false) (.ret d) evs →
      Inert L d (run (step L) (.ret d) evs).state) ↔ ¬d.ucp.flushPending := by
  constructor
  · rintro h ⟨hw, k, hk, hdue⟩
    have hi := h [.writeTask] ⟨⟨fun hp => absurd hp.1.1 nofun, rfl⟩, eachStep_nil _ _⟩
    have hb := (reachable_fillInv hr).pending hw
    have hlt : d.flash.spm.length < (ucpWriteLoop L (List.ofFn d.ucp.customReport)
        (d.call (.copy d.ucp.ucpState d.ucp.customReport))).state.flash.spm.length :=
      writeLoop_spm_lt (d := d.call _) (by simpa using hk) hdue
        (by rw [List.length_ofFn, call_ucp]; omega)
    have hf : (ucpWriteTask L d).state.flash = d.flash := hi.flash
    rw [writeTask_pending L d hw] at hf
    generalize ucpWriteLoop L _ _ = o at hlt hf
    have hof : o.state.flash = d.flash := by
      cases o with
      | ret s => exact hf
      | spin s => exact hf
    rw [hof] at hlt
    exact lt_irrefl _ hlt
  · intro hf evs hg
    have h := inv_run_of (P := fun d' => Inert L d d' ∧ d'.asksPin ∧ ¬d'.ucp.flushPending)
      (fun s e hs hg => inert_step hs.1 hs.2.1 hs.2.2 hg.1 hg.2) (o := .ret d)
      ⟨⟨hl, rfl, .inl rfl⟩, reachable_asksPin hr hl, hf⟩ hg
    exact h.1

def lockedAgain : Outcome Device :=
  run (step sampleLayout) sampleBoot
    (enterFactoryPin ++ sampleWrite ++ [.button .left, .button .left, .button .right])

/-- The device was locked from the menu after a transfer. Now come another one and a wrong PIN. -/
theorem inert_lockedAgain : Inert sampleLayout lockedAgain.state
    (run (step sampleLayout) (.ret lockedAgain.state)
      (sampleWrite ++ [.button .up, .button .right, .button .right, .button .right, .button .right] ++
        sampleWrite)).state :=
  (inert_iff sampleLayout (fun _ => 0) (factoryEeprom sampleLayout) (fun _ => 0) lockedAgain.state
    ⟨_, Outcome.eq_ret_of_returns (by decide +kernel)⟩ (by decide +kernel)).mpr
      (fun h => absurd h.1 (by decide +kernel)) _ (by decide +kernel)

/-- The lock is taken between a GET_REPORT and the deferred write of the packet it passed
on, which ends the transfer: the write is carried out and the protocol open again. -/
theorem not_inert_pendingWrite : ¬∀ L flash eeprom ram d, Reachable L flash eeprom ram d →
    d.ucp.ucpState = .deviceLocked → ∀ evs, EachStep (step L)
      (fun s e => ¬e.pinAccepted L s ∧ e.isReset = false) (.ret d) evs →
        Inert L d (run (step L) (.ret d) evs).state := by
  intro h
  have hi := h sampleLayout (fun _ => 0) (factoryEeprom sampleLayout) (fun _ => 0)
    (run (step sampleLayout) sampleBoot (enterFactoryPin ++
      [.write ![3, 0, 0, 8, 0, 0, 0, 0] 8, .write ![1, 2, 3, 4, 5, 6, 7, 8] 8, .getReport 2,
        .button .left, .button .left, .button .right])).state
    ⟨_, Outcome.eq_ret_of_returns (by decide +kernel)⟩ (by decide +kernel) [.writeTask]
    ⟨⟨fun hp => absurd hp.1.1 nofun, rfl⟩, eachStep_nil _ _⟩
  exact absurd hi.state (by decide +kernel)

end Memtype
