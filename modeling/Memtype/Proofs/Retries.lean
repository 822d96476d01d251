import Memtype.Proofs.Eeprom

/-! PIN checks in a row that fail, and the counter that stands for them. -/

namespace Memtype

open Lib

def Call.isCheck : Call → Bool
  | .resetPin | .pinCheck .. => true
  | _ => false

def countFailure (n : ℕ) : Call → ℕ
  | .resetPin => 0
  | .pinCheck _ _ ok => if ok then 0 else n + 1
  | _ => n

/-- The checks that failed one after the other up to now: since power-on, the last check that
succeeded and the last reset of the PIN. -/
def streak (l : List Call) : ℕ := l.foldl countFailure 0

def Event.pinRefused (L : Layout) (d : Device) (e : Event) : Prop :=
  e.checksPin d ∧ d.pin ≠ erasePin ∧ pinMatches L d.eeprom d.pin = false

def Event.pinErased (d : Device) (e : Event) : Prop := e.checksPin d ∧ d.pin = erasePin

/-- The PIN is reset at the third failure in a row and at no other step, and a check that
succeeds gives back all retries. -/
structure CountsRetries (L : Layout) (d : Device) (e : Event) : Prop where
  reset : ¬e.pinErased d → (.resetPin ∈ d.newCalls (step L d e).state ↔
    e.pinRefused L d ∧ streak d.calls + 1 = 3)
  full : e.pinAccepted L d → (step L d e).state.usi.pinRetries = usiPinRetries

def Event.forgives (L : Layout) (d : Device) (e : Event) : Prop :=
  e.pinAccepted L d ∧ 0 < streak d.calls

instance (d : Device) (e : Event) : Decidable (e.pinErased d) :=
  inferInstanceAs (Decidable (_ ∧ _))

instance (L : Layout) (d : Device) (e : Event) : Decidable (e.forgives L d) :=
  inferInstanceAs (Decidable (_ ∧ _))

abbrev NoCheck (d d' : Device) : Prop := Adds (fun c => !c.isCheck) d d'

theorem Calm.noCheck {d d' : Device} (h : Calm d d') : NoCheck d d' := by
  refine Adds.mono h.calls fun c hc => ?_
  cases c <;> simp_all [Call.isPrint, Call.isCheck]

theorem countFailure_other (n : ℕ) {c : Call} (h : c.isCheck = false) : countFailure n c = n := by
  cases c with
  | resetPin | pinCheck => exact absurd h (by simp [Call.isCheck])
  | _ => rfl

theorem streak_append (l : List Call) {m : List Call} (h : ∀ c ∈ m, c.isCheck = false) :
    streak (l ++ m) = streak l := by
  unfold streak
  rw [List.foldl_append]
  generalize l.foldl countFailure 0 = n
  induction m with
  | nil => rfl
  | cons c m ih =>
    rw [List.foldl_cons, countFailure_other n (h c List.mem_cons_self)]
    exact ih fun c' hc' => h c' (List.mem_cons_of_mem c hc')

theorem streak_noCheck {d d' : Device} (h : NoCheck d d') : streak d'.calls = streak d.calls := by
  obtain ⟨m, hm, hp⟩ := h
  rw [hm]
  exact streak_append _ fun c hc => by simpa using hp c hc

theorem streak_check (l : List Call) (p : Bytes 4) (q : Bytes 16) (ok : Bool) :
    streak (l ++ [.pinCheck p q ok]) = if ok then 0 else streak l + 1 := by
  unfold streak
  rw [List.foldl_append]
  rfl

theorem streak_reset (l : List Call) : streak (l ++ [.resetPin]) = 0 := by
  unfold streak
  rw [List.foldl_append]
  rfl

theorem not_reset_noCheck {d d' : Device} (h : NoCheck d d') : .resetPin ∉ d.newCalls d' := by
  obtain ⟨m, hm, hp⟩ := h
  rw [newCalls_eq hm]
  intro h
  exact absurd (hp _ h) (by simp [Call.isCheck])

/-- The calls of a check, between others. -/
theorem reset_mem_iff {d d1 d2 d' : Device} (cs : List Call) (h1 : NoCheck d d1)
    (h2 : d2.calls = d1.calls ++ cs) (hc : NoCheck d2 d') :
    .resetPin ∈ d.newCalls d' ↔ .resetPin ∈ cs := by
  obtain ⟨m, hm, hp⟩ := h1
  obtain ⟨l, hl, hq⟩ := hc
  have hno (m : List Call) (hp : ∀ c ∈ m, (!c.isCheck) = true) : .resetPin ∉ m := fun h =>
    absurd (hp _ h) (by simp [Call.isCheck])
  rw [newCalls_eq (m := m ++ cs ++ l) (by rw [hl, h2, hm, List.append_assoc, List.append_assoc,
    List.append_assoc])]
  simp [hno m hp, hno l hq]

inductive CheckStep (L : Layout) (d : Device) (e : Event) (d' : Device) : Prop
  | none (h : ¬e.checksPin d) (hr : d'.usi.pinRetries = d.usi.pinRetries) (hc : NoCheck d d')
  | accepted (h : e.pinAccepted L d) (hr : d'.usi.pinRetries = d.usi.pinRetries)
      (d1 : Device) (p : Bytes 4) (q : Bytes 16) (h1 : NoCheck d d1)
      (hc : NoCheck (d1.call (.pinCheck p q true)) d')
  | refused (h : e.pinRefused L d) (h0 : 0 < d.usi.pinRetries)
      (hr : d'.usi.pinRetries = d.usi.pinRetries - 1) (d1 : Device) (p : Bytes 4) (q : Bytes 16)
      (h1 : NoCheck d d1) (hc : NoCheck (d1.call (.pinCheck p q false)) d')
  | reset (h : e.pinRefused L d) (h0 : ¬0 < d.usi.pinRetries)
      (hr : d'.usi.pinRetries = usiPinRetries) (d1 : Device) (p : Bytes 4) (q : Bytes 16)
      (h1 : NoCheck d d1) (hc : NoCheck ((d1.call (.pinCheck p q false)).call .resetPin) d')
  | erased (h : e.pinErased d) (hs : (step L d e).returns = false)

def Device.checks (d : Device) (b : Button) : Prop :=
  b = .right ∧ d.uif.uifState = .userInput ∧ d.usi.userTextIndex = 3

theorem noCheck_browses {d d' : Device} (h : Browses (printDeleteStr d) d') :
    d'.usi.pinRetries = d.usi.pinRetries ∧ NoCheck d d' := by
  refine ⟨congrArg Usi.pinRetries h.still.usi, ?_⟩
  exact (calm_deleteStr d).noCheck.trans h.still.calm.noCheck

theorem noCheck_optApply (L : Layout) (d d1 : Device) (hu : d1.usi = d.usi) (h : NoCheck d d1) :
    (optApply L d1).usi.pinRetries = d.usi.pinRetries ∧ NoCheck d (optApply L d1) := by
  refine ⟨?_, h.trans (optApply_calm L d1).1.noCheck⟩
  obtain ⟨d2, hp, l, he⟩ := optApply_print L d1
  rw [he]
  exact congrArg Usi.pinRetries (hp.usi.trans hu)

theorem uifTask_noCheck (L : Layout) (d : Device) (hc : d.uib.buttonChanged = true)
    (hb : d.uib.buttonPressed ≠ .notPressed) (hn : ¬d.checks d.uib.buttonPressed) :
    (uifTask L d).state.usi.pinRetries = d.usi.pinRetries ∧ NoCheck d (uifTask L d).state := by
  unfold uifTask
  rw [if_pos ⟨hc, hb⟩]
  generalize d.uib.buttonPressed = b at hn
  split
  · exact ⟨rfl, .calls [.deleteStr] rfl rfl⟩
  · cases b with
    | left => exact ⟨rfl, .calls [.deleteStr, .uifInit] rfl rfl⟩
    | right => exact ⟨rfl, .calls [.deleteStr] rfl rfl⟩
    | up =>
      apply noCheck_optApply L d
      · rfl
      · exact .calls [.deleteStr] rfl rfl
    | down =>
      apply noCheck_optApply L d
      · rfl
      · exact .same rfl
    | notPressed => exact ⟨rfl, .refl d⟩
  · next h0 =>
    cases b with
    | left => exact ⟨rfl, .calls [.deleteStr] rfl rfl⟩
    | up => exact ⟨rfl, .calls [.deleteStr] rfl rfl⟩
    | down => exact ⟨rfl, .calls [.deleteStr] rfl rfl⟩
    | notPressed => exact ⟨rfl, .refl d⟩
    | right =>
      unfold usiFsm
      dsimp only
      rw [if_neg (show ¬(printDeleteStr d).usi.userTextIndex = 3 from fun hi => hn ⟨rfl, h0, hi⟩)]
      exact ⟨rfl, .calls [.deleteStr] rfl rfl⟩
  · cases b with
    | left => exact ⟨rfl, .calls [.deleteStr, .deleteStr] rfl rfl⟩
    | up => exact noCheck_browses (browses_previous L (printDeleteStr d))
    | down => exact noCheck_browses (browses_next L (printDeleteStr d))
    | notPressed => exact ⟨rfl, .calls [.deleteStr] rfl rfl⟩
    | right =>
      have h := printStep_printDetail L crdUser crdEnd (printDeleteStr d)
      exact ⟨congrArg Usi.pinRetries h.usi, (calm_deleteStr d).noCheck.trans h.calm.noCheck⟩

theorem usiFailed_retries (L : Layout) (d : Device) :
    (0 < d.usi.pinRetries ∧ (usiFailed L d).usi.pinRetries = d.usi.pinRetries - 1 ∧
        NoCheck d (usiFailed L d)) ∨
      ¬0 < d.usi.pinRetries ∧ (usiFailed L d).usi.pinRetries = usiPinRetries ∧
        NoCheck (d.call .resetPin) (usiFailed L d) := by
  unfold usiFailed
  split_ifs with h
  · exact .inl ⟨h, rfl, .same rfl⟩
  · exact .inr ⟨h, rfl, .same rfl⟩

/-- RIGHT at the last digit is the check and what follows from its outcome. -/
theorem usiFsm_checks (L : Layout) {d : Device} (hi : d.usi.userTextIndex = 3) :
    usiFsm L .right d = if d.pin = erasePin then .spin (usiResetPin L (printDeleteStr d))
      else if pinMatches L d.eeprom d.pin then
        .ret (crdFsmStart (usiChecked L true (printDeleteStr d)))
      else .ret (usiFailed L (usiChecked L false (printDeleteStr d))) := by
  unfold usiFsm
  dsimp only
  rw [if_pos (show (printDeleteStr d).usi.userTextIndex = 3 from hi)]
  unfold usiPinCheck
  by_cases hp : d.pin = erasePin
  · rw [if_pos hp, if_pos (show (printDeleteStr d).pin = erasePin from hp)]
  · rw [if_neg hp, if_neg (show ¬(printDeleteStr d).pin = erasePin from hp)]
    cases hm : pinMatches L d.eeprom d.pin with
    | true =>
      rw [show pinMatches L (printDeleteStr d).eeprom (printDeleteStr d).pin = true from hm]
      rfl
    | false =>
      rw [show pinMatches L (printDeleteStr d).eeprom (printDeleteStr d).pin = false from hm]
      rfl

theorem checkStep_checks (L : Layout) {d : Device} {e : Event} (h : e.checksPin d) :
    CheckStep L d e (step L d e).state := by
  obtain ⟨u, s, a, hc, hb, -, hs⟩ := step_handled L h.1
  have hu : step L d e = usiFsm L .right { d with uib := u, sch := s, adcValue := a } := by
    rw [hs]
    unfold uifTask
    rw [if_pos ⟨hc, by rw [hb]; nofun⟩]
    dsimp only
    rw [h.2.1, hb]
  rw [usiFsm_checks L (d := { d with uib := u, sch := s, adcValue := a }) h.2.2] at hu
  generalize hd1 : printDeleteStr { d with uib := u, sch := s, adcValue := a } = d1 at hu
  replace hu : step L d e = if d.pin = erasePin then .spin (usiResetPin L d1)
    else if pinMatches L d.eeprom d.pin then .ret (crdFsmStart (usiChecked L true d1))
    else .ret (usiFailed L (usiChecked L false d1)) := hu
  have hdel : NoCheck d d1 := by
    rw [← hd1]
    exact .calls [.deleteStr] rfl rfl
  have hret : d1.usi.pinRetries = d.usi.pinRetries := by
    rw [← hd1]
    rfl
  by_cases hp : d.pin = erasePin
  · refine .erased ⟨h, hp⟩ ?_
    rw [hu, if_pos hp]
    rfl
  · rw [if_neg hp] at hu
    by_cases hm : pinMatches L d.eeprom d.pin = true
    · rw [if_pos hm] at hu
      rw [hu]
      refine .accepted ⟨h, hp, hm⟩ hret d1 d1.pin (d1.eeprom.read L.lockHash 16) hdel ?_
      exact Adds.trans (b := usiChecked L true d1) (.same rfl) (crdFsmStart_unlock _).1.noCheck
    · rw [if_neg hm] at hu
      rw [hu]
      have hr : e.pinRefused L d := ⟨h, hp, eq_false_of_ne_true hm⟩
      have hch : (usiChecked L false d1).usi.pinRetries = d.usi.pinRetries := hret
      rcases usiFailed_retries L (usiChecked L false d1) with ⟨h0, hr', hc⟩ | ⟨h0, hr', hc⟩
      · rw [hch] at h0 hr'
        exact .refused hr h0 hr' d1 _ _ hdel (Adds.trans (.same rfl) hc)
      · rw [hch] at h0
        exact .reset hr h0 hr' d1 _ _ hdel (Adds.trans (.same rfl) hc)

/-- What a step can do to the retries. -/
theorem checkStep_cases (L : Layout) (d : Device) (e : Event) :
    CheckStep L d e (step L d e).state := by
  by_cases hk : e.checksPin d
  · exact checkStep_checks L hk
  cases hh : e.handled d with
  | some b =>
    obtain ⟨u, s, a, hc, rfl, hn, hs⟩ := step_handled L hh
    obtain ⟨hr, hq⟩ := uifTask_noCheck L { d with uib := u, sch := s, adcValue := a } hc hn
      fun h => hk ⟨by rw [hh]; exact congrArg some h.1, h.2⟩
    rw [hs]
    exact .none hk hr hq
  | none =>
    have h := step_cases L d e
    generalize (step L d e).state = d' at h
    cases h with
    | still h => exact .none hk (by rw [h.usi]) h.calm.noCheck
    | poll rq =>
      obtain ⟨u, hu⟩ := task_core L d
      rw [hu]
      exact .none hk rfl (.calls [.reply 2 _] rfl rfl)
    | decode data len =>
      have hd := decode_cases L data len d
      generalize ucpDecode L data len d = d' at hd
      cases hd with
      | accept => exact .none hk rfl (.calls [.accept _] rfl rfl)
      | half => exact .none hk rfl (.calls [.eepromUpdate _ _] rfl rfl)
      | pinDone => exact .none hk rfl (.calls [.eepromUpdate _ _, .uifInit] rfl rfl)
      | eepromDone => exact .none hk rfl (.calls [.eepromUpdate _ _] rfl rfl)
      | openWrite => exact .none hk rfl (.calls [.openWrite] rfl rfl)
      | setPin => exact .none hk rfl (.calls [.setPin] rfl rfl)
      | keyboard => exact .none hk rfl (.calls [.keyboard] rfl rfl)
      | _ => exact .none hk rfl (.same rfl)
    | write =>
      have hs := writeTask_step L d
      generalize (ucpWriteTask L d).state = d' at hs ⊢
      cases hs with
      | idle hw => exact .none hk rfl (.refl d)
      | wrote hw d1 h w =>
        exact .none hk (congrArg Usi.pinRetries h.usi) (.calls [.copy _ _] h.calls rfl)
    | button b he => exact absurd (hh.symm.trans he) nofun
    | calibrate meas hf hk' hc hu hs hi => exact .none hk (by rw [hi]) (.same hc)

/-- The retries that are left and the failures so far. -/
def RetryInv (d : Device) : Prop := d.usi.pinRetries.toNat + streak d.calls = 2

theorem retryInv_step {L : Layout} {d d' : Device} {e : Event} (hd : RetryInv d)
    (hg : ¬e.forgives L d) (hs : step L d e = .ret d') : RetryInv d' := by
  have h := checkStep_cases L d e
  unfold RetryInv at hd ⊢
  have hst : (step L d e).state = d' := by rw [hs]; rfl
  cases h with
  | none h hr hc =>
    rw [hst] at hr hc
    rw [hr, streak_noCheck hc]
    exact hd
  | accepted h hr d1 p q h1 hc =>
    have h0 : streak d.calls = 0 := Nat.eq_zero_of_not_pos fun h0 => hg ⟨h, h0⟩
    rw [hst] at hr hc
    rw [hr, streak_noCheck hc, call_calls, streak_check, if_pos rfl]
    omega
  | refused h h0 hr d1 p q h1 hc =>
    rw [hst] at hr hc
    rw [UInt8.lt_iff_toNat_lt, UInt8.toNat_zero] at h0
    have hsub : (d.usi.pinRetries - 1).toNat = d.usi.pinRetries.toNat - 1 := by
      rw [UInt8.toNat_sub_of_le _ _ (by rw [UInt8.le_iff_toNat_le]; exact h0)]
      rfl
    rw [hr, streak_noCheck hc, call_calls, streak_check, if_neg nofun, streak_noCheck h1, hsub]
    omega
  | reset h h0 hr d1 p q h1 hc =>
    rw [hst] at hr hc
    rw [hr, streak_noCheck hc, call_calls, streak_reset]
    rfl
  | erased h hsp =>
    rw [hs] at hsp
    exact absurd hsp nofun

theorem countsRetries_iff (L : Layout) {d : Device} (hd : RetryInv d) (e : Event) :
    CountsRetries L d e ↔ ¬e.forgives L d := by
  have h := checkStep_cases L d e
  unfold RetryInv at hd
  constructor
  · rintro ⟨-, hfull⟩ ⟨ha, h0⟩
    have hr := hfull ha
    cases h with
    | none h => exact h ha.1
    | accepted h hr' =>
      rw [hr'] at hr
      rw [hr, show usiPinRetries.toNat = 2 from rfl] at hd
      omega
    | refused h => exact absurd (ha.2.2.symm.trans h.2.2) nofun
    | reset h => exact absurd (ha.2.2.symm.trans h.2.2) nofun
    | erased h => exact ha.2.1 h.2
  · intro hg
    cases h with
    | none h hr hc =>
      exact ⟨fun _ => iff_of_false (not_reset_noCheck hc) fun hr => h hr.1.1, fun ha => absurd ha.1 h⟩
    | accepted h hr d1 p q h1 hc =>
      refine ⟨fun _ => ?_, fun _ => ?_⟩
      · rw [reset_mem_iff [.pinCheck p q true] h1 rfl hc]
        exact iff_of_false (by simp) fun hr => absurd (h.2.2.symm.trans hr.1.2.2) nofun
      · have h0 : streak d.calls = 0 := Nat.eq_zero_of_not_pos fun h0 => hg ⟨h, h0⟩
        rw [hr]
        apply UInt8.toNat_inj.mp
        rw [show usiPinRetries.toNat = 2 from rfl]
        omega
    | refused h h0 hr d1 p q h1 hc =>
      refine ⟨fun _ => ?_, fun ha => absurd (ha.2.2.symm.trans h.2.2) nofun⟩
      rw [UInt8.lt_iff_toNat_lt, UInt8.toNat_zero] at h0
      rw [reset_mem_iff [.pinCheck p q false] h1 rfl hc]
      exact iff_of_false (by simp) fun hr => by omega
    | reset h h0 hr d1 p q h1 hc =>
      refine ⟨fun _ => ?_, fun ha => absurd (ha.2.2.symm.trans h.2.2) nofun⟩
      rw [UInt8.lt_iff_toNat_lt, UInt8.toNat_zero] at h0
      rw [reset_mem_iff [.pinCheck p q false, .resetPin] h1 (List.append_assoc ..) hc]
      exact iff_of_true (by simp) ⟨h, by omega⟩
    | erased h => exact ⟨fun hn => absurd h hn, fun ha => absurd h.2 ha.2.1⟩

theorem retryInv_powerOn {L : Layout} {flash eeprom ram : Mem} {d : Device}
    (h : powerOn L flash eeprom ram = .ret d) : RetryInv d := by
  obtain ⟨c, v, rfl⟩ := powerOn_ret h
  rfl

/-- Along a run from power-on the retries are counted right if and only if no check of the run
succeeds after one that failed. -/
theorem countsRetries_run_iff (L : Layout) (flash eeprom ram : Mem) (evs : List Event) :
    EachStep (step L) (CountsRetries L) (powerOn L flash eeprom ram) evs ↔
      EachStep (step L) (fun d e => ¬e.forgives L d) (powerOn L flash eeprom ram) evs :=
  eachStep_iff (I := RetryInv) (fun _ e hd => countsRetries_iff L hd e)
    (fun _ _ _ hd hg hs => retryInv_step hd hg hs) (fun _ hd => retryInv_powerOn hd) evs

def enterWrongPin : List Event := .button .up :: List.replicate 4 (.button .right)

/-- Two wrong PINs and the right one, the lock in OPTIONS, and a wrong PIN up to its last digit. -/
def mistypedPin : List Event :=
  [.button .right] ++ enterWrongPin ++ enterWrongPin ++ List.replicate 4 (.button .right) ++
    [.button .left, .button .left, .button .right] ++ enterWrongPin.dropLast

/-- The first failure after the success wipes the PIN. -/
theorem not_countsRetries_mistyped : ¬∀ L flash eeprom ram evs,
    EachStep (step L) (CountsRetries L) (powerOn L flash eeprom ram) evs := by
  intro h
  have hr : run (step sampleLayout) sampleBoot mistypedPin = .ret _ :=
    Outcome.eq_ret_of_returns (by decide +kernel)
  have hc := (eachStep_last (h _ _ _ _ _) hr : CountsRetries sampleLayout _ (.button .right)).reset
  have hs := ((hc (by decide +kernel)).mp (by decide +kernel)).2
  exact absurd hs (by decide +kernel)

end Memtype
