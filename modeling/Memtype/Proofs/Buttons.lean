import Memtype.Proofs.Protocol

/-! Debounce and auto-repeat in closed form. The state of uib.c after any samples is a function of
`held`, the ticks since the class of the button last changed, and `UIF_Task` acts on the presses
that this function gives and on no others. -/

namespace Memtype

open Lib

/-- The classes so far, the newest first; power-on counts as `NOT_PRESSED`. -/
def classes (vs : List UInt8) : List Button := (vs.map uibClassify).reverse ++ [.notPressed]

def classNow (vs : List UInt8) : Button := (classes vs).headD .notPressed

/-- How many ticks before the newest had its class without a change in between. -/
def stableTicks : List Button → ℕ
  | [] => 0
  | b :: bs => (bs.takeWhile fun b' => b' = b).length

def held (vs : List UInt8) : ℕ := stableTicks (classes vs)

def Signals (r : ℕ) : Prop := r = 5 ∨ 105 ≤ r ∧ (r - 105) % 25 = 0

instance (r : ℕ) : Decidable (Signals r) := inferInstanceAs (Decidable (_ ∨ _))

def sampled (vs : List UInt8) : Uib := vs.foldl (fun u v => u.task v) {}

theorem classes_snoc (vs : List UInt8) (v : UInt8) : classes (vs ++ [v]) = uibClassify v :: classes vs := by
  simp [classes]

theorem classes_eq (vs : List UInt8) : ∃ bs, classes vs = classNow vs :: bs := by
  induction vs using List.reverseRecOn with
  | nil => exact ⟨[], rfl⟩
  | append_singleton vs v =>
    rw [classNow, classes_snoc]
    exact ⟨classes vs, rfl⟩

theorem classNow_snoc (vs : List UInt8) (v : UInt8) : classNow (vs ++ [v]) = uibClassify v := by
  rw [classNow, classes_snoc, List.headD_cons]

theorem sampled_snoc (vs : List UInt8) (v : UInt8) : sampled (vs ++ [v]) = (sampled vs).task v := by
  simp [sampled]

theorem held_snoc (vs : List UInt8) (v : UInt8) :
    held (vs ++ [v]) = if classNow vs = uibClassify v then held vs + 1 else 0 := by
  obtain ⟨bs, hbs⟩ := classes_eq vs
  rw [held, held, classes_snoc, hbs]
  by_cases h : classNow vs = uibClassify v
  · simp [stableTicks, h]
  · simp [stableTicks, h]

/-- The state and the counter of `UIB_Task` after `r` ticks without a change. -/
def debouncePhase (r : ℕ) : UibState × ℕ :=
  if r < 5 then (.initDebounce, r)
  else if r < 105 then (.secondDebounce, r - 5)
  else (.repeatDebounce, (r - 105) % 25)

structure Debounced (r : ℕ) (b : Button) (u : Uib) : Prop where
  pressed : u.buttonPressed = b
  phase : (u.uibState, u.debounceCtr.toNat) = debouncePhase r
  changed : u.buttonChanged = true ↔ Signals r

/-- The ticks a state waits, and the state that follows it. -/
def UibState.wait : UibState → ℕ
  | .initDebounce => 5
  | .secondDebounce => 100
  | .repeatDebounce => 25

def UibState.after : UibState → UibState
  | .initDebounce => .secondDebounce
  | .secondDebounce | .repeatDebounce => .repeatDebounce

theorem task_eq (u : Uib) (v : UInt8) :
    u.task v = if (u.sample v).uibState.wait ≤ (u.sample v).debounceCtr.toNat then
      (u.sample v).signal (u.sample v).uibState.after else u.sample v := by
  unfold Uib.task
  dsimp only
  split
  all_goals
    next h =>
      rw [h]
      exact if_congr UInt16.le_iff_toNat_le rfl rfl

theorem phase_lt (r : ℕ) : (debouncePhase r).2 < (debouncePhase r).1.wait := by
  unfold debouncePhase
  split_ifs with h1 h2
  · exact h1
  · exact (by omega : r - 5 < 100)
  · exact Nat.mod_lt _ (by decide)

theorem signals_succ (r : ℕ) :
    Signals (r + 1) ↔ (debouncePhase r).1.wait ≤ (debouncePhase r).2 + 1 := by
  unfold debouncePhase Signals
  split_ifs with h1 h2
  · change _ ↔ 5 ≤ r + 1
    omega
  · change _ ↔ 100 ≤ r - 5 + 1
    omega
  · change _ ↔ 25 ≤ (r - 105) % 25 + 1
    omega

theorem phase_succ (r : ℕ) :
    debouncePhase (r + 1) = if Signals (r + 1) then ((debouncePhase r).1.after, 0)
      else ((debouncePhase r).1, (debouncePhase r).2 + 1) := by
  unfold debouncePhase
  by_cases h : Signals (r + 1)
  · rw [if_pos h]
    unfold Signals at h
    rcases h with h | ⟨h, hm⟩
    · rw [if_neg (by omega), if_pos (by omega), if_pos (by omega), h]
      rfl
    · rw [if_neg (by omega), if_neg (by omega), if_neg (by omega), hm]
      split_ifs <;> rfl
  · rw [if_neg h]
    unfold Signals at h
    split_ifs
    all_goals first | omega | skip
    · rfl
    · exact Prod.ext rfl (by dsimp only; omega)
    · exact Prod.ext rfl (by dsimp only; omega)

/-- A sample of another class starts again. -/
theorem task_changed {u : Uib} {v : UInt8} (h : u.buttonPressed ≠ uibClassify v) :
    Debounced 0 (uibClassify v) (u.task v) := by
  have hs : u.sample v = { buttonPressed := uibClassify v, lastButtonPressed := u.buttonPressed } := by
    unfold Uib.sample
    dsimp only
    rw [if_neg h]
  have hw : ¬UibState.initDebounce.wait ≤ (0 : UInt16).toNat := by decide
  rw [task_eq, hs, if_neg hw]
  exact ⟨rfl, rfl, by simp [Signals]⟩

/-- A sample of the same class is one more tick of stability. -/
theorem task_stable {u : Uib} {v : UInt8} {r : ℕ} (hu : Debounced r (uibClassify v) u) :
    Debounced (r + 1) (uibClassify v) (u.task v) := by
  obtain ⟨hp, hph, -⟩ := hu
  have hs : u.sample v =
      { u with lastButtonPressed := u.buttonPressed, buttonPressed := uibClassify v,
               debounceCtr := u.debounceCtr + 1, buttonChanged := false } := by
    unfold Uib.sample
    dsimp only
    rw [if_pos hp]
  have hst : u.uibState = (debouncePhase r).1 := congrArg Prod.fst hph
  have hc : (u.debounceCtr + 1).toNat = (debouncePhase r).2 + 1 := by
    have hlt := phase_lt r
    have hw : (debouncePhase r).1.wait ≤ 100 := by cases (debouncePhase r).1 <;> decide
    have hcr : u.debounceCtr.toNat = (debouncePhase r).2 := congrArg Prod.snd hph
    rw [UInt16.toNat_add, UInt16.toNat_one, hcr]
    omega
  rw [task_eq, hs]
  dsimp only
  rw [hc, hst]
  by_cases hr : Signals (r + 1)
  · rw [if_pos ((signals_succ r).mp hr)]
    refine ⟨rfl, ?_, by simp [Uib.signal, hr]⟩
    rw [phase_succ, if_pos hr]
    rfl
  · rw [if_neg fun h => hr ((signals_succ r).mpr h)]
    refine ⟨rfl, ?_, by simp [hr]⟩
    rw [phase_succ, if_neg hr]
    dsimp only
    rw [hc]

/-- The closed form, for every list of samples. -/
theorem sampled_debounced (vs : List UInt8) : Debounced (held vs) (classNow vs) (sampled vs) := by
  induction vs using List.reverseRecOn with
  | nil => exact ⟨rfl, rfl, by decide⟩
  | append_singleton vs v ih =>
    rw [held_snoc, classNow_snoc, sampled_snoc]
    by_cases h : classNow vs = uibClassify v
    · rw [if_pos h]
      rw [h] at ih
      exact task_stable ih
    · rw [if_neg h]
      refine task_changed ?_
      rwa [ih.pressed]

/-- What `UIB_Task` samples in this step, if it runs. -/
def Event.sample (d : Device) : Event → List UInt8
  | .schTask timer adc =>
    if d.sch.lastTimerVal ≠ timer ∧ (d.sch.tick + 1) % 10 = 0 then [(admTask adc d).adcValue] else []
  | _ => []

/-- The button acted on at the last of these samples. -/
def pressAt (vs : List UInt8) : Option Button :=
  if Signals (held vs) ∧ classNow vs ≠ .notPressed then some (classNow vs) else none

/-- The buttons to act on, one for each sample at which a pressed button is signalled. -/
def presses (vs : List UInt8) : List Button := vs.inits.filterMap pressAt

theorem presses_snoc (vs : List UInt8) (v : UInt8) :
    presses (vs ++ [v]) = presses vs ++ (pressAt (vs ++ [v])).toList := by
  have hi : (vs ++ [v]).inits = vs.inits ++ [vs ++ [v]] := by simp [List.inits_append]
  rw [presses, hi, List.filterMap_append]
  cases h : pressAt (vs ++ [v]) <;> simp [presses, h]

def Device.clocks (d : Device) : Uib × Sch := (d.uib, d.sch)

theorem PrintStep.clocks {d d' : Device} (h : PrintStep d d') : d'.clocks = d.clocks :=
  (congrArg Device.clocks h.core :)

theorem previous_clocks (L : Layout) (d : Device) : (crdPrevious L d).state.clocks = d.clocks := by
  obtain ⟨c, h | h⟩ := browses_previous L d
  · rw [h]
    rfl
  · rw [h]
    rfl

theorem next_clocks (L : Layout) (d : Device) : (crdNext L d).state.clocks = d.clocks := by
  obtain ⟨c, h | h⟩ := browses_next L d
  · rw [h]
    rfl
  · rw [h]
    rfl

theorem crdFsm_clocks (L : Layout) (b : Button) (d : Device) :
    (crdFsm L b d).state.clocks = d.clocks := by
  cases b with
  | up => exact previous_clocks L _
  | down => exact next_clocks L _
  | right => exact ((printStep_deleteStr d).trans (printStep_printDetail L _ _ _)).clocks
  | left | notPressed => rfl

theorem optApply_clocks (L : Layout) (d : Device) : (optApply L d).clocks = d.clocks := by
  obtain ⟨d1, h, l, he⟩ := optApply_print L d
  rw [he]
  exact h.clocks

theorem optFsm_clocks (L : Layout) (b : Button) (d : Device) : (optFsm L b d).clocks = d.clocks := by
  cases b with
  | up => exact optApply_clocks L _
  | down => exact optApply_clocks L _
  | left | right | notPressed => rfl

theorem usiFailed_clocks (L : Layout) (d : Device) : (usiFailed L d).clocks = d.clocks := by
  unfold usiFailed
  split_ifs <;> rfl

theorem usiFsm_clocks (L : Layout) (b : Button) (d : Device) :
    (usiFsm L b d).state.clocks = d.clocks := by
  cases b with
  | left | up | down | notPressed => rfl
  | right =>
    unfold usiFsm
    dsimp only
    split_ifs
    · unfold usiPinCheck
      split_ifs
      · rfl
      · cases pinMatches L (printDeleteStr d).eeprom (printDeleteStr d).pin with
        | true => rfl
        | false => exact usiFailed_clocks L _
    · rfl

theorem uifTask_clocks (L : Layout) (d : Device) : (uifTask L d).state.clocks = d.clocks := by
  unfold uifTask
  split_ifs
  · split
    · rfl
    · exact optFsm_clocks L _ d
    · exact usiFsm_clocks L _ d
    · exact crdFsm_clocks L _ d
  · rfl

theorem setup_clocks (L : Layout) (rq : UsbRequest) (d : Device) :
    (usbFunctionSetup L rq d).1.clocks = d.clocks := by
  by_cases h : rq.asksReport = true
  · rw [setup_report L h]
    obtain ⟨u, hu⟩ := task_core L d
    rw [hu]
    rfl
  · obtain ⟨u, l, hs, -⟩ := setup_other L d h
    rw [hs]
    rfl

theorem decode_clocks (L : Layout) (data : Bytes 8) (len : UInt8) (d : Device) :
    (ucpDecode L data len d).clocks = d.clocks := by
  have h := decode_cases L data len d
  generalize ucpDecode L data len d = d' at h ⊢
  cases h <;> rfl

theorem writeTask_clocks (L : Layout) (d : Device) : (ucpWriteTask L d).state.clocks = d.clocks := by
  have hs := writeTask_step L d
  generalize (ucpWriteTask L d).state = d' at hs ⊢
  cases hs with
  | idle hw => rfl
  | wrote hw d1 h w => exact (congrArg Device.clocks h.frame :)

/-- What another event than `SCH_Task` and a button of its own leaves. -/
theorem step_clocks (L : Layout) (d : Device) {e : Event} (hb : ∀ b, e ≠ .button b)
    (hs : ∀ timer adc, e ≠ .schTask timer adc) : (step L d e).state.clocks = d.clocks := by
  cases e with
  | setup rq => exact setup_clocks L rq d
  | write data len => exact decode_clocks L data len d
  | writeTask => exact writeTask_clocks L d
  | printUpdate => exact (printStep_update L d).clocks
  | ledTask =>
    unfold step ledTask
    dsimp only
    split_ifs <;> rfl
  | schTask timer adc => exact absurd rfl (hs timer adc)
  | button b => exact absurd rfl (hb b)
  | usbReset meas =>
    unfold step osccalStart
    dsimp only
    split <;> rfl
  | background ram => rfl

/-- Only `UIB_Task` moves its variables, and it moves them by the sample it takes. -/
theorem step_uib (L : Layout) (d : Device) {e : Event} (hb : ∀ b, e ≠ .button b) :
    (step L d e).state.uib = (e.sample d).foldl (fun u v => u.task v) d.uib := by
  cases e with
  | schTask timer adc =>
    unfold step schTask Event.sample
    by_cases ht : d.sch.lastTimerVal ≠ timer
    · by_cases hk : (d.sch.tick + 1) % 10 = 0
      · simp only [if_pos ht, if_pos hk, if_pos (And.intro ht hk)]
        have hu := congrArg Prod.fst (uifTask_clocks L (uibTask (admTask adc
          { d with sch := { lastTimerVal := timer, tick := d.sch.tick + 1 } })))
        cases adc <;> exact hu
      · simp only [if_pos ht, if_neg hk, if_neg (fun h : _ ∧ _ => hk h.2)]
        rfl
    · simp only [if_neg ht, if_neg (fun h : _ ∧ _ => ht h.1)]
      rfl
  | button b => exact absurd rfl (hb b)
  | _ => exact congrArg Prod.fst (step_clocks L d hb (by rintro _ _ ⟨⟩))

theorem powerOn_uib (L : Layout) (flash eeprom ram : Mem) :
    (powerOn L flash eeprom ram).state.uib = {} := by
  unfold powerOn crdInit
  dsimp only
  refine Outcome.state_bind (P := fun d : Device => d.uib = {}) ?_ ?_
  · obtain ⟨c, hc⟩ := loadCredential_state L 0
      (uifInit L { flash := { mem := flash }, eeprom := eeprom, ram := ram })
    rw [hc]
    rfl
  · intro d hd
    unfold osccalInit
    dsimp only
    split_ifs <;> exact hd

/-- What `UIF_Task` handles after a sample is what the samples so far call for. -/
theorem presses_step {d : Device} {e : Event} {vs : List UInt8} (hb : ∀ b, e ≠ .button b)
    (hd : d.uib = sampled vs) :
    presses (vs ++ e.sample d) = presses vs ++ (e.handled d).toList := by
  cases e with
  | button b => exact absurd rfl (hb b)
  | schTask timer adc =>
    unfold Event.sample Event.handled
    dsimp only
    by_cases ht : d.sch.lastTimerVal ≠ timer ∧ (d.sch.tick + 1) % 10 = 0
    · rw [if_pos ht, presses_snoc]
      have hu : (uibTask (admTask adc d)).uib = sampled (vs ++ [(admTask adc d).adcValue]) := by
        rw [sampled_snoc, ← hd]
        cases adc <;> rfl
      have hs := sampled_debounced (vs ++ [(admTask adc d).adcValue])
      rw [hu, hs.pressed]
      refine congrArg (fun o : Option Button => presses vs ++ o.toList) ?_
      refine if_congr ⟨fun h => ⟨ht.1, ht.2, hs.changed.mpr h.1, h.2⟩, fun h => ?_⟩ rfl rfl
      exact ⟨hs.changed.mp h.2.2.1, h.2.2.2⟩
    · rw [if_neg ht, if_neg fun h => ht ⟨h.1, h.2.1⟩]
      simp
  | _ => simp [Event.sample, Event.handled]

def samples (L : Layout) : Outcome Device → List Event → List UInt8 :=
  collect (step L) fun d e => e.sample d

def actions (L : Layout) : Outcome Device → List Event → List Button :=
  collect (step L) fun d e => (e.handled d).toList

theorem buttons_run (L : Layout) {evs : List Event} (hb : ∀ b, .button b ∉ evs) {o : Outcome Device}
    {vs : List UInt8} (ho : o.state.uib = sampled vs) :
    (run (step L) o evs).state.uib = sampled (vs ++ samples L o evs) ∧
      presses (vs ++ samples L o evs) = presses vs ++ actions L o evs := by
  induction evs generalizing o vs with
  | nil => simp [samples, actions, ho]
  | cons e evs ih =>
    cases o with
    | spin d => simpa [samples, actions] using ho
    | ret d =>
      rw [Outcome.state_ret] at ho
      have he (b : Button) : e ≠ .button b := fun h => hb b (by simp [h])
      have hs : (step L d e).state.uib = sampled (vs ++ e.sample d) := by
        rw [step_uib L d he, ho, sampled, sampled, List.foldl_append]
      obtain ⟨h1, h2⟩ := ih (fun b h => hb b (List.mem_cons_of_mem e h)) hs
      have hv : samples L (.ret d) (e :: evs) = e.sample d ++ samples L (step L d e) evs := rfl
      have ha : actions L (.ret d) (e :: evs) =
          (e.handled d).toList ++ actions L (step L d e) evs := rfl
      rw [run_cons, Outcome.bind_ret, hv, ha, ← List.append_assoc, ← List.append_assoc,
        ← presses_step he ho]
      exact ⟨h1, h2⟩

def dispatch (L : Layout) (b : Button) (d : Device) : Outcome Device :=
  match d.uif.uifState with
  | .start => .ret (usiInit L (printDeleteStr { d with uif := { d.uif with uifState := .userInput } }))
  | .options => .ret (optFsm L b d)
  | .userInput => usiFsm L b d
  | .credentials => crdFsm L b d

theorem uifTask_dispatch (L : Layout) {d : Device} {b : Button} (hc : d.uib.buttonChanged = true)
    (hp : d.uib.buttonPressed = b) (hb : b ≠ .notPressed) : uifTask L d = dispatch L b d := by
  subst hp
  exact if_pos ⟨hc, hb⟩

/-- The button is signalled at the fifth tick of stability, at the hundredth after that and at every
twenty-fifth from there, and each signal of a pressed button is acted on once, at its own tick, by
one call of `UIF_Task` that hands it on to the menu that is open. -/
theorem debounce_exact (L : Layout) (flash eeprom ram : Mem) {evs : List Event}
    (hb : ∀ b, .button b ∉ evs) :
    (∀ vs, (sampled vs).buttonChanged = true ↔ Signals (held vs)) ∧
      (run (step L) (powerOn L flash eeprom ram) evs).state.uib =
        sampled (samples L (powerOn L flash eeprom ram) evs) ∧
      actions L (powerOn L flash eeprom ram) evs =
        presses (samples L (powerOn L flash eeprom ram) evs) ∧
      (∀ d timer adc, (Event.schTask timer adc).handled d = none →
        ∃ u s a, step L d (.schTask timer adc) = .ret { d with uib := u, sch := s, adcValue := a }) ∧
      ∀ d timer adc b, (Event.schTask timer adc).handled d = some b → ∃ u s a,
        step L d (.schTask timer adc) = uifTask L { d with uib := u, sch := s, adcValue := a } ∧
        uifTask L { d with uib := u, sch := s, adcValue := a } =
          dispatch L b { d with uib := u, sch := s, adcValue := a } := by
  have h0 : (powerOn L flash eeprom ram).state.uib = sampled [] := powerOn_uib L flash eeprom ram
  obtain ⟨h1, h2⟩ := buttons_run L hb h0
  refine ⟨fun vs => (sampled_debounced vs).changed, h1, h2.symm, fun d timer adc h => schTask_idle L h,
    fun d timer adc b h => ?_⟩
  obtain ⟨u, s, a, hc, hp, hn, hstep⟩ := step_handled L h
  exact ⟨u, s, a, hstep, uifTask_dispatch L hc hp hn⟩

/-- A button held for six ticks of the scheduler from power-on. -/
theorem debounce_exact_held :
    actions sampleLayout (powerOn sampleLayout (fun _ => 0) (fun _ => 0xFF) fun _ => 0)
      ((List.range 60).map fun i => .schTask (UInt8.ofNat (i + 1)) (some 255)) = [.right] := by
  refine (debounce_exact sampleLayout (fun _ => 0) (fun _ => 0xFF) (fun _ => 0)
    (fun b h => ?_)).2.2.1.trans ?_
  · obtain ⟨i, -, hi⟩ := List.mem_map.mp h
    exact absurd hi nofun
  · decide +kernel

end Memtype
