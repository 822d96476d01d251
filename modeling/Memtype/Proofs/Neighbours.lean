import Memtype.Proofs.Calibration

/-! `OSCCAL_Start` on any sequence of frame lengths. The eight trials of the search decide where its
loop over the neighbours starts; from the two highest values the loop does not end, and from the
lowest it does not begin. -/

namespace Memtype

open Lib

/-- The loop over the neighbours, with a record of the values that it measures at. -/
def osccalNeighboursLog (meas : Measure) (trialValue : UInt8) :
    ℕ → UInt8 → ℕ → Int16 → UInt8 → Option (UInt8 × List UInt8)
  | 0, _, _, _, _ => none
  | fuel + 1, osccal, k, optimumDev, optimumValue =>
    if osccal.toNat ≤ trialValue.toNat + 1 then
      let x := (meas k osccal).toInt16 - targetValue
      let x := if x < 0 then -x else x
      let rest := if x < optimumDev then
          osccalNeighboursLog meas trialValue fuel (osccal + 1) (k + 1) x osccal
        else osccalNeighboursLog meas trialValue fuel (osccal + 1) (k + 1) optimumDev optimumValue
      rest.map fun (v, us) => (v, osccal :: us)
    else some (optimumValue, [])

def neighboursLog (meas : Measure) (fuel : ℕ) : Option (UInt8 × List UInt8) :=
  let (trialValue, x, k) := osccalSearch meas
  osccalNeighboursLog meas trialValue fuel (trialValue - 1) k x trialValue

/-- `OSCCAL_Start` ends, and its loop over the neighbours has measured at `us`. -/
def MeasuresAt (L : Layout) (meas : Measure) (d : Device) (us : List UInt8) : Prop :=
  ∃ fuel v, neighboursLog meas fuel = some (v, us) ∧ step L d (.usbReset meas) =
    .ret { d with osccal := v, eeprom := d.eeprom.write L.osccalEep 1 fun _ => v }

/-- `trialValue` and its neighbours, as far as they are values of the register. -/
def neighbours (trialValue : UInt8) : List ℤ :=
  [(trialValue.toNat : ℤ) - 1, trialValue.toNat, trialValue.toNat + 1].filter
    fun v => 0 ≤ v ∧ v ≤ 255

/-- Measurement `k` is a frame that is too short. -/
def TooLow (xs : ℕ → UInt16) (k : ℕ) : Prop := (xs k).toInt16 < targetValue

instance (xs : ℕ → UInt16) : DecidablePred (TooLow xs) :=
  fun k => inferInstanceAs (Decidable ((xs k).toInt16 < targetValue))

section

variable {xs : ℕ → UInt16}

theorem search_taken (xs : ℕ → UInt16) {steps : List UInt8} {w : ℕ} {p : UInt8 × Int16 × ℕ}
    (hs : Halves w (steps.map UInt8.toNat)) (hw : p.1.toNat + w ≤ 256) :
    (steps.foldl (osccalTry fun k _ => xs k) p).1.toNat =
      p.1.toNat + taken (TooLow xs) p.2.2 (steps.map UInt8.toNat) := by
  induction steps generalizing w p with
  | nil => rfl
  | cons s steps ih =>
    obtain ⟨hw1, hs1⟩ := hs
    have hpos := hs1.pos
    have hadd : (p.1 + s).toNat = p.1.toNat + s.toNat := by
      rw [UInt8.toNat_add]
      omega
    rw [List.foldl_cons, List.map_cons, taken]
    by_cases h : TooLow xs p.2.2
    · have hp : osccalTry (fun k _ => xs k) p s = (p.1 + s, (xs p.2.2).toInt16, p.2.2 + 1) :=
        congrArg (·, _, _) (if_pos h)
      rw [hp, ih hs1 (by rw [hadd]; omega), hadd, if_pos h, Nat.add_assoc]
    · have hp : osccalTry (fun k _ => xs k) p s = (p.1, (xs p.2.2).toInt16, p.2.2 + 1) :=
        congrArg (·, _, _) (if_neg h)
      rw [hp, ih hs1 (by dsimp only; omega), if_neg h, Nat.zero_add]

/-- The value found, by the trials that were too low. -/
theorem search_trials (xs : ℕ → UInt16) :
    ((osccalSearch fun k _ => xs k).1.toNat = 0 ↔ ∀ k < 8, ¬TooLow xs k) ∧
      (254 ≤ (osccalSearch fun k _ => xs k).1.toNat ↔ ∀ k < 7, TooLow xs k) := by
  have hsteps : Halves 256 (([128, 64, 32, 16, 8, 4, 2, 1] : List UInt8).map UInt8.toNat) := by decide
  have ht := search_taken xs (p := (0, 0, 0)) hsteps (by decide)
  rw [show ([128, 64, 32, 16, 8, 4, 2, 1] : List UInt8).foldl (osccalTry fun k _ => xs k) (0, 0, 0) =
    osccalSearch fun k _ => xs k from rfl] at ht
  have hz := taken_eq_zero (p := TooLow xs) hsteps 0
  have htop := taken_top (p := TooLow xs) hsteps 0
  simp only [Nat.zero_add] at hz htop
  dsimp only at ht
  rw [ht, UInt8.toNat_zero, Nat.zero_add]
  refine ⟨hz, (show _ ↔ _ by omega).trans (htop.trans ?_)⟩
  exact forall_congr' fun k => imp_congr_left Nat.succ_lt_succ_iff

/-- The record changes nothing. -/
theorem neighboursLog_fst (meas : Measure) (t : UInt8) (fuel : ℕ) (osccal : UInt8) (k : ℕ)
    (dev : Int16) (best : UInt8) :
    (osccalNeighboursLog meas t fuel osccal k dev best).map Prod.fst =
      osccalNeighbours meas t fuel osccal k dev best := by
  induction fuel generalizing osccal k dev best with
  | zero => rfl
  | succ fuel ih =>
    have hrec (o : Option (UInt8 × List UInt8)) :
        (o.map fun (v, us) => (v, osccal :: us)).map Prod.fst = o.map Prod.fst := by
      rw [Option.map_map]
      rfl
    rw [osccalNeighboursLog, osccalNeighbours]
    dsimp only
    by_cases h : osccal.toNat ≤ t.toNat + 1
    · rw [if_pos h, if_pos h, hrec]
      split_ifs
      all_goals exact ih _ _ _ _
    · rw [if_neg h, if_neg h]
      rfl

theorem neighboursLog_step (meas : Measure) {t osccal : UInt8} (h : osccal.toNat ≤ t.toNat + 1)
    (fuel k : ℕ) (dev : Int16) (best : UInt8) : ∃ dev' best',
      osccalNeighboursLog meas t (fuel + 1) osccal k dev best =
        (osccalNeighboursLog meas t fuel (osccal + 1) (k + 1) dev' best').map
          fun (v, us) => (v, osccal :: us) := by
  rw [osccalNeighboursLog, if_pos h]
  dsimp only
  split_ifs
  all_goals exact ⟨_, _, rfl⟩

/-- Below the top the loop measures at each value from where it starts up to `trialValue + 1`. -/
theorem neighboursLog_values (meas : Measure) {t : UInt8} (ht : t.toNat ≤ 253) {n fuel : ℕ} (k : ℕ)
    (osccal best : UInt8) (dev : Int16) (hn : osccal.toNat + n = t.toNat + 2) (hfuel : n < fuel) :
    ∃ v us, osccalNeighboursLog meas t fuel osccal k dev best = some (v, us) ∧
      us.map UInt8.toNat = List.range' osccal.toNat n := by
  induction n generalizing fuel osccal k dev best with
  | zero =>
    obtain ⟨fuel, rfl⟩ := Nat.exists_eq_add_of_lt hfuel
    rw [Nat.zero_add, osccalNeighboursLog, if_neg (by omega)]
    exact ⟨best, [], rfl, rfl⟩
  | succ n ih =>
    obtain ⟨fuel, rfl⟩ : ∃ m, fuel = m + 1 := ⟨fuel - 1, by omega⟩
    have hnext : (osccal + 1).toNat = osccal.toNat + 1 := toNat_succ8 (by omega)
    have hle : osccal.toNat ≤ t.toNat + 1 := by omega
    obtain ⟨dev', best', hstep⟩ := neighboursLog_step meas hle fuel k dev best
    obtain ⟨v, us, hlog, hus⟩ := ih (k + 1) (osccal + 1) best' dev' (by omega) (show n < fuel by omega)
    refine ⟨v, osccal :: us, ?_, ?_⟩
    · rw [hstep, hlog]
      rfl
    · rw [List.map_cons, hus, hnext, List.range'_succ]

/-- At the top it does not end. -/
theorem neighboursLog_spin {meas : Measure} {t : UInt8} (ht : 254 ≤ t.toNat) (fuel : ℕ)
    (osccal : UInt8) (k : ℕ) (dev : Int16) (best : UInt8) :
    osccalNeighboursLog meas t fuel osccal k dev best = none := by
  have hnone := neighbours_spin ht meas fuel osccal k dev best
  rwa [← neighboursLog_fst, Option.map_eq_none_iff] at hnone

end

/-- `OSCCAL_Start` ends, with measurements at `trialValue` and its neighbours, exactly when a trial of
the search was too low and one before the last was not. -/
theorem measuresNeighbours_iff (L : Layout) (d : Device) (xs : ℕ → UInt16) :
    (∃ us, MeasuresAt L (fun k _ => xs k) d us ∧
      us.map (fun u => (u.toNat : ℤ)) = neighbours (osccalSearch fun k _ => xs k).1) ↔
        (∃ k < 8, TooLow xs k) ∧ ∃ k < 7, ¬TooLow xs k := by
  obtain ⟨hlow, hhigh⟩ := search_trials xs
  have hcond : (∃ k < 8, TooLow xs k) ∧ (∃ k < 7, ¬TooLow xs k) ↔
      (osccalSearch fun k _ => xs k).1.toNat ≠ 0 ∧ ¬254 ≤ (osccalSearch fun k _ => xs k).1.toNat := by
    rw [Ne, hlow, hhigh]
    simp only [not_forall, not_not, exists_prop]
  rw [hcond]
  unfold MeasuresAt neighboursLog
  rw [show step L d (.usbReset fun k _ => xs k) = osccalStart L (fun k _ => xs k) d from rfl,
    osccalStart]
  generalize osccalSearch (fun k _ => xs k) = p
  obtain ⟨t, x, n⟩ := p
  dsimp only
  constructor
  · rintro ⟨us, ⟨fuel, v, hlog, -⟩, hus⟩
    refine ⟨fun h0 => ?_, fun htop => ?_⟩
    · -- the loop starts at 255, which is past 1
      obtain rfl : t = 0 := UInt8.toNat_inj.mp h0
      cases fuel with
      | zero =>
        rw [osccalNeighboursLog] at hlog
        cases hlog
      | succ fuel =>
        rw [osccalNeighboursLog, if_neg (by decide)] at hlog
        cases hlog
        exact absurd hus (by decide)
    · rw [neighboursLog_spin htop] at hlog
      cases hlog
  · rintro ⟨h0, htop⟩
    have hprev : (t - 1).toNat = t.toNat - 1 := by
      rw [UInt8.toNat_sub_of_le _ _ (by rw [UInt8.le_iff_toNat_le]; exact Nat.pos_of_ne_zero h0)]
      rfl
    obtain ⟨v, us, hlog, hus⟩ := neighboursLog_values (fun k _ => xs k) (by omega : t.toNat ≤ 253) n
      (t - 1) t x (show (t - 1).toNat + 3 = t.toNat + 2 by omega) (show 3 < 257 by decide)
    refine ⟨us, ⟨257, v, hlog, ?_⟩, ?_⟩
    · rw [← neighboursLog_fst, hlog]
      rfl
    · have hlist : us.map (fun u => (u.toNat : ℤ)) = (us.map UInt8.toNat).map Nat.cast := by
        rw [List.map_map]
        rfl
      have hall : neighbours t = [(t.toNat : ℤ) - 1, t.toNat, t.toNat + 1] := by
        refine List.filter_eq_self.mpr fun v hv => decide_eq_true ?_
        simp only [List.mem_cons, List.not_mem_nil, or_false] at hv
        omega
      rw [hlist, hus, hall, hprev, show t.toNat = t.toNat - 1 + 1 by omega]
      simp [List.range'_succ]

/-- Frames that are too short and too long in turn. -/
theorem measuresNeighbours_turns : ∃ us,
    MeasuresAt sampleLayout (fun k _ => if k % 2 = 0 then 0 else 3000) (idleDevice fun _ => 0) us ∧
      us.map (fun u => (u.toNat : ℤ)) = [169, 170, 171] := by
  have h := (measuresNeighbours_iff sampleLayout (idleDevice fun _ => 0)
    fun k => if k % 2 = 0 then 0 else 3000).mpr (by decide)
  rwa [show neighbours (osccalSearch fun k _ => if k % 2 = 0 then 0 else 3000).1 = [169, 170, 171] by
    decide +kernel] at h

/-- The measurement times out every time. -/
theorem not_measuresNeighbours_timeout : ¬∀ L d (xs : ℕ → UInt16), ∃ us,
    MeasuresAt L (fun k _ => xs k) d us ∧
      us.map (fun u => (u.toNat : ℤ)) = neighbours (osccalSearch fun k _ => xs k).1 := by
  intro h
  obtain ⟨us, ⟨fuel, v, hlog, -⟩, -⟩ := h sampleLayout (idleDevice fun _ => 0) fun _ => 0
  unfold neighboursLog at hlog
  dsimp only at hlog
  rw [neighboursLog_spin (by decide)] at hlog
  cases hlog

end Memtype
