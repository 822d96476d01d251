import Memtype.Lib.Bisect
import Memtype.Proofs.Reads

/-! `OSCCAL_Start` on a frame length that grows with `OSCCAL`. The search ends at the last value
that is still too slow; that value and its successor are the only candidates for the optimum, and
the scan of the neighbours takes the better one, unless it comes round past 255. -/

namespace Memtype

open Lib

/-- What is assumed of `usbMeasureFrameLength`, as a function of `OSCCAL`. -/
structure Measures (f : UInt8 → UInt16) : Prop where
  mono : ∀ u v, u ≤ v → (f u).toNat ≤ (f v).toNat
  low : ∀ v, targetValue.toInt / 2 < (f v).toNat
  high : ∀ v, (f v).toNat < 2 ^ 15
  first : (f 1).toNat < targetValue.toInt
  last : targetValue.toInt ≤ (f 255).toNat

def deviation (f : UInt8 → UInt16) (v : UInt8) : ℤ := |((f v).toNat : ℤ) - targetValue.toInt|

theorem target_toInt : targetValue.toInt = 2356 := by decide

section

variable {f : UInt8 → UInt16}

theorem Measures.toInt (hf : Measures f) (v : UInt8) : (f v).toInt16.toInt = (f v).toNat := by
  have h := hf.high v
  exact BitVec.toInt_eq_toNat_of_lt (show 2 * (f v).toBitVec.toNat < 2 ^ 16 by
    rw [UInt16.toNat_toBitVec]
    omega)

def Slow (f : UInt8 → UInt16) (n : ℕ) : Prop := (f (UInt8.ofNat n)).toInt16 < targetValue

instance (f : UInt8 → UInt16) : DecidablePred (Slow f) :=
  fun n => inferInstanceAs (Decidable ((f (UInt8.ofNat n)).toInt16 < targetValue))

theorem Measures.slow (hf : Measures f) (v : UInt8) :
    Slow f v.toNat ↔ ((f v).toNat : ℤ) < targetValue.toInt := by
  rw [Slow, UInt8.ofNat_toNat, Int16.lt_iff_toInt_lt, hf.toInt]

def osccalTry (meas : Measure) (p : UInt8 × Int16 × ℕ) (step : UInt8) : UInt8 × Int16 × ℕ :=
  let x := (meas p.2.2 (p.1 + step)).toInt16
  (if x < targetValue then p.1 + step else p.1, x, p.2.2 + 1)

theorem search_bisect (f : UInt8 → UInt16) {steps : List UInt8} {w : ℕ} {p : UInt8 × Int16 × ℕ}
    (hs : Halves w (steps.map UInt8.toNat)) (hw : p.1.toNat + w ≤ 256) :
    (steps.foldl (osccalTry fun _ => f) p).1.toNat =
      bisect (Slow f) (steps.map UInt8.toNat) p.1.toNat := by
  induction steps generalizing w p with
  | nil => rfl
  | cons s steps ih =>
    obtain ⟨hw1, hs1⟩ := hs
    have hpos := hs1.pos
    have hadd : (p.1 + s).toNat = p.1.toNat + s.toNat := by
      rw [UInt8.toNat_add]
      omega
    have hslow : Slow f (p.1.toNat + s.toNat) ↔ (f (p.1 + s)).toInt16 < targetValue := by
      rw [← hadd, Slow, UInt8.ofNat_toNat]
    rw [List.foldl_cons, List.map_cons, bisect, List.foldl_cons, ← bisect]
    by_cases h : (f (p.1 + s)).toInt16 < targetValue
    · rw [if_pos (hslow.mpr h), ← hadd]
      have hp : (osccalTry (fun _ => f) p s).1 = p.1 + s := if_pos h
      rw [← hp]
      exact ih hs1 (by rw [hp, hadd]; omega)
    · rw [if_neg fun h' => h (hslow.mp h')]
      have hp : (osccalTry (fun _ => f) p s).1 = p.1 := if_neg h
      rw [ih hs1 (by rw [hp]; omega), hp]

/-- The last `x` is a frame length. -/
theorem search_last (meas : Measure) : ∃ k v, (osccalSearch meas).2.1 = (meas k v).toInt16 :=
  ⟨_, _, rfl⟩

/-- The search ends at the last value that is too slow. -/
theorem search_spec (hf : Measures f) :
    ((f (osccalSearch fun _ => f).1).toNat : ℤ) < targetValue.toInt ∧
      ∀ v, (osccalSearch fun _ => f).1 < v → targetValue.toInt ≤ (f v).toNat := by
  have hsteps : Halves 256 (([128, 64, 32, 16, 8, 4, 2, 1] : List UInt8).map UInt8.toNat) := by decide
  have hb := search_bisect f (p := (0, 0, 0)) hsteps (by decide)
  rw [show ([128, 64, 32, 16, 8, 4, 2, 1] : List UInt8).foldl (osccalTry fun _ => f) (0, 0, 0) =
    osccalSearch fun _ => f from rfl] at hb
  have h0 : Slow f (0 : UInt8).toNat := by
    have h1 := hf.mono 0 1 (by decide)
    have h2 := hf.first
    exact (hf.slow 0).mpr (by omega)
  have hmono (u v : ℕ) (huv : u ≤ v) (hv : v < 256) (hsv : Slow f v) : Slow f u := by
    have hun : (UInt8.ofNat u).toNat = u := UInt8.toNat_ofNat_of_lt' (lt_of_le_of_lt huv hv)
    have hvn : (UInt8.ofNat v).toNat = v := UInt8.toNat_ofNat_of_lt' hv
    have hle := hf.mono (UInt8.ofNat u) (UInt8.ofNat v) (by rwa [UInt8.le_iff_toNat_le, hun, hvn])
    rw [← hun, hf.slow]
    rw [← hvn, hf.slow] at hsv
    omega
  constructor
  · rw [← hf.slow, hb]
    exact bisect_holds h0
  · intro v hv
    rw [UInt8.lt_iff_toNat_lt, hb] at hv
    have hlt := v.toNat_lt
    have hn := bisect_last hmono hsteps (by decide) hv hlt
    rw [hf.slow] at hn
    omega

/-- The value found is neither 0 nor 255. -/
theorem search_range (hf : Measures f) : 1 ≤ (osccalSearch fun _ => f).1.toNat ∧
    (osccalSearch fun _ => f).1.toNat ≤ 254 := by
  obtain ⟨hlt, hge⟩ := search_spec hf
  have hfirst := hf.first
  have hlast := hf.last
  generalize (osccalSearch fun _ => f).1 = t at *
  constructor
  · by_contra h
    have h1 := hge 1 (by rw [UInt8.lt_iff_toNat_lt]; exact not_le.mp h)
    omega
  · by_contra h
    have ht : t = 255 := by
      rw [← UInt8.toNat_inj, show (255 : UInt8).toNat = 255 from rfl]
      have := t.toNat_lt
      omega
    rw [ht] at hlt
    omega

/-- It is 254 exactly when `OSCCAL` at 254 is too slow. -/
theorem search_top (hf : Measures f) : (osccalSearch fun _ => f).1.toNat = 254 ↔
    ((f 254).toNat : ℤ) < targetValue.toInt := by
  obtain ⟨hlt, hge⟩ := search_spec hf
  have hr := search_range hf
  generalize (osccalSearch fun _ => f).1 = t at *
  constructor
  · intro h
    rwa [show t = 254 from UInt8.toNat_inj.mp h] at hlt
  · intro h
    by_contra hn
    have h1 := hge 254 (by rw [UInt8.lt_iff_toNat_lt, show (254 : UInt8).toNat = 254 from rfl]; omega)
    omega

/-- `x` in the loop over the neighbours. -/
def distance (f : UInt8 → UInt16) (v : UInt8) : Int16 :=
  let x := (f v).toInt16 - targetValue
  if x < 0 then -x else x

theorem Measures.distance_toInt (hf : Measures f) (v : UInt8) : (distance f v).toInt = deviation f v := by
  have hx : ((f v).toInt16 - targetValue).toInt = (f v).toNat - targetValue.toInt := by
    have hl := hf.low v
    have hh := hf.high v
    rw [target_toInt] at hl
    rw [Int16.toInt_sub, hf.toInt, target_toInt]
    exact Int.bmod_eq_of_le (by omega) (by omega)
  unfold distance deviation
  dsimp only
  split_ifs with h
  · rw [Int16.lt_iff_toInt_lt, hx, show (0 : Int16).toInt = 0 from rfl] at h
    have hl := hf.low v
    rw [Int16.toInt_neg, hx, abs_of_neg h]
    rw [target_toInt] at h hl ⊢
    exact Int.bmod_eq_of_le (by omega) (by omega)
  · rw [Int16.lt_iff_toInt_lt, hx, show (0 : Int16).toInt = 0 from rfl] at h
    rw [hx, abs_of_nonneg (not_lt.mp h)]

theorem neighbours_step {f : UInt8 → UInt16} {t osccal : UInt8} (h : osccal.toNat ≤ t.toNat + 1)
    (fuel k : ℕ) (dev : Int16) (best : UInt8) :
    osccalNeighbours (fun _ => f) t (fuel + 1) osccal k dev best =
      if distance f osccal < dev then
        osccalNeighbours (fun _ => f) t fuel (osccal + 1) (k + 1) (distance f osccal) osccal
      else osccalNeighbours (fun _ => f) t fuel (osccal + 1) (k + 1) dev best := by
  rw [osccalNeighbours, if_pos h]
  rfl

/-- From a deviation that is one, the loop takes the best of the values it goes over. -/
theorem neighbours_best {t : UInt8} (ht : t.toNat ≤ 253) {n fuel : ℕ} (k : ℕ) (osccal best : UInt8)
    (hn : osccal.toNat + n = t.toNat + 2) (hfuel : n < fuel) :
    ∃ v, osccalNeighbours (fun _ => f) t fuel osccal k (distance f best) best = some v ∧
      distance f v ≤ distance f best ∧
      ∀ u, osccal ≤ u → u.toNat ≤ t.toNat + 1 → distance f v ≤ distance f u := by
  induction n generalizing fuel osccal k best with
  | zero =>
    obtain ⟨fuel, rfl⟩ := Nat.exists_eq_add_of_lt hfuel
    rw [Nat.zero_add, osccalNeighbours, if_neg (by omega)]
    refine ⟨best, rfl, Int16.le_refl _, fun u hu hut => ?_⟩
    rw [UInt8.le_iff_toNat_le] at hu
    omega
  | succ n ih =>
    obtain ⟨fuel, rfl⟩ : ∃ m, fuel = m + 1 := ⟨fuel - 1, by omega⟩
    have hnext : (osccal + 1).toNat = osccal.toNat + 1 := toNat_succ8 (by omega)
    have hle (u : UInt8) (hu : osccal ≤ u) : u = osccal ∨ osccal + 1 ≤ u := by
      rw [UInt8.le_iff_toNat_le] at hu ⊢
      rw [hnext, ← UInt8.toNat_inj]
      omega
    rw [neighbours_step (by omega)]
    split_ifs with h
    · obtain ⟨v, hv, hb, hall⟩ := ih (k + 1) (osccal + 1) osccal (by omega)
        (show n < fuel by omega)
      refine ⟨v, hv, Int16.le_trans hb (Int16.le_of_lt h), fun u hu hut => ?_⟩
      rcases hle u hu with rfl | hu
      · exact hb
      · exact hall u hu hut
    · obtain ⟨v, hv, hb, hall⟩ := ih (k + 1) (osccal + 1) best (by omega)
        (show n < fuel by omega)
      refine ⟨v, hv, hb, fun u hu hut => ?_⟩
      rcases hle u hu with rfl | hu
      · exact Int16.le_trans hb (Int16.not_lt.mp h)
      · exact hall u hu hut

/-- Every value of the register is at most 255. -/
theorem neighbours_spin {t : UInt8} (ht : 254 ≤ t.toNat) (meas : Measure) (fuel : ℕ) (osccal : UInt8)
    (k : ℕ) (dev : Int16) (best : UInt8) :
    osccalNeighbours meas t fuel osccal k dev best = none := by
  induction fuel generalizing osccal k dev best with
  | zero => rfl
  | succ fuel ih =>
    have hlt := osccal.toNat_lt
    rw [osccalNeighbours, if_pos (by omega)]
    dsimp only
    split_ifs
    all_goals exact ih _ _ _ _

/-- A raw frame length is longer than the deviation of any value that is too slow. -/
theorem Measures.distance_lt (hf : Measures f) {v : UInt8}
    (hv : ((f v).toNat : ℤ) < targetValue.toInt) (u : UInt8) : distance f v < (f u).toInt16 := by
  have h1 := hf.low v
  have h2 := hf.low u
  rw [Int16.lt_iff_toInt_lt, hf.distance_toInt, hf.toInt, deviation, abs_of_neg (by omega)]
  rw [target_toInt] at *
  omega

/-- The optimum lies at the value found or at its successor. -/
theorem deviation_optimum (hf : Measures f) {t v : UInt8}
    (ht : ((f t).toNat : ℤ) < targetValue.toInt) (hnext : t.toNat < 255)
    (hge : ∀ u, t < u → targetValue.toInt ≤ (f u).toNat) (h1 : deviation f v ≤ deviation f t)
    (h2 : deviation f v ≤ deviation f (t + 1)) (u : UInt8) : deviation f v ≤ deviation f u := by
  have hadd : (t + 1).toNat = t.toNat + 1 := toNat_succ8 hnext
  by_cases hu : u ≤ t
  · refine h1.trans ?_
    have hm := hf.mono u t hu
    rw [deviation, deviation, abs_of_neg (by omega), abs_of_neg (by omega)]
    omega
  · rw [UInt8.not_le] at hu
    have hle : t + 1 ≤ u := by
      rw [UInt8.lt_iff_toNat_lt] at hu
      rw [UInt8.le_iff_toNat_le, hadd]
      exact hu
    refine h2.trans ?_
    have hm := hf.mono (t + 1) u hle
    have h3 := hge (t + 1) (by rw [UInt8.lt_iff_toNat_lt, hadd]; omega)
    rw [deviation, deviation, abs_of_nonneg (by omega), abs_of_nonneg (by omega)]
    omega

/-- `OSCCAL_Start` ends, with an optimal value in `OSCCAL` and in EEPROM, exactly when `OSCCAL` at
254 is not too slow. -/
theorem calibrates_iff (L : Layout) (d : Device) (hf : Measures f) :
    (∃ d', step L d (.usbReset fun _ => f) = .ret d' ∧ d'.eeprom L.osccalEep = d'.osccal ∧
        ∀ v, deviation f d'.osccal ≤ deviation f v) ↔ targetValue.toInt ≤ (f 254).toNat := by
  have hrange := search_range hf
  have htop := search_top hf
  obtain ⟨hlt, hge⟩ := search_spec hf
  obtain ⟨k, u, hx⟩ := search_last fun _ => f
  have hstep : step L d (.usbReset fun _ => f) = osccalStart L (fun _ => f) d := rfl
  rw [hstep, osccalStart]
  generalize osccalSearch (fun _ => f) = p at *
  obtain ⟨t, x, n⟩ := p
  dsimp only at *
  subst hx
  by_cases h254 : t.toNat = 254
  · rw [neighbours_spin h254.ge]
    have hslow := htop.mp h254
    refine iff_of_false ?_ (by omega)
    rintro ⟨d', hd, -⟩
    exact absurd hd nofun
  · refine iff_of_true ?_ (by omega)
    have hprev : (t - 1).toNat = t.toNat - 1 := by
      rw [UInt8.toNat_sub_of_le _ _ (by rw [UInt8.le_iff_toNat_le]; exact hrange.1)]
      rfl
    have hadd : (t + 1).toNat = t.toNat + 1 := toNat_succ8 (by omega)
    have hslow : ((f (t - 1)).toNat : ℤ) < targetValue.toInt := by
      have hm := hf.mono (t - 1) t (by rw [UInt8.le_iff_toNat_le, hprev]; omega)
      omega
    -- the first neighbour wins over the raw length, and from there on deviations are compared
    rw [neighbours_step (by omega), if_pos (hf.distance_lt hslow u)]
    have h253 : t.toNat ≤ 253 := by omega
    have htwo : (t - 1 + 1).toNat + 2 = t.toNat + 2 := by rw [UInt8.sub_add_cancel]
    obtain ⟨v, hv, -, hall⟩ := neighbours_best (f := f) h253 (n + 1) (t - 1 + 1) (t - 1) htwo
      (show 2 < 256 by decide)
    rw [hv]
    rw [UInt8.sub_add_cancel] at hall
    have h1 := hall t UInt8.le_rfl (by omega)
    have h2 := hall (t + 1) (by rw [UInt8.le_iff_toNat_le, hadd]; omega) (by omega)
    rw [Int16.le_iff_toInt_le, hf.distance_toInt, hf.distance_toInt] at h1 h2
    have heep : d.eeprom.write L.osccalEep 1 (fun _ => v) L.osccalEep = v :=
      Mem.write_in (by rw [UInt16.sub_self]; decide)
    exact ⟨_, rfl, heep, deviation_optimum hf hlt (by omega) hge h1 h2⟩

end

/-- Frames that get longer by one with each value of `OSCCAL`. -/
theorem measures_linear {c : UInt16} (hlow : 2101 ≤ c.toNat) (hhigh : c.toNat < 2355) :
    Measures fun v => c + v.toUInt16 := by
  have hval (v : UInt8) : (c + v.toUInt16).toNat = c.toNat + v.toNat := by
    have := v.toNat_lt
    rw [UInt16.toNat_add, UInt8.toNat_toUInt16]
    omega
  constructor
  · intro u v huv
    rw [UInt8.le_iff_toNat_le] at huv
    rw [hval, hval]
    omega
  · intro v
    rw [hval, target_toInt]
    omega
  · intro v
    have := v.toNat_lt
    rw [hval]
    omega
  · rw [hval, target_toInt, UInt8.toNat_one]
    omega
  · rw [hval, target_toInt, show (255 : UInt8).toNat = 255 from rfl]
    omega

theorem calibrates_linear : ∃ d', step sampleLayout (idleDevice fun _ => 0)
    (.usbReset fun _ v => 2228 + v.toUInt16) = .ret d' ∧
      d'.eeprom sampleLayout.osccalEep = d'.osccal ∧
      ∀ v, deviation (fun v => 2228 + v.toUInt16) d'.osccal ≤
        deviation (fun v => 2228 + v.toUInt16) v :=
  (calibrates_iff sampleLayout (idleDevice fun _ => 0)
    (measures_linear (c := 2228) (by decide) (by decide))).mpr (by decide)

/-- When the target is reached at 255 only, the loop over 253, 254 and 255 goes on with 0. -/
theorem not_calibrates_top : Measures (fun v => 2101 + v.toUInt16) ∧
    ¬∃ d', step sampleLayout (idleDevice fun _ => 0)
      (.usbReset fun _ v => 2101 + v.toUInt16) = .ret d' := by
  refine ⟨measures_linear (c := 2101) (by decide) (by decide), ?_⟩
  rintro ⟨d', h⟩
  have hr : (step sampleLayout (idleDevice fun _ => 0)
    (.usbReset fun _ v => 2101 + v.toUInt16)).returns = false := by decide +kernel
  rw [h] at hr
  exact absurd hr nofun

end Memtype
