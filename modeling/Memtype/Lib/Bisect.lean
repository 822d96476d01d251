import Mathlib

/-! Search by halving steps: from `t`, add each step after which the predicate still holds. With
steps that halve down to 1 this finds the last number before the predicate fails. When it is the
trial and not the number that decides, the number found tells which trials held. -/

namespace Lib

def bisect (p : ℕ → Prop) [DecidablePred p] (steps : List ℕ) (t : ℕ) : ℕ :=
  steps.foldl (fun t s => if p (t + s) then t + s else t) t

/-- The steps halve an interval of width `w` down to a single number. -/
def Halves : ℕ → List ℕ → Prop
  | w, [] => w = 1
  | w, s :: steps => w = 2 * s ∧ Halves s steps

instance decidableHalves : (w : ℕ) → (steps : List ℕ) → Decidable (Halves w steps)
  | w, [] => inferInstanceAs (Decidable (w = 1))
  | w, s :: steps =>
    haveI := decidableHalves s steps
    inferInstanceAs (Decidable (w = 2 * s ∧ Halves s steps))

theorem Halves.pos {w : ℕ} {steps : List ℕ} (h : Halves w steps) : 0 < w := by
  induction steps generalizing w with
  | nil => exact Nat.lt_of_lt_of_eq Nat.one_pos h.symm
  | cons s steps ih =>
    have hs := ih h.2
    have hw := h.1
    omega

variable {p : ℕ → Prop} [DecidablePred p]

theorem bisect_holds {steps : List ℕ} {t : ℕ} (ht : p t) : p (bisect p steps t) := by
  induction steps generalizing t with
  | nil => exact ht
  | cons s steps ih =>
    rw [bisect, List.foldl_cons, ← bisect]
    refine ih ?_
    split_ifs with h
    · exact h
    · exact ht

/-- Past the result the predicate fails, as far as the interval goes. -/
theorem bisect_last {n : ℕ} (hp : ∀ u v, u ≤ v → v < n → p v → p u) {steps : List ℕ} {w t : ℕ}
    (hs : Halves w steps) (hn : t + w ≤ n) {v : ℕ} (hv : bisect p steps t < v) (hw : v < t + w) :
    ¬p v := by
  induction steps generalizing w t with
  | nil =>
    have hw1 : w = 1 := hs
    have hv' : t < v := hv
    omega
  | cons s steps ih =>
    have hw1 := hs.1
    rw [bisect, List.foldl_cons, ← bisect] at hv
    split_ifs at hv with h
    · exact ih hs.2 (by omega) hv (by omega)
    · by_cases hvs : v < t + s
      · exact ih hs.2 (by omega) hv hvs
      · exact fun hpv => h (hp _ _ (not_lt.mp hvs) (by omega) hpv)

/-- The steps taken, added up: step by step from the trial `k` on, those whose trial holds. -/
def taken (p : ℕ → Prop) [DecidablePred p] : ℕ → List ℕ → ℕ
  | _, [] => 0
  | k, s :: steps => (if p k then s else 0) + taken p (k + 1) steps

theorem taken_lt {w : ℕ} {steps : List ℕ} (h : Halves w steps) (k : ℕ) : taken p k steps < w := by
  induction steps generalizing w k with
  | nil => exact h.pos
  | cons s steps ih =>
    have hs := ih h.2 (k + 1)
    have hw := h.1
    rw [taken]
    split_ifs <;> omega

/-- Nothing is taken when no trial holds. -/
theorem taken_eq_zero {w : ℕ} {steps : List ℕ} (h : Halves w steps) (k : ℕ) :
    taken p k steps = 0 ↔ ∀ i < steps.length, ¬p (k + i) := by
  induction steps generalizing w k with
  | nil => exact iff_of_true rfl fun i hi => absurd hi (Nat.not_lt_zero i)
  | cons s steps ih =>
    have hpos := h.2.pos
    rw [taken, Nat.add_eq_zero_iff, ih h.2, List.length_cons, Nat.forall_lt_succ_left]
    refine and_congr ?_ (forall₂_congr fun i _ => ?_)
    · rw [Nat.add_zero]
      split_ifs with hp
      · exact iff_of_false (Nat.ne_of_gt hpos) (not_not.mpr hp)
      · exact iff_of_true rfl hp
    · rw [Nat.add_right_comm, Nat.add_assoc]

/-- One of the two highest numbers is found when every trial but the last holds. -/
theorem taken_top {w : ℕ} {steps : List ℕ} (h : Halves w steps) (k : ℕ) :
    w ≤ taken p k steps + 2 ↔ ∀ i, i + 1 < steps.length → p (k + i) := by
  induction steps generalizing w k with
  | nil =>
    have hw : w = 1 := h
    exact iff_of_true (by omega) fun i hi => absurd hi (Nat.not_lt_zero _)
  | cons s steps ih =>
    have hw := h.1
    have hlt := taken_lt (p := p) h.2 (k + 1)
    cases steps with
    | nil =>
      have hs : s = 1 := h.2
      exact iff_of_true (by omega) fun i hi => absurd hi (by simp)
    | cons s' steps =>
      have hpos := h.2.2.pos
      have hs := h.2.1
      have hih := ih h.2 (k + 1)
      rw [taken]
      by_cases hp : p k
      · rw [if_pos hp, show w ≤ s + taken p (k + 1) (s' :: steps) + 2 ↔
          s ≤ taken p (k + 1) (s' :: steps) + 2 by omega, hih]
        constructor
        · intro hall i hi
          cases i with
          | zero => exact hp
          | succ i =>
            rw [← Nat.add_assoc, Nat.add_right_comm]
            exact hall i (Nat.lt_of_succ_lt_succ hi)
        · intro hall i hi
          rw [Nat.add_right_comm]
          exact hall (i + 1) (Nat.succ_lt_succ hi)
      · -- without the first step the others do not come near the width
        rw [if_neg hp]
        exact iff_of_false (by omega) fun hall => hp (hall 0 (by simp))

end Lib
