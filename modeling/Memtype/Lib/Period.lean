import Mathlib

/-! A counter that counts modulo `w` and fires at the multiples of `p`. It fires once in `p` steps
until it wraps, and from there on too only when `p` divides `w`. -/

namespace Lib

variable {w p : ℕ}

/-- The counter, which began at 0, stands at a multiple of `p` after its step `i`. -/
def Fires (w p i : ℕ) : Prop := (i + 1) % w % p = 0

instance (w p : ℕ) : DecidablePred (Fires w p) :=
  fun i => inferInstanceAs (Decidable ((i + 1) % w % p = 0))

theorem count_fires_of {n : ℕ} (h : ∀ i < n, Fires w p i ↔ p ∣ i + 1) :
    Nat.count (Fires w p) n = n / p := by
  induction n with
  | zero => rw [Nat.count_zero, Nat.zero_div]
  | succ n ih =>
    rw [Nat.count_succ, Nat.succ_div, ih fun i hi => h i (Nat.lt_succ_of_lt hi)]
    exact congrArg (n / p + ·) (if_congr (h n (Nat.lt_succ_self n)) rfl rfl)

/-- Until it wraps the counter keeps its period. -/
theorem count_fires_lt {n : ℕ} (h : n < w) : Nat.count (Fires w p) n = n / p := by
  refine count_fires_of fun i hi => ?_
  rw [Fires, Nat.mod_eq_of_lt (Nat.lt_of_le_of_lt hi h), Nat.dvd_iff_mod_eq_zero]

/-- When it wraps it fires, whether the period is over or not. -/
theorem count_fires_wrap (hw : 0 < w) (hp : ¬p ∣ w) : Nat.count (Fires w p) w = w / p + 1 := by
  obtain ⟨n, rfl⟩ := Nat.exists_eq_succ_of_ne_zero hw.ne'
  have hfire : Fires (n + 1) p n := by
    rw [Fires, Nat.mod_self, Nat.zero_mod]
  rw [Nat.succ_eq_add_one, Nat.count_succ, if_pos hfire, count_fires_lt (Nat.lt_succ_self n),
    Nat.succ_div_of_not_dvd hp]

theorem count_fires_iff (hw : 0 < w) (hp : ¬p ∣ w) {n : ℕ} :
    (∀ k ≤ n, Nat.count (Fires w p) k = k / p) ↔ n < w := by
  constructor
  · intro h
    by_contra hn
    have hwrap := count_fires_wrap hw hp
    rw [h w (not_lt.mp hn)] at hwrap
    omega
  · exact fun h k hk => count_fires_lt (Nat.lt_of_le_of_lt hk h)

section

variable {α : Type*} {a b : α → Bool} {l : List α}

/-- A list has a prefix for each count up to its own. -/
theorem exists_prefix_countP {k : ℕ} (h : k ≤ l.countP a) : ∃ m, m <+: l ∧ m.countP a = k := by
  induction l generalizing k with
  | nil => exact ⟨[], List.prefix_refl _, (Nat.le_zero.mp h).symm⟩
  | cons x l ih =>
    cases k with
    | zero => exact ⟨[], List.nil_prefix, rfl⟩
    | succ k =>
      rw [List.countP_cons] at h
      have hle : (if a x then k else k + 1) ≤ l.countP a := by
        split_ifs at h ⊢ <;> omega
      obtain ⟨m, hm, hc⟩ := ih hle
      refine ⟨x :: m, (List.prefix_cons_inj x).mpr hm, ?_⟩
      rw [List.countP_cons, hc]
      split_ifs <;> omega

theorem dvd_of_succ_div {n : ℕ} (h : (n + 1) / p = n / p + 1) : p ∣ n + 1 := by
  by_contra hd
  rw [Nat.succ_div_of_not_dvd hd] at h
  omega

/-- Where one `b` comes with every `p` of the `a`s, two that follow each other are `p` apart. -/
theorem apart_of_counts (hp : 0 < p) (hb : ∀ x, b x = true → a x = true)
    (h : ∀ m, m <+: l → m.countP b = m.countP a / p) {pre mid post : List α} {x y : α}
    (hl : l = pre ++ x :: (mid ++ y :: post)) (hx : b x = true) (hy : b y = true)
    (hmid : mid.countP b = 0) : (mid ++ [y]).countP a = p := by
  have h1 := h pre (hl ▸ List.prefix_append _ _)
  have h2 := h (pre ++ [x]) ⟨mid ++ y :: post, by rw [hl]; simp⟩
  have h3 := h (pre ++ [x] ++ mid) ⟨y :: post, by rw [hl]; simp⟩
  have h4 := h (pre ++ [x] ++ mid ++ [y]) ⟨post, by rw [hl]; simp⟩
  simp only [List.countP_append, List.countP_singleton, hx, hy, hb x hx, hb y hy, if_true, hmid,
    Nat.add_zero] at h1 h2 h3 h4 ⊢
  obtain ⟨q, hq⟩ := dvd_of_succ_div (h2.symm.trans (congrArg (· + 1) h1))
  obtain ⟨q', hq'⟩ := dvd_of_succ_div (h4.symm.trans (congrArg (· + 1) h3))
  -- both quotients are the numbers of `b`s
  rw [hq, Nat.mul_div_cancel_left q hp] at h2
  rw [hq', Nat.mul_div_cancel_left q' hp] at h4
  rw [show q' = q + 1 by omega, Nat.mul_succ] at hq'
  omega

end

end Lib
