import Mathlib

/-! The line code of a serial bus: a zero is put behind every `k` ones, and then a zero is sent by
changing the level of the line and a one by keeping it. -/

namespace Lib

variable {k n : ℕ}

def stuff (k : ℕ) : ℕ → List Bool → List Bool
  | _, [] => []
  | _, false :: l => false :: stuff k 0 l
  | n, true :: l => if n + 1 = k then true :: false :: stuff k 0 l else true :: stuff k (n + 1) l

/-- Drops the bit behind every `k` ones. -/
def unstuff (k : ℕ) : ℕ → List Bool → List Bool
  | _, [] => []
  | n, b :: l => if n = k then unstuff k 0 l else b :: unstuff k (if b then n + 1 else 0) l

def nrzi : Bool → List Bool → List Bool
  | _, [] => []
  | level, b :: l => (level == b) :: nrzi (level == b) l

def unNrzi : Bool → List Bool → List Bool
  | _, [] => []
  | level, x :: l => (level == x) :: unNrzi x l

def lineLevel (level : Bool) (l : List Bool) : Bool := l.foldl (· == ·) level

theorem stuff_cons (b : Bool) (l : List Bool) : stuff k n (b :: l) = b ::
    if n + 1 = k ∧ b = true then false :: stuff k 0 l else stuff k (if b then n + 1 else 0) l := by
  cases b with
  | false => rw [stuff, if_neg fun h => Bool.false_ne_true h.2, if_neg Bool.false_ne_true]
  | true =>
    rw [stuff]
    by_cases hk : n + 1 = k
    · rw [if_pos hk, if_pos ⟨hk, rfl⟩]
    · rw [if_neg hk, if_neg fun h => hk h.1]
      rfl

/-- The ones before do not matter where a zero comes in time. -/
theorem stuff_forget {m j : ℕ} {l : List Bool} (hf : false ∈ l.take m) (hn : n + m ≤ k)
    (hj : j + m ≤ k) : stuff k n l = stuff k j l := by
  induction m generalizing l n j with
  | zero => exact absurd hf List.not_mem_nil
  | succ m ih =>
    cases l with
    | nil => rfl
    | cons b l =>
      cases b with
      | false => rfl
      | true =>
        have hl : false ∈ l.take m := by simpa using hf
        have hm : m ≠ 0 := by
          rintro rfl
          exact List.not_mem_nil hl
        rw [stuff, stuff, if_neg (by omega), if_neg (by omega), ih (j := j + 1) hl (by omega) (by omega)]

theorem nrzi_append (level : Bool) (l l' : List Bool) :
    nrzi level (l ++ l') = nrzi level l ++ nrzi (lineLevel level l) l' := by
  induction l generalizing level with
  | nil => rfl
  | cons b l ih => rw [List.cons_append, nrzi, nrzi, ih]; rfl

/-- The ones at the end of the bits, with `n` before them, if those that were stuffed do not count. -/
def ones (k : ℕ) : ℕ → List Bool → ℕ
  | n, [] => n
  | _, false :: l => ones k 0 l
  | n, true :: l => if n + 1 = k then ones k 0 l else ones k (n + 1) l

theorem stuff_append (l l' : List Bool) : stuff k n (l ++ l') = stuff k n l ++ stuff k (ones k n l) l' := by
  induction l generalizing n with
  | nil => rfl
  | cons b l ih =>
    cases b with
    | false => rw [List.cons_append, stuff, stuff, ones, ih, List.cons_append]
    | true =>
      rw [List.cons_append, stuff, stuff, ones]
      split_ifs
      · rw [ih, List.cons_append, List.cons_append]
      · rw [ih, List.cons_append]

theorem ones_append (l l' : List Bool) : ones k n (l ++ l') = ones k (ones k n l) l' := by
  induction l generalizing n with
  | nil => rfl
  | cons b l ih =>
    cases b with
    | false => rw [List.cons_append, ones, ones, ih]
    | true =>
      rw [List.cons_append, ones, ones]
      split_ifs
      · rw [ih]
      · rw [ih]

theorem ones_lt (h : n < k) (l : List Bool) : ones k n l < k := by
  induction l generalizing n with
  | nil => exact h
  | cons b l ih =>
    cases b with
    | false => exact ih (Nat.zero_lt_of_lt h)
    | true =>
      rw [ones]
      split_ifs with hk
      · exact ih (Nat.zero_lt_of_lt h)
      · exact ih (by omega)

/-- What has been stuffed is taken out again. -/
theorem unstuff_stuff (h : n < k) (l : List Bool) : unstuff k n (stuff k n l) = l := by
  induction l generalizing n with
  | nil => rfl
  | cons b l ih =>
    cases b with
    | false =>
      rw [stuff, unstuff, if_neg h.ne, if_neg Bool.false_ne_true, ih (Nat.zero_lt_of_lt h)]
    | true =>
      rw [stuff]
      split_ifs with hk
      · rw [unstuff, if_neg h.ne, if_pos rfl, unstuff, if_pos hk, ih (Nat.zero_lt_of_lt h)]
      · rw [unstuff, if_neg h.ne, if_pos rfl, ih (by omega)]

theorem unNrzi_nrzi (level : Bool) (l : List Bool) : unNrzi level (nrzi level l) = l := by
  induction l generalizing level with
  | nil => rfl
  | cons b l ih =>
    rw [nrzi, unNrzi, ih]
    cases level <;> cases b <;> rfl

theorem not_replicate_prefix_stuff (h : n < k) (l : List Bool) :
    ¬List.replicate (k + 1 - n) true <+: stuff k n l := by
  induction l generalizing n with
  | nil =>
    intro hp
    have := hp.length_le
    rw [List.length_replicate] at this
    simp [stuff] at this
    omega
  | cons b l ih =>
    obtain ⟨m, hm⟩ : ∃ m, k + 1 - n = m + 1 := ⟨k - n, by omega⟩
    rw [hm, List.replicate_succ]
    intro hp
    cases b with
    | false =>
      rw [stuff] at hp
      exact absurd (List.cons_prefix_cons.mp hp).1 (by decide)
    | true =>
      rw [stuff] at hp
      split_ifs at hp with hk
      · have hrest := (List.cons_prefix_cons.mp hp).2
        obtain ⟨j, rfl⟩ : ∃ j, m = j + 1 := ⟨m - 1, by omega⟩
        rw [List.replicate_succ] at hrest
        exact absurd (List.cons_prefix_cons.mp hrest).1 (by decide)
      · refine ih (n := n + 1) (by omega) ?_
        rw [show k + 1 - (n + 1) = m by omega]
        exact (List.cons_prefix_cons.mp hp).2

/-- No more than `k` ones stand together, -/
theorem not_replicate_infix_stuff (h : n < k) (l : List Bool) :
    ¬List.replicate (k + 1) true <:+: stuff k n l := by
  induction l generalizing n with
  | nil =>
    intro hp
    have := hp.length_le
    simp [stuff] at this
  | cons b l ih =>
    intro hp
    have hzero : 0 < k := Nat.zero_lt_of_lt h
    have hprefix : ¬List.replicate (k + 1) true <+: stuff k n (b :: l) := fun hp =>
      not_replicate_prefix_stuff h (b :: l)
        ((List.prefix_replicate_iff.mpr ⟨by simp, by simp⟩).trans hp)
    have htail {x : Bool} {t : List Bool} (ht : stuff k n (b :: l) = x :: t)
        (hn : ¬List.replicate (k + 1) true <:+: t) : False := by
      rw [ht] at hp hprefix
      exact (List.infix_cons_iff.mp hp).elim hprefix hn
    cases b with
    | false => exact htail rfl (ih hzero)
    | true =>
      by_cases hk : n + 1 = k
      · refine htail (if_pos hk) fun hp => ?_
        rcases List.infix_cons_iff.mp hp with hp | hp
        · rw [List.replicate_succ] at hp
          exact absurd (List.cons_prefix_cons.mp hp).1 (by decide)
        · exact ih hzero hp
      · exact htail (if_neg hk) (ih (by omega))

theorem replicate_prefix_nrzi {m : ℕ} {level : Bool} {l : List Bool}
    (h : List.replicate m level <+: nrzi level l) : List.replicate m true <+: l := by
  induction m generalizing l with
  | zero => exact List.nil_prefix
  | succ m ih =>
    cases l with
    | nil => exact absurd h.length_le (by simp [nrzi])
    | cons b l =>
      rw [List.replicate_succ, nrzi] at h
      obtain ⟨hb, hrest⟩ := List.cons_prefix_cons.mp h
      have hone : b = true := by revert hb; cases b <;> cases level <;> decide
      subst hone
      rw [List.replicate_succ]
      refine List.cons_prefix_cons.mpr ⟨rfl, ih ?_⟩
      rwa [← hb] at hrest

/-- so the line does not keep one level for longer. -/
theorem replicate_infix_nrzi {m : ℕ} {c level : Bool} {l : List Bool}
    (h : List.replicate (m + 1) c <:+: nrzi level l) : List.replicate m true <:+: l := by
  induction l generalizing level with
  | nil => exact absurd h.length_le (by simp [nrzi])
  | cons b l ih =>
    rw [nrzi] at h
    rcases List.infix_cons_iff.mp h with hp | hp
    · rw [List.replicate_succ] at hp
      obtain ⟨hc, hrest⟩ := List.cons_prefix_cons.mp hp
      rw [← hc] at hrest
      exact (replicate_prefix_nrzi hrest).isInfix.trans (List.suffix_cons b l).isInfix
    · exact (ih hp).trans (List.suffix_cons b l).isInfix

/-- A stuffed line changes its level at least once in `k + 1` bits. -/
theorem edge_stuffed (h : n < k) (c level : Bool) (l : List Bool) :
    ¬List.replicate (k + 2) c <:+: nrzi level (stuff k n l) := fun hp =>
  not_replicate_infix_stuff h l (replicate_infix_nrzi hp)

end Lib
