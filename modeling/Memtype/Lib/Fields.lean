import Mathlib

/-! Texts of fields with a separator after each. `spell` reads such a text from the left and
keeps the elements of some of the fields. -/

namespace Lib

section

variable {α : Type*}

def joinFields (z : α) (fs : List (List α)) : List α := fs.flatMap fun f => f ++ [z]

theorem joinFields_cons (z : α) (f : List α) (fs : List (List α)) :
    joinFields z (f :: fs) = f ++ z :: joinFields z fs := by
  simp [joinFields]

variable [DecidableEq α]

/-- The elements of a text that lie in the fields `start`, …, `stop - 1`, when the text begins
in field `c`. -/
def spell (z : α) (start stop : ℕ) : ℕ → List α → List α
  | _, [] => []
  | c, x :: xs =>
    if stop ≤ c then []
    else if x = z then spell z start stop (c + 1) xs
    else if start ≤ c then x :: spell z start stop c xs
    else spell z start stop c xs

variable {z : α} {start stop c : ℕ}

theorem spell_done (h : stop ≤ c) (l : List α) : spell z start stop c l = [] := by
  cases l with
  | nil => rfl
  | cons x l => exact if_pos h

theorem spell_sep (h : c < stop) (l : List α) :
    spell z start stop c (z :: l) = spell z start stop (c + 1) l := by
  rw [spell, if_neg (not_le.mpr h), if_pos rfl]

/-- A stretch without a separator lies in one field. -/
theorem spell_append {s : List α} (hs : z ∉ s) (h : c < stop) (l : List α) :
    spell z start stop c (s ++ l) = (if start ≤ c then s else []) ++ spell z start stop c l := by
  induction s with
  | nil => split_ifs <;> rfl
  | cons x s ih =>
    have hx : x ≠ z := fun hx => hs (by rw [hx]; exact List.mem_cons_self)
    have hs' : z ∉ s := fun hz => hs (List.mem_cons_of_mem x hz)
    rw [List.cons_append, spell, if_neg (not_le.mpr h), if_neg hx, ih hs']
    split_ifs <;> rfl

/-- What the last element adds. -/
theorem spell_snoc (l : List α) (x : α) : spell z start stop c (l ++ [x]) =
    spell z start stop c l ++
      if start ≤ c + l.count z ∧ c + l.count z < stop ∧ x ≠ z then [x] else [] := by
  induction l generalizing c with
  | nil =>
    rw [List.nil_append, List.count_nil, Nat.add_zero]
    simp only [spell, List.nil_append]
    grind
  | cons y l ih =>
    by_cases hc : stop ≤ c
    · rw [spell_done hc, spell_done hc, if_neg (by omega)]
      rfl
    · rw [List.cons_append, spell, if_neg hc, spell, if_neg hc]
      by_cases hy : y = z
      · rw [if_pos hy, if_pos hy, ih, hy, List.count_cons_self, Nat.add_right_comm, Nat.add_assoc]
      · rw [if_neg hy, if_neg hy, ih, List.count_cons_of_ne hy]
        split_ifs <;> rfl

/-- What is spelled of a text are the fields asked for. -/
theorem spell_joinFields {fs : List (List α)} (hf : ∀ f ∈ fs, z ∉ f)
    (h : stop ≤ c + fs.length) (l : List α) :
    spell z start stop c (joinFields z fs ++ l) =
      ((fs.take (stop - c)).drop (start - c)).flatten := by
  induction fs generalizing c with
  | nil =>
    rw [spell_done (by simpa using h)]
    simp
  | cons f fs ih =>
    by_cases hc : stop ≤ c
    · rw [spell_done hc, Nat.sub_eq_zero_of_le hc]
      simp
    · have hf0 : z ∉ f := hf f List.mem_cons_self
      have hf' (g : List α) (hg : g ∈ fs) : z ∉ g := hf g (List.mem_cons_of_mem f hg)
      rw [List.length_cons] at h
      rw [joinFields_cons, List.append_assoc, spell_append hf0 (by omega), List.cons_append,
        spell_sep (by omega), ih hf' (by omega), show stop - c = (stop - (c + 1)) + 1 by omega,
        List.take_succ_cons]
      by_cases hs : start ≤ c
      · rw [if_pos hs, show start - c = 0 by omega, show start - (c + 1) = 0 by omega]
        simp
      · rw [if_neg hs, show start - c = (start - (c + 1)) + 1 by omega, List.drop_succ_cons]
        simp

theorem count_joinFields (fs : List (List α)) : fs.length ≤ (joinFields z fs).count z := by
  induction fs with
  | nil => exact Nat.zero_le _
  | cons f fs ih =>
    rw [joinFields_cons, List.count_append, List.count_cons_self, List.length_cons]
    omega

/-- Fewer than `stop` separators are read exactly before the end of the first `stop` fields. -/
theorem count_take_joinFields {fs : List (List α)} (hf : ∀ f ∈ fs, z ∉ f) (h : stop ≤ fs.length)
    (l : List α) (q : ℕ) : ((joinFields z fs ++ l).take q).count z < stop ↔
      q < (joinFields z (fs.take stop)).length := by
  induction fs generalizing stop q with
  | nil =>
    rw [List.length_nil, Nat.le_zero] at h
    rw [h]
    exact iff_of_false (Nat.not_lt_zero _) (Nat.not_lt_zero _)
  | cons f fs ih =>
    have hf0 : z ∉ f := hf f List.mem_cons_self
    have hf' (g : List α) (hg : g ∈ fs) : z ∉ g := hf g (List.mem_cons_of_mem f hg)
    cases stop with
    | zero => exact iff_of_false (Nat.not_lt_zero _) (Nat.not_lt_zero _)
    | succ s =>
      rw [joinFields_cons, List.append_assoc, List.cons_append, List.take_succ_cons,
        joinFields_cons, List.length_append, List.length_cons]
      rcases Nat.lt_or_ge f.length q with hq | hq
      · obtain ⟨m, rfl⟩ : ∃ m, q = f.length + (m + 1) := ⟨q - f.length - 1, by omega⟩
        rw [List.take_length_add_append, List.take_succ_cons, List.count_append,
          List.count_eq_zero_of_not_mem hf0, List.count_cons_self]
        have hi := ih hf' (Nat.le_of_succ_le_succ h) m
        omega
      · have h0 : ((f ++ z :: (joinFields z fs ++ l)).take q).count z = 0 := by
          rw [List.take_append_of_le_length hq]
          exact List.count_eq_zero_of_not_mem fun hm => hf0 (List.mem_of_mem_take hm)
        rw [h0]
        omega

end

end Lib
