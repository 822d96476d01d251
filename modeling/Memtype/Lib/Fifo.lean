import Mathlib

/-! A queue in a ring of slots. Slot `i` lies `i - head` places behind the head; as many slots as the
queue is long are full, from the head on, and the others are empty. -/

namespace Lib

variable {α β : Type*} {n : ℕ} [NeZero n]

structure Fifo (full : α → β → Prop) (empty : α → Prop) (buf : Fin n → α) (head : Fin n)
    (l : List β) : Prop where
  fits : l.length ≤ n
  filled : ∀ i b, l[(i - head).val]? = some b → full (buf i) b
  free : ∀ i, l.length ≤ (i - head).val → empty (buf i)

namespace Fifo

variable {full : α → β → Prop} {empty : α → Prop} {buf : Fin n → α} {head : Fin n} {l : List β}
  {a : α} {b b' : β}

omit [NeZero n] in
theorem nil (h : ∀ i, empty (buf i)) : Fifo full empty buf head [] :=
  ⟨Nat.zero_le n, fun _ _ h => absurd h nofun, fun i _ => h i⟩

theorem head_full (h : Fifo full empty buf head (b :: l)) : full (buf head) b :=
  h.filled head b (by rw [sub_self]; rfl)

theorem val_eq_zero {i : Fin n} (h : (i - head).val = 0) : i = head :=
  sub_eq_zero.mp (Fin.ext h)

/-- The first free slot takes one more. -/
theorem push (h : Fifo full empty buf head l) {i : Fin n} (hi : (i - head).val = l.length)
    (ha : full a b) : Fifo full empty (Function.update buf i a) head (l ++ [b]) := by
  have hlt := (i - head).isLt
  have hne {j : Fin n} (hj : (j - head).val ≠ l.length) : j ≠ i := by
    rintro rfl
    exact hj hi
  refine ⟨by rw [List.length_append, List.length_singleton]; omega, fun j c hc => ?_, fun j hj => ?_⟩
  · by_cases hj : (j - head).val = l.length
    · have hji : j = i := sub_left_inj.mp (Fin.ext (hj.trans hi.symm))
      rw [hj, List.getElem?_append_right le_rfl, Nat.sub_self] at hc
      cases hc
      rw [hji, Function.update_self]
      exact ha
    · have hlt : (j - head).val < l.length := by
        have := (List.getElem?_eq_some_iff.mp hc).1
        rw [List.length_append, List.length_singleton] at this
        omega
      rw [Function.update_of_ne (hne hj)]
      rw [List.getElem?_append_left hlt] at hc
      exact h.filled j c hc
  · rw [List.length_append, List.length_singleton] at hj
    rw [Function.update_of_ne (hne (by omega))]
    exact h.free j (by omega)

/-- The head changes in its slot. -/
theorem top (h : Fifo full empty buf head (b :: l)) (ha : full a b') :
    Fifo full empty (Function.update buf head a) head (b' :: l) := by
  refine ⟨h.fits, fun j c hc => ?_, fun j hj => ?_⟩
  · by_cases hj : j = head
    · subst hj
      rw [sub_self] at hc
      cases hc
      rw [Function.update_self]
      exact ha
    · rw [Function.update_of_ne hj]
      cases hv : (j - head).val with
      | zero => exact absurd (val_eq_zero hv) hj
      | succ k =>
        rw [hv] at hc
        exact h.filled j c (by rw [hv]; exact hc)
  · have hne : j ≠ head := by
      rintro rfl
      rw [sub_self] at hj
      exact absurd hj (Nat.not_succ_le_zero _)
    rw [Function.update_of_ne hne]
    exact h.free j hj

/-- The head is taken out, and the next slot is the head. -/
theorem pop (h : Fifo full empty buf head (b :: l)) (ha : empty a) :
    Fifo full empty (Function.update buf head a) (head + 1) l := by
  have hfits := h.fits
  rw [List.length_cons] at hfits
  have hval {j : Fin n} (hj : j ≠ head) : (j - head).val = (j - (head + 1)).val + 1 := by
    have hne : j - head ≠ 0 := sub_ne_zero.mpr hj
    have hpos : (j - head).val ≠ 0 := fun h0 => hne (Fin.ext h0)
    rw [← sub_sub, Fin.val_sub_one_of_ne_zero hne]
    omega
  have hself : (head - (head + 1)).val = n - 1 := by
    rw [sub_add_cancel_left]
    obtain ⟨k, rfl⟩ := Nat.exists_eq_succ_of_ne_zero (NeZero.ne n)
    exact Fin.coe_neg_one
  refine ⟨by omega, fun j c hc => ?_, fun j hj => ?_⟩
  · have hne : j ≠ head := by
      rintro rfl
      have := (List.getElem?_eq_some_iff.mp hc).1
      rw [hself] at this
      omega
    rw [Function.update_of_ne hne]
    exact h.filled j c (by rw [hval hne]; exact hc)
  · by_cases hj' : j = head
    · rw [hj', Function.update_self]
      exact ha
    · rw [Function.update_of_ne hj']
      refine h.free j ?_
      rw [hval hj', List.length_cons]
      omega

end Fifo

end Lib
