import Mathlib

/-! Following a function from point to point, until it comes to a given one. -/

namespace Lib

variable {α : Type*} {f : α → α} {x y z : α}

def Leads (f : α → α) (x y : α) : Prop := ∃ i, f^[i] x = y

theorem Leads.trans (h1 : Leads f x y) (h2 : Leads f y z) : Leads f x z := by
  obtain ⟨i, rfl⟩ := h1
  obtain ⟨j, rfl⟩ := h2
  exact ⟨j + i, Function.iterate_add_apply f j i x⟩

theorem leads_apply (f : α → α) (x : α) : Leads f x (f x) := ⟨1, rfl⟩

theorem leads_fixed (hx : f x = x) (h : Leads f x y) : x = y := by
  obtain ⟨i, rfl⟩ := h
  exact (Function.iterate_fixed hx i).symm

/-- A point lies on a cycle when its successor leads back to it. -/
theorem leads_succ_iff : Leads f (f x) x ↔ x ∈ Function.periodicPts f := by
  constructor
  · rintro ⟨i, hi⟩
    exact Function.mk_mem_periodicPts (Nat.succ_pos i) hi
  · rintro ⟨n, hn, h⟩
    obtain ⟨i, rfl⟩ := Nat.exists_eq_succ_of_ne_zero hn.ne'
    exact ⟨i, h⟩

theorem Leads.periodic (h : Leads f x y) (hx : x ∈ Function.periodicPts f) :
    y ∈ Function.periodicPts f := by
  obtain ⟨i, rfl⟩ := h
  obtain ⟨n, hn, hp⟩ := hx
  exact Function.mk_mem_periodicPts hn (hp.apply_iterate i)

/-- The first visit comes before a point has to be met twice. -/
theorem Leads.first [Fintype α] (h : Leads f x y) :
    ∃ i < Fintype.card α, f^[i] x = y ∧ ∀ j < i, f^[j] x ≠ y := by
  classical
  refine ⟨Nat.find h, ?_, Nat.find_spec h, fun j hj => Nat.find_min h hj⟩
  by_contra hle
  rw [not_lt] at hle
  -- among the points up to the first visit two are equal
  have hninj : ¬Function.Injective fun j : Fin (Nat.find h + 1) => f^[j] x := by
    intro hinj
    have hcard := Fintype.card_le_of_injective _ hinj
    rw [Fintype.card_fin] at hcard
    omega
  simp only [Function.Injective, not_forall] at hninj
  obtain ⟨a, b, hab, hne⟩ := hninj
  have hcut (a b : ℕ) (hlt : a < b) (hb : b ≤ Nat.find h) (hab : f^[a] x = f^[b] x) : False := by
    refine Nat.find_min h (m := Nat.find h - b + a) (by omega) ?_
    rw [Function.iterate_add_apply, hab, ← Function.iterate_add_apply, Nat.sub_add_cancel hb]
    exact Nat.find_spec h
  rcases Nat.lt_or_gt_of_ne (Fin.val_ne_of_ne hne) with hlt | hlt
  · exact hcut a b hlt (Nat.lt_succ_iff.mp b.isLt) hab
  · exact hcut b a hlt (Nat.lt_succ_iff.mp a.isLt) hab.symm

end Lib
