import Mathlib

/-! Two elements of a list that do the same are apart when something between them ends what the
first did. `key` says what an element does, and `ends` what ends it. -/

namespace Lib

variable {β κ : Type*} (key : β → Option κ) (ends : κ → β → Prop)

def Apart (l : List β) : Prop :=
  ∀ pre x mid y post k, l = pre ++ x :: (mid ++ y :: post) → key x = some k → key y = some k →
    ∃ z ∈ mid, ends k z

/-- What is in effect after `z`, when `h` was before it. -/
def inEffect (h : κ → Prop) (z : β) : κ → Prop := fun k => key z = some k ∨ h k ∧ ¬ends k z

def Fresh : (κ → Prop) → List β → Prop
  | _, [] => True
  | h, z :: l => (∀ k, key z = some k → ¬h k) ∧ Fresh (inEffect key ends h z) l

variable {key ends} {h : κ → Prop} {l m : List β}

/-- The elements are apart from each other, and from what was in effect before. -/
theorem fresh_iff : Fresh key ends h l ↔ Apart key ends l ∧
    ∀ k, h k → ∀ mid y post, l = mid ++ y :: post → key y = some k → ∃ z ∈ mid, ends k z := by
  induction l generalizing h with
  | nil =>
    refine iff_of_true trivial ⟨?_, ?_⟩
    · intro pre x mid y post k hl
      exact absurd hl.symm (List.append_ne_nil_of_right_ne_nil _ nofun)
    · intro k hk mid y post hl
      exact absurd hl.symm (List.append_ne_nil_of_right_ne_nil _ nofun)
  | cons z l ih =>
    rw [Fresh, ih]
    constructor
    · rintro ⟨hz, hl, hafter⟩
      refine ⟨?_, ?_⟩
      · intro pre x mid y post k heq hx hy
        cases pre with
        | nil =>
          obtain ⟨rfl, rfl⟩ := List.cons.inj heq
          exact hafter k (.inl hx) mid y post rfl hy
        | cons p pre =>
          obtain ⟨rfl, rfl⟩ := List.cons.inj heq
          exact hl pre x mid y post k rfl hx hy
      · intro k hk mid y post heq hy
        cases mid with
        | nil =>
          obtain ⟨rfl, rfl⟩ := List.cons.inj heq
          exact absurd hk (hz k hy)
        | cons p mid =>
          obtain ⟨rfl, rfl⟩ := List.cons.inj heq
          by_cases he : ends k z
          · exact ⟨z, List.mem_cons_self, he⟩
          · obtain ⟨w, hw, hew⟩ := hafter k (.inr ⟨hk, he⟩) mid y post rfl hy
            exact ⟨w, List.mem_cons_of_mem z hw, hew⟩
    · rintro ⟨hl, hbefore⟩
      refine ⟨?_, ?_, ?_⟩
      · intro k hz hk
        obtain ⟨w, hw, -⟩ := hbefore k hk [] z l rfl hz
        exact absurd hw List.not_mem_nil
      · intro pre x mid y post k heq hx hy
        exact hl (z :: pre) x mid y post k (by rw [heq]; rfl) hx hy
      · rintro k (hk | ⟨hk, he⟩) mid y post heq hy
        · exact hl [] z mid y post k (by rw [heq]; rfl) hk hy
        · obtain ⟨w, hw, hew⟩ := hbefore k hk (z :: mid) y post (by rw [heq]; rfl) hy
          rcases List.mem_cons.mp hw with rfl | hw
          · exact absurd hew he
          · exact ⟨w, hw, hew⟩

theorem apart_iff : Apart key ends l ↔ Fresh key ends (fun _ => False) l := by
  rw [fresh_iff]
  exact (and_iff_left fun _ hk => hk.elim).symm

end Lib
