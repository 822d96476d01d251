import Mathlib

/-! A message cut into pieces of one length, the last of which is shorter, if need be empty, and so
ends it. -/

namespace Lib

variable {α β γ δ : Type*} {k : ℕ}

def chunks (k : ℕ) (l : List α) : List (List α) :=
  (List.range (l.length / k + 1)).map fun i => (l.drop (k * i)).take k

theorem chunks_short {l : List α} (h : l.length < k) : chunks k l = [l] := by
  unfold chunks
  rw [Nat.div_eq_of_lt h]
  simp [List.take_of_length_le h.le]

theorem chunks_long {l : List α} (hk : 0 < k) (h : k ≤ l.length) :
    chunks k l = l.take k :: chunks k (l.drop k) := by
  have hdiv : l.length / k = (l.drop k).length / k + 1 := by
    rw [List.length_drop, Nat.div_eq_sub_div hk h]
  unfold chunks
  rw [hdiv, List.range_succ_eq_map, List.map_cons, List.map_map, Nat.mul_zero, List.drop_zero]
  congr 1
  refine List.map_congr_left fun i _ => ?_
  change (l.drop (k * (i + 1))).take k = _
  rw [List.drop_drop, Nat.mul_succ, Nat.add_comm]

/-- The receiver puts the pieces together. -/
theorem flatten_chunks (hk : 0 < k) (l : List α) : (chunks k l).flatten = l := by
  induction h : l.length using Nat.strong_induction_on generalizing l with
  | _ n ih =>
    by_cases hl : l.length < k
    · rw [chunks_short hl, List.flatten_singleton]
    · have hle : k ≤ l.length := Nat.not_lt.mp hl
      rw [chunks_long hk hle, List.flatten_cons,
        ih (l.drop k).length (by rw [List.length_drop]; omega) _ rfl, List.take_append_drop]

/-- All pieces but the last are full, -/
theorem length_of_mem_dropLast_chunks {l c : List α} (h : c ∈ (chunks k l).dropLast) :
    c.length = k := by
  unfold chunks at h
  rw [List.range_succ, List.map_append, List.map_singleton, List.dropLast_concat] at h
  obtain ⟨i, hi, rfl⟩ := List.mem_map.mp h
  have hle : k * (i + 1) ≤ l.length :=
    (Nat.mul_le_mul_left k (List.mem_range.mp hi)).trans (Nat.mul_div_le _ _)
  rw [Nat.mul_succ] at hle
  rw [List.length_take, List.length_drop, Nat.min_eq_left (by omega)]

/-- and the last is not, so the receiver knows where the message ends. -/
theorem length_of_getLast_chunks (hk : 0 < k) {l c : List α} (h : (chunks k l).getLast? = some c) :
    c.length < k := by
  unfold chunks at h
  rw [List.range_succ, List.map_append, List.map_singleton, List.getLast?_concat] at h
  have hmod := Nat.div_add_mod l.length k
  have hlt := Nat.mod_lt l.length hk
  rw [← Option.some.inj h, List.length_take, List.length_drop]
  omega

/-- Items sent with a mark that changes from one to the next. -/
def marked (next : β → β) (f : β → α → γ) : β → List α → List γ
  | _, [] => []
  | b, a :: l => f b a :: marked next f (next b) l

section Marked

variable {next : β → β} {f : β → α → γ}

theorem map_marked {g : γ → α} (h : ∀ b a, g (f b a) = a) (b : β) (l : List α) :
    (marked next f b l).map g = l := by
  induction l generalizing b with
  | nil => rfl
  | cons a l ih => rw [marked, List.map_cons, h, ih]

theorem map_mark {g : γ → δ} {m : β → δ} (h : ∀ b a, g (f b a) = m b) (b : β) (l : List α) :
    (marked next f b l).map g = (List.range l.length).map fun i => m (next^[i] b) := by
  induction l generalizing b with
  | nil => rfl
  | cons a l ih =>
    rw [marked, List.map_cons, h, ih, List.length_cons, List.range_succ_eq_map, List.map_cons,
      List.map_map]
    rfl

theorem forall_marked {p : γ → Prop} (h : ∀ b a, p (f b a)) {b : β} {l : List α} {c : γ}
    (hc : c ∈ marked next f b l) : p c := by
  induction l generalizing b with
  | nil => exact absurd hc nofun
  | cons a l ih =>
    rcases List.mem_cons.mp hc with rfl | hc
    · exact h b a
    · exact ih hc

end Marked

end Lib
