import Mathlib

/-! Cyclic redundancy checks in the reflected form: the register takes the message from its low
end, bit by bit, and the generator is subtracted whenever a one falls out. -/

namespace Lib

namespace Crc

variable {w : ℕ} (poly : BitVec w)

def shift (r : BitVec w) : BitVec w := if r.getLsbD 0 then (r >>> 1) ^^^ poly else r >>> 1

def bit (r : BitVec w) (b : Bool) : BitVec w := shift poly (r ^^^ (BitVec.ofBool b).setWidth w)

def bits (r : BitVec w) (l : List Bool) : BitVec w := l.foldl (bit poly) r

/-- The bits of a word in the order in which they are sent. -/
def lsbFirst {n : ℕ} (v : BitVec n) : List Bool := List.ofFn fun i : Fin n => v.getLsbD i

@[simp] theorem bits_nil (r : BitVec w) : bits poly r [] = r := rfl

@[simp] theorem bits_cons (r : BitVec w) (b : Bool) (l : List Bool) :
    bits poly r (b :: l) = bits poly (bit poly r b) l := rfl

theorem bits_append (r : BitVec w) (l l' : List Bool) :
    bits poly r (l ++ l') = bits poly (bits poly r l) l' := List.foldl_append ..

@[simp] theorem length_lsbFirst {n : ℕ} (v : BitVec n) : (lsbFirst v).length = n := List.length_ofFn

@[simp] theorem getElem_lsbFirst {n : ℕ} (v : BitVec n) {i : ℕ} (hi : i < (lsbFirst v).length) :
    (lsbFirst v)[i] = v.getLsbD i := List.getElem_ofFn ..

/-- The low half is sent first. -/
theorem lsbFirst_append {n m : ℕ} (h : BitVec n) (l : BitVec m) :
    lsbFirst (h ++ l) = lsbFirst l ++ lsbFirst h := by
  refine List.ext_getElem (by simp [Nat.add_comm]) fun i hi hi' => ?_
  rw [getElem_lsbFirst, BitVec.getLsbD_append, List.getElem_append]
  simp only [length_lsbFirst, getElem_lsbFirst]
  split_ifs
  · rfl
  · rfl

def load : List Bool → BitVec w
  | [] => 0#w
  | b :: l => (BitVec.ofBool b).setWidth w ^^^ (load l <<< 1)

theorem getLsbD_load (l : List Bool) {i : ℕ} (hi : i < w) :
    (load l : BitVec w).getLsbD i = l.getD i false := by
  induction l generalizing i with
  | nil => simp [load]
  | cons b l ih =>
    cases i with
    | zero => simp [load, hi]
    | succ i =>
      rw [load, BitVec.getLsbD_xor, BitVec.getLsbD_shiftLeft, List.getD_cons_succ,
        ← ih (Nat.lt_of_succ_lt hi)]
      simp [hi]

theorem load_lsbFirst {n : ℕ} (v : BitVec n) : (load (lsbFirst v) : BitVec w) = v.setWidth w := by
  refine BitVec.eq_of_getLsbD_eq fun i hi => ?_
  rw [getLsbD_load _ hi, BitVec.getLsbD_setWidth, decide_eq_true hi, Bool.true_and]
  unfold lsbFirst
  by_cases h : i < n
  · simp [List.getD_eq_getElem?_getD, h]
  · simp [List.getD_eq_getElem?_getD, h, BitVec.getLsbD_of_ge v i (not_lt.mp h)]

theorem load_inj {l l' : List Bool} (hl : l.length = l'.length) (hw : l.length ≤ w)
    (h : (load l : BitVec w) = load l') : l = l' := by
  refine List.ext_getElem hl fun i hi hi' => ?_
  have hg : (load l : BitVec w).getLsbD i = (load l' : BitVec w).getLsbD i := by rw [h]
  rw [getLsbD_load l (by omega), getLsbD_load l' (by omega)] at hg
  rwa [List.getD_eq_getElem l false hi, List.getD_eq_getElem l' false hi'] at hg

theorem shift_xor (r s : BitVec w) : shift poly (r ^^^ s) = shift poly r ^^^ shift poly s := by
  unfold shift
  rw [BitVec.getLsbD_xor, BitVec.ushiftRight_xor_distrib]
  cases r.getLsbD 0 <;> cases s.getLsbD 0
  · rfl
  · exact BitVec.xor_assoc ..
  · change r >>> 1 ^^^ s >>> 1 ^^^ poly = r >>> 1 ^^^ poly ^^^ s >>> 1
    rw [BitVec.xor_assoc, BitVec.xor_comm (s >>> 1), BitVec.xor_assoc]
  · change r >>> 1 ^^^ s >>> 1 = r >>> 1 ^^^ poly ^^^ (s >>> 1 ^^^ poly)
    rw [BitVec.xor_comm (s >>> 1) poly, ← BitVec.xor_assoc, BitVec.xor_assoc (r >>> 1),
      BitVec.xor_self, BitVec.xor_zero]

theorem iterate_shift_xor (n : ℕ) (r s : BitVec w) :
    (shift poly)^[n] (r ^^^ s) = (shift poly)^[n] r ^^^ (shift poly)^[n] s := by
  induction n generalizing r s with
  | zero => rfl
  | succ n ih => rw [Function.iterate_succ_apply, shift_xor, ih, ← Function.iterate_succ_apply,
      ← Function.iterate_succ_apply]

/-- Bits that have not reached the low end only move. -/
theorem shift_load {l : List Bool} (hl : l.length < w) :
    shift poly (load l <<< 1 : BitVec w) = load l := by
  have h0 : (load l <<< 1 : BitVec w).getLsbD 0 = false := by simp
  unfold shift
  rw [h0, if_neg nofun]
  refine BitVec.eq_of_getLsbD_eq fun i hi => ?_
  rw [BitVec.getLsbD_ushiftRight, BitVec.getLsbD_shiftLeft, Nat.add_comm 1 i, Nat.add_sub_cancel]
  by_cases h : i + 1 < w
  · simp [h]
  · have hd : l.getD i false = false := List.getD_eq_default l false (by omega)
    rw [getLsbD_load l hi, hd]
    simp [h]

theorem bits_eq_load {l : List Bool} (hl : l.length ≤ w) (r : BitVec w) :
    bits poly r l = (shift poly)^[l.length] (r ^^^ load l) := by
  induction l generalizing r with
  | nil => simp [load]
  | cons b l ih =>
    rw [bits_cons, ih (Nat.le_of_succ_le hl), List.length_cons, Function.iterate_succ_apply, load,
      ← BitVec.xor_assoc, shift_xor, shift_load poly hl]
    rfl

/-- After a message and the complement of its register, the register no longer depends on the
message. -/
theorem bits_residue (r : BitVec w) :
    bits poly r (lsbFirst (~~~r)) = (shift poly)^[w] (BitVec.allOnes w) := by
  rw [bits_eq_load poly (length_lsbFirst _).le, length_lsbFirst, load_lsbFirst, BitVec.setWidth_eq]
  congr 1
  rw [← BitVec.xor_allOnes, ← BitVec.xor_assoc, BitVec.xor_self, BitVec.zero_xor]

/-- The second message is the first with an error in it, all of whose bits lie within `k`. -/
def Burst (k : ℕ) (l l' : List Bool) : Prop :=
  l.length = l'.length ∧ l ≠ l' ∧ ∃ s, ∀ i, l[i]? ≠ l'[i]? → s ≤ i ∧ i < s + k

section Injective

variable (hp : poly.msb = true)
include hp

/-- The top bit tells whether the generator was subtracted. -/
theorem shift_injective : Function.Injective (shift poly) := by
  intro r s h
  have hw : 0 < w := by
    refine Nat.pos_of_ne_zero fun h0 => ?_
    subst h0
    rw [BitVec.msb_eq_getLsbD_last] at hp
    exact absurd hp (by simp)
  have htop (r : BitVec w) : (shift poly r).msb = r.getLsbD 0 := by
    unfold shift
    cases h0 : r.getLsbD 0 <;> simp [hp, BitVec.msb_ushiftRight]
  have h0 : r.getLsbD 0 = s.getLsbD 0 := by rw [← htop, h, htop]
  have hrest : r >>> 1 = s >>> 1 := by
    unfold shift at h
    rw [h0] at h
    cases hs : s.getLsbD 0 with
    | false => simpa [hs] using h
    | true => simpa [hs, BitVec.xor_left_inj] using h
  refine BitVec.eq_of_getLsbD_eq fun i hi => ?_
  cases i with
  | zero => exact h0
  | succ i =>
    have hg := congrArg (BitVec.getLsbD · i) hrest
    simpa [BitVec.getLsbD_ushiftRight, Nat.add_comm] using hg

theorem bits_injective (l : List Bool) : Function.Injective fun r => bits poly r l := by
  induction l with
  | nil => exact Function.injective_id
  | cons b l ih =>
    intro r s h
    exact BitVec.xor_left_inj _ |>.mp (shift_injective poly hp (ih h))

theorem bits_append_ne (r : BitVec w) {x y : List Bool} (a c : List Bool) (hl : x.length = y.length)
    (hw : x.length ≤ w) (hne : x ≠ y) : bits poly r (a ++ x ++ c) ≠ bits poly r (a ++ y ++ c) := by
  intro h
  rw [bits_append, bits_append, bits_append poly r (a ++ y), bits_append poly r a y] at h
  have hxy : bits poly (bits poly r a) x = bits poly (bits poly r a) y := bits_injective poly hp c h
  generalize bits poly r a = s at hxy
  rw [bits_eq_load poly hw, bits_eq_load poly (hl ▸ hw), hl] at hxy
  have hload := (shift_injective poly hp).iterate _ hxy
  exact hne (load_inj hl hw (BitVec.xor_right_inj _ |>.mp hload))

/-- Two messages that differ in a burst of at most `w` bits leave different registers. -/
theorem bits_burst (r : BitVec w) {l l' : List Bool} (h : Burst w l l') :
    bits poly r l ≠ bits poly r l' := by
  obtain ⟨hl, hne, s, hs⟩ := h
  have hhead : l.take s = l'.take s := by
    refine List.ext_getElem? fun i => ?_
    rw [List.getElem?_take, List.getElem?_take]
    split_ifs with hi
    · exact not_imp_comm.mp (hs i) fun h => absurd h.1 (Nat.not_le.mpr hi)
    · rfl
  have htail : l.drop (s + w) = l'.drop (s + w) := by
    refine List.ext_getElem? fun i => ?_
    rw [List.getElem?_drop, List.getElem?_drop]
    exact not_imp_comm.mp (hs (s + w + i)) fun h => absurd h.2 (Nat.not_lt.mpr (Nat.le_add_right _ i))
  have hsplit (l : List Bool) : l = l.take s ++ (l.drop s).take w ++ l.drop (s + w) := by
    rw [List.append_assoc, ← List.drop_drop, List.take_append_drop, List.take_append_drop]
  have hmid : (l.drop s).take w ≠ (l'.drop s).take w := fun h =>
    hne ((hsplit l).trans (by rw [hhead, h, htail]; exact (hsplit l').symm))
  rw [hsplit l, hsplit l', hhead, htail]
  refine bits_append_ne poly hp r _ _ ?_ ?_ hmid
  · rw [List.length_take, List.length_take, List.length_drop, List.length_drop, hl]
  · exact List.length_take_le w _

end Injective

end Crc

end Lib
