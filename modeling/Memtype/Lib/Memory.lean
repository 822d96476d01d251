import Mathlib

/-! Byte memories over a 16-bit address space that wraps around. A block of `n`
bytes at `a` is named by its distance from `a`, so no lemma asks for the block to
end before the address space does. -/

namespace Lib

theorem toNat_succ8 {x : UInt8} (h : x.toNat < 255) : (x + 1).toNat = x.toNat + 1 :=
  (UInt8.toNat_add x 1).trans (Nat.mod_eq_of_lt (Nat.succ_lt_succ h))

theorem toNat_succ16 {x : UInt16} (h : x.toNat < 65535) : (x + 1).toNat = x.toNat + 1 :=
  (UInt16.toNat_add x 1).trans (Nat.mod_eq_of_lt (Nat.succ_lt_succ h))

abbrev Mem := UInt16 → UInt8

namespace Mem

/-- The memory with the `n` bytes from `a` on replaced by `f 0, f 1, …`. -/
def write (m : Mem) (a : UInt16) (n : ℕ) (f : ℕ → UInt8) : Mem :=
  fun x => if (x - a).toNat < n then f (x - a).toNat else m x

def read (m : Mem) (a : UInt16) (n : ℕ) : Fin n → UInt8 := fun i => m (a + UInt16.ofNat i)

theorem toNat_sub (x a : UInt16) : (x - a).toNat = (65536 - a.toNat + x.toNat) % 65536 := by
  rw [UInt16.toNat_sub]

theorem toNat_sub_pos {x a : UInt16} (h : x ≠ a) : 0 < (x - a).toNat := by
  have hx := x.toNat_lt
  have ha := a.toNat_lt
  have hne : x.toNat ≠ a.toNat := fun he => h (UInt16.toNat_inj.mp he)
  rw [toNat_sub]
  omega

theorem toNat_add_ofNat_sub (a : UInt16) {i : ℕ} (hi : i < 65536) :
    (a + UInt16.ofNat i - a).toNat = i := by
  have := a.toNat_lt
  rw [toNat_sub, UInt16.toNat_add, UInt16.toNat_ofNat']
  omega

theorem write_in {m : Mem} {a x : UInt16} {n : ℕ} {f : ℕ → UInt8} (h : (x - a).toNat < n) :
    m.write a n f x = f (x - a).toNat := if_pos h

theorem write_out {m : Mem} {a x : UInt16} {n : ℕ} {f : ℕ → UInt8} (h : n ≤ (x - a).toNat) :
    m.write a n f x = m x := if_neg (by omega)

@[simp] theorem write_zero (m : Mem) (a : UInt16) (f : ℕ → UInt8) : m.write a 0 f = m := by
  funext x; exact write_out (Nat.zero_le _)

theorem write_at (m : Mem) (a : UInt16) {n i : ℕ} (f : ℕ → UInt8) (hi : i < n) (hi' : i < 65536) :
    m.write a n f (a + UInt16.ofNat i) = f i := by
  have h := toNat_add_ofNat_sub a hi'
  rw [write_in (by rw [h]; exact hi), h]

/-- Storing one byte of a block. -/
theorem update_write (m : Mem) (a : UInt16) {n i : ℕ} (f : ℕ → UInt8) (v : UInt8) (hi : i < n)
    (hi' : i < 65536) : Function.update (m.write a n f) (a + UInt16.ofNat i) v =
      m.write a n (Function.update f i v) := by
  have h := toNat_add_ofNat_sub a hi'
  funext x
  by_cases hx : x = a + UInt16.ofNat i
  · rw [hx, Function.update_self, write_in (by rw [h]; exact hi), h, Function.update_self]
  · rw [Function.update_of_ne hx]
    have hne : (x - a).toNat ≠ i := by
      rintro rfl
      rw [UInt16.ofNat_toNat] at hx
      exact hx (UInt16.add_comm _ _ ▸ (UInt16.sub_add_cancel x a).symm)
    unfold write
    rw [Function.update_of_ne hne]

/-- What is written inside a region leaves the cells outside it alone. -/
theorem write_region (m : Mem) {a x : UInt16} {o n w : ℕ} (f : ℕ → UInt8) (hw : o + n ≤ w)
    (hx : w ≤ (x - a).toNat) : m.write (a + UInt16.ofNat o) n f x = m x := by
  refine write_out ?_
  have ha := a.toNat_lt
  have hd := (x - a).toNat_lt
  have h : (x - (a + UInt16.ofNat o)).toNat = (x - a).toNat - o := by
    rw [← UInt16.ofNat_toNat (x := a)] at hx hd ⊢
    simp only [toNat_sub, UInt16.toNat_add, UInt16.toNat_ofNat'] at hx hd ⊢
    omega
  omega

theorem write_congr (m : Mem) (a : UInt16) {n : ℕ} {f g : ℕ → UInt8} (h : ∀ i < n, f i = g i) :
    m.write a n f = m.write a n g := by
  funext x
  unfold write
  split_ifs with hx
  · exact h _ hx
  · rfl

theorem write_write (m : Mem) (a : UInt16) (n : ℕ) (f g : ℕ → UInt8) :
    (m.write a n f).write a n g = m.write a n g := by
  funext x
  unfold write
  split_ifs <;> rfl

/-- Two blocks written one right after the other are one block. -/
theorem write_append (m : Mem) (a : UInt16) (k n : ℕ) (f g : ℕ → UInt8) (hkn : k + n ≤ 65536) :
    (m.write a k f).write (a + UInt16.ofNat k) n g =
      m.write a (k + n) fun i => if i < k then f i else g (i - k) := by
  funext x
  have ha := a.toNat_lt
  have hx := x.toNat_lt
  have h : (x - (a + UInt16.ofNat k)).toNat = ((x - a).toNat + (65536 - k)) % 65536 := by
    simp only [toNat_sub, UInt16.toNat_add, UInt16.toNat_ofNat']
    omega
  have hd := (x - a).toNat_lt
  unfold write
  rw [h]
  dsimp only
  by_cases h1 : (x - a).toNat < k
  · rw [if_neg (by omega), if_pos h1, if_pos (by omega), if_pos h1]
  · by_cases h2 : (x - a).toNat < k + n
    · rw [if_pos (by omega), if_pos h2, if_neg h1]
      congr 1
      omega
    · rw [if_neg (by omega), if_neg h1, if_neg h2]

/-- Writing back a block of which only the part from `s` to `e` is new writes just that part. -/
theorem write_patch (m : Mem) (p : UInt16) {n s e : ℕ} (g : ℕ → UInt8) (hse : s ≤ e)
    (hen : e ≤ n) (hn : n ≤ 65536) :
    m.write p n (fun j => if s ≤ j ∧ j < e then g (j - s) else m (p + UInt16.ofNat j)) =
      m.write (p + UInt16.ofNat s) (e - s) g := by
  funext x
  have hp := p.toNat_lt
  have hx := x.toNat_lt
  have h : (x - (p + UInt16.ofNat s)).toNat = ((x - p).toNat + (65536 - s)) % 65536 := by
    simp only [toNat_sub, UInt16.toNat_add, UInt16.toNat_ofNat']
    omega
  have hd := (x - p).toNat_lt
  have hback : p + UInt16.ofNat (x - p).toNat = x := by
    rw [UInt16.ofNat_toNat]
    apply UInt16.toNat_inj.mp
    simp only [toNat_sub, UInt16.toNat_add]
    omega
  unfold write
  dsimp only
  rw [h, hback]
  by_cases h1 : s ≤ (x - p).toNat ∧ (x - p).toNat < e
  · rw [if_pos (by omega), if_pos h1, if_pos (by omega)]
    congr 1
    omega
  · rw [if_neg h1, ite_self, if_neg (by omega)]

theorem read_apply (m : Mem) (a : UInt16) {n : ℕ} (i : Fin n) :
    m.read a n i = m (a + UInt16.ofNat i) := rfl

/-- A block that lies wholly outside the one written is read as before. -/
theorem read_write_out (m : Mem) (a b : UInt16) {n k : ℕ} (f : ℕ → UInt8)
    (h : ∀ i < k, n ≤ (b + UInt16.ofNat i - a).toNat) :
    (m.write a n f).read b k = m.read b k := by
  funext i
  exact write_out (h i i.isLt)

theorem read_write_self (m : Mem) (a : UInt16) {n : ℕ} (f : ℕ → UInt8) (hn : n ≤ 65536) :
    (m.write a n f).read a n = fun i : Fin n => f i := by
  funext i
  exact write_at m a f i.isLt (by omega)

end Mem

end Lib
