import Memtype.Lib.Memory
import Memtype.Lib.Outcome

/-! Byte code of an AVR core: working registers, the pointer X, which is moved as a whole or
by its low byte alone, the flags that branches read, and the data memory. Code that works on
one buffer whose addresses share their high byte moves X as if both were the same. -/

namespace Lib

def lo8 (a : UInt16) : UInt8 := a.toUInt8

def hi8 (a : UInt16) : UInt8 := (a / 256).toUInt8

structure Avr (ρ : Type) where
  reg : ρ → UInt8
  x : UInt16
  carry : Bool
  negative : Bool
  ram : Mem

/-- `rol`: the carry comes in at bit 0. -/
def shiftLeftIn (v : UInt8) (b : Bool) : UInt8 := ⟨v.toBitVec.shiftConcat b⟩

/-- `ror`: the carry comes in at bit 7. -/
def shiftRightIn (v : UInt8) (b : Bool) : UInt8 := ⟨(BitVec.cons b v.toBitVec).extractLsb' 1 8⟩

namespace Avr

variable {ρ : Type} [DecidableEq ρ]

def set (d : ρ) (v : UInt8) (c : Avr ρ) : Avr ρ := { c with reg := Function.update c.reg d v }

def ldi (d : ρ) (v : UInt8) (c : Avr ρ) : Avr ρ := c.set d v
def mov (d s : ρ) (c : Avr ρ) : Avr ρ := c.set d (c.reg s)
def eor (d s : ρ) (c : Avr ρ) : Avr ρ := c.set d (c.reg d ^^^ c.reg s)
def and (d s : ρ) (c : Avr ρ) : Avr ρ := c.set d (c.reg d &&& c.reg s)
def or (d s : ρ) (c : Avr ρ) : Avr ρ := c.set d (c.reg d ||| c.reg s)
def com (d : ρ) (c : Avr ρ) : Avr ρ := c.set d (~~~c.reg d)
def inc (d : ρ) (c : Avr ρ) : Avr ρ := c.set d (c.reg d + 1)
def subi (d : ρ) (n : UInt8) (c : Avr ρ) : Avr ρ := c.set d (c.reg d - n)

def comCarry (d : ρ) (c : Avr ρ) : Avr ρ := { c.com d with carry := true }

def subiCarry (d : ρ) (n : UInt8) (c : Avr ρ) : Avr ρ :=
  { c.subi d n with carry := decide (c.reg d < n) }

def andi (d : ρ) (n : UInt8) (c : Avr ρ) : Avr ρ := c.set d (c.reg d &&& n)
def neg (d : ρ) (c : Avr ρ) : Avr ρ := c.set d (0 - c.reg d)
def clr (d : ρ) (c : Avr ρ) : Avr ρ := c.set d 0

def swap (d : ρ) (c : Avr ρ) : Avr ρ := c.set d (c.reg d <<< 4 ||| c.reg d >>> 4)

def dec (d : ρ) (c : Avr ρ) : Avr ρ :=
  { c.set d (c.reg d - 1) with negative := (c.reg d - 1).toBitVec.msb }

def rol (d : ρ) (c : Avr ρ) : Avr ρ :=
  { c.set d (shiftLeftIn (c.reg d) c.carry) with carry := (c.reg d).toBitVec.msb }

def ror (d : ρ) (c : Avr ρ) : Avr ρ :=
  { c.set d (shiftRightIn (c.reg d) c.carry) with carry := (c.reg d).toBitVec.getLsbD 0 }

def lsl (d : ρ) (c : Avr ρ) : Avr ρ := { c with carry := false }.rol d
def lsr (d : ρ) (c : Avr ρ) : Avr ρ := { c with carry := false }.ror d

def ld (d : ρ) (c : Avr ρ) : Avr ρ := c.set d (c.ram c.x)

def ldInc (d : ρ) (c : Avr ρ) : Avr ρ := { c.ld d with x := c.x + 1 }

def st (s : ρ) (c : Avr ρ) : Avr ρ := { c with ram := Function.update c.ram c.x (c.reg s) }

def stInc (s : ρ) (c : Avr ρ) : Avr ρ := { c.st s with x := c.x + 1 }

def adiwX (n : UInt16) (c : Avr ρ) : Avr ρ := { c with x := c.x + n }

def ldiXh (v : UInt8) (c : Avr ρ) : Avr ρ := { c with x := v.toUInt16 * 256 + (lo8 c.x).toUInt16 }

def ldiXl (v : UInt8) (c : Avr ρ) : Avr ρ := { c with x := (hi8 c.x).toUInt16 * 256 + v.toUInt16 }

def subiXl (n : UInt8) (c : Avr ρ) : Avr ρ := c.ldiXl (lo8 c.x - n)

def movToXl (s : ρ) (c : Avr ρ) : Avr ρ := c.ldiXl (c.reg s)

def movToXh (s : ρ) (c : Avr ρ) : Avr ρ := c.ldiXh (c.reg s)

def movOfXl (d : ρ) (c : Avr ρ) : Avr ρ := c.set d (lo8 c.x)

end Avr

/-- The body and the branch back, at most `fuel` times. -/
def doWhile {σ : Type*} (body : σ → Outcome σ) (again : σ → Bool) : ℕ → σ → Outcome σ
  | 0, s => .spin s
  | fuel + 1, s => (body s).bind fun s => if again s then doWhile body again fuel s else .ret s

/-- Passes that keep an invariant, the last of which does not branch back. -/
theorem doWhile_count {σ : Type*} {body : σ → Outcome σ} {again : σ → Bool} {N : ℕ}
    (inv : ℕ → σ → Prop) (hpos : 0 < N) {fuel : ℕ} (hN : N ≤ fuel)
    (hbody : ∀ i < N, ∀ s, inv i s →
      ∃ s', body s = .ret s' ∧ inv (i + 1) s' ∧ again s' = decide (i + 1 < N)) {s : σ}
    (hs : inv 0 s) : ∃ s', doWhile body again fuel s = .ret s' ∧ inv N s' := by
  have key (k : ℕ) : ∀ (i fuel : ℕ) (s : σ), i + (k + 1) = N → k < fuel → inv i s →
      ∃ s', doWhile body again fuel s = .ret s' ∧ inv N s' := by
    induction k with
    | zero =>
      intro i fuel s hi hf hs
      obtain ⟨fuel, rfl⟩ := Nat.exists_eq_succ_of_ne_zero (Nat.ne_of_gt hf)
      obtain ⟨s', hb, hs', ha⟩ := hbody i (by omega) s hs
      refine ⟨s', ?_, by rwa [← hi]⟩
      rw [doWhile, hb, Outcome.bind_ret, ha, decide_eq_false (by omega)]
      rfl
    | succ k ih =>
      intro i fuel s hi hf hs
      obtain ⟨fuel, rfl⟩ := Nat.exists_eq_succ_of_ne_zero (Nat.ne_of_gt (Nat.lt_trans (Nat.succ_pos k) hf))
      obtain ⟨s', hb, hs', ha⟩ := hbody i (by omega) s hs
      obtain ⟨t, ht, hinv⟩ := ih (i + 1) fuel s' (by omega) (by omega) hs'
      refine ⟨t, ?_, hinv⟩
      rw [doWhile, hb, Outcome.bind_ret, ha, decide_eq_true (by omega)]
      exact ht
  obtain ⟨k, rfl⟩ := Nat.exists_eq_succ_of_ne_zero (Nat.ne_of_gt hpos)
  exact key k 0 fuel s (by omega) (by omega) hs

/-- Where a buffer of `n` bytes starts, and that the address behind it has the same high byte. -/
structure Window (n : ℕ) where
  start : UInt16
  fits : (lo8 start).toNat + n < 256

theorem toNat_lo8 (a : UInt16) : (lo8 a).toNat = a.toNat % 256 := UInt16.toNat_toUInt8 a

theorem toNat_hi8 (a : UInt16) : (hi8 a).toNat = a.toNat / 256 := by
  have := a.toNat_lt
  unfold hi8
  rw [UInt16.toNat_toUInt8, UInt16.toNat_div, show (256 : UInt16).toNat = 256 from rfl]
  omega

/-- The two bytes of an address. -/
theorem hi8_lo8 (a : UInt16) : (hi8 a).toUInt16 * 256 + (lo8 a).toUInt16 = a := by
  apply UInt16.toNat_inj.mp
  have := a.toNat_lt
  rw [UInt16.toNat_add, UInt16.toNat_mul, UInt8.toNat_toUInt16, UInt8.toNat_toUInt16, toNat_hi8,
    toNat_lo8, show (256 : UInt16).toNat = 256 from rfl]
  omega

theorem hi8_make (h l : UInt8) : hi8 (h.toUInt16 * 256 + l.toUInt16) = h := by
  apply UInt8.toNat_inj.mp
  have := h.toNat_lt
  have := l.toNat_lt
  rw [toNat_hi8, UInt16.toNat_add, UInt16.toNat_mul, UInt8.toNat_toUInt16, UInt8.toNat_toUInt16,
    show (256 : UInt16).toNat = 256 from rfl]
  omega

theorem lo8_add_ofNat (a : UInt16) (k : ℕ) : lo8 (a + UInt16.ofNat k) = lo8 a + UInt8.ofNat k := by
  apply UInt8.toNat_inj.mp
  rw [toNat_lo8, UInt16.toNat_add, UInt8.toNat_add, toNat_lo8, UInt16.toNat_ofNat',
    UInt8.toNat_ofNat']
  omega

namespace Window

variable {n : ℕ} (w : Window n)

def addr (k : ℕ) : UInt16 := w.start + UInt16.ofNat k

theorem toNat_addr {k : ℕ} (hk : k ≤ n) : (w.addr k).toNat = w.start.toNat + k := by
  have h := w.fits
  have := w.start.toNat_lt
  rw [toNat_lo8] at h
  unfold addr
  rw [UInt16.toNat_add, UInt16.toNat_ofNat']
  omega

theorem hi8_addr {k : ℕ} (hk : k ≤ n) : hi8 (w.addr k) = hi8 w.start := by
  have h := w.fits
  apply UInt8.toNat_inj.mp
  rw [toNat_lo8] at h
  rw [toNat_hi8, toNat_hi8, w.toNat_addr hk]
  omega

theorem addr_add (k i : ℕ) : w.addr k + UInt16.ofNat i = w.addr (k + i) := by
  unfold addr
  rw [UInt16.ofNat_add, UInt16.add_assoc]

/-- From anywhere in the buffer the low byte alone leads anywhere in it. -/
theorem hi8_lo8_addr {j k : ℕ} (hj : j ≤ n) (hk : k ≤ n) :
    (hi8 (w.addr j)).toUInt16 * 256 + (lo8 (w.addr k)).toUInt16 = w.addr k := by
  rw [w.hi8_addr hj, ← w.hi8_addr hk, hi8_lo8]

theorem lo8_addr_inc (k : ℕ) : lo8 (w.addr k) + 1 = lo8 (w.addr (k + 1)) := by
  rw [← w.addr_add k 1, lo8_add_ofNat]
  rfl

theorem lo8_addr_sub {k i : ℕ} (hi : i ≤ k) :
    lo8 (w.addr k) - UInt8.ofNat i = lo8 (w.addr (k - i)) := by
  obtain ⟨j, rfl⟩ := Nat.exists_eq_add_of_le' hi
  rw [← w.addr_add j i, lo8_add_ofNat, UInt8.add_sub_cancel, Nat.add_sub_cancel]

end Window

namespace Avr

variable {ρ : Type} {n : ℕ}

/-- The core on a buffer with contents `f`, in the memory `m` otherwise; X is at byte `k`. -/
def on (w : Window n) (m : Mem) (f : ℕ → UInt8) (k : ℕ) (r : ρ → UInt8) (carry negative : Bool) :
    Avr ρ :=
  ⟨r, w.addr k, carry, negative, m.write w.start n f⟩

variable (w : Window n) (m : Mem) (f : ℕ → UInt8) {k : ℕ} (r : ρ → UInt8) (cy ng : Bool)

theorem eq_on {c : Avr ρ} (hx : c.x = w.addr k) (hm : c.ram = m.write w.start n f) :
    c = on w m f k c.reg c.carry c.negative := by
  cases c
  cases hx
  cases hm
  rfl

theorem ram_on (hk : k < n) : (m.write w.start n f) (w.addr k) = f k := by
  have h := w.fits
  exact Mem.write_at m w.start f hk (by omega)

theorem st_on (s : ρ) (hk : k < n) :
    (on w m f k r cy ng).st s = on w m (Function.update f k (r s)) k r cy ng := by
  have h := w.fits
  unfold st on
  congr 1
  unfold Window.addr
  exact m.update_write w.start f (r s) hk (by omega)

theorem stInc_on (s : ρ) (hk : k < n) :
    (on w m f k r cy ng).stInc s = on w m (Function.update f k (r s)) (k + 1) r cy ng := by
  unfold stInc
  rw [st_on w m f r cy ng s hk]
  unfold on
  rw [← w.addr_add k 1]
  rfl

theorem adiwX_on (i : UInt16) :
    (on w m f k r cy ng).adiwX i = on w m f (k + i.toNat) r cy ng := by
  unfold adiwX on
  rw [← w.addr_add, UInt16.ofNat_toNat]

theorem ldiXl_on {j : ℕ} (hk : k ≤ n) (hj : j ≤ n) :
    (on w m f k r cy ng).ldiXl (lo8 (w.addr j)) = on w m f j r cy ng := by
  unfold ldiXl on
  rw [w.hi8_lo8_addr hk hj]

theorem subiXl_on (i : UInt8) (hk : k ≤ n) (hi : i.toNat ≤ k) :
    (on w m f k r cy ng).subiXl i = on w m f (k - i.toNat) r cy ng := by
  have h := w.lo8_addr_sub hi
  rw [UInt8.ofNat_toNat] at h
  rw [← ldiXl_on w m f r cy ng hk (le_trans (Nat.sub_le k i.toNat) hk), ← h]
  rfl

theorem movToXl_on (s : ρ) :
    (on w m f k r cy ng).movToXl s = (on w m f k r cy ng).ldiXl (r s) := rfl

variable [DecidableEq ρ]

theorem ldi_on (d : ρ) (v : UInt8) :
    (on w m f k r cy ng).ldi d v = on w m f k (Function.update r d v) cy ng := rfl

theorem eor_on (d s : ρ) :
    (on w m f k r cy ng).eor d s = on w m f k (Function.update r d (r d ^^^ r s)) cy ng := rfl

theorem inc_on (d : ρ) :
    (on w m f k r cy ng).inc d = on w m f k (Function.update r d (r d + 1)) cy ng := rfl

theorem subi_on (d : ρ) (i : UInt8) :
    (on w m f k r cy ng).subi d i = on w m f k (Function.update r d (r d - i)) cy ng := rfl

theorem dec_on (d : ρ) : (on w m f k r cy ng).dec d =
    on w m f k (Function.update r d (r d - 1)) cy (r d - 1).toBitVec.msb := rfl

theorem ld_on (d : ρ) (hk : k < n) :
    (on w m f k r cy ng).ld d = on w m f k (Function.update r d (f k)) cy ng := by
  rw [← ram_on w m f hk]
  rfl

theorem ldInc_on (d : ρ) (hk : k < n) :
    (on w m f k r cy ng).ldInc d = on w m f (k + 1) (Function.update r d (f k)) cy ng := by
  unfold ldInc
  rw [ld_on w m f r cy ng d hk]
  unfold on
  rw [← w.addr_add k 1]
  rfl

theorem movOfXl_on (d : ρ) : (on w m f k r cy ng).movOfXl d =
    on w m f k (Function.update r d (lo8 (w.addr k))) cy ng := rfl

end Avr

def byteOf (x : BitVec 32) (j : ℕ) : UInt8 := ⟨x.extractLsb' (8 * j) 8⟩

theorem byteOf_ext {x : BitVec 32} {v : UInt8} {j : ℕ}
    (h : ∀ i < 8, x.getLsbD (8 * j + i) = v.toBitVec.getLsbD i) : byteOf x j = v := by
  refine UInt8.toBitVec_inj.mp (BitVec.eq_of_getLsbD_eq fun i hi => ?_)
  rw [← h i hi]
  simp [byteOf, hi]

theorem byteOf_getLsbD (x : BitVec 32) (j : ℕ) {i : ℕ} (hi : i < 8) :
    (byteOf x j).toBitVec.getLsbD i = x.getLsbD (8 * j + i) := by
  simp [byteOf, hi]

theorem byteOf_xor (x y : BitVec 32) (j : ℕ) :
    byteOf (x ^^^ y) j = byteOf x j ^^^ byteOf y j :=
  byteOf_ext fun i hi => by
    rw [UInt8.toBitVec_xor, BitVec.getLsbD_xor, BitVec.getLsbD_xor, byteOf_getLsbD x j hi,
      byteOf_getLsbD y j hi]

theorem byteOf_and (x y : BitVec 32) (j : ℕ) :
    byteOf (x &&& y) j = byteOf x j &&& byteOf y j :=
  byteOf_ext fun i hi => by
    rw [UInt8.toBitVec_and, BitVec.getLsbD_and, BitVec.getLsbD_and, byteOf_getLsbD x j hi,
      byteOf_getLsbD y j hi]

theorem byteOf_or (x y : BitVec 32) (j : ℕ) :
    byteOf (x ||| y) j = byteOf x j ||| byteOf y j :=
  byteOf_ext fun i hi => by
    rw [UInt8.toBitVec_or, BitVec.getLsbD_or, BitVec.getLsbD_or, byteOf_getLsbD x j hi,
      byteOf_getLsbD y j hi]

theorem byteOf_not (x : BitVec 32) {j : ℕ} (hj : j < 4) : byteOf (~~~x) j = ~~~byteOf x j :=
  byteOf_ext fun i hi => by
    rw [UInt8.toBitVec_not, BitVec.getLsbD_not, BitVec.getLsbD_not, byteOf_getLsbD x j hi,
      decide_eq_true hi, decide_eq_true (show 8 * j + i < 32 by omega)]

/-- A byte as a word. -/
theorem byteOf_setWidth (v : UInt8) (j : ℕ) :
    byteOf (v.toBitVec.setWidth 32) j = if j = 0 then v else 0 :=
  byteOf_ext fun i hi => by
    rw [BitVec.getLsbD_setWidth]
    split_ifs with h
    · rw [h, decide_eq_true (show 8 * 0 + i < 32 by omega), Bool.true_and, Nat.mul_zero, Nat.zero_add]
    · rw [BitVec.getLsbD_of_ge v.toBitVec _ (by omega), Bool.and_false]
      exact BitVec.getLsbD_zero.symm

theorem getLsbD_rotateLeft_mod (x : BitVec 32) (k : ℕ) {i : ℕ} (hi : i < 32) :
    (x.rotateLeft k).getLsbD i = x.getLsbD ((i + (32 - k % 32)) % 32) := by
  rw [BitVec.getLsbD_rotateLeft, Bool.cond_decide, decide_eq_true hi, Bool.true_and]
  split_ifs with h
  · exact congrArg x.getLsbD (by omega)
  · exact congrArg x.getLsbD (by omega)

theorem getLsbD_rotateRight_mod (x : BitVec 32) (k : ℕ) {i : ℕ} (hi : i < 32) :
    (x.rotateRight k).getLsbD i = x.getLsbD ((i + k % 32) % 32) := by
  rw [BitVec.getLsbD_rotateRight, Bool.cond_decide, decide_eq_true hi, Bool.true_and]
  split_ifs with h
  · exact congrArg x.getLsbD (by omega)
  · exact congrArg x.getLsbD (by omega)

theorem rotateLeft_iterate (x : BitVec 32) (n : ℕ) :
    (fun x : BitVec 32 => x.rotateLeft 1)^[n] x = x.rotateLeft n := by
  refine BitVec.eq_of_getLsbD_eq fun i hi => ?_
  induction n generalizing i with
  | zero =>
    rw [Function.iterate_zero_apply, getLsbD_rotateLeft_mod x 0 hi]
    exact congrArg x.getLsbD (by omega)
  | succ n ih =>
    rw [Function.iterate_succ_apply', getLsbD_rotateLeft_mod _ 1 hi, ih _ (by omega),
      getLsbD_rotateLeft_mod x n (by omega), getLsbD_rotateLeft_mod x (n + 1) hi]
    exact congrArg x.getLsbD (by omega)

theorem rotateRight_iterate (x : BitVec 32) (n : ℕ) :
    (fun x : BitVec 32 => x.rotateRight 1)^[n] x = x.rotateRight n := by
  refine BitVec.eq_of_getLsbD_eq fun i hi => ?_
  induction n generalizing i with
  | zero =>
    rw [Function.iterate_zero_apply, getLsbD_rotateRight_mod x 0 hi]
    exact congrArg x.getLsbD (by omega)
  | succ n ih =>
    rw [Function.iterate_succ_apply', getLsbD_rotateRight_mod _ 1 hi, ih _ (by omega),
      getLsbD_rotateRight_mod x n (by omega), getLsbD_rotateRight_mod x (n + 1) hi]
    exact congrArg x.getLsbD (by omega)

/-- A rotation by a whole byte moves bytes. -/
theorem byteOf_rotateLeft_eight (x : BitVec 32) {j : ℕ} (hj : j < 4) :
    byteOf (x.rotateLeft 8) j = byteOf x ((j + 3) % 4) :=
  byteOf_ext fun i hi => by
    rw [byteOf_getLsbD _ _ hi, getLsbD_rotateLeft_mod x 8 (by omega)]
    exact congrArg x.getLsbD (by omega)

theorem byteOf_rotateRight_eight (x : BitVec 32) {j : ℕ} (hj : j < 4) :
    byteOf (x.rotateRight 8) j = byteOf x ((j + 1) % 4) :=
  byteOf_ext fun i hi => by
    rw [byteOf_getLsbD _ _ hi, getLsbD_rotateRight_mod x 8 (by omega)]
    exact congrArg x.getLsbD (by omega)

/-! A rotation by one bit goes through the carry: the byte at one end takes the bit from the other
end, the others that of their neighbour. -/

theorem getLsbD_shiftLeftIn (v : UInt8) (b : Bool) {i : ℕ} (hi : i < 8) :
    (shiftLeftIn v b).toBitVec.getLsbD i = if i = 0 then b else v.toBitVec.getLsbD (i - 1) := by
  rw [shiftLeftIn, BitVec.getLsbD_shiftConcat, decide_eq_true hi, Bool.true_and]

theorem getLsbD_shiftRightIn (v : UInt8) (b : Bool) {i : ℕ} (hi : i < 8) :
    (shiftRightIn v b).toBitVec.getLsbD i = if i = 7 then b else v.toBitVec.getLsbD (i + 1) := by
  rw [shiftRightIn, BitVec.getLsbD_extractLsb', decide_eq_true hi, Bool.true_and,
    BitVec.getLsbD_cons, Nat.add_comm 1 i]
  split_ifs with h1 h2 h2
  · rfl
  · omega
  · omega
  · rfl

theorem getLsbD_rotateLeft_one (x : BitVec 32) {i : ℕ} (hi : i < 32) :
    (x.rotateLeft 1).getLsbD i = if i = 0 then x.getLsbD 31 else x.getLsbD (i - 1) := by
  rw [getLsbD_rotateLeft_mod x 1 hi]
  split_ifs with h
  · exact congrArg x.getLsbD (by omega)
  · exact congrArg x.getLsbD (by omega)

theorem getLsbD_rotateRight_one (x : BitVec 32) {i : ℕ} (hi : i < 32) :
    (x.rotateRight 1).getLsbD i = if i = 31 then x.getLsbD 0 else x.getLsbD (i + 1) := by
  rw [getLsbD_rotateRight_mod x 1 hi]
  split_ifs with h
  · exact congrArg x.getLsbD (by omega)
  · exact congrArg x.getLsbD (by omega)

theorem byteOf_rotateLeft_one_zero (x : BitVec 32) :
    byteOf (x.rotateLeft 1) 0 = shiftLeftIn (byteOf x 0) (x.getLsbD 31) :=
  byteOf_ext fun i hi => by
    rw [getLsbD_shiftLeftIn _ _ hi, getLsbD_rotateLeft_one x (by omega),
      byteOf_getLsbD x 0 (by omega)]
    split_ifs with h1 h2 h2
    · rfl
    · omega
    · omega
    · exact congrArg x.getLsbD (by omega)

theorem byteOf_rotateLeft_one_succ (x : BitVec 32) {j : ℕ} (hj : j < 3) :
    byteOf (x.rotateLeft 1) (j + 1) =
      shiftLeftIn (byteOf x (j + 1)) (byteOf x j).toBitVec.msb :=
  byteOf_ext fun i hi => by
    rw [getLsbD_shiftLeftIn _ _ hi, getLsbD_rotateLeft_one x (by omega),
      byteOf_getLsbD x (j + 1) (by omega), BitVec.msb_eq_getLsbD_last,
      byteOf_getLsbD x j (by omega), if_neg (by omega)]
    split_ifs with h
    · exact congrArg x.getLsbD (by omega)
    · exact congrArg x.getLsbD (by omega)

theorem byteOf_rotateRight_one_three (x : BitVec 32) :
    byteOf (x.rotateRight 1) 3 = shiftRightIn (byteOf x 3) (x.getLsbD 0) :=
  byteOf_ext fun i hi => by
    rw [getLsbD_shiftRightIn _ _ hi, getLsbD_rotateRight_one x (by omega)]
    split_ifs with h1 h2 h2
    · rfl
    · omega
    · omega
    · rw [byteOf_getLsbD x 3 (by omega)]
      exact congrArg x.getLsbD (by omega)

theorem byteOf_rotateRight_one (x : BitVec 32) {j : ℕ} (hj : j < 3) :
    byteOf (x.rotateRight 1) j =
      shiftRightIn (byteOf x j) ((byteOf x (j + 1)).toBitVec.getLsbD 0) :=
  byteOf_ext fun i hi => by
    rw [getLsbD_shiftRightIn _ _ hi, getLsbD_rotateRight_one x (by omega),
      byteOf_getLsbD x (j + 1) (by omega), if_neg (by omega)]
    split_ifs with h
    · exact congrArg x.getLsbD (by omega)
    · rw [byteOf_getLsbD x j (by omega)]
      exact congrArg x.getLsbD (by omega)

end Lib
