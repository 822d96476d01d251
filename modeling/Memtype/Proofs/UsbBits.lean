import Memtype.Proofs.UsbSend

/-! The bits that the receiver has taken are in `shift` turned round, those of the byte before above
those of this one, so that six ones are six zeros there and the mask of each bit picks out the last
six; behind them a bit is dropped, and `x3` remembers where `shift` was changed for it. -/

namespace Memtype

namespace UsbLine

open Lib

theorem bit_xor (v w : UInt8) (j : ℕ) : bit (v ^^^ w) j = (bit v j != bit w j) := BitVec.getLsbD_xor

theorem bit_and (v w : UInt8) (j : ℕ) : bit (v &&& w) j = (bit v j && bit w j) := BitVec.getLsbD_and

theorem bit_or (v w : UInt8) (j : ℕ) : bit (v ||| w) j = (bit v j || bit w j) := BitVec.getLsbD_or

theorem bit_not (v : UInt8) {j : ℕ} (hj : j < 8) : bit (~~~v) j = !bit v j := by
  unfold bit
  rw [UInt8.toBitVec_not, BitVec.getLsbD_not, decide_eq_true hj, Bool.true_and]

theorem bit_one_shl : ∀ i < 8, ∀ j < 8, bit (1 <<< UInt8.ofNat i) j = decide (j = i) := by
  decide +kernel

theorem eq_zero_of_bits {v : UInt8} (h : ∀ j < 8, bit v j = false) : v = 0 := by
  apply UInt8.toBitVec_inj.mp
  apply BitVec.eq_of_getLsbD_eq
  intro j hj
  rw [show v.toBitVec.getLsbD j = false from h j hj]
  exact BitVec.getLsbD_zero.symm

theorem bit_bld (v r : UInt8) {i j : ℕ} (hi : i < 8) (hj : j < 8) :
    bit (bld v r i) j = if j = i then bit v usbMinus else bit r j := by
  unfold bld
  split_ifs with hv hji hji
  · rw [bit_or, bit_one_shl i hi j hj, decide_eq_true hji, Bool.or_true, hv]
  · rw [bit_or, bit_one_shl i hi j hj, decide_eq_false hji, Bool.or_false]
  · rw [bit_and, bit_not _ hj, bit_one_shl i hi j hj, decide_eq_true hji, Bool.not_true, Bool.and_false]
    exact (Bool.eq_false_iff.mpr hv).symm
  · rw [bit_and, bit_not _ hj, bit_one_shl i hi j hj, decide_eq_false hji, Bool.not_false, Bool.and_true]

/-- The six bits up to bit `k`, all of them zero. -/
def SixZeros (k : ℕ) (v : UInt8) : Prop := ∀ i < 6, bit v ((k + 8 - i) % 8) = false

instance (k : ℕ) (v : UInt8) : Decidable (SixZeros k v) := inferInstanceAs (Decidable (∀ i < 6, _))

/-- The mask behind bit `k`, without bits `k + 1` and `k + 2`. -/
def mask (k : ℕ) : UInt8 := ~~~(3 <<< UInt8.ofNat (k + 1))

theorem bit_mask : ∀ k < 6, ∀ j < 8, bit (mask k) j = decide (j ≠ k + 1 ∧ j ≠ k + 2) := by decide +kernel

theorem masked_iff (v : UInt8) (k : ℕ) (hk : k < 6) :
    (v &&& mask k == 0) = true ↔ SixZeros k (v &&& mask k) := by
  rw [beq_iff_eq]
  constructor
  · intro h i _
    rw [h]
    exact BitVec.getLsbD_zero
  · intro h
    refine eq_zero_of_bits fun j hj => ?_
    by_cases hout : j ≠ k + 1 ∧ j ≠ k + 2
    · -- the bits that the mask leaves are the six
      have hsix := h ((k + 8 - j) % 8) (by omega)
      rwa [show (k + 8 - (k + 8 - j) % 8) % 8 = j by omega] at hsix
    · rw [bit_and, bit_mask k hk j hj, decide_eq_false hout, Bool.and_false]

theorem lt_two_iff (v : UInt8) (h : bit v 7 = false) : v < 0x02 ↔ SixZeros 6 v := by
  revert v
  exact forall_byte (by decide +kernel)

theorem lt_four_iff (v : UInt8) : v < 0x04 ↔ SixZeros 7 v := by
  revert v
  exact forall_byte (by decide +kernel)

theorem bit_masked (v : UInt8) (k : ℕ) (hk : k < 6) (j : ℕ) (hj : j < 8) (h1 : j ≠ k + 1)
    (h2 : j ≠ k + 2) : bit (v &&& mask k) j = bit v j := by
  rw [bit_and, bit_mask k hk j hj, decide_eq_true ⟨h1, h2⟩, Bool.and_true]

/-- Before bit `k` of a byte: the `n` ones at the end of what has been received, in `shift`, and the
bits `ds` of this byte, in `shift` and `x3`. -/
structure Bits (k n : ℕ) (ds : List Bool) (x3 shift : UInt8) : Prop where
  length : ds.length = k
  ones : ∀ j < n, bit shift ((k + 7 - j) % 8) = false
  zero : bit shift ((k + 7 - n) % 8) = true
  data : ∀ j < k, bit (x3 ^^^ shift) j = ds.getD j false
  fresh : ∀ j, k ≤ j → j < 8 → bit x3 j = true

structure Loads (k : ℕ) (d : Bool) (shift shift' : UInt8) : Prop where
  new : bit shift' k = !d
  old : ∀ j < 8, j ≠ k → j ≠ k + 1 → j ≠ k + 2 → bit shift' j = bit shift j

variable {k n : ℕ} {ds : List Bool} {x3 shift shift' : UInt8} {d : Bool}

theorem getD_snoc (ds : List Bool) (d : Bool) (j : ℕ) :
    (ds ++ [d]).getD j false = if j < ds.length then ds.getD j false else if j = ds.length then d else false := by
  split_ifs with h1 h2
  · exact List.getD_append _ _ _ _ h1
  · subst h2
    simp
  · exact List.getD_eq_default _ _ (by simp; omega)

theorem Loads.recent (hl : Loads k d shift shift') (hk : k < 8) {j : ℕ}
    (hj : j < 5) : bit shift' ((k + 7 - j) % 8) = bit shift ((k + 7 - j) % 8) :=
  hl.old _ (Nat.mod_lt _ (by decide)) (by omega) (by omega) (by omega)

/-- Six zeros are there when the sixth one has come. -/
theorem Bits.six (h : Bits k n ds x3 shift) (hk : k < 8) (hn : n < 6) (hl : Loads k d shift shift') :
    SixZeros k shift' ↔ n + 1 = 6 ∧ d = true := by
  have hnew : bit shift' ((k + 8 - 0) % 8) = !d := by
    rw [show (k + 8 - 0) % 8 = k by omega]
    exact hl.new
  constructor
  · intro hz
    have hd := hnew.symm.trans (hz 0 (by decide))
    refine ⟨?_, by simpa using hd⟩
    by_contra hne
    have h5 := hz (n + 1) (by omega)
    rw [show k + 8 - (n + 1) = k + 7 - n by omega, hl.recent hk (by omega), h.zero] at h5
    exact absurd h5 nofun
  · rintro ⟨h5, rfl⟩ i hi
    rcases Nat.eq_zero_or_pos i with rfl | hpos
    · exact hnew
    · rw [show k + 8 - i = k + 7 - (i - 1) by omega, hl.recent hk (by omega)]
      exact h.ones (i - 1) (by omega)

theorem Bits.next (h : Bits k n ds x3 shift) (hk : k < 8) (hl : Loads k d shift shift')
    (hnot : ¬(n + 1 = 6 ∧ d = true)) (hn : n < 6) :
    Bits (k + 1) (if d then n + 1 else 0) (ds ++ [d]) x3 shift' := by
  have hdata (j : ℕ) (hj : j < k + 1) : bit (x3 ^^^ shift') j = (ds ++ [d]).getD j false := by
    rw [getD_snoc, h.length, bit_xor]
    rcases Nat.lt_or_ge j k with hlt | hge
    · rw [if_pos hlt, hl.old j (by omega) (by omega) (by omega) (by omega), ← bit_xor]
      exact h.data j hlt
    · have hjk : j = k := by omega
      subst hjk
      rw [if_neg (lt_irrefl _), if_pos rfl, hl.new, h.fresh _ le_rfl hk]
      cases d <;> rfl
  have hfresh (j : ℕ) (hj : k + 1 ≤ j) (hj' : j < 8) : bit x3 j = true := h.fresh j (by omega) hj'
  have hpos : (k + 1 + 7 - 0) % 8 = k := by omega
  cases d with
  | false =>
    refine ⟨by simp [h.length], nofun, ?_, hdata, hfresh⟩
    rw [if_neg Bool.false_ne_true, hpos]
    exact hl.new
  | true =>
    have hfive : n + 1 ≠ 6 := fun h' => hnot ⟨h', rfl⟩
    rw [if_pos rfl]
    refine ⟨by simp [h.length], fun j hj => ?_, ?_, hdata, hfresh⟩
    · rcases Nat.eq_zero_or_pos j with rfl | hj0
      · rw [hpos]
        exact hl.new
      · rw [show k + 1 + 7 - j = k + 7 - (j - 1) by omega, hl.recent hk (by omega)]
        exact h.ones (j - 1) (by omega)
    · rw [show k + 1 + 7 - (n + 1) = k + 7 - n by omega, hl.recent hk (by omega)]
      exact h.zero

theorem bit_mark (v : UInt8) (k : ℕ) (hk : k < 8) (j : ℕ) (hj : j < 8) :
    bit (v ||| (1 <<< UInt8.ofNat k)) j = (decide (j = k) || bit v j) ∧
      bit (v &&& ~~~(1 <<< UInt8.ofNat k)) j = (!decide (j = k) && bit v j) := by
  rw [bit_or, bit_and, bit_not _ hj, bit_one_shl k hk j hj, Bool.or_comm, Bool.and_comm]
  exact ⟨rfl, rfl⟩

/-- The change behind which the dropped bit counts as a zero. -/
theorem Bits.unstuffed (h : Bits k n ds x3 shift) (hk : k < 8) (hl : Loads k true shift shift') :
    Bits (k + 1) 0 (ds ++ [true]) (x3 &&& ~~~(1 <<< UInt8.ofNat k)) (shift' ||| (1 <<< UInt8.ofNat k)) := by
  refine ⟨by simp [h.length], nofun, ?_, fun j hj => ?_, fun j hj hj' => ?_⟩
  · rw [Nat.sub_zero, Nat.add_assoc, Nat.add_mod_right, Nat.mod_eq_of_lt hk, (bit_mark shift' k hk k hk).1]
    simp
  · rw [getD_snoc, h.length, bit_xor, (bit_mark shift' k hk j (by omega)).1,
      (bit_mark x3 k hk j (by omega)).2]
    rcases Nat.lt_or_ge j k with hlt | hge
    · rw [if_pos hlt, decide_eq_false hlt.ne, hl.old j (by omega) (by omega) (by omega) (by omega)]
      have := h.data j hlt
      rw [bit_xor] at this
      simpa using this
    · have hjk : j = k := by omega
      subst hjk
      simp
  · rw [(bit_mark x3 k hk j hj').2, decide_eq_false (by omega), h.fresh j (by omega) hj']
    rfl

theorem loads_bld (v shift : UInt8) (hk : k < 8) :
    Loads k (!bit v usbMinus) shift (bld v shift k) := by
  constructor
  · rw [bit_bld v shift hk hk, if_pos rfl, Bool.not_not]
  · intro j hj hne _ _
    rw [bit_bld v shift hk hj, if_neg hne]

theorem loads_masked (v shift : UInt8) (hk : k < 6) :
    Loads k (!bit v usbMinus) shift (bld v shift k &&& mask k) := by
  obtain ⟨hnew, hold⟩ := loads_bld v shift (k := k) (by omega)
  constructor
  · rw [bit_masked _ k hk k (by omega) (by omega) (by omega)]
    exact hnew
  · intro j hj h0 h1 h2
    rw [bit_masked _ k hk j hj h1 h2]
    exact hold j hj h0 h1 h2

/-- The byte that is put together again at its end. -/
theorem Bits.byte {v : UInt8} (h : Bits 8 n (Crc.lsbFirst v.toBitVec) x3 shift) : x3 ^^^ shift = v := by
  apply UInt8.toBitVec_inj.mp
  apply BitVec.eq_of_getLsbD_eq
  intro j hj
  have hlen : j < (Crc.lsbFirst v.toBitVec).length := by rwa [Crc.length_lsbFirst]
  have hdata := h.data j hj
  rw [List.getD_eq_getElem _ _ hlen, Crc.getElem_lsbFirst] at hdata
  exact hdata

/-- At the end of a byte `shift` is what it was at its beginning. -/
theorem Bits.again (h : Bits 8 n ds x3 shift) (hn : n < 6) : Bits 0 n [] 0xff shift := by
  refine ⟨rfl, fun j hj => ?_, ?_, nofun, fun j _ hj => ?_⟩
  · rw [show (0 + 7 - j) % 8 = (8 + 7 - j) % 8 by omega]
    exact h.ones j hj
  · rw [show (0 + 7 - n) % 8 = (8 + 7 - n) % 8 by omega]
    exact h.zero
  · exact (by decide : ∀ j < 8, bit 0xff j = true) j hj

/-- A sample of J or of K. -/
def On (v : UInt8) (j : Bool) : Prop := v &&& usbMask = if j then 0x08 else 0x10

theorem On.bit_eq {v : UInt8} {j : Bool} (h : On v j) : bit v usbMinus = j := by
  have hbit : ∀ v : UInt8, bit v usbMinus = bit (v &&& usbMask) usbMinus := forall_byte (by decide +kernel)
  rw [hbit, h]
  cases j <;> decide

theorem On.masked {v : UInt8} {j : Bool} (h : On v j) : On (v &&& usbMask) j := by
  unfold On
  rw [UInt8.and_assoc, UInt8.and_self]
  exact h

theorem On.ne_zero {v : UInt8} {j : Bool} (h : On v j) : v &&& usbMask ≠ 0 := by
  rw [h]
  cases j <;> decide

theorem on_port (rest : UInt8) (hrest : rest &&& usbMask = 0) (j : Bool) : On (port rest j) j := by
  unfold On port
  revert rest
  refine forall_byte ?_
  cases j <;> decide +kernel

/-- Before bit `k` of a byte, with `prev` the sample before it: the bits `todo` are still to come,
and `tail` behind them. -/
def Ahead (tail : List UInt8) (k : ℕ) (ds todo : List Bool) (prev : UInt8) (samples : List UInt8)
    (x3 shift : UInt8) : Prop :=
  ∃ n level ss, n < 6 ∧ Bits k n ds x3 shift ∧ On prev level ∧ samples = ss ++ tail ∧
    List.Forall₂ On ss (nrzi level (stuff 6 n todo))

/-- Behind bit `k`, where the next sample is of a bit that has been stuffed, if `z` says so. -/
def Pending (tail : List UInt8) (k : ℕ) (ds todo : List Bool) (z : Bool) (prev : UInt8)
    (samples : List UInt8) (x3 shift : UInt8) : Prop :=
  if z then ∃ w samples', samples = w :: samples' ∧ Ahead tail (k + 1) ds todo w samples'
    (x3 &&& ~~~(1 <<< UInt8.ofNat k)) (shift ||| (1 <<< UInt8.ofNat k))
  else Ahead tail (k + 1) ds todo prev samples x3 shift

variable {tail samples : List UInt8} {todo : List Bool} {prev v : UInt8}

/-- The next bit comes with its sample, and leaves a bit to drop behind six ones. -/
theorem Ahead.take (h : Ahead tail k ds (d :: todo) prev (v :: samples) x3 shift) (hk : k < 8) {z : Bool}
    (hl : Loads k (!bit (prev ^^^ v) usbMinus) shift shift') (hz : z = true ↔ SixZeros k shift') :
    Pending tail k (ds ++ [d]) todo z v samples x3 shift' := by
  obtain ⟨n, level, ss, hn, hbits, hprev, hsamples, hon⟩ := h
  rw [stuff_cons, nrzi] at hon
  obtain ⟨v', ss', hv, hon', rfl⟩ := List.forall₂_cons_right_iff.mp hon
  obtain ⟨rfl, rfl⟩ := List.cons_eq_cons.mp hsamples
  have hd : (!bit (prev ^^^ v) usbMinus) = d := by
    rw [bit_xor, hprev.bit_eq, hv.bit_eq]
    cases level <;> cases d <;> rfl
  rw [hd] at hl
  rw [hbits.six hk hn hl] at hz
  unfold Pending
  by_cases hsix : n + 1 = 6 ∧ d = true
  · obtain rfl : d = true := hsix.2
    rw [if_pos hsix] at hon'
    obtain ⟨w, ss'', hw, hon'', rfl⟩ := List.forall₂_cons_right_iff.mp hon'
    rw [if_pos (hz.mpr hsix)]
    exact ⟨w, ss'' ++ tail, rfl, 0, _, ss'', by decide, hbits.unstuffed hk hl, hw, rfl, hon''⟩
  · rw [if_neg hsix] at hon'
    rw [if_neg fun h => hsix (hz.mp h)]
    refine ⟨_, _, ss', ?_, hbits.next hk hl hsix hn, hv, rfl, hon'⟩
    cases d with
    | false =>
      rw [if_neg Bool.false_ne_true]
      decide
    | true => exact Nat.lt_of_le_of_ne hn fun h => hsix ⟨h, rfl⟩

theorem Ahead.sampled (h : Ahead tail k ds (d :: todo) prev samples x3 shift) :
    ∃ v samples', samples = v :: samples' ∧ v &&& usbMask ≠ 0 ∧
      Ahead tail k ds (d :: todo) prev ((v &&& usbMask) :: samples') x3 shift := by
  obtain ⟨n, level, ss, hn, hbits, hprev, rfl, hon⟩ := h
  rw [stuff_cons, nrzi] at hon
  obtain ⟨v, ss', hv, hon', rfl⟩ := List.forall₂_cons_right_iff.mp hon
  refine ⟨v, ss' ++ tail, rfl, hv.ne_zero, n, level, (v &&& usbMask) :: ss', hn, hbits, hprev, rfl, ?_⟩
  rw [stuff_cons, nrzi]
  exact .cons hv.masked hon'

theorem Ahead.prev_masked (h : Ahead tail k ds todo prev samples x3 shift) :
    prev &&& usbMask ≠ 0 ∧ Ahead tail k ds todo (prev &&& usbMask) samples x3 shift := by
  obtain ⟨n, level, ss, hn, hbits, hprev, hrest⟩ := h
  exact ⟨hprev.ne_zero, n, level, ss, hn, hbits, hprev.masked, hrest⟩

end UsbLine

end Memtype
