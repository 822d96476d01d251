import Memtype.Spec.Fls

/-! `FLS_write`: as long as the distance from the start of its first page to the end of
the block fits a byte, it writes exactly the block, whatever pages it touches. -/

namespace Memtype

open Lib

theorem buffWord_low (buff : ℕ → UInt8) (i : ℕ) : (buffWord buff i).toUInt8 = buff i := by
  apply UInt8.toNat_inj.mp
  simp [buffWord, UInt16.toNat_shiftLeft, Nat.shiftLeft_eq]

theorem buffWord_high (buff : ℕ → UInt8) (i : ℕ) :
    (buffWord buff i >>> 8).toUInt8 = buff (i + 1) := by
  have h0 := (buff i).toNat_lt
  have h1 := (buff (i + 1)).toNat_lt
  apply UInt8.toNat_inj.mp
  simp [buffWord, UInt16.toNat_add, UInt16.toNat_shiftLeft, UInt16.toNat_shiftRight,
    Nat.shiftLeft_eq, Nat.shiftRight_eq_div_pow]
  omega

/-- The address of the page: the low six bits are cleared. -/
theorem toNat_and_page (x : UInt16) : (x &&& 0xFFC0).toNat = x.toNat - x.toNat % 64 := by
  have hb : ∀ i < 16, Nat.testBit 0xFFC0 i = decide (6 ≤ i) := by decide
  have h : x.toNat &&& 0xFFC0 = x.toNat >>> 6 <<< 6 := by
    apply Nat.eq_of_testBit_eq
    intro i
    rw [Nat.testBit_and, Nat.testBit_shiftLeft, Nat.testBit_shiftRight]
    by_cases h6 : 6 ≤ i
    · rw [Nat.add_sub_cancel' h6]
      by_cases hi : i < 16
      · simp [hb i hi, h6]
      · have hx : x.toNat < 2 ^ i :=
          x.toNat_lt.trans_le (Nat.pow_le_pow_right (by decide) (by omega))
        simp [Nat.testBit_lt_two_pow hx]
    · simp [hb i (by omega), h6]
  rw [UInt16.toNat_and, show (0xFFC0 : UInt16).toNat = 0xFFC0 from rfl, h, Nat.shiftLeft_eq,
    Nat.shiftRight_eq_div_pow]
  omega

theorem toNat_and_offset (x : UInt16) : (x &&& 0x3F).toNat = x.toNat % 64 := by
  rw [UInt16.toNat_and]
  exact Nat.and_two_pow_sub_one_eq_mod _ 6

/-- After `k` words the first `2 * k` bytes of the page buffer are those of `buff`. -/
theorem loadPage_words (f : Flash) (buff : ℕ → UInt8) (a : UInt16) (ha : a.toNat % 64 = 0) {k : ℕ}
    (hk : k ≤ 32) :
    (List.range k).foldl
        (fun f j => f.bootPageFill (a + UInt16.ofNat (2 * j)) (buffWord buff (2 * j))) f =
      { f with page := fun j => if j < 2 * k then buff j else f.page j } := by
  induction k with
  | zero => simp
  | succ k ih =>
    have hm : (a + UInt16.ofNat (2 * k)).toNat % 64 = 2 * k := by
      rw [UInt16.toNat_add, UInt16.toNat_ofNat']
      omega
    rw [List.range_succ, List.foldl_append, ih (by omega)]
    simp only [List.foldl_cons, List.foldl_nil, Flash.bootPageFill, hm, buffWord_low, buffWord_high]
    congr 1
    funext j
    by_cases h1 : j = 2 * k + 1
    · subst h1
      rw [Function.update_self, if_pos (by omega)]
    rw [Function.update_of_ne h1]
    by_cases h2 : j = 2 * k
    · subst h2
      rw [Function.update_self, if_pos (by omega)]
    rw [Function.update_of_ne h2]
    by_cases h3 : j < 2 * k
    · rw [if_pos h3, if_pos (by omega)]
    · rw [if_neg h3, if_neg (by omega)]

theorem flsLoadPage_eq (f : Flash) (buff : ℕ → UInt8) (a : UInt16) (ha : a.toNat % 64 = 0) :
    flsLoadPage f buff a = { f with page := fun j => if j < 64 then buff j else f.page j } :=
  loadPage_words f buff a ha (le_refl 32)

/-- Erasing, filling and writing a page puts the 64 bytes of the buffer there. -/
theorem flsPage_eq (f : Flash) (buff : ℕ → UInt8) (a : UInt16) (ha : a &&& 0xFFC0 = a) :
    flsWritePage (flsLoadPage (flsErasePage f a) buff a) a =
      { mem := f.mem.write a 64 buff, page := fun _ => 0xFF,
        spm := f.spm ++ [.erase a, .write a] } := by
  have h64 : a.toNat % 64 = 0 := by
    have h := toNat_and_page a
    rw [ha] at h
    have := Nat.mod_le a.toNat 64
    omega
  rw [flsLoadPage_eq _ _ _ h64]
  unfold flsWritePage Flash.bootPageWrite flsErasePage Flash.bootPageErase
  simp only [ha, List.append_assoc, List.cons_append, List.nil_append]
  congr 1
  funext x
  unfold Mem.write spmPagesize
  dsimp only
  split_ifs <;> rfl

/-- The `while` loop takes as many bytes as reach the end of the page. -/
def passLen (x r : ℕ) : ℕ := min 64 (x % 64 + r) - x % 64

/-- Where the bytes to replace end in the page, as 8 bits hold it. -/
def passEnd (x r : ℕ) : ℕ := min 64 ((x % 64 + r) % 256)

theorem passEnd_eq {x r : ℕ} (h : x % 64 + r ≤ 255) : passEnd x r = min 64 (x % 64 + r) := by
  unfold passEnd
  rw [Nat.mod_eq_of_lt (by omega)]

theorem and_page_idem (x : UInt16) : x &&& 0xFFC0 &&& 0xFFC0 = x &&& 0xFFC0 := by
  rw [UInt16.and_assoc]
  rfl

theorem flsWriteBody_spm (buff : ℕ → UInt8) (startaddr size : UInt16) (f : Flash) (i : UInt16)
    (b : ℕ) : (flsWriteBody buff startaddr size f i b).1.spm =
      f.spm ++ [.erase ((startaddr + i) &&& 0xFFC0), .write ((startaddr + i) &&& 0xFFC0)] := by
  unfold flsWriteBody
  dsimp only
  rw [flsPage_eq _ _ _ (and_page_idem _)]

/-- A patch that ends before it starts replaces nothing. -/
theorem write_passEnd (m : Mem) (x : UInt16) (g : ℕ → UInt8) {s e : ℕ}
    (hs : s = x.toNat % 64) (he : e ≤ 64) :
    m.write (x &&& 0xFFC0) 64 (fun j => if s ≤ j ∧ j < e then g (j - s) else
      m ((x &&& 0xFFC0) + UInt16.ofNat j)) = m.write x (e - s) g := by
  have hback : (x &&& 0xFFC0) + UInt16.ofNat s = x := by
    apply UInt16.toNat_inj.mp
    rw [UInt16.toNat_add, toNat_and_page, UInt16.toNat_ofNat', hs]
    have := x.toNat_lt
    have := Nat.mod_le x.toNat 64
    omega
  have hs64 : s ≤ 64 := by omega
  by_cases hse : s ≤ e
  · rw [Mem.write_patch m _ g hse he (by decide), hback]
  · have h0 := Mem.write_patch m (x &&& 0xFFC0) g (le_refl s) hs64 (by decide : 64 ≤ 65536)
    rw [Nat.sub_self, Mem.write_zero] at h0
    rw [show e - s = 0 by omega, Mem.write_zero]
    refine (Mem.write_congr m _ fun j _ => ?_).trans h0
    rw [if_neg (by omega), if_neg (by omega)]

/-- One pass, whatever the 8-bit locals make of the bytes that are left. -/
theorem flsWriteBody_pass (buff : ℕ → UInt8) (startaddr size : UInt16) (f : Flash) (i : UInt16)
    (b : ℕ) (hi : i.toNat ≤ size.toNat) {s e : ℕ} (hs : s = (startaddr + i).toNat % 64)
    (he : e = passEnd (startaddr + i).toNat (size.toNat - i.toNat)) :
    flsWriteBody buff startaddr size f i b =
      ({ mem := f.mem.write (startaddr + i) (e - s) fun j => buff (b + j),
         page := fun _ => 0xFF,
         spm := f.spm ++ [.erase ((startaddr + i) &&& 0xFFC0), .write ((startaddr + i) &&& 0xFFC0)] },
        i + (UInt16.ofNat e - UInt16.ofNat s), b + (e - s)) := by
  have hs0 : ((startaddr + i) &&& 0x3F).toUInt8 = UInt8.ofNat s := by
    apply UInt8.toNat_inj.mp
    rw [UInt16.toNat_toUInt8, toNat_and_offset, UInt8.toNat_ofNat', hs]
  have hr : (size - i).toUInt8.toNat = (size.toNat - i.toNat) % 256 := by
    rw [UInt16.toNat_toUInt8, UInt16.toNat_sub_of_le _ _ (UInt16.le_iff_toNat_le.mpr hi)]
  have hsn : (UInt8.ofNat s).toNat = s := by
    rw [UInt8.toNat_ofNat']
    omega
  -- the end of the bytes to replace, in the page
  have he0 : (if UInt8.ofNat s + (size - i).toUInt8 > 64 then 64
      else UInt8.ofNat s + (size - i).toUInt8) = UInt8.ofNat e := by
    have ht : (UInt8.ofNat s + (size - i).toUInt8).toNat =
        ((startaddr + i).toNat % 64 + (size.toNat - i.toNat)) % 256 := by
      rw [UInt8.toNat_add, hsn, hr, hs]
      omega
    unfold passEnd at he
    apply UInt8.toNat_inj.mp
    rw [UInt8.toNat_ofNat']
    split_ifs with hc
    · rw [gt_iff_lt, UInt8.lt_iff_toNat_lt, ht, show (64 : UInt8).toNat = 64 from rfl] at hc
      rw [show (64 : UInt8).toNat = 64 from rfl]
      omega
    · rw [gt_iff_lt, UInt8.lt_iff_toNat_lt, ht, show (64 : UInt8).toNat = 64 from rfl] at hc
      rw [ht]
      omega
  have hen : (UInt8.ofNat e).toNat = e := by
    rw [UInt8.toNat_ofNat']
    unfold passEnd at he
    omega
  unfold flsWriteBody
  simp only [hs0, he0, hsn, hen]
  rw [flsPage_eq _ _ _ (and_page_idem _), write_passEnd f.mem _ (fun j => buff (b + j)) hs
    (he ▸ Nat.min_le_left 64 _)]
  refine Prod.ext rfl (Prod.ext ?_ rfl)
  have h16 (k : ℕ) (hk : (UInt8.ofNat k).toNat = k) : (UInt8.ofNat k).toUInt16 = UInt16.ofNat k := by
    apply UInt16.toNat_inj.mp
    rw [UInt8.toNat_toUInt16, hk, UInt16.toNat_ofNat', Nat.mod_eq_of_lt]
    have := (UInt8.ofNat k).toNat_lt
    omega
  rw [h16 e hen, h16 s hsn]

theorem flsWriteBody_eq (buff : ℕ → UInt8) (startaddr size : UInt16) (f : Flash) (i : UInt16) (b : ℕ)
    (hi : i.toNat ≤ size.toNat)
    (h : (startaddr + i).toNat % 64 + (size.toNat - i.toNat) ≤ 255) :
    flsWriteBody buff startaddr size f i b =
      ({ mem := f.mem.write (startaddr + i) (passLen (startaddr + i).toNat (size.toNat - i.toNat))
          fun j => buff (b + j),
         page := fun _ => 0xFF,
         spm := f.spm ++ [.erase ((startaddr + i) &&& 0xFFC0), .write ((startaddr + i) &&& 0xFFC0)] },
        i + UInt16.ofNat (passLen (startaddr + i).toNat (size.toNat - i.toNat)),
        b + passLen (startaddr + i).toNat (size.toNat - i.toNat)) := by
  have hle : (startaddr + i).toNat % 64 ≤ min 64 ((startaddr + i).toNat % 64 +
    (size.toNat - i.toNat)) := by omega
  rw [flsWriteBody_pass buff startaddr size f i b hi rfl rfl, passEnd_eq h]
  unfold passLen
  rw [UInt16.ofNat_sub hle]

theorem flsWriteLoop_succ (buff : ℕ → UInt8) (startaddr size : UInt16) (fuel : ℕ) (f : Flash)
    (i : UInt16) (b : ℕ) (h : i < size) : flsWriteLoop buff startaddr size (fuel + 1) f i b =
      flsWriteLoop buff startaddr size fuel (flsWriteBody buff startaddr size f i b).1
        (flsWriteBody buff startaddr size f i b).2.1 (flsWriteBody buff startaddr size f i b).2.2 := by
  rw [flsWriteLoop]
  exact if_pos h

theorem flsWriteLoop_done (buff : ℕ → UInt8) (startaddr size : UInt16) (fuel : ℕ) (f : Flash)
    (i : UInt16) (b : ℕ) (h : ¬i < size) :
    flsWriteLoop buff startaddr size (fuel + 1) f i b = .ret f := by
  rw [flsWriteLoop]
  exact if_neg h

theorem flsWriteLoop_spm (buff : ℕ → UInt8) (startaddr size : UInt16) (fuel : ℕ) (f : Flash)
    (i : UInt16) (b : ℕ) : f.spm <+: (flsWriteLoop buff startaddr size fuel f i b).state.spm := by
  induction fuel generalizing f i b with
  | zero => exact List.prefix_refl _
  | succ fuel ih =>
    by_cases h : i < size
    · rw [flsWriteLoop_succ _ _ _ _ _ _ _ h]
      refine List.IsPrefix.trans ?_ (ih _ _ _)
      rw [flsWriteBody_spm]
      exact List.prefix_append _ _
    · rw [flsWriteLoop_done _ _ _ _ _ _ _ h]
      exact List.prefix_refl _

/-- A block that is not empty erases a page. -/
theorem flsWrite_spm_lt (buff : ℕ → UInt8) (startaddr size : UInt16) (f : Flash)
    (h : 0 < size) : f.spm.length < (flsWrite buff startaddr size f).state.spm.length := by
  unfold flsWrite
  rw [flsWriteLoop_succ _ _ _ _ _ _ _ h]
  refine lt_of_lt_of_le ?_ (flsWriteLoop_spm buff startaddr size _ _ _ _).length_le
  rw [flsWriteBody_spm]
  simp

theorem flsWriteLoop_spec (buff : ℕ → UInt8) (startaddr size : UInt16) (fuel : ℕ) (f : Flash)
    (i : UInt16) (b : ℕ) (hi : i.toNat ≤ size.toNat)
    (h : (startaddr + i).toNat % 64 + (size.toNat - i.toNat) ≤ 255)
    (hf : size.toNat - i.toNat < fuel) :
    ∃ f', flsWriteLoop buff startaddr size fuel f i b = .ret f' ∧
      f'.mem = f.mem.write (startaddr + i) (size.toNat - i.toNat) fun j => buff (b + j) := by
  induction fuel generalizing f i b with
  | zero => omega
  | succ fuel ih =>
    by_cases hlt : i < size
    · have hlt' := UInt16.lt_iff_toNat_lt.mp hlt
      have hx := (startaddr + i).toNat_lt
      have hsz := size.toNat_lt
      rw [flsWriteLoop_succ _ _ _ _ _ _ _ hlt, flsWriteBody_eq buff startaddr size f i b hi h]
      generalize hn : passLen (startaddr + i).toNat (size.toNat - i.toNat) = n
      have hn1 : 1 ≤ n ∧ n ≤ size.toNat - i.toNat ∧
          ((startaddr + i).toNat % 64 + n = 64 ∨ n = size.toNat - i.toNat) := by
        unfold passLen at hn
        omega
      have hin : (i + UInt16.ofNat n).toNat = i.toNat + n := by
        rw [UInt16.toNat_add, UInt16.toNat_ofNat']
        omega
      have haddr : startaddr + (i + UInt16.ofNat n) = startaddr + i + UInt16.ofNat n :=
        (UInt16.add_assoc ..).symm
      have hxn : (startaddr + i + UInt16.ofNat n).toNat % 64 =
          ((startaddr + i).toNat + n) % 64 := by
        rw [UInt16.toNat_add, UInt16.toNat_ofNat']
        omega
      obtain ⟨f', hret, hmem⟩ := ih { mem := f.mem.write (startaddr + i) n fun j => buff (b + j),
                                      page := fun _ => 0xFF,
                                      spm := f.spm ++ [.erase ((startaddr + i) &&& 0xFFC0),
                                        .write ((startaddr + i) &&& 0xFFC0)] }
        (i + UInt16.ofNat n) (b + n) (by omega) (by rw [haddr, hxn, hin]; omega) (by omega)
      refine ⟨f', hret, ?_⟩
      rw [hmem, hin, haddr, Mem.write_append f.mem _ _ _ _ _ (by omega)]
      rw [show n + (size.toNat - (i.toNat + n)) = size.toNat - i.toNat by omega]
      refine Mem.write_congr _ _ fun j hj => ?_
      split_ifs
      · rfl
      · congr 1
        omega
    · rw [flsWriteLoop_done _ _ _ _ _ _ _ hlt]
      have := UInt16.lt_iff_toNat_lt.not.mp hlt
      refine ⟨f, rfl, ?_⟩
      rw [show size.toNat - i.toNat = 0 by omega, Mem.write_zero]

/-- `FLS_write` writes exactly the block. -/
theorem flsWrite_spec (buff : ℕ → UInt8) (startaddr size : UInt16) (f : Flash)
    (h : startaddr.toNat % 64 + size.toNat ≤ 255) :
    ∃ f', flsWrite buff startaddr size f = .ret f' ∧
      f'.mem = f.mem.write startaddr size.toNat buff := by
  have hsz := size.toNat_lt
  obtain ⟨f', hret, hmem⟩ := flsWriteLoop_spec buff startaddr size 65537 f 0 0 (Nat.zero_le _)
    (by simpa using h) (by simp; omega)
  exact ⟨f', hret, by simpa using hmem⟩

theorem toNat_add_mod (startaddr i : UInt16) :
    (startaddr + i).toNat % 64 = (startaddr.toNat + i.toNat) % 64 := by
  rw [UInt16.toNat_add]
  omega

/-- From the start of the first page to the end of the block there are 256 bytes or more, and the
end as 8 bits hold it does not lie before the start: every pass stays in that situation. -/
structure Truncated (startaddr size i : UInt16) : Prop where
  more : i.toNat < size.toNat
  span : 256 ≤ (startaddr + i).toNat % 64 + (size.toNat - i.toNat)
  ahead : (startaddr + i).toNat % 64 ≤
    ((startaddr + i).toNat % 64 + (size.toNat - i.toNat)) % 256

theorem truncated_pass {startaddr size i : UInt16} (h : Truncated startaddr size i) {s e : ℕ}
    (hs : s = (startaddr + i).toNat % 64)
    (he : e = passEnd (startaddr + i).toNat (size.toNat - i.toNat)) :
    Truncated startaddr size (i + (UInt16.ofNat e - UInt16.ofNat s)) := by
  obtain ⟨hm, hsp, ha⟩ := h
  have hsz := size.toNat_lt
  unfold passEnd at he
  rw [← hs] at hsp ha he
  have hle : s ≤ e := by omega
  have hi : (i + (UInt16.ofNat e - UInt16.ofNat s)).toNat = i.toNat + (e - s) := by
    rw [← UInt16.ofNat_sub hle, UInt16.toNat_add, UInt16.toNat_ofNat']
    omega
  have hx : (startaddr + (i + (UInt16.ofNat e - UInt16.ofNat s))).toNat % 64 = (s + (e - s)) % 64 := by
    rw [toNat_add_mod, hi, ← Nat.add_assoc, Nat.add_mod, ← toNat_add_mod, ← hs]
    omega
  exact ⟨by omega, by rw [hx, hi]; omega, by rw [hx, hi]; omega⟩

/-- Such a loop does not end: it comes to stand before the end of the block. -/
theorem flsWriteLoop_truncated (buff : ℕ → UInt8) {startaddr size : UInt16} (fuel : ℕ) (f : Flash)
    {i : UInt16} (b : ℕ) (h : Truncated startaddr size i) :
    (flsWriteLoop buff startaddr size fuel f i b).returns = false := by
  induction fuel generalizing f i b with
  | zero => rfl
  | succ fuel ih =>
    rw [flsWriteLoop_succ _ _ _ _ _ _ _ (UInt16.lt_iff_toNat_lt.mpr h.more),
      flsWriteBody_pass buff startaddr size f i b h.more.le rfl rfl]
    exact ih _ _ (truncated_pass h rfl rfl)

/-- When the end lies before the start, the first pass steps back past 0 and is the last. -/
theorem flsWrite_behind (buff : ℕ → UInt8) {startaddr size : UInt16} (f : Flash)
    (hfit : startaddr.toNat + size.toNat ≤ 65536)
    (h : (startaddr.toNat % 64 + size.toNat) % 256 < startaddr.toNat % 64) :
    ∃ f', flsWrite buff startaddr size f = .ret f' ∧ f'.mem = f.mem := by
  have hpos : (0 : UInt16) < size := by
    rw [UInt16.lt_iff_toNat_lt, UInt16.toNat_zero]
    omega
  have h0 : startaddr + 0 = startaddr := UInt16.add_zero _
  generalize hs : startaddr.toNat % 64 = s at h
  generalize he : passEnd startaddr.toNat size.toNat = e
  have hes : e < s := by
    unfold passEnd at he
    rw [hs] at he
    omega
  have hdone : ¬(0 : UInt16) + (UInt16.ofNat e - UInt16.ofNat s) < size := by
    rw [UInt16.lt_iff_toNat_lt, UInt16.zero_add, UInt16.toNat_sub, UInt16.toNat_ofNat',
      UInt16.toNat_ofNat']
    have := Nat.mod_le startaddr.toNat 64
    omega
  unfold flsWrite
  rw [flsWriteLoop_succ _ _ _ _ _ _ _ hpos,
    flsWriteBody_pass buff startaddr size f 0 0 (Nat.zero_le _) rfl rfl, h0, hs,
    show size.toNat - (0 : UInt16).toNat = size.toNat from rfl, he,
    flsWriteLoop_done _ _ _ _ _ _ _ hdone]
  refine ⟨_, rfl, ?_⟩
  dsimp only
  rw [show e - s = 0 by omega, Mem.write_zero]

/-- `FLS_write` returns, the block is in flash and every other byte is as before. -/
def WritesBlock (buff : ℕ → UInt8) (startaddr size : UInt16) (f : Flash) : Prop :=
  ∃ f', flsWrite buff startaddr size f = .ret f' ∧
    (∀ i < size.toNat, f'.mem (startaddr + UInt16.ofNat i) = buff i) ∧
    ∀ a, size.toNat ≤ (a - startaddr).toNat → f'.mem a = f.mem a

/-- `FLS_write` stores a block if and only if the distance from the start of its first page to
its end fits a byte, or nothing had to be written to begin with and the distance, cut off, ends
before the block starts. -/
theorem writesBlock_iff (buff : ℕ → UInt8) (startaddr size : UInt16) (f : Flash)
    (hfit : startaddr.toNat + size.toNat ≤ 65536) :
    WritesBlock buff startaddr size f ↔ startaddr.toNat % 64 + size.toNat ≤ 255 ∨
      (startaddr.toNat % 64 + size.toNat) % 256 < startaddr.toNat % 64 ∧
        ∀ i < size.toNat, f.mem (startaddr + UInt16.ofNat i) = buff i := by
  have hsz := size.toNat_lt
  constructor
  · rintro ⟨f', hr, hin, -⟩
    by_cases h : startaddr.toNat % 64 + size.toNat ≤ 255
    · exact .inl h
    refine .inr ?_
    by_cases hb : (startaddr.toNat % 64 + size.toNat) % 256 < startaddr.toNat % 64
    · obtain ⟨f'', hr', hmem⟩ := flsWrite_behind buff f hfit hb
      obtain rfl : f'' = f' := by rw [hr] at hr'; cases hr'; rfl
      exact ⟨hb, fun i hi => by rw [← hmem]; exact hin i hi⟩
    · have ht : Truncated startaddr size 0 := by
        refine ⟨?_, ?_, ?_⟩
        all_goals
          rw [UInt16.toNat_zero]
          try rw [UInt16.add_zero]
          omega
      have hn := flsWriteLoop_truncated buff 65537 f 0 ht
      rw [show flsWriteLoop buff startaddr size 65537 f 0 0 = .ret f' from hr] at hn
      exact absurd hn nofun
  · rintro (h | ⟨hb, heq⟩)
    · obtain ⟨f', hr, hmem⟩ := flsWrite_spec buff startaddr size f h
      refine ⟨f', hr, fun i hi => ?_, fun a ha => ?_⟩
      · rw [hmem, Mem.write_at _ _ _ hi (by omega)]
      · rw [hmem, Mem.write_out ha]
    · obtain ⟨f', hr, hmem⟩ := flsWrite_behind buff f hfit hb
      exact ⟨f', hr, fun i hi => by rw [hmem, heq i hi], fun a _ => by rw [hmem]⟩

/-- 100 bytes from the middle of a page on, over two pages. -/
theorem writesBlock_hundred :
    WritesBlock (fun i => UInt8.ofNat i) 0x1020 100 { mem := fun _ => 0xFF } :=
  (writesBlock_iff (fun i => UInt8.ofNat i) 0x1020 100 { mem := fun _ => 0xFF }
    (by decide)).mpr (.inl (by decide))

/-- A whole 256 bytes: `totalBytesPending` is 0, and the loop never ends. -/
theorem not_writesBlock_page4 : ¬∀ buff startaddr size f,
    startaddr.toNat + size.toNat ≤ 65536 → WritesBlock buff startaddr size f := by
  intro h
  obtain ⟨f', hr, -⟩ := h (fun _ => 0) 0x1000 256 { mem := fun _ => 0xFF } (by decide)
  have ht : Truncated 0x1000 256 0 := ⟨by decide, by decide, by decide⟩
  have hn := flsWriteLoop_truncated (fun _ => 0) 65537 { mem := fun _ => 0xFF } 0 ht
  rw [show flsWriteLoop (fun _ => 0) 0x1000 256 65537 _ 0 0 = .ret f' from hr] at hn
  exact absurd hn nofun

end Memtype
