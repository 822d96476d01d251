import Memtype.Spec.UsbAsm

/-! The CRC routines of usbdrvasm.S compute the CRC of USB data packets. Between two passes of the
shorter one the result registers hold the complement of the CRC register, so that the carry which is
shifted in is always set. -/

namespace Memtype

namespace UsbAsm

open Lib Lib.Avr

def resCrc (c : Core) : BitVec 16 := (c.reg .resCrcH).toBitVec ++ (c.reg .resCrcL).toBitVec

theorem shiftRightIn_pair (h l : UInt8) :
    (shiftRightIn h true).toBitVec ++ (shiftRightIn l (h.toBitVec.getLsbD 0)).toBitVec =
      ~~~((~~~(h.toBitVec ++ l.toBitVec)) >>> 1) := by
  refine BitVec.eq_of_getLsbD_eq fun i hi => ?_
  rw [BitVec.getLsbD_append, BitVec.getLsbD_not, BitVec.getLsbD_ushiftRight, BitVec.getLsbD_not,
    BitVec.getLsbD_append, decide_eq_true hi]
  by_cases h8 : i < 8
  · rw [if_pos h8, getLsbD_shiftRightIn _ _ h8, decide_eq_true (show 1 + i < 16 by omega)]
    by_cases h7 : i = 7
    · subst h7
      simp
    · rw [if_neg h7, if_pos (show 1 + i < 8 by omega), Nat.add_comm 1 i]
      simp
  · rw [if_neg h8, getLsbD_shiftRightIn _ _ (by omega), if_neg (show ¬1 + i < 8 by omega)]
    by_cases h15 : i - 8 = 7
    · rw [if_pos h15, decide_eq_false (by omega)]
      rfl
    · rw [if_neg h15, decide_eq_true (show 1 + i < 16 by omega),
        show i - 8 + 1 = 1 + i - 8 by omega]
      simp

/-- A pass with the carry set moves the complement of the register on by one bit. -/
theorem resCrc_bitLoop {c : Core} {r : BitVec 16} (hc : c.carry = true)
    (hL : c.reg .polyL = 0x01) (hH : c.reg .polyH = 0xA0) (hr : resCrc c = ~~~r) :
    resCrc (usbCrcBitLoop c) = ~~~Crc.shift crcPoly r := by
  have hshift := shiftRightIn_pair (c.reg .resCrcH) (c.reg .resCrcL)
  rw [show (c.reg .resCrcH).toBitVec ++ (c.reg .resCrcL).toBitVec = ~~~r from hr,
    BitVec.not_not] at hshift
  have hlow : (c.reg .resCrcL).toBitVec.getLsbD 0 = !r.getLsbD 0 := by
    have h := congrArg (BitVec.getLsbD · 0) hr
    rwa [resCrc, BitVec.getLsbD_append, if_pos (Nat.zero_lt_succ 7), BitVec.getLsbD_not,
      decide_eq_true (Nat.zero_lt_succ 15), Bool.true_and] at h
  unfold Crc.shift
  cases h0 : r.getLsbD 0 with
  | false =>
    rw [h0] at hlow
    rw [if_neg nofun, ← hshift, ← hc]
    have he : usbCrcBitLoop c = usbCrcNoXor (c |>.ror .resCrcH |>.ror .resCrcL) :=
      congrArg usbCrcNoXor (if_pos hlow)
    rw [he]
    rfl
  | true =>
    rw [h0] at hlow
    rw [if_pos rfl, BitVec.not_xor_left, ← hshift, ← hc]
    have he : usbCrcBitLoop c = usbCrcNoXor
        (c |>.ror .resCrcH |>.ror .resCrcL |>.eor .resCrcL .polyL |>.eor .resCrcH .polyH) :=
      congrArg usbCrcNoXor (if_neg (Bool.not_eq_true _ ▸ hlow))
    have hpoly : crcPoly = (c.reg .polyH).toBitVec ++ (c.reg .polyL).toBitVec := by rw [hL, hH]; rfl
    rw [he, hpoly, BitVec.xor_append]
    rfl

theorem bitLoop_reg (c : Core) {d : Reg} (hL : d ≠ .resCrcL) (hH : d ≠ .resCrcH) (hb : d ≠ .bitCnt) :
    (usbCrcBitLoop c).reg d = c.reg d := by
  unfold usbCrcBitLoop usbCrcNoXor
  dsimp only
  split_ifs
  · simp [subiCarry, subi, ror, Avr.set, hL, hH, hb]
  · simp [subiCarry, subi, ror, eor, Avr.set, hL, hH, hb]

theorem bitLoop_rest (c : Core) : (usbCrcBitLoop c).reg .bitCnt = c.reg .bitCnt - 224 ∧
    (usbCrcBitLoop c).carry = decide (c.reg .bitCnt < 224) ∧ (usbCrcBitLoop c).x = c.x ∧
    (usbCrcBitLoop c).ram = c.ram := by
  unfold usbCrcBitLoop usbCrcNoXor
  dsimp only
  split_ifs
  · exact ⟨rfl, rfl, rfl, rfl⟩
  · exact ⟨rfl, rfl, rfl, rfl⟩

/-- After `i` of the eight passes over a byte. -/
structure BitLoop (c0 : Core) (r : BitVec 16) (i : ℕ) (c : Core) : Prop where
  res : resCrc c = ~~~(Crc.shift crcPoly)^[i] r
  count : c.reg .bitCnt = UInt8.ofNat (32 * i)
  carry : c.carry = decide (i < 8)
  polyL : c.reg .polyL = 0x01
  polyH : c.reg .polyH = 0xA0
  argLen : c.reg .argLen = c0.reg .argLen
  x : c.x = c0.x
  ram : c.ram = c0.ram

theorem BitLoop.pass {c0 c : Core} {r : BitVec 16} {i : ℕ} (h : BitLoop c0 r i c) (hi : i < 8) :
    BitLoop c0 r (i + 1) (usbCrcBitLoop c) := by
  obtain ⟨hcount, hcarry, hx, hram⟩ := bitLoop_rest c
  rw [h.count] at hcount hcarry
  refine ⟨?_, ?_, ?_, ?_, ?_, ?_, hx.trans h.x, hram.trans h.ram⟩
  · rw [Function.iterate_succ_apply']
    exact resCrc_bitLoop (h.carry.trans (decide_eq_true hi)) h.polyL h.polyH h.res
  · rw [hcount, show 32 * (i + 1) = 32 * i + 32 by omega, UInt8.ofNat_add, UInt8.sub_eq_add_neg]
    rfl
  · rw [hcarry]
    refine decide_eq_decide.mpr ?_
    rw [UInt8.lt_iff_toNat_lt, UInt8.toNat_ofNat', show (224 : UInt8).toNat = 224 from rfl]
    omega
  · exact (bitLoop_reg c (by decide) (by decide) (by decide)).trans h.polyL
  · exact (bitLoop_reg c (by decide) (by decide) (by decide)).trans h.polyH
  · exact (bitLoop_reg c (by decide) (by decide) (by decide)).trans h.argLen

theorem bitLoop_ret {c : Core} {r : BitVec 16} (h : BitLoop c r 0 c) :
    ∃ c', doWhile (fun c => .ret (usbCrcBitLoop c)) Avr.carry 256 c = .ret c' ∧
      BitLoop c r 8 c' :=
  doWhile_count (BitLoop c r) (by decide) (by decide)
    (fun i hi c' h' => ⟨usbCrcBitLoop c', rfl, h'.pass hi, (h'.pass hi).carry⟩) h

theorem wire_append (l l' : List UInt8) : wire (l ++ l') = wire l ++ wire l' := List.flatMap_append

theorem crcBytes_append (r : BitVec 16) (l l' : List UInt8) :
    crcBytes r (l ++ l') = crcBytes (crcBytes r l) l' := by
  unfold crcBytes
  rw [wire_append, Crc.bits_append]

theorem crcBytes_singleton (r : BitVec 16) (b : UInt8) :
    crcBytes r [b] = (Crc.shift crcPoly)^[8] (r ^^^ b.toBitVec.setWidth 16) := by
  unfold crcBytes wire
  rw [List.flatMap_singleton, Crc.bits_eq_load crcPoly (by rw [Crc.length_lsbFirst]; decide),
    Crc.length_lsbFirst, Crc.load_lsbFirst]

def bytesAt (m : Mem) (a : UInt16) (n : ℕ) : List UInt8 :=
  (List.range n).map fun i => m (a + UInt16.ofNat i)

/-- At the branch that goes back for another byte, `i` bytes done. -/
structure ByteLoop (m : Mem) (a : UInt16) (n i : ℕ) (c : Core) : Prop where
  res : resCrc c = ~~~crcBytes (BitVec.allOnes 16) (bytesAt m a i)
  count : c.reg .bitCnt = 0
  carry : c.carry = decide (i < n)
  polyL : c.reg .polyL = 0x01
  polyH : c.reg .polyH = 0xA0
  argLen : c.reg .argLen = UInt8.ofNat (256 - n + i)
  x : c.x = a + UInt16.ofNat i
  ram : c.ram = m

theorem resCrc_byte {c : Core} {r : BitVec 16} (b : UInt8) (h : resCrc c = ~~~r) :
    (c.reg .resCrcH).toBitVec ++ (c.reg .resCrcL ^^^ b).toBitVec =
      ~~~(r ^^^ b.toBitVec.setWidth 16) := by
  have hb : b.toBitVec.setWidth 16 = 0#8 ++ b.toBitVec := BitVec.setWidth_eq_append (by decide)
  rw [BitVec.not_xor_left, ← h, UInt8.toBitVec_xor, hb]
  unfold resCrc
  rw [BitVec.xor_append, BitVec.xor_zero]

theorem bytesAt_succ (m : Mem) (a : UInt16) (n : ℕ) :
    bytesAt m a (n + 1) = bytesAt m a n ++ [m (a + UInt16.ofNat n)] := by
  unfold bytesAt
  rw [List.range_succ, List.map_append, List.map_singleton]

theorem ByteLoop.pass {m : Mem} {a : UInt16} {n i : ℕ} {c : Core} (h : ByteLoop m a n i c)
    (hn : n ≤ 255) (hi : i < n) : ∃ c',
      (usbCrcByteLoop c).bind (fun c => .ret (usbCrcLoopEntry c)) = .ret c' ∧
      ByteLoop m a n (i + 1) c' := by
  have hstart : BitLoop (c |>.ldInc .byte |>.eor .resCrcL .byte)
      (crcBytes (BitVec.allOnes 16) (bytesAt m a i) ^^^ (c.ram c.x).toBitVec.setWidth 16) 0
      (c |>.ldInc .byte |>.eor .resCrcL .byte) :=
    ⟨resCrc_byte (c.ram c.x) h.res, h.count, h.carry.trans (decide_eq_true hi), h.polyL, h.polyH,
      rfl, rfl, rfl⟩
  obtain ⟨c', hret, h'⟩ := bitLoop_ret hstart
  refine ⟨usbCrcLoopEntry c', by rw [usbCrcByteLoop, hret]; rfl, ?_, h'.count, ?_, h'.polyL, h'.polyH,
    ?_, ?_, h'.ram.trans h.ram⟩
  · refine h'.res.trans ?_
    rw [bytesAt_succ, crcBytes_append, crcBytes_singleton, h.ram, h.x]
  · have harg : (usbCrcLoopEntry c').carry = decide (c'.reg .argLen < 0xFF) := rfl
    rw [harg, h'.argLen.trans h.argLen]
    refine decide_eq_decide.mpr ?_
    rw [UInt8.lt_iff_toNat_lt, UInt8.toNat_ofNat', show (0xFF : UInt8).toNat = 255 from rfl]
    omega
  · have harg : (usbCrcLoopEntry c').reg .argLen = c'.reg .argLen - 0xFF := rfl
    rw [harg, h'.argLen.trans h.argLen, ← Nat.add_assoc, UInt8.ofNat_add (256 - n + i),
      UInt8.sub_eq_add_neg]
    rfl
  · refine h'.x.trans ?_
    rw [UInt16.ofNat_add, ← UInt16.add_assoc, ← h.x]
    rfl

def argPtr (c : Core) : UInt16 :=
  (c.reg .resCrcH).toUInt16 * 256 + (c.reg .resCrcL).toUInt16

theorem movPtr_x (c : Core) : (c |>.movToXl .resCrcL |>.movToXh .resCrcH).x = argPtr c := by
  have hl : lo8 ((hi8 c.x).toUInt16 * 256 + (c.reg .resCrcL).toUInt16) = c.reg .resCrcL := by
    apply UInt8.toNat_inj.mp
    have := (hi8 c.x).toNat_lt
    have := (c.reg .resCrcL).toNat_lt
    rw [toNat_lo8, UInt16.toNat_add, UInt16.toNat_mul, UInt8.toNat_toUInt16, UInt8.toNat_toUInt16,
      show (256 : UInt16).toNat = 256 from rfl]
    omega
  change (c.reg .resCrcH).toUInt16 * 256 +
    (lo8 ((hi8 c.x).toUInt16 * 256 + (c.reg .resCrcL).toUInt16)).toUInt16 = argPtr c
  rw [hl]
  rfl

/-- A CRC routine called with a core: what the registers, X and the memory are when it returns. -/
structure Computes (c c' : Core) : Prop where
  res : resCrc c' = crc16 (bytesAt c.ram (argPtr c) (c.reg .argLen).toNat)
  x : c'.x = argPtr c + UInt16.ofNat (c.reg .argLen).toNat
  ram : c'.ram = c.ram

theorem usbCrc16_computes (c : Core) : ∃ c', usbCrc16 c = .ret c' ∧ Computes c c' := by
  have hn := (c.reg .argLen).toNat_lt
  generalize hentry : (c |>.movToXl .resCrcL |>.movToXh .resCrcH |>.ldi .resCrcL 0
    |>.ldi .resCrcH 0 |>.ldi .polyL 0x01 |>.ldi .polyH 0xA0 |>.comCarry .argLen |>.ldi .bitCnt 0
    |> usbCrcLoopEntry) = c0
  have harg : c0.reg .argLen = ~~~c.reg .argLen - 0xFF := hentry ▸ rfl
  have hcarry : c0.carry = decide (~~~c.reg .argLen < 0xFF) := hentry ▸ rfl
  have hnot : (~~~c.reg .argLen).toNat = 255 - (c.reg .argLen).toNat := UInt8.toNat_not _
  have h0 : ByteLoop c.ram (argPtr c) (c.reg .argLen).toNat 0 c0 := by
    refine ⟨?_, hentry ▸ rfl, ?_, hentry ▸ rfl, hentry ▸ rfl, ?_, ?_, hentry ▸ rfl⟩
    · have hres : resCrc c0 = 0#8 ++ 0#8 := hentry ▸ rfl
      rw [hres]
      change _ = ~~~BitVec.allOnes 16
      decide
    · rw [hcarry]
      refine decide_eq_decide.mpr ?_
      rw [UInt8.lt_iff_toNat_lt, hnot, show (0xFF : UInt8).toNat = 255 from rfl]
      omega
    · rw [harg]
      apply UInt8.toNat_inj.mp
      rw [UInt8.toNat_sub, hnot, UInt8.toNat_ofNat', show (0xFF : UInt8).toNat = 255 from rfl]
      omega
    · have hx : c0.x = (c |>.movToXl .resCrcL |>.movToXh .resCrcH).x := hentry ▸ rfl
      rw [hx, movPtr_x, show UInt16.ofNat 0 = 0 from rfl, UInt16.add_zero]
  unfold usbCrc16
  simp only [hentry]
  rcases Nat.eq_zero_or_pos (c.reg .argLen).toNat with hz | hpos
  · rw [h0.carry, hz]
    refine ⟨c0, rfl, ?_, ?_, h0.ram⟩
    · rw [h0.res, hz]
      rfl
    · rw [h0.x, hz]
  · rw [h0.carry, decide_eq_true hpos, if_pos rfl]
    have hfuel : (c.reg .argLen).toNat ≤ 256 := by omega
    obtain ⟨c', hret, h⟩ := doWhile_count (ByteLoop c.ram (argPtr c) (c.reg .argLen).toNat) hpos hfuel
      (fun i hi c h => by
        obtain ⟨c', hc', h'⟩ := h.pass (by omega) hi
        exact ⟨c', hc', h', h'.carry⟩) h0
    exact ⟨c', hret, h.res, h.x, h.ram⟩

/-- A byte in the low half of the register, after eight bits. -/
def crcTable (x : BitVec 8) : BitVec 16 := (Crc.shift crcPoly)^[8] (x.setWidth 16)

theorem shift_high : ∀ h : BitVec 8, (Crc.shift crcPoly)^[8] (h ++ 0#8) = 0#8 ++ h := by decide +kernel

theorem crcBytes_table (h l b : UInt8) : crcBytes (h.toBitVec ++ l.toBitVec) [b] =
    (0#8 ++ h.toBitVec) ^^^ crcTable (l ^^^ b).toBitVec := by
  have hb (v : BitVec 8) : v.setWidth 16 = 0#8 ++ v := BitVec.setWidth_eq_append (by decide)
  have hx : (h.toBitVec ++ l.toBitVec) ^^^ b.toBitVec.setWidth 16 =
      (h.toBitVec ++ 0#8) ^^^ (l ^^^ b).toBitVec.setWidth 16 := by
    rw [hb, hb, BitVec.xor_append, BitVec.xor_append, UInt8.toBitVec_xor, BitVec.zero_xor]
  rw [crcBytes_singleton, hx, Crc.iterate_shift_xor, shift_high]
  rfl

def parityOf (x : UInt8) : UInt8 :=
  let y := (x <<< 4 ||| x >>> 4) ^^^ x
  shiftRightIn ((shiftRightIn (shiftRightIn y false) false ^^^ y) + 1) false &&& 1

/-- What the two shifts through the carry add to the low half. -/
def tableLow (x : UInt8) : UInt8 :=
  let y := shiftRightIn 0 (x.toBitVec.getLsbD 0)
  parityOf x ^^^ y ^^^ shiftRightIn y ((shiftRightIn x false).toBitVec.getLsbD 0)

def tableHigh (x : UInt8) : UInt8 :=
  let y := shiftRightIn x false
  ((0 - parityOf x) &&& 0xc0) ^^^ y ^^^ shiftRightIn y false

theorem crcTable_eq (x : UInt8) :
    crcTable x.toBitVec = (tableHigh x).toBitVec ++ (tableLow x).toBitVec := by
  have h : ∀ v : BitVec 8,
      crcTable v = (tableHigh ⟨v⟩).toBitVec ++ (tableLow ⟨v⟩).toBitVec := by decide +kernel
  exact h x.toBitVec

theorem fastByteLoop_reg (c : Core) :
    (Fast.usbCrc16ByteLoop c).reg .resCrcH = tableHigh (c.reg .resCrcL ^^^ c.ram c.x) ∧
    (Fast.usbCrc16ByteLoop c).reg .resCrcL =
      c.reg .resCrcH ^^^ tableLow (c.reg .resCrcL ^^^ c.ram c.x) ∧
    (Fast.usbCrc16ByteLoop c).reg .argLen = c.reg .argLen ∧
    (Fast.usbCrc16ByteLoop c).x = c.x + 1 ∧ (Fast.usbCrc16ByteLoop c).ram = c.ram := by
  refine ⟨rfl, ?_, rfl, rfl, rfl⟩
  unfold tableLow
  rw [← UInt8.xor_assoc, ← UInt8.xor_assoc]
  rfl

theorem resCrc_fastByteLoop (c : Core) :
    resCrc (Fast.usbCrc16ByteLoop c) = crcBytes (resCrc c) [c.ram c.x] := by
  obtain ⟨hH, hL, -⟩ := fastByteLoop_reg c
  unfold resCrc
  rw [crcBytes_table, hH, hL, crcTable_eq, BitVec.xor_append, BitVec.zero_xor, UInt8.toBitVec_xor]

structure FastLoop (m : Mem) (a : UInt16) (n i : ℕ) (c : Core) : Prop where
  res : resCrc c = crcBytes (BitVec.allOnes 16) (bytesAt m a i)
  carry : c.carry = decide (n ≤ i)
  argLen : c.reg .argLen = UInt8.ofNat (255 + n - i)
  x : c.x = a + UInt16.ofNat i
  ram : c.ram = m

theorem FastLoop.pass {m : Mem} {a : UInt16} {n i : ℕ} {c : Core} (h : FastLoop m a n i c)
    (hn : n ≤ 255) (hi : i < n) :
    FastLoop m a n (i + 1) (Fast.usbCrc16LoopTest (Fast.usbCrc16ByteLoop c)) := by
  obtain ⟨-, -, harg, hx, hram⟩ := fastByteLoop_reg c
  refine ⟨?_, ?_, ?_, ?_, hram.trans h.ram⟩
  · refine (resCrc_fastByteLoop c).trans ?_
    rw [h.res, h.x, h.ram, bytesAt_succ, crcBytes_append]
  · change decide ((Fast.usbCrc16ByteLoop c).reg .argLen < 1) = _
    rw [harg, h.argLen]
    refine decide_eq_decide.mpr ?_
    rw [UInt8.lt_iff_toNat_lt, UInt8.toNat_ofNat', UInt8.toNat_one]
    omega
  · change (Fast.usbCrc16ByteLoop c).reg .argLen - 1 = _
    rw [harg, h.argLen]
    apply UInt8.toNat_inj.mp
    rw [UInt8.toNat_sub, UInt8.toNat_ofNat', UInt8.toNat_ofNat', UInt8.toNat_one]
    omega
  · refine hx.trans ?_
    rw [h.x, UInt16.ofNat_add, ← UInt16.add_assoc]
    rfl

theorem fast_computes (c : Core) : ∃ c', Fast.usbCrc16 c = .ret c' ∧ Computes c c' := by
  have hn := (c.reg .argLen).toNat_lt
  generalize hentry : (c |>.movToXl .resCrcL |>.movToXh .resCrcH |>.ldi .resCrcL 0xFF
    |>.ldi .resCrcH 0xFF |> Fast.usbCrc16LoopTest) = c0
  have harg : c0.reg .argLen = c.reg .argLen - 1 := hentry ▸ rfl
  have hcarry : c0.carry = decide (c.reg .argLen < 1) := hentry ▸ rfl
  have h0 : FastLoop c.ram (argPtr c) (c.reg .argLen).toNat 0 c0 := by
    refine ⟨?_, ?_, ?_, ?_, hentry ▸ rfl⟩
    · have hres : resCrc c0 = 0xFF#8 ++ 0xFF#8 := hentry ▸ rfl
      rw [hres]
      change _ = BitVec.allOnes 16
      decide
    · rw [hcarry]
      refine decide_eq_decide.mpr ?_
      rw [UInt8.lt_iff_toNat_lt, UInt8.toNat_one]
      omega
    · rw [harg]
      apply UInt8.toNat_inj.mp
      rw [UInt8.toNat_sub, UInt8.toNat_ofNat', UInt8.toNat_one]
      omega
    · have hx : c0.x = (c |>.movToXl .resCrcL |>.movToXh .resCrcH).x := hentry ▸ rfl
      rw [hx, movPtr_x, show UInt16.ofNat 0 = 0 from rfl, UInt16.add_zero]
  have hloop : ∃ c1, (if c0.carry then .ret c0 else doWhile (fun c =>
      .ret (Fast.usbCrc16LoopTest (Fast.usbCrc16ByteLoop c))) (fun c => !c.carry) 256 c0) = .ret c1 ∧
      FastLoop c.ram (argPtr c) (c.reg .argLen).toNat (c.reg .argLen).toNat c1 := by
    rcases Nat.eq_zero_or_pos (c.reg .argLen).toNat with hz | hpos
    · rw [h0.carry, hz, decide_eq_true (le_refl 0), if_pos rfl]
      exact ⟨c0, rfl, hz ▸ h0⟩
    · rw [h0.carry, decide_eq_false (by omega), if_neg nofun]
      have hfuel : (c.reg .argLen).toNat ≤ 256 := by omega
      refine doWhile_count (FastLoop c.ram (argPtr c) (c.reg .argLen).toNat) hpos hfuel
        (fun i hi c h => ⟨_, rfl, h.pass (by omega) hi, ?_⟩) h0
      rw [(h.pass (by omega) hi).carry, ← decide_not]
      exact decide_eq_decide.mpr (by omega)
  obtain ⟨c1, hret, h1⟩ := hloop
  refine ⟨c1 |>.com .resCrcL |>.com .resCrcH, ?_, ?_, h1.x, h1.ram⟩
  · unfold Fast.usbCrc16
    simp only [hentry]
    rw [hret]
    rfl
  · unfold crc16
    rw [← h1.res]
    exact BitVec.not_append.symm

/-- With and without `USB_USE_FAST_CRC` the routine returns the same CRC, for every length and
wherever the bytes are. -/
theorem usbCrc16_either (c : Core) : ∃ c1 c2, usbCrc16 c = .ret c1 ∧
    Fast.usbCrc16 c = .ret c2 ∧ Computes c c1 ∧ Computes c c2 := by
  obtain ⟨c1, h1, hc1⟩ := usbCrc16_computes c
  obtain ⟨c2, h2, hc2⟩ := fast_computes c
  exact ⟨c1, c2, h1, h2, hc1, hc2⟩

/-- The remainder that the receivers of the driver compare with. -/
def remainder : BitVec 16 := 0xB001#16

def Accepted (l : List Bool) : Prop := Crc.bits crcPoly (BitVec.allOnes 16) l = remainder

/-- The CRC is sent low byte first. -/
theorem accepted_crc {l : List UInt8} {high low : UInt8}
    (h : high.toBitVec ++ low.toBitVec = crc16 l) : Accepted (wire (l ++ [low, high])) := by
  have hcrc : wire [low, high] = Crc.lsbFirst (crc16 l) := by
    rw [← h, Crc.lsbFirst_append]
    rfl
  unfold Accepted
  rw [wire_append, Crc.bits_append, hcrc]
  refine (Crc.bits_residue crcPoly _).trans ?_
  decide +kernel

theorem add_ofNat_inj (a : UInt16) {i j : ℕ} (hi : i < 65536) (hj : j < 65536) :
    a + UInt16.ofNat i = a + UInt16.ofNat j ↔ i = j := by
  refine ⟨fun h => ?_, fun h => h ▸ rfl⟩
  rw [← Mem.toNat_add_ofNat_sub a hi, h, Mem.toNat_add_ofNat_sub a hj]

/-- The two stores of `usbCrc16Append`, by the distance from the first byte of the packet. -/
theorem append_ram {c c1 : Core} (h : Computes c c1) {d : ℕ} (hd : d < 65536) :
    (c1 |>.stInc .resCrcL |>.stInc .resCrcH).ram (argPtr c + UInt16.ofNat d) =
      if d = (c.reg .argLen).toNat then c1.reg .resCrcL
      else if d = (c.reg .argLen).toNat + 1 then c1.reg .resCrcH
      else c.ram (argPtr c + UInt16.ofNat d) := by
  have hn := (c.reg .argLen).toNat_lt
  have hram : (c1 |>.stInc .resCrcL |>.stInc .resCrcH).ram =
      Function.update (Function.update c.ram c1.x (c1.reg .resCrcL)) (c1.x + 1) (c1.reg .resCrcH) := by
    rw [← h.ram]
    rfl
  have hnext : c1.x + 1 = argPtr c + UInt16.ofNat ((c.reg .argLen).toNat + 1) := by
    rw [h.x, UInt16.ofNat_add, ← UInt16.add_assoc]
    rfl
  have hlow := add_ofNat_inj (argPtr c) hd (show (c.reg .argLen).toNat < 65536 by omega)
  have hhigh := add_ofNat_inj (argPtr c) hd (show (c.reg .argLen).toNat + 1 < 65536 by omega)
  rw [hram, hnext, h.x, Function.update_apply, Function.update_apply]
  simp only [hlow, hhigh]
  split_ifs with hd1 hd0
  · omega
  · rfl
  · rfl
  · rfl

/-- The packet that `usbCrc16Append` leaves in the memory passes the check of a receiver, and what
an error within 16 bits makes of it does not. -/
theorem usbCrc16Append_burst (c : Core) : ∃ c', usbCrc16Append c = .ret c' ∧
    (∀ a, (a - argPtr c).toNat < (c.reg .argLen).toNat ∨
      (c.reg .argLen).toNat + 2 ≤ (a - argPtr c).toNat → c'.ram a = c.ram a) ∧
    Accepted (wire (bytesAt c'.ram (argPtr c) ((c.reg .argLen).toNat + 2))) ∧
    ∀ l, Crc.Burst 16 (wire (bytesAt c'.ram (argPtr c) ((c.reg .argLen).toNat + 2))) l →
      ¬Accepted l := by
  have hn := (c.reg .argLen).toNat_lt
  obtain ⟨c1, hret, h1⟩ := usbCrc16_computes c
  have hram (d : ℕ) (hd : d < 65536) := append_ram h1 hd
  have hret' : usbCrc16Append c = .ret (c1 |>.stInc .resCrcL |>.stInc .resCrcH) := by
    rw [usbCrc16Append, hret]
    rfl
  generalize (c1 |>.stInc .resCrcL |>.stInc .resCrcH) = c' at hram hret'
  have hpacket : bytesAt c'.ram (argPtr c) ((c.reg .argLen).toNat + 2) =
      bytesAt c.ram (argPtr c) (c.reg .argLen).toNat ++ [c1.reg .resCrcL, c1.reg .resCrcH] := by
    have hdata : bytesAt c'.ram (argPtr c) (c.reg .argLen).toNat =
        bytesAt c.ram (argPtr c) (c.reg .argLen).toNat :=
      List.map_congr_left fun i hi => by
        have hi := List.mem_range.mp hi
        rw [hram i (by omega), if_neg (by omega), if_neg (by omega)]
    rw [bytesAt_succ, bytesAt_succ, hdata, hram _ (by omega), hram _ (by omega), if_pos rfl,
      if_neg (by omega), if_pos rfl, List.append_assoc]
    rfl
  have hacc : Accepted (wire (bytesAt c'.ram (argPtr c) ((c.reg .argLen).toNat + 2))) :=
    hpacket ▸ accepted_crc h1.res
  refine ⟨c', hret', fun a ha => ?_, hacc, fun l hl h => ?_⟩
  · have hd := (a - argPtr c).toNat_lt
    have ha' : argPtr c + UInt16.ofNat (a - argPtr c).toNat = a := by
      rw [UInt16.ofNat_toNat, UInt16.add_comm, UInt16.sub_add_cancel]
    rw [← ha', hram _ hd, if_neg (by omega), if_neg (by omega)]
  · exact Crc.bits_burst crcPoly (by decide) _ hl (hacc.trans h.symm)

end UsbAsm

end Memtype
