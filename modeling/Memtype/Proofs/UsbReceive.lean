import Memtype.Proofs.UsbBits

/-! The receiver gets out of the line code what the transmitter put into it. -/

namespace Memtype

namespace UsbLine

open Lib

variable {k n : ℕ} {ds : List Bool} {x3 shift shift' : UInt8} {d : Bool}

variable {tail samples : List UInt8} {todo : List Bool} {prev v : UInt8}

namespace Core

structure Quiet (c c' : Core) : Prop where
  ram : c'.ram = c.ram
  y : c'.y = c.y
  cnt : c'.cnt = c.cnt

variable {e : Bool} {c : Core}

theorem didUnstuff0_reads
    (h : Ahead tail 1 ds (d :: e :: todo) c.x1 (c.x2 :: c.samples) c.x3 c.shift) :
    Ahead tail 2 (ds ++ [d]) (e :: todo) c.didUnstuff0.x2 (c.didUnstuff0.x1 :: c.didUnstuff0.samples)
      c.didUnstuff0.x3 c.didUnstuff0.shift ∧ Quiet c c.didUnstuff0 := by
  have hp := h.take (by decide) (loads_masked _ _ (by decide)) (masked_iff _ 1 (by decide))
  have hdef : c.didUnstuff0 = if bld (c.x1 ^^^ c.x2) c.shift 1 &&& mask 1 == 0 then
      (((c.takeX1 1).andiShift 0xf3).inX1.unstuffed 0x02).movX2.inX1
    else ((c.takeX1 1).andiShift 0xf3).inX1 := rfl
  rw [hdef]
  unfold Pending at hp
  obtain ⟨x1, x2, x3, x4, shift, cnt, y, carry, ram, out, samples⟩ := c
  split_ifs at hp ⊢ with hz
  · obtain ⟨w, samples', rfl, ha⟩ := hp
    obtain ⟨u, samples'', rfl, -, -⟩ := ha.sampled
    exact ⟨ha, rfl, rfl, rfl⟩
  · obtain ⟨u, samples', rfl, -, -⟩ := hp.sampled
    exact ⟨hp, rfl, rfl, rfl⟩

theorem bit2_reads (h : Ahead tail 2 ds (d :: e :: todo) c.x2 (c.x1 :: c.samples) c.x3 c.shift) :
    Ahead tail 3 (ds ++ [d]) (e :: todo) c.bit2.x1 (c.bit2.x2 :: c.bit2.samples) c.bit2.x3 c.bit2.shift ∧
      Quiet c c.bit2 := by
  have hp := h.take (by decide) (loads_masked _ _ (by decide)) (masked_iff _ 2 (by decide))
  have hdef : c.bit2 = if bld (c.x2 ^^^ c.x1) c.shift 2 &&& mask 2 == 0 then
      (((c.takeX2 2).andiShift 0xe7).inX2.unstuffed 0x04).movX1.inX2
    else ((c.takeX2 2).andiShift 0xe7).inX2 := rfl
  rw [hdef]
  unfold Pending at hp
  obtain ⟨x1, x2, x3, x4, shift, cnt, y, carry, ram, out, samples⟩ := c
  split_ifs at hp ⊢ with hz
  · obtain ⟨w, samples', rfl, ha⟩ := hp
    obtain ⟨u, samples'', rfl, -, -⟩ := ha.sampled
    exact ⟨ha, rfl, rfl, rfl⟩
  · obtain ⟨u, samples', rfl, -, -⟩ := hp.sampled
    exact ⟨hp, rfl, rfl, rfl⟩

theorem bit3_reads (h : Ahead tail 3 ds (d :: todo) c.x1 (c.x2 :: c.samples) c.x3 c.shift) :
    Ahead tail 4 (ds ++ [d]) todo c.bit3.x2 c.bit3.samples c.bit3.x3 c.bit3.shift ∧ Quiet c c.bit3 := by
  have hp := h.take (by decide) (loads_masked _ _ (by decide)) (masked_iff _ 3 (by decide))
  have hdef : c.bit3 = if bld (c.x1 ^^^ c.x2) c.shift 3 &&& mask 3 == 0 then
      ((c.takeX1 3).andiShift 0xcf).inX2.unstuffed 0x08
    else (c.takeX1 3).andiShift 0xcf := rfl
  rw [hdef]
  unfold Pending at hp
  obtain ⟨x1, x2, x3, x4, shift, cnt, y, carry, ram, out, samples⟩ := c
  split_ifs at hp ⊢ with hz
  · obtain ⟨w, samples', rfl, ha⟩ := hp
    exact ⟨ha, rfl, rfl, rfl⟩
  · exact ⟨hp, rfl, rfl, rfl⟩

theorem masked_again (v : UInt8) : ((v &&& mask 4) ||| (0x10 : UInt8)) &&& 0x9f =
    (v &&& mask 4) ||| (0x10 : UInt8) := by
  revert v
  exact forall_byte (by decide +kernel)

theorem sample_eq {v : UInt8} (h : c.samples = v :: samples) : c.sample = v := by
  rw [sample, h]
  rfl

theorem bit4_reads (h : Ahead tail 4 ds (d :: todo) c.x2 c.samples c.x3 c.shift) :
    Ahead tail 5 (ds ++ [d]) todo c.bit4.x1 c.bit4.samples c.bit4.x3 c.bit4.shift ∧ Quiet c c.bit4 := by
  obtain ⟨u, samples', hs, -, -⟩ := h.sampled
  rw [hs] at h
  have hp := h.take (by decide) (loads_masked _ _ (by decide)) (masked_iff _ 4 (by decide))
  have hdef : c.bit4 = if bld (c.x2 ^^^ c.sample) c.shift 4 &&& mask 4 == 0 then
      (((c.inX1.takeX2 4).andiShift 0x9f).inX1.unstuffed 0x10).andiShift 0x9f
    else (c.inX1.takeX2 4).andiShift 0x9f := rfl
  rw [hdef, sample_eq hs]
  unfold Pending at hp
  obtain ⟨x1, x2, x3, x4, shift, cnt, y, carry, ram, out, samples⟩ := c
  obtain rfl : samples = u :: samples' := hs
  split_ifs at hp ⊢ with hz
  · obtain ⟨w, samples', rfl, ha⟩ := hp
    have hagain := masked_again (bld (x2 ^^^ u) shift 4)
    exact ⟨(congrArg (Ahead tail 5 _ _ _ _ _) hagain).mpr ha, rfl, rfl, rfl⟩
  · exact ⟨hp, rfl, rfl, rfl⟩

theorem bit_seven (v : UInt8) : bit (v &&& mask 5) 7 = false := by
  revert v
  exact forall_byte (by decide +kernel)

theorem bit6_reads (h : Ahead tail 6 ds (d :: todo) c.x2 (c.x1 :: c.samples) c.x3 c.shift)
    (h7 : bit c.shift 7 = false) :
    Ahead tail 7 (ds ++ [d]) todo c.bit6.x1 c.bit6.samples c.bit6.x3 c.bit6.shift ∧ Quiet c c.bit6 := by
  have h7' : bit (bld (c.x2 ^^^ c.x1) c.shift 6) 7 = false := by
    rw [bit_bld _ _ (by decide) (by decide), if_neg (by decide)]
    exact h7
  have hp := h.take (by decide) (loads_bld _ _ (by decide)) (decide_eq_true_iff.trans (lt_two_iff _ h7'))
  have hdef : c.bit6 = if decide (bld (c.x2 ^^^ c.x1) c.shift 6 < 0x02) then
      (c.takeX2 6).inX1.unstuffed 0x40 else c.takeX2 6 := by
    unfold bit6
    exact if_congr decide_eq_true_iff.symm rfl rfl
  rw [hdef]
  unfold Pending at hp
  obtain ⟨x1, x2, x3, x4, shift, cnt, y, carry, ram, out, samples⟩ := c
  split_ifs at hp ⊢ with hz
  · obtain ⟨w, samples', rfl, ha⟩ := hp
    exact ⟨ha, rfl, rfl, rfl⟩
  · exact ⟨hp, rfl, rfl, rfl⟩

/-- Behind a stuffed bit 5 six ones cannot end at bit 6. -/
theorem not_six_five (v shift : UInt8) : ¬SixZeros 6 (bld v (shift ||| 0x20) 6) := by
  intro h
  have h5 := h 1 (by decide)
  rw [bit_bld _ _ (by decide) (by decide), if_neg (by decide)] at h5
  have := (bit_mark shift 5 (by decide) 5 (by decide)).1
  exact absurd (h5.symm.trans this) (by simp)

theorem continueWithBit5_reads
    (h : Ahead tail 5 ds (d :: e :: todo) c.x1 c.samples c.x3 c.shift) :
    Ahead tail 7 (ds ++ [d] ++ [e]) todo c.continueWithBit5.x1 c.continueWithBit5.samples
      c.continueWithBit5.x3 c.continueWithBit5.shift ∧ Quiet c c.continueWithBit5 := by
  obtain ⟨u, samples', hs, -, -⟩ := h.sampled
  rw [hs] at h
  have hp := h.take (by decide) (loads_masked _ _ (by decide)) (masked_iff _ 5 (by decide))
  have hdef : c.continueWithBit5 = if bld (c.x1 ^^^ c.sample) c.shift 5 &&& mask 5 == 0 then
      ((((c.inX2.takeX1 5).andiShift 0x3f).inX1.unstuffed 0x20).movX2.inX1).takeX2 6
    else ((c.inX2.takeX1 5).andiShift 0x3f).inX1.bit6 := rfl
  rw [hdef, sample_eq hs]
  unfold Pending at hp
  obtain ⟨x1, x2, x3, x4, shift, cnt, y, carry, ram, out, samples⟩ := c
  obtain rfl : samples = u :: samples' := hs
  split_ifs at hp ⊢ with hz
  · obtain ⟨w, samples', rfl, ha⟩ := hp
    obtain ⟨t, samples'', rfl, -, -⟩ := ha.sampled
    have hnext := ha.take (by decide) (loads_bld _ _ (by decide)) (z := false)
      ⟨nofun, fun hsix => absurd hsix (not_six_five _ _)⟩
    exact ⟨hnext, rfl, rfl, rfl⟩
  · obtain ⟨t, samples'', rfl, -, -⟩ := hp.sampled
    obtain ⟨hnext, hquiet⟩ := bit6_reads
      (c := (((⟨x1, x2, x3, x4, shift, cnt, y, carry, ram, out, u :: t :: samples''⟩ : Core).inX2.takeX1
        5).andiShift 0x3f).inX1) hp (bit_seven _)
    exact ⟨hnext, hquiet.ram, hquiet.y, hquiet.cnt⟩

theorem bit7_reads (h : Ahead tail 7 ds (d :: todo) c.x1 c.samples c.x3 c.shift) :
    Ahead tail 8 (ds ++ [d]) todo c.bit7.x2 c.bit7.samples c.bit7.x3 c.bit7.shift ∧ Quiet c c.bit7 := by
  obtain ⟨u, samples', hs, -, -⟩ := h.sampled
  rw [hs] at h
  have hp := h.take (by decide) (loads_bld _ _ (by decide)) (decide_eq_true_iff.trans (lt_four_iff _))
  have hdef : c.bit7 = if decide (bld (c.x1 ^^^ c.sample) c.shift 7 < 0x04) then
      ((c.inX2.takeX1 7).unstuffed 0x80).inX2 else c.inX2.takeX1 7 := by
    unfold bit7
    exact if_congr decide_eq_true_iff.symm rfl rfl
  rw [hdef, sample_eq hs]
  unfold Pending at hp
  obtain ⟨x1, x2, x3, x4, shift, cnt, y, carry, ram, out, samples⟩ := c
  obtain rfl : samples = u :: samples' := hs
  split_ifs at hp ⊢ with hz
  · obtain ⟨w, samples', rfl, ha⟩ := hp
    exact ⟨ha, rfl, rfl, rfl⟩
  · exact ⟨hp, rfl, rfl, rfl⟩

theorem rxbit1_reads {z : Bool} (h : Pending tail 0 ds (d :: todo) z c.x1 c.samples c.x3 c.shift) :
    ∃ c', c.rxbit1 z = .ok c' ∧
      Ahead tail 1 ds (d :: todo) c'.x1 (c'.x2 :: c'.samples) c'.x3 c'.shift ∧ Quiet c c' := by
  obtain ⟨x1, x2, x3, x4, shift, cnt, y, carry, ram, out, samples⟩ := c
  unfold Pending at h
  cases z with
  | false =>
    rw [if_neg Bool.false_ne_true] at h
    obtain ⟨u, samples', rfl, hu, ha⟩ := h.sampled
    exact ⟨_, if_neg hu, ha, rfl, rfl, rfl⟩
  | true =>
    rw [if_pos rfl] at h
    obtain ⟨w, samples', rfl, ha⟩ := h
    obtain ⟨hw, hmasked⟩ := ha.prev_masked
    obtain ⟨u, samples'', rfl, -, -⟩ := ha.sampled
    have hcheck : (inX2 ⟨x1, x2, x3, x4, shift, cnt, y, carry, ram, out, w :: u :: samples''⟩).checkSe0 =
      .ok ⟨x1, w &&& usbMask, x3, x4, shift, cnt, y, carry, ram, out, u :: samples''⟩ := if_neg hw
    refine ⟨(Core.unstuffed 0x01 ⟨x1, w &&& usbMask, x3, x4, shift, cnt, y, carry, ram, out,
      u :: samples''⟩).movX1.inX2, ?_, hmasked, rfl, rfl, rfl⟩
    unfold rxbit1
    rw [if_pos rfl, hcheck]
    rfl

/-- SE0 in the place of bit 1. -/
theorem rxbit1_se0 {z : Bool} (h : c.sample &&& usbMask = 0) :
    ∃ c', c.rxbit1 z = .error (.se0, c') ∧ Quiet c c' := by
  have hcheck : ∃ c', c.inX2.checkSe0 = .error (.se0, c') ∧ Quiet c c' := ⟨_, if_pos h, rfl, rfl, rfl⟩
  obtain ⟨c', hcheck, hquiet⟩ := hcheck
  refine ⟨c', ?_, hquiet⟩
  unfold rxbit1
  rw [hcheck]
  cases z <;> rfl

theorem rxByte_overflow {z : Bool} (h : Pending tail 0 ds (d :: e :: todo) z c.x1 c.samples c.x3 c.shift)
    (hcnt : c.cnt = 0) : ∃ c', c.rxByte z = .error (.overflow, c') ∧ c'.ram = c.ram ∧ c'.y = c.y := by
  obtain ⟨c₁, hret, ha, hquiet⟩ := rxbit1_reads h
  obtain ⟨-, hquiet'⟩ := didUnstuff0_reads ha
  have hcheck : ∃ c', c₁.didUnstuff0.checkOverflow = .error (.overflow, c') ∧ c'.ram = c.ram ∧ c'.y = c.y := by
    refine ⟨_, if_pos ?_, hquiet'.ram.trans hquiet.ram, hquiet'.y.trans hquiet.y⟩
    rw [hquiet'.cnt, hquiet.cnt, hcnt]
    rfl
  obtain ⟨c', hcheck, hrest⟩ := hcheck
  refine ⟨c', ?_, hrest⟩
  unfold rxByte
  rw [hret]
  change (c₁.didUnstuff0.checkOverflow >>= _) = _
  rw [hcheck]
  rfl

/-- A byte, all but its bit 0. -/
theorem rxByte_reads {z d₀ d₁ d₂ d₃ d₄ d₅ d₆ d₇ : Bool}
    (h : Pending tail 0 [d₀] (d₁ :: d₂ :: d₃ :: d₄ :: d₅ :: d₆ :: d₇ :: todo) z c.x1 c.samples c.x3
      c.shift) (hcnt : c.cnt ≠ 0) :
    ∃ c', c.rxByte z = .ok c' ∧
      Ahead tail 8 [d₀, d₁, d₂, d₃, d₄, d₅, d₆, d₇] todo c'.x2 c'.samples c'.x3 c'.shift ∧
      c'.ram = c.ram ∧ c'.y = c.y ∧ c'.cnt = c.cnt - 1 := by
  obtain ⟨c₁, hret, ha₁, hq₁⟩ := rxbit1_reads h
  obtain ⟨ha₂, hq₂⟩ := didUnstuff0_reads ha₁
  have hcheck : ∃ c₂, c₁.didUnstuff0.checkOverflow = .ok c₂ ∧
      Ahead tail 2 ([d₀] ++ [d₁]) (d₂ :: d₃ :: d₄ :: d₅ :: d₆ :: d₇ :: todo) c₂.x2 (c₂.x1 :: c₂.samples)
        c₂.x3 c₂.shift ∧ c₂.ram = c.ram ∧ c₂.y = c.y ∧ c₂.cnt = c.cnt - 1 := by
    have hcnt' : c₁.didUnstuff0.cnt = c.cnt := hq₂.cnt.trans hq₁.cnt
    refine ⟨_, if_neg ?_, ha₂, hq₂.ram.trans hq₁.ram, hq₂.y.trans hq₁.y, congrArg (· - 1) hcnt'⟩
    rw [hcnt', decide_eq_true_iff, UInt8.lt_one_iff]
    exact hcnt
  obtain ⟨c₂, hcheck, ha₂, hram, hy, hcnt'⟩ := hcheck
  obtain ⟨ha₃, hq₃⟩ := bit2_reads ha₂
  obtain ⟨ha₄, hq₄⟩ := bit3_reads ha₃
  obtain ⟨ha₅, hq₅⟩ := bit4_reads ha₄
  obtain ⟨ha₇, hq₇⟩ := continueWithBit5_reads ha₅
  obtain ⟨ha₈, hq₈⟩ := bit7_reads ha₇
  refine ⟨c₂.bit2.bit3.bit4.continueWithBit5.bit7, ?_, ha₈, ?_, ?_, ?_⟩
  · unfold rxByte
    rw [hret]
    change (c₁.didUnstuff0.checkOverflow >>= _) = _
    rw [hcheck]
    rfl
  · rw [hq₈.ram, hq₇.ram, hq₅.ram, hq₄.ram, hq₃.ram, hram]
  · rw [hq₈.y, hq₇.y, hq₅.y, hq₄.y, hq₃.y, hy]
  · rw [hq₈.cnt, hq₇.cnt, hq₅.cnt, hq₄.cnt, hq₃.cnt, hcnt']

theorem rxLoop_stores {v : UInt8}
    (h : Ahead tail 8 (Crc.lsbFirst v.toBitVec) todo c.x2 c.samples c.x3 c.shift) :
    c.rxLoop.2.ram = Function.update c.ram c.y v ∧ c.rxLoop.2.y = c.y + 1 ∧ c.rxLoop.2.cnt = c.cnt := by
  obtain ⟨n, level, ss, -, hbits, -⟩ := h
  refine ⟨?_, rfl, rfl⟩
  have hram : c.rxLoop.2.ram = Function.update c.ram c.y (c.x3 ^^^ c.shift) := rfl
  rw [hram, hbits.byte]

/-- Bit 0 of the next byte. -/
theorem rxLoop_reads (h : Ahead tail 8 ds (d :: todo) c.x2 c.samples c.x3 c.shift) :
    Pending tail 0 [d] todo c.rxLoop.1 c.rxLoop.2.x1 c.rxLoop.2.samples c.rxLoop.2.x3
      c.rxLoop.2.shift := by
  have hnext : Ahead tail 0 [] (d :: todo) c.x2 c.samples 0xff c.shift := by
    obtain ⟨n, level, ss, hn, hbits, hrest⟩ := h
    exact ⟨n, level, ss, hn, hbits.again hn, hrest⟩
  obtain ⟨u, samples', hs, -, -⟩ := hnext.sampled
  rw [hs] at hnext
  obtain ⟨x1, x2, x3, x4, shift, cnt, y, carry, ram, out, samples⟩ := c
  obtain rfl : samples = u :: samples' := hs
  exact hnext.take (by decide) (loads_masked _ _ (by decide)) (masked_iff _ 0 (by decide))

/-- SE0 in the place of the next byte. -/
theorem rxLoop_sample (h : Ahead tail 8 ds [] c.x2 c.samples c.x3 c.shift) :
    c.rxLoop.2.sample = tail.tail.headD 0 := by
  obtain ⟨n, level, ss, -, -, -, hs, hon⟩ := h
  obtain rfl : ss = [] := List.forall₂_nil_right_iff.mp hon
  have hsample : c.rxLoop.2.sample = c.samples.tail.headD 0 := rfl
  rw [hsample, hs, List.nil_append]

/-- A pass of the loop. -/
theorem receive_byte (fuel : ℕ) {m : ℕ} {z : Bool} {v : UInt8} (hm : m + 1 < 256) (hcnt : c.cnt = UInt8.ofNat (m + 1))
    (h : Pending tail 0 [bit v 0] ([bit v 1, bit v 2, bit v 3, bit v 4, bit v 5, bit v 6, bit v 7] ++
      todo) z c.x1 c.samples c.x3 c.shift) :
    ∃ c' : Core, receive (fuel + 1) z c = receive fuel c'.rxLoop.1 c'.rxLoop.2 ∧
      Ahead tail 8 (Crc.lsbFirst v.toBitVec) todo c'.x2 c'.samples c'.x3 c'.shift ∧
      c'.rxLoop.2.ram = Function.update c.ram c.y v ∧ c'.rxLoop.2.y = c.y + 1 ∧
      c'.rxLoop.2.cnt = UInt8.ofNat m := by
  have hne : c.cnt ≠ 0 := by
    rw [hcnt]
    intro h0
    have := congrArg UInt8.toNat h0
    rw [UInt8.toNat_ofNat', UInt8.toNat_zero] at this
    omega
  obtain ⟨c', hret, ha, hram, hy, hcnt'⟩ := rxByte_reads h hne
  obtain ⟨hram', hy', hcnt''⟩ := rxLoop_stores ha
  refine ⟨c', ?_, ha, ?_, ?_, ?_⟩
  · rw [receive, hret]
    rfl
  · rw [hram', hram, hy]
  · rw [hy', hy]
  · rw [hcnt'', hcnt', hcnt]
    apply UInt8.toNat_inj.mp
    rw [UInt8.toNat_sub, UInt8.toNat_ofNat', UInt8.toNat_ofNat', UInt8.toNat_one]
    omega

theorem update_then_write (m : Mem) (a : UInt16) (v : UInt8) {n : ℕ} (f : ℕ → UInt8) (hn : n < 65536) :
    Mem.write (Function.update m a v) (a + 1) n f =
      m.write a (1 + n) fun i => if i < 1 then v else f (i - 1) := by
  have hupdate : Function.update m a v = m.write a 1 fun _ => v := by
    funext x
    by_cases hx : x = a
    · rw [hx, Function.update_self, Mem.write_in (by rw [UInt16.sub_self]; decide)]
    · rw [Function.update_of_ne hx, Mem.write_out (Mem.toNat_sub_pos hx)]
  rw [hupdate]
  exact Mem.write_append m a 1 n (fun _ => v) f (by omega)

theorem write_cons (m : Mem) (a : UInt16) (v : UInt8) {n : ℕ} (l : List UInt8) (hn : n < 65536) :
    Mem.write (Function.update m a v) (a + 1) n (fun i => l.getD i 0) =
      m.write a (n + 1) fun i => (v :: l).getD i 0 := by
  rw [update_then_write m a v _ hn, Nat.add_comm]
  refine Mem.write_congr m a fun i _ => ?_
  cases i <;> rfl

/-- The bytes `v :: l`, from behind bit 0 of the first one on. -/
theorem receive_reads (htail : tail.tail.headD 0 &&& usbMask = 0) {fuel m : ℕ} {z : Bool} {v : UInt8}
    {l : List UInt8} (hm : m < 256) (hfuel : m < fuel) (hcnt : c.cnt = UInt8.ofNat m)
    (h : Pending tail 0 [bit v 0] ([bit v 1, bit v 2, bit v 3, bit v 4, bit v 5, bit v 6, bit v 7] ++
      UsbAsm.wire l) z c.x1 c.samples c.x3 c.shift) :
    ∃ c', receive fuel z c = .error (if l.length < m then .se0 else .overflow, c') ∧
      c'.ram = c.ram.write c.y (min (l.length + 1) m) (fun i => (v :: l).getD i 0) ∧
      (l.length < m → c'.cnt = UInt8.ofNat (m - (l.length + 1))) := by
  induction m generalizing fuel z v l c with
  | zero =>
    obtain ⟨fuel, rfl⟩ := Nat.exists_eq_add_of_lt hfuel
    obtain ⟨c', hret, hram, hy⟩ := rxByte_overflow h hcnt
    refine ⟨c', ?_, ?_, nofun⟩
    · rw [receive, hret]
      rfl
    · rw [Nat.min_zero, Mem.write_zero, hram]
  | succ m ih =>
    obtain ⟨fuel, rfl⟩ : ∃ f, fuel = f + 1 := ⟨fuel - 1, by omega⟩
    obtain ⟨c₁, hret, ha, hram, hy, hcnt'⟩ := receive_byte fuel hm hcnt h
    rw [hret]
    cases l with
    | nil =>
      obtain ⟨fuel, rfl⟩ : ∃ f, fuel = f + 1 := ⟨fuel - 1, by omega⟩
      obtain ⟨c', hse0, hquiet⟩ := rxbit1_se0 (c := c₁.rxLoop.2) (z := c₁.rxLoop.1)
        ((congrArg (· &&& usbMask) (rxLoop_sample ha)).trans htail)
      refine ⟨c', ?_, ?_, fun _ => ?_⟩
      · rw [receive, rxByte, hse0, List.length_nil, if_pos (Nat.succ_pos m)]
        rfl
      · have hone := write_cons c.ram c.y v [] (n := 0) (by decide)
        rw [Mem.write_zero] at hone
        rw [hquiet.ram, hram, hone, Nat.min_eq_left (by simp)]
        rfl
      · rw [hquiet.cnt, hcnt']
        rfl
    | cons w l =>
      have hnext : Pending tail 0 [bit w 0] ([bit w 1, bit w 2, bit w 3, bit w 4, bit w 5, bit w 6,
          bit w 7] ++ UsbAsm.wire l) c₁.rxLoop.1 c₁.rxLoop.2.x1 c₁.rxLoop.2.samples c₁.rxLoop.2.x3
          c₁.rxLoop.2.shift := rxLoop_reads ha
      obtain ⟨c', hrec, hram', hcnt''⟩ := ih (by omega) (by omega : m < fuel) hcnt' hnext
      refine ⟨c', ?_, ?_, fun hl => ?_⟩
      · rw [hrec]
        simp only [List.length_cons, Nat.add_lt_add_iff_right]
      · rw [hram', hram, hy, write_cons _ _ _ _ (by omega), List.length_cons, Nat.add_min_add_right]
      · rw [List.length_cons] at hl ⊢
        rw [hcnt'' (by omega)]
        congr 1
        omega

theorem haveTwoBitsK_reads {v : UInt8} (h : Ahead tail 0 [] (bit v 0 :: todo) 0x10 c.samples 0xff 0xff) :
    Pending tail 0 [bit v 0] todo false c.haveTwoBitsK.x1 c.haveTwoBitsK.samples c.haveTwoBitsK.x3
      c.haveTwoBitsK.shift := by
  obtain ⟨u, samples', hs, -, -⟩ := h.sampled
  rw [hs] at h
  have hl := loads_bld u 0xff (k := 0) (by decide)
  have hbit : bit (0x10 ^^^ u) usbMinus = bit u usbMinus := by
    rw [bit_xor]
    exact Bool.false_xor _
  rw [← hbit] at hl
  have hsix : ¬SixZeros 0 (bld u 0xff 0) := by
    intro hz
    have h7 := hz 1 (by decide)
    rw [bit_bld _ _ (by decide) (by decide), if_neg (by decide)] at h7
    exact absurd h7 (by decide)
  obtain ⟨x1, x2, x3, x4, shift, cnt, y, carry, ram, out, samples⟩ := c
  obtain rfl : samples = u :: samples' := hs
  exact h.take (by decide) hl ⟨nofun, fun hz => absurd hz hsix⟩

end Core

theorem levels_sync (l : List UInt8) :
    levels l = [false, true, false, true, false, true, false, false] ++ nrzi false (stuff 6 1 (UsbAsm.wire l)) := by
  unfold levels packet
  rfl

theorem pid_zero {pid : UInt8} (h : pid &&& 0x1f ≠ 0x1f) (l : List UInt8) :
    false ∈ (UsbAsm.wire (pid :: l)).take 5 := by
  unfold UsbAsm.wire
  rw [List.flatMap_cons, List.take_append_of_le_length (by rw [Crc.length_lsbFirst]; decide)]
  exact forall_byte (P := fun v => v &&& 0x1f ≠ 0x1f → false ∈ (Crc.lsbFirst v.toBitVec).take 5)
    (by decide +kernel) pid h

/-- The samples of a packet behind its sync pattern are ahead of the receiver. -/
theorem ahead_levels {pid : UInt8} {l ss : List UInt8} (hpid : pid &&& 0x1f ≠ 0x1f)
    (hss : List.Forall₂ On ss ((levels (pid :: l)).drop 8)) (hs : samples = ss ++ tail) :
    Ahead tail 0 [] (UsbAsm.wire (pid :: l)) 0x10 samples 0xff 0xff := by
  rw [levels_sync, List.drop_left' (by rfl), stuff_forget (j := 0) (pid_zero hpid l) (by decide)
    (by decide)] at hss
  exact ⟨0, false, ss, by decide, ⟨rfl, nofun, by decide, nofun, by decide⟩, by unfold On; decide, hs, hss⟩

theorem cnt_received : ∀ n < 11, 11 - UInt8.ofNat (11 - (n + 1)) = UInt8.ofNat (n + 1) := by decide

/-- What the transmitter puts on the lines comes out of the receiver, if the buffer holds it; of a
longer packet the receiver takes what fits. Of the samples only the lines matter, and where the
packet has ended only that the second one is of SE0. -/
theorem received_levels (c : Core) {pid a b : UInt8} {l ss tail : List UInt8} (hpid : pid &&& 0x1f ≠ 0x1f)
    (hss : List.Forall₂ On ss ((levels (pid :: l)).drop 8)) (hs : c.samples = ss ++ a :: b :: tail)
    (hse0 : b &&& usbMask = 0) :
    ∃ c', c.received = .error (if l.length < 11 then .se0 else .overflow, c') ∧
      c'.ram = c.ram.write c.y (min (l.length + 1) 11) (fun i => (pid :: l).getD i 0) ∧
      (l.length < 11 → 11 - c'.cnt = UInt8.ofNat (l.length + 1)) := by
  have htail : (a :: b :: tail).tail.headD 0 &&& usbMask = 0 := hse0
  obtain ⟨c', hret, hram, hcnt⟩ := Core.receive_reads htail (by decide) (by decide : 11 < 13) rfl
    (Core.haveTwoBitsK_reads (ahead_levels hpid hss hs))
  refine ⟨c', hret, hram, fun hl => ?_⟩
  rw [hcnt hl]
  exact cnt_received _ hl

theorem received_levels_data :
    ∃ c', ({ samples := ((levels [0x4b, 0xff, 0xff]).drop 8).map (port 3) ++ [3, 3] } : Core).received =
        .error (if [0xff, 0xff].length < 11 then .se0 else .overflow, c') ∧
      c'.ram = Mem.write (fun _ => 0) 0 (min ([0xff, 0xff].length + 1) 11)
        (fun i => [(0x4b : UInt8), 0xff, 0xff].getD i 0) ∧
      ([0xff, 0xff].length < 11 → 11 - c'.cnt = UInt8.ofNat ([0xff, 0xff].length + 1)) :=
  received_levels { samples := ((levels [0x4b, 0xff, 0xff]).drop 8).map (port 3) ++ [3, 3] } (by decide)
    (List.forall₂_map_left_iff.mpr (List.forall₂_same.mpr fun j _ => on_port 3 (by decide) j)) rfl
    (by decide)

end UsbLine

end Memtype
