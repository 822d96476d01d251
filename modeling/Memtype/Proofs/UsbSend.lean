import Memtype.Lib.Line
import Memtype.Spec.UsbLine
import Memtype.Proofs.UsbCrc

/-! The transmitter sends a packet in the line code of the bus. Its loop keeps the last bits in `x2`,
and counts them by taking 37 from `bitStatus`, which it never loads again: after each byte three of
what it began with are gone, enough for twelve bytes. -/

namespace Memtype

namespace UsbLine

open Lib

theorem forall_byte {P : UInt8 → Prop} (h : ∀ n : Fin 256, P (UInt8.ofNat n)) (v : UInt8) : P v := by
  have hv := h ⟨v.toNat, v.toNat_lt⟩
  rwa [UInt8.ofNat_toNat] at hv

theorem bit_shiftRightIn (v : UInt8) (b : Bool) {i : ℕ} (hi : i < 8) :
    bit (shiftRightIn v b) i = if i = 7 then b else bit v (i + 1) := getLsbD_shiftRightIn v b hi

theorem lt_fc_iff (v : UInt8) : v < 0xfc ↔ ¬∀ i < 6, bit v (7 - i) = true := by
  revert v
  exact forall_byte (by decide +kernel)

/-- The port with a level on the lines, J or K, and other bits beside them. -/
def port (rest : UInt8) (j : Bool) : UInt8 := rest ||| if j then 0x08 else 0x10

theorem port_bits (usbOut : UInt8) (h : bit usbOut usbPlus = false) :
    usbOut ||| usbIdle = port (usbOut &&& ~~~usbMask) true ∧
      ∀ j, port (usbOut &&& ~~~usbMask) j ^^^ usbMask = port (usbOut &&& ~~~usbMask) (!j) ∧
        port (usbOut &&& ~~~usbMask) j &&& ~~~usbMask = usbOut &&& ~~~usbMask := by
  revert usbOut
  exact forall_byte (by decide +kernel)

theorem port_off (v : UInt8) : (v &&& ~~~usbMask ||| usbIdle) &&& ~~~usbMask = v &&& ~~~usbMask := by
  revert v
  exact forall_byte (by decide +kernel)

/-- The last bits are at the top of `x2`: `n` ones behind a zero. -/
def History (x2 : UInt8) (n : ℕ) : Prop := (∀ i < n, bit x2 (7 - i) = true) ∧ bit x2 (7 - n) = false

theorem history_false (x2 : UInt8) : History (shiftRightIn x2 false) 0 :=
  ⟨nofun, bit_shiftRightIn x2 false (by decide)⟩

theorem history_true {x2 : UInt8} {n : ℕ} (h : History x2 n) (hn : n + 1 < 8) :
    History (shiftRightIn x2 true) (n + 1) := by
  constructor
  · intro i hi
    rw [bit_shiftRightIn x2 true (by omega)]
    split_ifs with h7
    · rfl
    · rw [show 7 - i + 1 = 7 - (i - 1) by omega]
      exact h.1 (i - 1) (by omega)
  · rw [bit_shiftRightIn x2 true (by omega), if_neg (by omega), show 7 - (n + 1) + 1 = 7 - n by omega]
    exact h.2

/-- Six ones are what the comparison finds. -/
theorem History.full {x2 : UInt8} {n : ℕ} (h : History x2 n) (hn : n ≤ 6) : x2 < 0xfc ↔ n ≠ 6 := by
  rw [lt_fc_iff]
  constructor
  · rintro hf rfl
    exact hf h.1
  · intro hne hall
    have := hall n (by omega)
    rw [h.2] at this
    exact absurd this nofun

namespace Core

/-- The bits `s` have been sent since `USBOUT` was read. -/
structure Sending (rest : UInt8) (out : List UInt8) (s : List Bool) (c : Core) : Prop where
  out_eq : c.out = out ++ (nrzi true (stuff 6 0 s)).map (port rest)
  x1_eq : c.x1 = port rest (lineLevel true (stuff 6 0 s))
  x4_eq : c.x4 = usbMask
  history : s = [] ∨ History c.x2 (ones 6 0 s)

variable {rest : UInt8} {out : List UInt8} {s : List Bool} {c : Core}

/-- The next bit goes out, without a bit that may have to be stuffed behind it. -/
def oneBit (c : Core) : Core := c.level.outX1.rorShift.rorX2.cpiX2

theorem oneBit_eq (c : Core) :
    c.oneBit.x1 = (if bit c.shift 0 then c.x1 else c.x1 ^^^ c.x4) ∧
      c.oneBit.x2 = shiftRightIn c.x2 (bit c.shift 0) ∧
      c.oneBit.shift = shiftRightIn c.shift c.carry ∧ c.oneBit.out = c.out ++ [c.oneBit.x1] ∧
      c.oneBit.carry = decide (c.oneBit.x2 < 0xfc) ∧ c.oneBit.x4 = c.x4 ∧ c.oneBit.x3 = c.x3 ∧
      c.oneBit.cnt = c.cnt ∧ c.oneBit.y = c.y ∧ c.oneBit.ram = c.ram := by
  unfold oneBit level
  split_ifs with h
  · exact ⟨rfl, rfl, rfl, rfl, rfl, rfl, rfl, rfl, rfl, rfl⟩
  · exact ⟨rfl, rfl, rfl, rfl, rfl, rfl, rfl, rfl, rfl, rfl⟩

theorem lineLevel_append (level : Bool) (l l' : List Bool) :
    lineLevel level (l ++ l') = lineLevel (lineLevel level l) l' := List.foldl_append

/-- What the first bit does, and what a stuffed one adds. -/
theorem Sending.next (hport : ∀ j, port rest j ^^^ usbMask = port rest (!j))
    (h : Sending rest out s c) (hs : s ≠ [] ∨ bit c.shift 0 = false) {c' : Core}
    (hx4 : c'.x4 = usbMask)
    (hnot : c.oneBit.carry = true →
      c'.out = c.oneBit.out ∧ c'.x1 = c.oneBit.x1 ∧ c'.x2 = c.oneBit.x2)
    (hstuff : c.oneBit.carry = false →
      c'.out = c.oneBit.out ++ [c.oneBit.x1 ^^^ usbMask] ∧ c'.x1 = c.oneBit.x1 ^^^ usbMask ∧ c'.x2 = 0) :
    Sending rest out (s ++ [bit c.shift 0]) c' := by
  obtain ⟨hx1, hx2, -, hout, hcarry, -⟩ := oneBit_eq c
  have hlevel : c.oneBit.x1 = port rest (lineLevel true (stuff 6 0 s) == bit c.shift 0) := by
    rw [hx1, h.x1_eq, h.x4_eq, hport]
    cases bit c.shift 0 <;> cases lineLevel true (stuff 6 0 s) <;> rfl
  have hlt : ones 6 0 s < 6 := ones_lt (by decide) s
  rw [hout, h.out_eq, hlevel] at hnot hstuff
  rw [hx2] at hcarry hnot
  have hstep (t : List Bool) (ht : stuff 6 (ones 6 0 s) [bit c.shift 0] = t) :
      stuff 6 0 (s ++ [bit c.shift 0]) = stuff 6 0 s ++ t := by rw [stuff_append, ht]
  cases hb : bit c.shift 0 with
  | false =>
    rw [hb] at hcarry hnot hstep
    have hhist := history_false c.x2
    have hfit : c.oneBit.carry = true := by
      rw [hcarry]
      exact decide_eq_true ((hhist.full (by decide)).mpr (by decide))
    obtain ⟨hout', hx1', hx2'⟩ := hnot hfit
    have hseq := hstep [false] rfl
    refine ⟨?_, ?_, hx4, .inr ?_⟩
    · rw [hout', hseq, nrzi_append, List.map_append, List.append_assoc]
      rfl
    · rw [hx1', hseq, lineLevel_append]
      rfl
    · rw [hx2', ones_append]
      exact hhist
  | true =>
    have hne : s ≠ [] := hs.resolve_right fun h' => absurd (hb.symm.trans h') nofun
    rw [hb] at hcarry hnot hstuff hstep
    have hhist := history_true (h.history.resolve_left hne) (by omega)
    have hiff := hhist.full (by omega)
    by_cases hsix : ones 6 0 s + 1 = 6
    · have hfull : c.oneBit.carry = false := by
        rw [hcarry]
        exact decide_eq_false fun hf => hiff.mp hf hsix
      obtain ⟨hout', hx1', hx2'⟩ := hstuff hfull
      have hseq := hstep [true, false] (if_pos hsix)
      refine ⟨?_, ?_, hx4, .inr ?_⟩
      · rw [hout', hseq, nrzi_append, List.map_append, hport, List.append_assoc, List.append_assoc]
        congr 2
        cases lineLevel true (stuff 6 0 s) <;> rfl
      · rw [hx1', hseq, lineLevel_append, hport]
        cases lineLevel true (stuff 6 0 s) <;> rfl
      · have hones : ones 6 (ones 6 0 s) [true] = 0 := if_pos hsix
        rw [hx2', ones_append, hones]
        exact ⟨nofun, rfl⟩
    · have hfit : c.oneBit.carry = true := by
        rw [hcarry]
        exact decide_eq_true (hiff.mpr hsix)
      obtain ⟨hout', hx1', hx2'⟩ := hnot hfit
      have hseq := hstep [true] (if_neg hsix)
      refine ⟨?_, ?_, hx4, .inr ?_⟩
      · rw [hout', hseq, nrzi_append, List.map_append, List.append_assoc]
        rfl
      · rw [hx1', hseq, lineLevel_append]
        rfl
      · have hones : ones 6 (ones 6 0 s) [true] = ones 6 0 s + 1 := if_neg hsix
        rw [hx2', ones_append, hones]
        exact hhist

theorem oneBit_fits (c : Core) (h : bit c.shift 0 = false) : c.oneBit.carry = true := by
  obtain ⟨-, hx2, -, -, hcarry, -⟩ := oneBit_eq c
  rw [hcarry, hx2, h]
  exact decide_eq_true (((history_false c.x2).full (by decide)).mpr (by decide))

structure Kept (c c' : Core) : Prop where
  cnt : c'.cnt = c.cnt
  y : c'.y = c.y
  ram : ∀ a, a ≠ 0 → c'.ram a = c.ram a

/-- A pass of `bitloop`. -/
theorem bitloop_sends (hport : ∀ j, port rest j ^^^ usbMask = port rest (!j))
    (h : Sending rest out s c) (hs : s ≠ [] ∨ bit c.shift 0 = false) (lpm : UInt8) :
    Sending rest out (s ++ [bit c.shift 0]) (c.bitloop lpm) ∧ Kept c (c.bitloop lpm) ∧
      (bit c.shift 0 = false → (c.bitloop lpm).ram = c.ram) ∧
      (c.bitloop lpm).shift = shiftRightIn c.shift c.carry ∧ (c.bitloop lpm).x3 = c.x3 - 37 ∧
      (c.bitloop lpm).carry = decide (c.x3 < 37) := by
  obtain ⟨-, -, hshift, -, -, hx4, hx3, hcnt, hy, hram⟩ := oneBit_eq c
  have hx4' : c.oneBit.x4 = usbMask := hx4.trans h.x4_eq
  have hpass : c.bitloop lpm =
      { (if c.oneBit.carry then c.oneBit else c.oneBit.bitstuffN lpm) with
        x3 := (if c.oneBit.carry then c.oneBit else c.oneBit.bitstuffN lpm).x3 - 37
        carry := decide ((if c.oneBit.carry then c.oneBit else c.oneBit.bitstuffN lpm).x3 < 37) } := rfl
  have hsame (f : Core → UInt8) (hf : f (c.oneBit.bitstuffN lpm) = f c.oneBit) :
      f (if c.oneBit.carry then c.oneBit else c.oneBit.bitstuffN lpm) = f c.oneBit := by
    split_ifs
    · rfl
    · exact hf
  have hx3' := (hsame Core.x3 rfl).trans hx3
  rw [hpass]
  refine ⟨h.next hport hs ?_ (fun hc => ?_) fun hc => ?_, ⟨?_, ?_, fun a ha => ?_⟩, fun hb => ?_, ?_, ?_, ?_⟩
  · exact (hsame Core.x4 rfl).trans hx4'
  · rw [if_pos hc]
    exact ⟨rfl, rfl, rfl⟩
  · rw [if_neg (Bool.eq_false_iff.mp hc), ← hx4']
    exact ⟨rfl, rfl, rfl⟩
  · exact (hsame Core.cnt rfl).trans hcnt
  · dsimp only
    split_ifs
    · exact hy
    · exact hy
  · dsimp only
    split_ifs
    · exact congrFun hram a
    · exact (Function.update_of_ne ha _ _).trans (congrFun hram a)
  · rw [if_pos (oneBit_fits c hb)]
    exact hram
  · exact (hsame Core.shift rfl).trans hshift
  · exact congrArg (· - 37) hx3'
  · exact congrArg (fun x => decide (x < 37)) hx3'

/-- The last bit of a byte, and the load of the next. -/
theorem lastBit_sends (hport : ∀ j, port rest j ^^^ usbMask = port rest (!j))
    (h : Sending rest out s c) (hs : s ≠ [] ∨ bit c.shift 0 = false) :
    Sending rest out (s ++ [bit c.shift 0]) c.lastBit ∧ c.lastBit.shift = c.ram c.y ∧
      c.lastBit.y = c.y + 1 ∧ c.lastBit.cnt = c.cnt - 1 ∧ c.lastBit.x3 = c.x3 ∧
      c.lastBit.ram = c.ram := by
  obtain ⟨-, -, -, -, -, hx4, hx3, hcnt, hy, hram⟩ := oneBit_eq c
  have hx4' : c.oneBit.x4 = usbMask := hx4.trans h.x4_eq
  have hlast : c.lastBit = { (if c.oneBit.carry then c.oneBit else c.oneBit.bitstuff7).ldShift with
      cnt := (if c.oneBit.carry then c.oneBit else c.oneBit.bitstuff7).cnt - 1 } := rfl
  rw [hlast]
  by_cases hc : c.oneBit.carry = true
  · rw [if_pos hc]
    refine ⟨h.next hport hs hx4' (fun _ => ⟨rfl, rfl, rfl⟩) fun hc' => absurd (hc.symm.trans hc') nofun,
      ?_, congrArg (· + 1) hy, congrArg (· - 1) hcnt, hx3, hram⟩
    exact (congrFun hram _).trans (congrArg c.ram hy)
  · rw [if_neg hc]
    refine ⟨h.next hport hs hx4' (fun hc' => absurd hc' hc) fun _ => ?_, ?_, congrArg (· + 1) hy,
      congrArg (· - 1) hcnt, hx3, hram⟩
    · rw [← hx4']
      exact ⟨rfl, rfl, (by decide : shiftRightIn 0 false = 0)⟩
    · exact (congrFun hram _).trans (congrArg c.ram hy)

/-- `bitStatus` in byte `k`, after `i` bits. -/
def status (k i : ℕ) : UInt8 := UInt8.ofNat (255 - 3 * k) - UInt8.ofNat (37 * i)

/-- Twelve bytes leave it large enough for seven bits each. -/
theorem status_next {k i : ℕ} (hk : k < 12) (hi : i < 7) : status k i - 37 = status k (i + 1) ∧
    (decide (status k i < 37) = decide (i = 6)) ∧ status k 7 = status (k + 1) 0 := by
  have h : ∀ k < 12, ∀ i < 7, status k i - 37 = status k (i + 1) ∧
      (decide (status k i < 37) = decide (i = 6)) ∧ status k 7 = status (k + 1) 0 := by decide
  exact h k hk i hi

structure InByte (rest : UInt8) (out : List UInt8) (s : List Bool) (v : UInt8) (k i : ℕ)
    (c₀ c : Core) : Prop where
  sending : Sending rest out (s ++ (Crc.lsbFirst v.toBitVec).take i) c
  shift : ∀ j, j + i < 8 → bit c.shift j = bit v (j + i)
  x3 : c.x3 = status k i
  kept : Kept c₀ c
  sync : (∀ j < i, bit v j = false) → c.ram = c₀.ram

theorem take_lsbFirst_succ (v : UInt8) {i : ℕ} (hi : i < 8) :
    (Crc.lsbFirst v.toBitVec).take (i + 1) = (Crc.lsbFirst v.toBitVec).take i ++ [bit v i] := by
  rw [List.take_add_one, List.getElem?_eq_getElem (by rwa [Crc.length_lsbFirst]), Crc.getElem_lsbFirst]
  rfl

/-- A byte, but for what is in memory at address 0 once a bit has been stuffed. -/
theorem byteloop_sends (hport : ∀ j, port rest j ^^^ usbMask = port rest (!j))
    (h : Sending rest out s c) (hs : s ≠ [] ∨ bit c.shift 0 = false) (lpm : UInt8) {k : ℕ} (hk : k < 12)
    (hx3 : c.x3 = status k 0) : ∃ c', byteloop lpm c = .ret c' ∧
      Sending rest out (s ++ Crc.lsbFirst c.shift.toBitVec) c' ∧ c'.x3 = status (k + 1) 0 ∧
      c'.cnt = c.cnt - 1 ∧ c'.y = c.y + 1 ∧ (∀ a, a ≠ 0 → c'.ram a = c.ram a) ∧
      (c.y ≠ 0 → c'.shift = c.ram c.y) ∧
      ((∀ j < 7, bit c.shift j = false) → c'.ram = c.ram ∧ c'.shift = c.ram c.y) := by
  have hpass (i : ℕ) (hi : i < 7) (c' : Core) (hin : InByte rest out s c.shift k i c c') :
      ∃ c'', (Outcome.ret (c'.bitloop lpm) : Outcome Core) = .ret c'' ∧
        InByte rest out s c.shift k (i + 1) c c'' ∧ (!c''.carry) = decide (i + 1 < 7) := by
    obtain ⟨hx3', hlast, -⟩ := status_next hk hi
    have hbit : bit c'.shift 0 = bit c.shift i := by
      rw [hin.shift 0 (by omega), Nat.zero_add]
    have hne : s ++ (Crc.lsbFirst c.shift.toBitVec).take i ≠ [] ∨ bit c'.shift 0 = false := by
      rcases Nat.eq_zero_or_pos i with rfl | hpos
      · rw [hbit]
        exact hs.imp_left fun h h' => h (List.append_eq_nil_iff.mp h').1
      · left
        intro h'
        have hlen := congrArg List.length (List.append_eq_nil_iff.mp h').2
        rw [List.length_take, Crc.length_lsbFirst, List.length_nil] at hlen
        omega
    obtain ⟨hsend, hkept, hsync, hshift, hstatus, hcarry⟩ := bitloop_sends hport hin.sending hne lpm
    refine ⟨_, rfl, ⟨?_, fun j hj => ?_, ?_, ?_, fun hz => ?_⟩, ?_⟩
    · rw [take_lsbFirst_succ _ (by omega), ← List.append_assoc, ← hbit]
      exact hsend
    · rw [hshift, bit_shiftRightIn _ _ (by omega), if_neg (by omega), hin.shift (j + 1) (by omega)]
      exact congrArg _ (by omega)
    · rw [hstatus, hin.x3, hx3']
    · exact ⟨hkept.cnt.trans hin.kept.cnt, hkept.y.trans hin.kept.y,
        fun a ha => (hkept.ram a ha).trans (hin.kept.ram a ha)⟩
    · rw [hsync (hbit.trans (hz i (Nat.lt_succ_self i)))]
      exact hin.sync fun j hj => hz j (by omega)
    · rw [hcarry, hin.x3, hlast, ← decide_not]
      exact decide_eq_decide.mpr (by omega)
  have hrun : ∃ c', doWhile (fun c => .ret (c.bitloop lpm)) (fun c => !c.carry) 256 c = .ret c' ∧
      InByte rest out s c.shift k 7 c c' :=
    doWhile_count (fun i c' => InByte rest out s c.shift k i c c') (by decide) (by decide) hpass
      ⟨by rwa [List.take_zero, List.append_nil], fun j _ => rfl, hx3, ⟨rfl, rfl, fun _ _ => rfl⟩,
        fun _ => rfl⟩
  obtain ⟨c', hloop, hin⟩ := hrun
  have hbit : bit c'.shift 0 = bit c.shift 7 := hin.shift 0 (by omega)
  have hne : s ++ (Crc.lsbFirst c.shift.toBitVec).take 7 ≠ [] ∨ bit c'.shift 0 = false := by
    left
    intro h'
    have hlen := congrArg List.length (List.append_eq_nil_iff.mp h').2
    rw [List.length_take, Crc.length_lsbFirst, List.length_nil] at hlen
    omega
  obtain ⟨hsend, hshift, hy, hcnt, hx3', hram⟩ := lastBit_sends hport hin.sending hne
  refine ⟨c'.lastBit, ?_, ?_, ?_, ?_, ?_, fun a ha => ?_, fun hy0 => ?_, fun hz => ?_⟩
  · unfold byteloop
    rw [hloop]
    rfl
  · rw [hbit, List.append_assoc, ← take_lsbFirst_succ _ (by decide),
      List.take_of_length_le (by rw [Crc.length_lsbFirst])] at hsend
    exact hsend
  · rw [hx3', hin.x3]
    exact (status_next hk (by decide : 0 < 7)).2.2
  · rw [hcnt, hin.kept.cnt]
  · rw [hy, hin.kept.y]
  · rw [hram]
    exact hin.kept.ram a ha
  · rw [hshift, hin.kept.y]
    exact hin.kept.ram c.y hy0
  · have hsame := hin.sync hz
    rw [hram, hshift, hin.kept.y, hsame]
    exact ⟨rfl, rfl⟩

end Core

def packet (l : List UInt8) : List UInt8 := 0x80 :: l

def levels (l : List UInt8) : List Bool := nrzi true (stuff 6 0 (UsbAsm.wire (packet l)))

namespace Core

/-- At the branch of `byteloop`, after `k` bytes. -/
structure InPacket (rest : UInt8) (c₀ : Core) (n k : ℕ) (c : Core) : Prop where
  sending : Sending rest c₀.out
    (UsbAsm.wire ((packet (UsbAsm.bytesAt c₀.ram c₀.y n)).take k)) c
  shift : k ≤ n → c.shift = (packet (UsbAsm.bytesAt c₀.ram c₀.y n)).getD k 0
  x3 : c.x3 = status k 0
  cnt : c.cnt = UInt8.ofNat (n + 1 - k)
  y : c.y = c₀.y + UInt16.ofNat k
  ram : ∀ a, a ≠ 0 → c.ram a = c₀.ram a
  sync : k = 0 → c.ram = c₀.ram

theorem getD_packet (m : Mem) (a : UInt16) {n k : ℕ} (hk : k < n) :
    (packet (UsbAsm.bytesAt m a n)).getD (k + 1) 0 = m (a + UInt16.ofNat k) := by
  unfold packet UsbAsm.bytesAt
  rw [List.getD_cons_succ, List.getD_eq_getElem _ _ (by simpa using hk), List.getElem_map,
    List.getElem_range]

theorem InPacket.byte (hport : ∀ j, port rest j ^^^ usbMask = port rest (!j)) {c₀ : Core} {n k : ℕ}
    (hn : n ≤ 11) (hzero : ∀ i, 0 < i → i < n → c₀.y + UInt16.ofNat i ≠ 0)
    (h : InPacket rest c₀ n k c) (hk : k < n + 1) (lpm : UInt8) :
    ∃ c', byteloop lpm c = .ret c' ∧ InPacket rest c₀ n (k + 1) c' ∧
      decide (c'.cnt ≠ 0) = decide (k + 1 < n + 1) := by
  have hlen : (packet (UsbAsm.bytesAt c₀.ram c₀.y n)).length = n + 1 := by
    simp [packet, UsbAsm.bytesAt]
  have hshift := h.shift (by omega)
  have hfirst : UsbAsm.wire ((packet (UsbAsm.bytesAt c₀.ram c₀.y n)).take k) ≠ [] ∨
      bit c.shift 0 = false := by
    rcases Nat.eq_zero_or_pos k with rfl | hpos
    · right
      rw [hshift]
      exact (by decide : bit 0x80 0 = false)
    · obtain ⟨j, rfl⟩ := Nat.exists_eq_add_of_le' hpos
      left
      unfold packet UsbAsm.wire
      rw [List.take_succ_cons, List.flatMap_cons]
      exact fun h' => absurd (congrArg List.length (List.append_eq_nil_iff.mp h').1)
        (by rw [Crc.length_lsbFirst]; decide)
  obtain ⟨c', hb, hsend, hx3, hcnt, hy, hram, hload, hsync⟩ :=
    byteloop_sends hport h.sending hfirst lpm (by omega) h.x3
  have hcnt' : c'.cnt = UInt8.ofNat (n + 1 - (k + 1)) := by
    rw [hcnt, h.cnt]
    apply UInt8.toNat_inj.mp
    rw [UInt8.toNat_sub, UInt8.toNat_ofNat', UInt8.toNat_ofNat', UInt8.toNat_one]
    omega
  refine ⟨c', hb, ⟨?_, fun hk' => ?_, hx3, hcnt', ?_, fun a ha => (hram a ha).trans (h.ram a ha), nofun⟩,
    decide_eq_decide.mpr ?_⟩
  · rw [List.take_add_one, List.getElem?_eq_getElem (hlen.symm ▸ hk), UsbAsm.wire_append]
    rw [hshift, List.getD_eq_getElem _ _ (hlen.symm ▸ hk)] at hsend
    exact hsend
  · -- the byte behind the sync byte may be the one at address 0
    rw [getD_packet _ _ (by omega)]
    rcases Nat.eq_zero_or_pos k with rfl | hpos
    · have hz : ∀ j < 7, bit c.shift j = false := by
        rw [hshift]
        exact (by decide : ∀ j < 7, bit 0x80 j = false)
      rw [(hsync hz).2, h.sync rfl, h.y]
    · have hne : c.y ≠ 0 := h.y ▸ hzero k hpos (by omega)
      rw [hload hne, h.ram _ hne, h.y]
  · rw [hy, h.y, UInt16.add_assoc]
    congr 1
    apply UInt16.toNat_inj.mp
    rw [UInt16.toNat_add, UInt16.toNat_ofNat', UInt16.toNat_ofNat', UInt16.toNat_one]
    omega
  · rw [hcnt', ← UInt8.toNat_inj.ne, UInt8.toNat_ofNat', UInt8.toNat_zero]
    omega

theorem release_out {c : Core} {usbOut : UInt8} (hplus : bit usbOut usbPlus = false) {j : Bool}
    (hx1 : c.x1 = port (usbOut &&& ~~~usbMask) j) :
    c.release.out = c.out ++ [usbOut &&& ~~~usbMask, usbOut &&& ~~~usbMask ||| usbIdle,
      usbOut &&& ~~~usbMask] := by
  have hrest := ((port_bits usbOut hplus).2 j).2
  unfold release outX1
  dsimp only
  rw [hx1, hrest, port_off, List.append_assoc, List.append_assoc]
  rfl

/-- `usbSendAndReti` with `n` bytes. -/
theorem sends (lpm : UInt8) {usbOut : UInt8} (hplus : bit usbOut usbPlus = false) (c : Core) {n : ℕ}
    (hn : n ≤ 11) (hcnt : c.cnt = UInt8.ofNat (n + 1))
    (hzero : ∀ i, 0 < i → i < n → c.y + UInt16.ofNat i ≠ 0) :
    ∃ c', c.usbSendAndReti lpm usbOut = .ret c' ∧
      c'.out = c.out ++ (levels (UsbAsm.bytesAt c.ram c.y n)).map (port (usbOut &&& ~~~usbMask)) ++
        [usbOut &&& ~~~usbMask, usbOut &&& ~~~usbMask ||| usbIdle, usbOut &&& ~~~usbMask] ∧
      c'.y = c.y + UInt16.ofNat (n + 1) ∧ ∀ a, a ≠ 0 → c'.ram a = c.ram a := by
  obtain ⟨hidle, htoggle⟩ := port_bits usbOut hplus
  have hstart : InPacket (usbOut &&& ~~~usbMask) c n 0 (c.acquire usbOut) := by
    refine ⟨⟨(List.append_nil _).symm, hidle, rfl, .inl rfl⟩, fun _ => rfl, rfl, hcnt, ?_, fun _ _ => rfl,
      fun _ => rfl⟩
    exact (UInt16.add_zero _).symm
  have hrun : ∃ c', doWhile (byteloop lpm) (fun c => decide (c.cnt ≠ 0)) 256 (c.acquire usbOut) =
      .ret c' ∧ InPacket (usbOut &&& ~~~usbMask) c n (n + 1) c' :=
    doWhile_count (fun k c' => InPacket (usbOut &&& ~~~usbMask) c n k c') (Nat.succ_pos n) (by omega)
      (fun k hk c' h => h.byte (fun j => (htoggle j).1) hn hzero hk lpm) hstart
  obtain ⟨c', hloop, h⟩ := hrun
  have hall : (packet (UsbAsm.bytesAt c.ram c.y n)).take (n + 1) =
      packet (UsbAsm.bytesAt c.ram c.y n) := by
    rw [List.take_of_length_le]
    simp [packet, UsbAsm.bytesAt]
  refine ⟨c'.release, ?_, ?_, h.y, h.ram⟩
  · unfold usbSendAndReti
    rw [hloop]
    rfl
  · rw [release_out hplus h.sending.x1_eq, h.sending.out_eq, hall]
    rfl

/-- A packet goes out, and the address is assigned. -/
theorem sends_packet (lpm : UInt8) {usbOut : UInt8} (hplus : bit usbOut usbPlus = false) (c : Core)
    {n : ℕ} (hn : n ≤ 11) (hcnt : c.cnt = UInt8.ofNat (n + 1)) (hlow : 2 < c.y.toNat)
    (hhigh : c.y.toNat + n + 1 < 65536) :
    ∃ c', c.usbSendAndReti lpm usbOut = .ret c' ∧ c'.assignsAddress = true ∧
      c'.out = c.out ++ (levels (UsbAsm.bytesAt c.ram c.y n)).map (port (usbOut &&& ~~~usbMask)) ++
        [usbOut &&& ~~~usbMask, usbOut &&& ~~~usbMask ||| usbIdle, usbOut &&& ~~~usbMask] := by
  obtain ⟨c', hret, hout, hy, -⟩ := sends lpm hplus c hn hcnt fun i hi hin h0 => by
    have := congrArg UInt16.toNat h0
    rw [UInt16.toNat_add, UInt16.toNat_ofNat', UInt16.toNat_zero] at this
    omega
  refine ⟨c', hret, decide_eq_true fun h0 => ?_, hout⟩
  rw [hy] at h0
  have := congrArg UInt16.toNat h0
  rw [UInt16.toNat_sub, UInt16.toNat_add, UInt16.toNat_ofNat', UInt16.toNat_zero,
    show (2 : UInt16).toNat = 2 from rfl] at this
  omega

/-- A handshake goes out of r0. -/
theorem sends_handshake (lpm : UInt8) {usbOut : UInt8} (hplus : bit usbOut usbPlus = false) (c : Core)
    (pid : UInt8) : ∃ c', c.sendCntAndReti lpm usbOut pid = .ret c' ∧ c'.assignsAddress = false ∧
      c'.out = c.out ++ (levels [pid]).map (port (usbOut &&& ~~~usbMask)) ++
        [usbOut &&& ~~~usbMask, usbOut &&& ~~~usbMask ||| usbIdle, usbOut &&& ~~~usbMask] := by
  obtain ⟨c', hret, hout, hy, -⟩ := sends lpm hplus
    { c with ram := Function.update c.ram 0 pid, y := 0, cnt := 2 } (n := 1) (by decide) rfl
    fun i hi hi' => absurd hi' (Nat.not_lt.mpr hi)
  refine ⟨c', hret, ?_, ?_⟩
  · unfold assignsAddress
    rw [hy]
    exact (by decide : decide ((0 : UInt16) + UInt16.ofNat (1 + 1) - 2 ≠ 0) = false)
  · have hbytes : UsbAsm.bytesAt (Function.update c.ram 0 pid) 0 1 = [pid] := by
      simp [UsbAsm.bytesAt]
    rw [hout]
    dsimp only
    rw [hbytes]

end Core

/-- The transmitter puts a packet of up to eleven bytes on the lines in the code of the bus, with the
sync byte before it and SE0 and the idle state behind it, and lets the address be assigned; and a
handshake likewise, without the address. The bits can be got back from the levels, which change at
least once in any eight. -/
theorem usbSendAndReti_line (lpm : UInt8) {usbOut : UInt8} (hplus : bit usbOut usbPlus = false)
    (c : Core) :
    (∀ n, n ≤ 11 → c.cnt = UInt8.ofNat (n + 1) → 2 < c.y.toNat → c.y.toNat + n + 1 < 65536 →
      ∃ c', c.usbSendAndReti lpm usbOut = .ret c' ∧ c'.assignsAddress = true ∧
        c'.out = c.out ++ (levels (UsbAsm.bytesAt c.ram c.y n)).map (port (usbOut &&& ~~~usbMask)) ++
          [usbOut &&& ~~~usbMask, usbOut &&& ~~~usbMask ||| usbIdle, usbOut &&& ~~~usbMask]) ∧
      (∀ pid, ∃ c', c.sendCntAndReti lpm usbOut pid = .ret c' ∧ c'.assignsAddress = false ∧
        c'.out = c.out ++ (levels [pid]).map (port (usbOut &&& ~~~usbMask)) ++
          [usbOut &&& ~~~usbMask, usbOut &&& ~~~usbMask ||| usbIdle, usbOut &&& ~~~usbMask]) ∧
      ∀ l j, unstuff 6 0 (unNrzi true (levels l)) = UsbAsm.wire (packet l) ∧
        ¬List.replicate 8 j <:+: levels l := by
  refine ⟨fun n hn hcnt hlow hhigh => ?_, fun pid => ?_, fun l j => ⟨?_, ?_⟩⟩
  · exact Core.sends_packet lpm hplus c hn hcnt hlow hhigh
  · exact Core.sends_handshake lpm hplus c pid
  · unfold levels
    rw [unNrzi_nrzi, unstuff_stuff (by decide)]
  · exact edge_stuffed (by decide) j true _

/-- Two bytes of ones at 100, with stuffed bits, and a NAK. -/
theorem usbSendAndReti_line_ones :
    (∃ c', ({ cnt := 3, y := 100, ram := fun _ => 0xFF } : Core).usbSendAndReti 0 3 = .ret c' ∧
        c'.assignsAddress = true ∧
        c'.out = (levels [0xFF, 0xFF]).map (port (3 &&& ~~~usbMask)) ++
          [3 &&& ~~~usbMask, 3 &&& ~~~usbMask ||| usbIdle, 3 &&& ~~~usbMask]) ∧
      ∃ c', ({} : Core).sendCntAndReti 0 3 0x5a = .ret c' ∧ c'.assignsAddress = false ∧
        c'.out = (levels [0x5a]).map (port (3 &&& ~~~usbMask)) ++
          [3 &&& ~~~usbMask, 3 &&& ~~~usbMask ||| usbIdle, 3 &&& ~~~usbMask] :=
  ⟨(usbSendAndReti_line 0 (by decide) { cnt := 3, y := 100, ram := fun _ => 0xFF }).1 2 (by decide) rfl
    (by decide) (by decide), (usbSendAndReti_line 0 (by decide) {}).2.1 0x5a⟩

end UsbLine

end Memtype
