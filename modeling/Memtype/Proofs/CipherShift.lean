import Memtype.Proofs.Cipher
import Memtype.Spec.NoekeonAsm

/-! The state in the buffer between two parts of a round, and the parts that shift its words. -/

namespace Memtype

open Lib Lib.Avr Noekeon Asm

def State.byte (s : State) (i : ℕ) : UInt8 := byteOf (State.word s (Fin.ofNat 4 (i / 4))) (i % 4)

/-- The 16 bytes of the state and the 16 bytes of the key. -/
structure Coded (f : ℕ → UInt8) (key s : State) : Prop where
  state : ∀ i < 16, f i = s.byte i
  key : ∀ i < 16, f (16 + i) = key.byte i

/-- What the shared registers hold from one part of a round to the next. -/
def Keep (r r' : Reg → UInt8) : Prop :=
  r' .roundConst = r .roundConst ∧ r' .roundCounter = r .roundCounter

theorem Keep.trans {r r1 r2 : Reg → UInt8} (h : Keep r r1) (h' : Keep r1 r2) : Keep r r2 :=
  ⟨h'.1.trans h.1, h'.2.trans h.2⟩

variable {w : Window 32} {m : Mem} {f : ℕ → UInt8} {k : ℕ} {r : Reg → UInt8} {cy ng : Bool}

def HoldsWord (r : Reg → UInt8) (x : Word) : Prop :=
  r .state0 = byteOf x 0 ∧ r .state1 = byteOf x 1 ∧ r .state2 = byteOf x 2 ∧ r .state3 = byteOf x 3

def putWord (f : ℕ → UInt8) (k : ℕ) (x : Word) : ℕ → UInt8 :=
  Function.update (Function.update (Function.update (Function.update f k (byteOf x 0))
    (k + 1) (byteOf x 1)) (k + 2) (byteOf x 2)) (k + 3) (byteOf x 3)

def wordRegs (r : Reg → UInt8) (f : ℕ → UInt8) (k : ℕ) : Reg → UInt8 :=
  Function.update (Function.update (Function.update (Function.update r .state0 (f k))
    .state1 (f (k + 1))) .state2 (f (k + 2))) .state3 (f (k + 3))

theorem ram2RegWord0_on (hk : k + 4 ≤ 32) : ram2RegWord0 (on w m f k r cy ng) =
    on w m f (k + 4) (wordRegs r f k) cy ng := by
  unfold ram2RegWord0 ram2RegWord0Half
  rw [ldInc_on w m f _ cy ng _ (by omega), ldInc_on w m f _ cy ng _ (by omega),
    ldInc_on w m f _ cy ng _ (by omega), ldInc_on w m f _ cy ng _ (by omega)]
  rfl

theorem reg2RamWord0_on {x : Word} (hx : HoldsWord r x) (hk : k + 4 ≤ 32) :
    reg2RamWord0 (on w m f k r cy ng) = on w m (putWord f k x) (k + 4) r cy ng := by
  obtain ⟨h0, h1, h2, h3⟩ := hx
  unfold reg2RamWord0 putWord
  rw [stInc_on w m _ r cy ng _ (by omega), stInc_on w m _ r cy ng _ (by omega),
    stInc_on w m _ r cy ng _ (by omega), stInc_on w m _ r cy ng _ (by omega), h0, h1, h2, h3]

/-- What a pass of a shift leaves: the word moved on by one bit, the count one lower. -/
structure Shifted (x : Word) (c c' : Core) : Prop where
  word : HoldsWord c'.reg x
  count : c'.reg .temp1 = c.reg .temp1 - 1
  negative : c'.negative = (c.reg .temp1 - 1).toBitVec.msb
  keep : Keep c.reg c'.reg
  x : c'.x = c.x
  ram : c'.ram = c.ram

theorem shiftLeftLoop_shifted {c : Core} {x : Word} (hx : HoldsWord c.reg x)
    (ht : (c.reg .temp2).toBitVec.msb = x.getLsbD 31) :
    Shifted (x.rotateLeft 1) c (noekeonShiftLeftLoop c) := by
  obtain ⟨h0, h1, h2, h3⟩ := hx
  refine ⟨⟨?_, ?_, ?_, ?_⟩, rfl, rfl, ⟨rfl, rfl⟩, rfl, rfl⟩
  · rw [byteOf_rotateLeft_one_zero, ← h0, ← ht]
    rfl
  · rw [byteOf_rotateLeft_one_succ x (by decide), ← h1, ← h0]
    rfl
  · rw [byteOf_rotateLeft_one_succ x (by decide), ← h2, ← h1]
    rfl
  · rw [byteOf_rotateLeft_one_succ x (by decide), ← h3, ← h2]
    rfl

theorem shiftRightLoop_shifted {c : Core} {x : Word} (hx : HoldsWord c.reg x)
    (ht : (c.reg .temp2).toBitVec.getLsbD 0 = x.getLsbD 0) :
    Shifted (x.rotateRight 1) c (noekeonShiftRightLoop c) := by
  obtain ⟨h0, h1, h2, h3⟩ := hx
  refine ⟨⟨?_, ?_, ?_, ?_⟩, rfl, rfl, ⟨rfl, rfl⟩, rfl, rfl⟩
  · rw [byteOf_rotateRight_one x (by decide), ← h0, ← h1]
    rfl
  · rw [byteOf_rotateRight_one x (by decide), ← h1, ← h2]
    rfl
  · rw [byteOf_rotateRight_one x (by decide), ← h2, ← h3]
    rfl
  · rw [byteOf_rotateRight_one_three, ← h3, ← ht]
    rfl

theorem count_sign : ∀ n < 16, ∀ i < n + 1,
    (!(UInt8.ofNat n - UInt8.ofNat (i + 1)).toBitVec.msb) = decide (i + 1 < n + 1) := by decide

/-- A shift loop runs one pass more than it is told to, as long as `temp_2` runs along with the
word. -/
theorem shift_loop (body : Core → Core) (rot : Word → Word) (along : ℕ → UInt8 → Word → Prop)
    (hbody : ∀ i < 8, ∀ c x, HoldsWord c.reg x → along (i + 1) (c.reg .temp2) x →
      Shifted (rot x) c (body c) ∧ along i ((body c).reg .temp2) (rot x))
    {n : ℕ} (hn : n < 8) {c : Core} {x : Word} (hc : c.reg .temp1 = UInt8.ofNat n)
    (hx : HoldsWord c.reg x) (ht : along 8 (c.reg .temp2) x) :
    ∃ c', doWhile (fun c => .ret (body c)) (fun c => !c.negative) 256 c = .ret c' ∧
      HoldsWord c'.reg (rot^[n + 1] x) ∧ Keep c.reg c'.reg ∧ c'.x = c.x ∧ c'.ram = c.ram := by
  let inv (i : ℕ) (c' : Core) : Prop := HoldsWord c'.reg (rot^[i] x) ∧
    along (8 - i) (c'.reg .temp2) (rot^[i] x) ∧ c'.reg .temp1 = UInt8.ofNat n - UInt8.ofNat i ∧
    Keep c.reg c'.reg ∧ c'.x = c.x ∧ c'.ram = c.ram
  have hstep (i : ℕ) (hi : i < n + 1) (c' : Core) (hc' : inv i c') :
      ∃ s', Outcome.ret (body c') = .ret s' ∧ inv (i + 1) s' ∧
        (!s'.negative) = decide (i + 1 < n + 1) := by
    obtain ⟨hw, ha, hc', hk, hX, hm⟩ := hc'
    rw [show 8 - i = 8 - (i + 1) + 1 by omega] at ha
    obtain ⟨hs, ha'⟩ := hbody _ (by omega) c' _ hw ha
    have hcount : c'.reg .temp1 - 1 = UInt8.ofNat n - UInt8.ofNat (i + 1) := by
      rw [hc', UInt8.ofNat_add]
      exact sub_sub _ _ _
    refine ⟨body c', rfl, ⟨?_, ?_, hs.count.trans hcount, hk.trans hs.keep, hs.x.trans hX,
      hs.ram.trans hm⟩, ?_⟩
    · rw [Function.iterate_succ_apply']
      exact hs.word
    · rw [Function.iterate_succ_apply']
      exact ha'
    · rw [hs.negative, hcount]
      exact count_sign n (by omega) i hi
  have h0 : inv 0 c := ⟨hx, ht, hc.trans (UInt8.sub_zero _).symm, ⟨rfl, rfl⟩, rfl, rfl⟩
  obtain ⟨c', hr, hw, -, -, hk, hX, hm⟩ :=
    doWhile_count inv (Nat.succ_pos n) (show n + 1 ≤ 256 by omega) hstep h0
  exact ⟨c', hr, hw, hk, hX, hm⟩

def TopBits (i : ℕ) (t : UInt8) (x : Word) : Prop :=
  ∀ b < i, t.toBitVec.getLsbD (7 - b) = x.getLsbD (31 - b)

def LowBits (i : ℕ) (t : UInt8) (x : Word) : Prop :=
  ∀ b < i, t.toBitVec.getLsbD b = x.getLsbD b

theorem topBits_shift {i : ℕ} {t : UInt8} {x : Word} (hi : i < 8) (h : TopBits (i + 1) t x) :
    TopBits i (shiftLeftIn t false) (x.rotateLeft 1) := by
  intro b hb
  rw [getLsbD_shiftLeftIn _ _ (by omega), getLsbD_rotateLeft_one x (by omega), if_neg (by omega),
    if_neg (by omega)]
  exact h (b + 1) (by omega)

theorem lowBits_shift {i : ℕ} {t : UInt8} {x : Word} (hi : i < 8) (h : LowBits (i + 1) t x) :
    LowBits i (shiftRightIn t false) (x.rotateRight 1) := by
  intro b hb
  rw [getLsbD_shiftRightIn _ _ (by omega), getLsbD_rotateRight_one x (by omega),
    if_neg (by omega), if_neg (by omega)]
  exact h (b + 1) (by omega)

/-- The word is put back where it was taken from. -/
theorem shiftEnd_on {c : Core} {x : Word} (hX : c.x = w.addr (k + 4))
    (hm : c.ram = m.write w.start 32 f) (hx : HoldsWord c.reg x) (hk : k + 4 ≤ 32) :
    noekeonShiftRightLeftEnd c = on w m (putWord f k x) (k + 4) c.reg c.carry c.negative := by
  rw [eq_on w m f hX hm]
  unfold noekeonShiftRightLeftEnd
  rw [subiXl_on w m f _ _ _ 4 (by omega) (Nat.le_add_left 4 k)]
  exact reg2RamWord0_on hx hk

/-- A word as a shift takes it from RAM, with its copied end byte. -/
theorem holdsWord_wordRegs {x : Word} (hx : ∀ j < 4, f (k + j) = byteOf x j) (v : UInt8) :
    HoldsWord (Function.update (wordRegs r f k) .temp2 v) x :=
  ⟨hx 0 (by decide), hx 1 (by decide), hx 2 (by decide), hx 3 (by decide)⟩

theorem noekeonShiftLeft_on (r : Reg → UInt8) (cy ng : Bool) {x : Word} {n : ℕ} (hn : n < 8)
    (hk : k + 4 ≤ 32)
    (hr : r .temp1 = UInt8.ofNat n) (hx : ∀ j < 4, f (k + j) = byteOf x j) :
    ∃ r' cy' ng', noekeonShiftLeft (on w m f k r cy ng) =
      .ret (on w m (putWord f k (x.rotateLeft (n + 1))) (k + 4) r' cy' ng') ∧ Keep r r' := by
  unfold noekeonShiftLeft
  rw [ram2RegWord0_on hk]
  have ht : TopBits 8 (f (k + 3)) x := by
    intro b hb
    rw [hx 3 (by decide), byteOf_getLsbD _ _ (by omega)]
    exact congrArg x.getLsbD (by omega)
  have hstep (i : ℕ) (hi : i < 8) (c : Core) (x : Word) (hw : HoldsWord c.reg x)
      (ht : TopBits (i + 1) (c.reg .temp2) x) : Shifted (x.rotateLeft 1) c (noekeonShiftLeftLoop c) ∧
        TopBits i ((noekeonShiftLeftLoop c).reg .temp2) (x.rotateLeft 1) := by
    refine ⟨shiftLeftLoop_shifted hw ?_, topBits_shift hi ht⟩
    rw [BitVec.msb_eq_getLsbD_last]
    exact ht 0 (Nat.succ_pos i)
  obtain ⟨c', hl, hw', hkeep, hX, hm⟩ := shift_loop noekeonShiftLeftLoop
    (fun x => x.rotateLeft 1) TopBits hstep hn
    (c := (on w m f (k + 4) (wordRegs r f k) cy ng).mov .temp2 .state3) hr
    (holdsWord_wordRegs hx (f (k + 3))) ht
  rw [rotateLeft_iterate] at hw'
  rw [hl, Outcome.bind_ret, shiftEnd_on hX hm hw' hk]
  exact ⟨_, _, _, rfl, hkeep⟩

theorem noekeonShiftRight_on (r : Reg → UInt8) (cy ng : Bool) {x : Word} {n : ℕ} (hn : n < 8)
    (hk : k + 4 ≤ 32)
    (hr : r .temp1 = UInt8.ofNat n) (hx : ∀ j < 4, f (k + j) = byteOf x j) :
    ∃ r' cy' ng', noekeonShiftRight (on w m f k r cy ng) =
      .ret (on w m (putWord f k (x.rotateRight (n + 1))) (k + 4) r' cy' ng') ∧ Keep r r' := by
  unfold noekeonShiftRight
  rw [ram2RegWord0_on hk]
  have ht : LowBits 8 (f k) x := by
    intro b hb
    have h0 := hx 0 (by decide)
    rw [Nat.add_zero] at h0
    rw [h0, byteOf_getLsbD _ _ hb, Nat.mul_zero, Nat.zero_add]
  have hstep (i : ℕ) (hi : i < 8) (c : Core) (x : Word) (hw : HoldsWord c.reg x)
      (ht : LowBits (i + 1) (c.reg .temp2) x) :
      Shifted (x.rotateRight 1) c (noekeonShiftRightLoop c) ∧
        LowBits i ((noekeonShiftRightLoop c).reg .temp2) (x.rotateRight 1) :=
    ⟨shiftRightLoop_shifted hw (ht 0 (Nat.succ_pos i)), lowBits_shift hi ht⟩
  obtain ⟨c', hl, hw', hkeep, hX, hm⟩ := shift_loop noekeonShiftRightLoop
    (fun x => x.rotateRight 1) LowBits hstep hn
    (c := (on w m f (k + 4) (wordRegs r f k) cy ng).mov .temp2 .state0) hr
    (holdsWord_wordRegs hx (f k)) ht
  rw [rotateRight_iterate] at hw'
  rw [hl, Outcome.bind_ret, shiftEnd_on hX hm hw' hk]
  exact ⟨_, _, _, rfl, hkeep⟩

theorem putWord_apply (f : ℕ → UInt8) (k : ℕ) (x : Word) (i : ℕ) :
    putWord f k x i = if k ≤ i ∧ i < k + 4 then byteOf x (i - k) else f i := by
  unfold putWord
  split_ifs with h
  · obtain ⟨j, rfl⟩ := Nat.exists_eq_add_of_le h.1
    have hj : j < 4 := by omega
    interval_cases j <;> simp
  · rw [Function.update_of_ne (by omega), Function.update_of_ne (by omega),
      Function.update_of_ne (by omega), Function.update_of_ne (by omega)]

def State.setWord (s : State) (i : Fin 4) (x : Word) : State :=
  match i with
  | 0 => { s with w0 := x }
  | 1 => { s with w1 := x }
  | 2 => { s with w2 := x }
  | 3 => { s with w3 := x }

theorem Coded.setWord {key s : State} (h : Coded f key s) (i : Fin 4) (x : Word) :
    Coded (putWord f (4 * i) x) key (s.setWord i x) := by
  have hi := i.isLt
  refine ⟨fun j hj => ?_, fun j hj => ?_⟩
  · rw [putWord_apply, h.state j hj]
    fin_cases i <;> interval_cases j <;> rfl
  · rw [putWord_apply, if_neg (by omega), h.key j hj]

theorem Coded.word {key s : State} (h : Coded f key s) (i : Fin 4) :
    ∀ j < 4, f (4 * i + j) = byteOf (State.word s i) j := by
  intro j hj
  have hi := i.isLt
  rw [h.state _ (by omega), State.byte, Nat.mul_add_mod, Nat.mod_eq_of_lt hj,
    show (4 * i.val + j) / 4 = i.val by omega, Fin.ofNat_val_eq_self]

/-- Between two parts of a round: X at byte `k`, the state, the key, the constant and the
counter. -/
def HoldsAt (w : Window 32) (m : Mem) (key : State) (rc ct : UInt8) (k : ℕ) (s : State)
    (c : Core) : Prop :=
  ∃ f r cy ng, c = on w m f k r cy ng ∧ Coded f key s ∧ r .roundConst = rc ∧ r .roundCounter = ct

/-- The same with X anywhere in the buffer. -/
def Holds (w : Window 32) (m : Mem) (key : State) (rc ct : UInt8) (s : State) (c : Core) : Prop :=
  ∃ k ≤ 32, HoldsAt w m key rc ct k s c

variable {key s : State} {rc ct : UInt8} {c : Core}

theorem HoldsAt.holds (h : HoldsAt w m key rc ct k s c) (hk : k ≤ 32) : Holds w m key rc ct s c :=
  ⟨k, hk, h⟩

theorem holdsAt_ldiXl (h : Holds w m key rc ct s c) (k : ℕ) (hk : k ≤ 32) :
    HoldsAt w m key rc ct k s (c.ldiXl (lo8 (w.addr k))) := by
  obtain ⟨j, hj, f, r, cy, ng, rfl, hf, hrc, hct⟩ := h
  exact ⟨f, r, cy, ng, ldiXl_on w m f r cy ng hj hk, hf, hrc, hct⟩

theorem holdsAt_shiftLeft (i : Fin 4) (n : ℕ) (hn : n < 8)
    (h : HoldsAt w m key rc ct (4 * i) s c) :
    ∃ c', noekeonShiftLeft (c.ldi .temp1 (UInt8.ofNat n)) = .ret c' ∧
      HoldsAt w m key rc ct (4 * (i + 1)) (s.setWord i ((State.word s i).rotateLeft (n + 1))) c' := by
  obtain ⟨f, r, cy, ng, rfl, hf, hrc, hct⟩ := h
  have hi := i.isLt
  obtain ⟨r', cy', ng', hr, hk⟩ := noekeonShiftLeft_on (w := w) (m := m)
    (Function.update r .temp1 (UInt8.ofNat n)) cy ng hn (by omega) rfl (hf.word i)
  exact ⟨_, hr, _, r', cy', ng', rfl, hf.setWord i _, hk.1.trans hrc, hk.2.trans hct⟩

theorem holdsAt_shiftRight (i : Fin 4) (n : ℕ) (hn : n < 8)
    (h : HoldsAt w m key rc ct (4 * i) s c) :
    ∃ c', noekeonShiftRight (c.ldi .temp1 (UInt8.ofNat n)) = .ret c' ∧
      HoldsAt w m key rc ct (4 * (i + 1)) (s.setWord i ((State.word s i).rotateRight (n + 1))) c' := by
  obtain ⟨f, r, cy, ng, rfl, hf, hrc, hct⟩ := h
  have hi := i.isLt
  obtain ⟨r', cy', ng', hr, hk⟩ := noekeonShiftRight_on (w := w) (m := m)
    (Function.update r .temp1 (UInt8.ofNat n)) cy ng hn (by omega) rfl (hf.word i)
  exact ⟨_, hr, _, r', cy', ng', rfl, hf.setWord i _, hk.1.trans hrc, hk.2.trans hct⟩

theorem holds_shiftPi1 (h : Holds w m key rc ct s c) :
    ∃ c', noekeonShiftPi1 w.start c = .ret c' ∧ Holds w m key rc ct (shiftPi1 s) c' := by
  obtain ⟨c1, hr1, h1⟩ := holdsAt_shiftLeft 1 0 (by decide) (holdsAt_ldiXl h 4 (by decide))
  obtain ⟨c2, hr2, h2⟩ := holdsAt_shiftLeft 2 4 (by decide) h1
  obtain ⟨c3, hr3, h3⟩ := holdsAt_shiftLeft 3 1 (by decide) h2
  refine ⟨c3, ?_, h3.holds (by decide)⟩
  unfold noekeonShiftPi1
  rw [show w.start + 0x04 = w.addr 4 from rfl, show (0 : UInt8) = UInt8.ofNat 0 from rfl, hr1,
    Outcome.bind_ret, show (0x04 : UInt8) = UInt8.ofNat 4 from rfl, hr2, Outcome.bind_ret]
  exact hr3

theorem holds_shiftPi2 (h : Holds w m key rc ct s c) :
    ∃ c', noekeonShiftPi2 w.start c = .ret c' ∧ Holds w m key rc ct (shiftPi2 s) c' := by
  obtain ⟨c1, hr1, h1⟩ := holdsAt_shiftRight 1 0 (by decide) (holdsAt_ldiXl h 4 (by decide))
  obtain ⟨c2, hr2, h2⟩ := holdsAt_shiftRight 2 4 (by decide) h1
  obtain ⟨c3, hr3, h3⟩ := holdsAt_shiftRight 3 1 (by decide) h2
  refine ⟨c3, ?_, h3.holds (by decide)⟩
  unfold noekeonShiftPi2
  rw [show w.start + 0x04 = w.addr 4 from rfl, show (0 : UInt8) = UInt8.ofNat 0 from rfl, hr1,
    Outcome.bind_ret, show (0x04 : UInt8) = UInt8.ofNat 4 from rfl, hr2, Outcome.bind_ret]
  exact hr3

theorem byte_roundConstAdd (rc : UInt8) (s : State) (i : ℕ) (hi : i < 16) :
    (roundConstAdd rc s).byte i = if i = 0 then s.byte 0 ^^^ rc else s.byte i := by
  have h (j : ℕ) : byteOf (roundConstAdd rc s).w0 j = byteOf s.w0 j ^^^ if j = 0 then rc else 0 := by
    rw [← byteOf_setWidth, ← byteOf_xor]
    rfl
  interval_cases i
  · exact h 0
  · exact (h 1).trans (UInt8.xor_zero)
  · exact (h 2).trans (UInt8.xor_zero)
  · exact (h 3).trans (UInt8.xor_zero)
  all_goals rfl

theorem holds_roundConstAdd (h : Holds w m key rc ct s c) :
    Holds w m key rc ct (roundConstAdd rc s) (noekeonRoundConstAdd w.start c) := by
  obtain ⟨f, r, cy, ng, he, hf, hrc, hct⟩ := holdsAt_ldiXl h 0 (by decide)
  refine ⟨0, by decide, Function.update f 0 (f 0 ^^^ rc),
    Function.update (Function.update r .state0 (f 0)) .state0 (f 0 ^^^ rc), cy, ng, ?_, ?_, hrc, hct⟩
  · have hlo : lo8 w.start = lo8 (w.addr 0) := congrArg lo8 (UInt16.add_zero w.start).symm
    unfold noekeonRoundConstAdd
    rw [hlo, he, ld_on w m f r cy ng _ (by decide), ← hrc]
    exact st_on w m f _ cy ng _ (by decide)
  · refine ⟨fun i hi => ?_, fun i hi => ?_⟩
    · rw [byte_roundConstAdd rc s i hi, Function.update_apply, ← hf.state i hi, ← hf.state 0 (by decide)]
    · rw [Function.update_of_ne (by omega), hf.key i hi]

end Memtype
