import Memtype.Proofs.CipherShift

/-! The three parts of theta. -/

namespace Memtype

open Lib Lib.Avr Noekeon Asm

variable {w : Window 32} {m : Mem} {f : ℕ → UInt8} {k : ℕ} {r : Reg → UInt8} {cy ng : Bool}

variable {key s : State} {rc ct : UInt8} {c : Core}

/-- `noekeon_theta_apply_xor` with its pointers at `i` and `j`. -/
theorem noekeonThetaApplyXor_on (r : Reg → UInt8) (cy ng : Bool) {i j : ℕ}
    (hi : r .state1 = lo8 (w.addr i)) (hj : r .state0 = lo8 (w.addr j)) (hk : k ≤ 32)
    (hi' : i + 9 ≤ 32) (hj' : j + 9 ≤ 32) {v : UInt8} (hv : v = f i ^^^ r .temp1 ^^^ f (i + 8)) :
    ∃ r', noekeonThetaApplyXor (on w m f k r cy ng) =
        on w m (Function.update (Function.update f j (f j ^^^ v)) (j + 8) (f (j + 8) ^^^ v)) (i + 1)
          r' cy ng ∧
      r' .state1 = lo8 (w.addr (i + 1)) ∧ r' .state0 = lo8 (w.addr (j + 1)) ∧
      r' .temp1 = r .temp1 ∧ Keep r r' := by
  unfold noekeonThetaApplyXor
  have h7 : (7 : UInt8).toNat ≤ j + 8 := Nat.le_add_left_of_le (by decide)
  simp (disch := first | omega | decide | assumption) only [movToXl_on, hi, ldiXl_on, inc_on,
    ldInc_on, adiwX_on, eor_on, ld_on, st_on, subiXl_on, movOfXl_on, Function.update_self,
    Function.update_of_ne, hj, UInt16.reduceToNat, UInt8.reduceToNat, w.lo8_addr_inc,
    Nat.add_assoc, Nat.reduceAdd]
  rw [← hv, show j + 8 - 7 = j + 1 by omega]
  exact ⟨_, rfl, rfl, rfl, rfl, rfl, rfl⟩

theorem noekeonThetaApplyXorAndShiftLoad_on (r : Reg → UInt8) (cy ng : Bool) (hk : k + 4 ≤ 32) :
    ∃ r', noekeonThetaApplyXorAndShiftLoad (on w m f k r cy ng) = on w m f (k + 4) r' cy ng ∧
      r' .temp1 = r .temp1 ^^^ f k ^^^ f (k + 1) ^^^ f (k + 2) ^^^ f (k + 3) ∧
      r' .state0 = r .state0 ∧ Keep r r' := by
  unfold noekeonThetaApplyXorAndShiftLoad ram2RegWord0Half
  simp (disch := omega) only [ldInc_on, eor_on, Nat.add_assoc, Nat.reduceAdd]
  exact ⟨_, rfl, rfl, rfl, rfl, rfl⟩

/-- The word that theta adds to two words, from the other two. -/
def thetaWord (x y : Word) : Word :=
  let t := x ^^^ y
  t ^^^ t.rotateRight 8 ^^^ t.rotateLeft 8

theorem xor_opposite (a b c d e f g h : UInt8) : (a ^^^ e) ^^^ (b ^^^ f) ^^^ (d ^^^ h) =
    c ^^^ (a ^^^ b ^^^ c ^^^ d ^^^ e ^^^ f ^^^ g ^^^ h) ^^^ g := by
  have hx (x y : UInt8) : x ^^^ (x ^^^ y) = y := by
    rw [← UInt8.xor_assoc, UInt8.xor_self, UInt8.zero_xor]
  have h1 : c ^^^ (a ^^^ b ^^^ c ^^^ d ^^^ e ^^^ f ^^^ g ^^^ h) ^^^ g =
      c ^^^ (c ^^^ (g ^^^ (g ^^^ ((a ^^^ e) ^^^ (b ^^^ f) ^^^ (d ^^^ h))))) := by ac_rfl
  rw [h1, hx, hx]

/-- All eight bytes, and the two that are opposite once more. -/
theorem byteOf_thetaWord (x y : Word) {n : ℕ} (hn : n < 4) :
    byteOf (thetaWord x y) n = byteOf x ((n + 2) % 4) ^^^ (0 ^^^ byteOf x 0 ^^^ byteOf x 1 ^^^
      byteOf x 2 ^^^ byteOf x 3 ^^^ byteOf y 0 ^^^ byteOf y 1 ^^^ byteOf y 2 ^^^ byteOf y 3) ^^^
        byteOf y ((n + 2) % 4) := by
  unfold thetaWord
  rw [byteOf_xor, byteOf_xor, byteOf_rotateRight_eight _ hn, byteOf_rotateLeft_eight _ hn]
  simp only [byteOf_xor, UInt8.zero_xor]
  interval_cases n <;> simp only [Nat.reduceAdd, Nat.reduceMod]
  · exact xor_opposite ..
  · exact (xor_opposite (byteOf x 1) (byteOf x 2) (byteOf x 3) (byteOf x 0) (byteOf y 1)
      (byteOf y 2) (byteOf y 3) (byteOf y 0)).trans (by ac_rfl)
  · exact (xor_opposite (byteOf x 2) (byteOf x 3) (byteOf x 0) (byteOf x 1) (byteOf y 2)
      (byteOf y 3) (byteOf y 0) (byteOf y 1)).trans (by ac_rfl)
  · exact (xor_opposite (byteOf x 3) (byteOf x 0) (byteOf x 1) (byteOf x 2) (byteOf y 3)
      (byteOf y 0) (byteOf y 1) (byteOf y 2)).trans (by ac_rfl)

/-- The contents after the first `n` bytes of a word are added to those at `q` and `q + 8`. -/
def xorFirst (f : ℕ → UInt8) (q : ℕ) (t : Word) (n i : ℕ) : UInt8 :=
  if i < 16 ∧ i / 4 % 2 = q / 4 ∧ i % 4 < n then f i ^^^ byteOf t (i % 4) else f i

theorem xorFirst_succ (f : ℕ → UInt8) {q : ℕ} (hq : q = 0 ∨ q = 4) (t : Word) {n : ℕ} (hn : n < 4) :
    Function.update (Function.update (xorFirst f q t n) (q + n) (xorFirst f q t n (q + n) ^^^ byteOf t n))
      (q + n + 8) (xorFirst f q t n (q + n + 8) ^^^ byteOf t n) = xorFirst f q t (n + 1) := by
  have hold (i : ℕ) (hi : i % 4 = n) : xorFirst f q t n i = f i := if_neg (by omega)
  have hnew (i : ℕ) (hi : i < 16) (hi' : i / 4 % 2 = q / 4) (h : i % 4 = n) :
      xorFirst f q t (n + 1) i = f i ^^^ byteOf t n := by
    unfold xorFirst
    rw [if_pos ⟨hi, hi', by omega⟩, h]
  rw [hold _ (by omega), hold _ (by omega)]
  funext i
  rw [Function.update_apply, Function.update_apply]
  split_ifs with h1 h2
  · rw [h1, hnew _ (by omega) (by omega) (by omega)]
  · rw [h2, hnew _ (by omega) (by omega) (by omega)]
  · unfold xorFirst
    exact if_congr (by omega) rfl rfl

/-- Before pass `n` of the four: the pointers, the contents and the sum of all bytes. -/
def ThetaPass (w : Window 32) (m : Mem) (f : ℕ → UInt8) (r0 : Reg → UInt8) (q : ℕ) (t : Word)
    (sum : UInt8) (i n : ℕ) (c : Core) : Prop :=
  ∃ k r cy ng, c = on w m (xorFirst f q t n) k r cy ng ∧ k ≤ 32 ∧ r .state1 = lo8 (w.addr i) ∧
    r .state0 = lo8 (w.addr (q + n)) ∧ r .temp1 = sum ∧ Keep r0 r

theorem thetaPass_succ {r0 : Reg → UInt8} {p q : ℕ} (hpq : p = 0 ∧ q = 4 ∨ p = 4 ∧ q = 0) {t : Word}
    {sum : UInt8} {n : ℕ} (hn : n < 4)
    (ht : byteOf t n = f (p + (n + 2) % 4) ^^^ sum ^^^ f (p + (n + 2) % 4 + 8))
    (h : ThetaPass w m f r0 q t sum (p + (n + 2) % 4) n c) :
    ThetaPass w m f r0 q t sum (p + (n + 2) % 4 + 1) (n + 1) (noekeonThetaApplyXor c) := by
  obtain ⟨k, r, cy, ng, rfl, hk, h1, h0, hs, hkeep⟩ := h
  have hsame (i : ℕ) (hi : i / 4 % 2 = p / 4) : xorFirst f q t n i = f i := if_neg (by omega)
  have hv : byteOf t n = xorFirst f q t n (p + (n + 2) % 4) ^^^ r .temp1 ^^^
      xorFirst f q t n (p + (n + 2) % 4 + 8) := by
    rw [hsame _ (by omega), hsame _ (by omega), hs, ht]
  obtain ⟨r', hr, h1', h0', hs', hk'⟩ := noekeonThetaApplyXor_on (w := w) (m := m) r cy ng h1 h0 hk
    (by omega) (by omega) hv
  rw [hr, xorFirst_succ f (by omega) t hn]
  exact ⟨p + (n + 2) % 4 + 1, r', cy, ng, rfl, by omega, h1', h0', hs'.trans hs, hkeep.trans hk'⟩

/-- Back to the first two bytes of the words read. -/
theorem thetaPass_back {r0 : Reg → UInt8} {q : ℕ} {t : Word} {sum : UInt8} {i n : ℕ}
    (h : ThetaPass w m f r0 q t sum (i + 4) n c) :
    ThetaPass w m f r0 q t sum i n (c.subi .state1 0x04) := by
  obtain ⟨k, r, cy, ng, rfl, hk, h1, h0, hs, hkeep⟩ := h
  refine ⟨k, _, cy, ng, subi_on w m _ r cy ng .state1 0x04, hk, ?_, h0, hs, hkeep⟩
  rw [Function.update_self, h1]
  exact (w.lo8_addr_sub (Nat.le_add_left 4 i)).trans (by rw [Nat.add_sub_cancel])

theorem noekeonThetaApplyXorAndShift_on (r : Reg → UInt8) (cy ng : Bool) {p q : ℕ}
    (hpq : p = 0 ∧ q = 4 ∨ p = 4 ∧ q = 0) (hr : r .state0 = lo8 (w.addr q)) {x y : Word}
    (hx : ∀ j < 4, f (p + j) = byteOf x j) (hy : ∀ j < 4, f (p + 8 + j) = byteOf y j) :
    ∃ k r' cy' ng', noekeonThetaApplyXorAndShift (on w m f p r cy ng) =
      on w m (xorFirst f q (thetaWord x y) 4) k r' cy' ng' ∧ k ≤ 32 ∧ Keep r r' := by
  unfold noekeonThetaApplyXorAndShift
  obtain ⟨r1, h1, hs1, hp1, hk1⟩ := noekeonThetaApplyXorAndShiftLoad_on (w := w) (m := m) (f := f)
    (k := p) (Function.update r .temp1 0) cy ng (by omega)
  obtain ⟨r2, h2, hs2, hp2, hk2⟩ := noekeonThetaApplyXorAndShiftLoad_on (w := w) (m := m) (f := f)
    (k := p + 8) r1 cy ng (by omega)
  have h10 : (10 : UInt8).toNat ≤ p + 8 + 4 := by
    rw [show (10 : UInt8).toNat = 10 from rfl]
    omega
  have e1 : p + 4 + (0x04 : UInt16).toNat = p + 8 := rfl
  have e2 : p + 8 + 4 - (10 : UInt8).toNat = p + 2 := by
    rw [show (10 : UInt8).toNat = 10 from rfl]
    omega
  rw [ldi_on, h1, adiwX_on, e1, h2, subiXl_on w m f r2 cy ng 10 (by omega) h10, movOfXl_on, e2]
  generalize hsum : r2 .temp1 = sum
  have hbyte (n : ℕ) (hn : n < 4) : byteOf (thetaWord x y) n =
      f (p + (n + 2) % 4) ^^^ sum ^^^ f (p + (n + 2) % 4 + 8) := by
    rw [byteOf_thetaWord x y hn, ← hsum, hs2, hs1, hx _ (Nat.mod_lt _ (by decide)),
      show p + (n + 2) % 4 + 8 = p + 8 + (n + 2) % 4 by omega, hy _ (Nat.mod_lt _ (by decide)),
      ← hx 0 (by decide), ← hx 1 (by decide),
      ← hx 2 (by decide), ← hx 3 (by decide), ← hy 0 (by decide), ← hy 1 (by decide),
      ← hy 2 (by decide), ← hy 3 (by decide)]
    rfl
  have h0 : ThetaPass w m f r q (thetaWord x y) sum (p + (0 + 2) % 4) 0
      (on w m f (p + 2) (Function.update r2 .state1 (lo8 (w.addr (p + 2)))) cy ng) := by
    refine ⟨p + 2, Function.update r2 .state1 (lo8 (w.addr (p + 2))), cy, ng, ?_, by omega, rfl,
      hp2.trans (hp1.trans hr), hsum, hk1.trans hk2⟩
    rw [show xorFirst f q (thetaWord x y) 0 = f from funext fun i => if_neg (by omega)]
  have h1 := thetaPass_succ hpq (by decide) (hbyte 0 (by decide)) h0
  have h2 := thetaPass_succ hpq (by decide) (hbyte 1 (by decide)) h1
  have h3 := thetaPass_succ hpq (by decide) (hbyte 2 (by decide)) (thetaPass_back h2)
  have h4 := thetaPass_succ hpq (by decide) (hbyte 3 (by decide)) h3
  obtain ⟨k, r', cy', ng', hc, hk, -, -, -, hkeep⟩ := h4
  exact ⟨k, r', cy', ng', hc, hk, hkeep⟩

theorem Coded.thetaPart1 (h : Coded f key s) :
    Coded (xorFirst f 4 (thetaWord s.w0 s.w2) 4) key (thetaPart1 s) := by
  refine ⟨fun i hi => ?_, fun i hi => ?_⟩
  · unfold xorFirst
    rw [h.state i hi]
    interval_cases i
    case «4» | «5» | «6» | «7» | «12» | «13» | «14» | «15» => exact (byteOf_xor _ _ _).symm
    all_goals rfl
  · exact (if_neg (by omega)).trans (h.key i hi)

theorem Coded.thetaPart3 (h : Coded f key s) :
    Coded (xorFirst f 0 (thetaWord s.w1 s.w3) 4) key (thetaPart3 s) := by
  refine ⟨fun i hi => ?_, fun i hi => ?_⟩
  · unfold xorFirst
    rw [h.state i hi]
    interval_cases i
    case «0» | «1» | «2» | «3» | «8» | «9» | «10» | «11» => exact (byteOf_xor _ _ _).symm
    all_goals rfl
  · exact (if_neg (by omega)).trans (h.key i hi)

theorem holds_thetaPart1 (h : Holds w m key rc ct s c) :
    ∃ c', thetaBody w.start c .part1 = .ret c' ∧ Holds w m key rc ct (thetaPart1 s) c' := by
  obtain ⟨f, r, cy, ng, he, hf, hrc, hct⟩ := holdsAt_ldiXl h 0 (by decide)
  obtain ⟨k, r', cy', ng', hr, hk, hkeep⟩ := noekeonThetaApplyXorAndShift_on (w := w) (m := m)
    (Function.update r .state0 (lo8 (w.addr 4))) cy ng (.inl ⟨rfl, rfl⟩) rfl (hf.word 0) (hf.word 2)
  refine ⟨_, ?_, k, hk, _, r', cy', ng', rfl, hf.thetaPart1, hkeep.1.trans hrc, hkeep.2.trans hct⟩
  unfold thetaBody
  rw [show w.start + 0 = w.addr 0 from rfl, show w.start + 0x04 = w.addr 4 from rfl, he, ldi_on]
  exact congrArg Outcome.ret hr

theorem holds_thetaPart3 (h : Holds w m key rc ct s c) :
    ∃ c', thetaBody w.start c .part3 = .ret c' ∧ Holds w m key rc ct (thetaPart3 s) c' := by
  obtain ⟨f, r, cy, ng, he, hf, hrc, hct⟩ := holdsAt_ldiXl h 4 (by decide)
  obtain ⟨k, r', cy', ng', hr, hk, hkeep⟩ := noekeonThetaApplyXorAndShift_on (w := w) (m := m)
    (Function.update r .state0 (lo8 (w.addr 0))) cy ng (.inr ⟨rfl, rfl⟩) rfl (hf.word 1) (hf.word 3)
  refine ⟨_, ?_, k, hk, _, r', cy', ng', rfl, hf.thetaPart3, hkeep.1.trans hrc, hkeep.2.trans hct⟩
  unfold thetaBody
  rw [show w.start + 0 = w.addr 0 from rfl, show w.start + 0x04 = w.addr 4 from rfl, he, ldi_on]
  exact congrArg Outcome.ret hr

def xorKey (f : ℕ → UInt8) (n i : ℕ) : UInt8 := if i < n then f i ^^^ f (16 + i) else f i

theorem noekeonThetaXorKey_on (r : Reg → UInt8) (cy ng : Bool) {n : ℕ} (hn : n < 16) :
    ∃ r', noekeonThetaXorKey (on w m (xorKey f n) (16 + n) r cy ng) =
      on w m (xorKey f (n + 1)) (16 + (n + 1)) r' cy ng ∧ r' .temp1 = r .temp1 ∧ Keep r r' := by
  have h16 : (16 : UInt8).toNat ≤ 16 + n := Nat.le_add_right_of_le (by decide)
  have e1 : 16 + n - (16 : UInt8).toNat = n := Nat.add_sub_cancel_left ..
  have e2 : n + 1 + (16 : UInt16).toNat = 16 + (n + 1) := Nat.add_comm ..
  have hstate : xorKey f n n = f n := if_neg (Nat.lt_irrefl n)
  have hkey : xorKey f n (16 + n) = f (16 + n) := if_neg (by omega)
  have hnext : Function.update (xorKey f n) n (f n ^^^ f (16 + n)) = xorKey f (n + 1) := by
    funext i
    unfold xorKey
    rw [Function.update_apply]
    split_ifs with h1 h2 h2 h2
    · rw [h1]
    · omega
    · rfl
    · omega
    · omega
    · rfl
  unfold noekeonThetaXorKey
  rw [ld_on w m _ r cy ng _ (by omega), hkey, subiXl_on w m _ _ cy ng _ (by omega) h16, e1,
    ld_on w m _ _ cy ng _ (by omega), hstate, eor_on, stInc_on w m _ _ cy ng _ (by omega), adiwX_on,
    e2, Function.update_self, Function.update_self, Function.update_of_ne (by decide),
    Function.update_self, hnext]
  exact ⟨_, rfl, rfl, rfl, rfl⟩

theorem Coded.thetaPart2 (h : Coded f key s) : Coded (xorKey f 16) key (thetaPart2 key s) := by
  refine ⟨fun i hi => ?_, fun i hi => ?_⟩
  · refine (if_pos hi).trans ?_
    rw [h.state i hi, h.key i hi]
    interval_cases i <;> exact (byteOf_xor _ _ _).symm
  · exact (if_neg (by omega)).trans (h.key i hi)

theorem holds_thetaPart2 (h : Holds w m key rc ct s c) :
    ∃ c', thetaBody w.start c .part2 = .ret c' ∧ Holds w m key rc ct (thetaPart2 key s) c' := by
  obtain ⟨f, r, cy, ng, he, hf, hrc, hct⟩ := holdsAt_ldiXl h 16 (by decide)
  let inv (n : ℕ) (c' : Core) : Prop := ∃ r' cy' ng', c' = on w m (xorKey f n) (16 + n) r' cy' ng' ∧
    r' .temp1 = UInt8.ofNat 15 - UInt8.ofNat n ∧ Keep r r'
  have hstep (n : ℕ) (hn : n < 16) (c' : Core) (hc' : inv n c') :
      ∃ s', Outcome.ret ((noekeonThetaXorKey c').dec .temp1) = .ret s' ∧ inv (n + 1) s' ∧
        (!s'.negative) = decide (n + 1 < 16) := by
    obtain ⟨r', cy', ng', rfl, ht, hk⟩ := hc'
    obtain ⟨r'', hr, ht', hk'⟩ := noekeonThetaXorKey_on (w := w) (m := m) (f := f) r' cy' ng' hn
    have hcount : r'' .temp1 - 1 = UInt8.ofNat 15 - UInt8.ofNat (n + 1) := by
      rw [ht', ht, UInt8.ofNat_add]
      exact sub_sub _ _ _
    rw [hr, dec_on]
    refine ⟨_, rfl, ⟨_, _, _, rfl, hcount, hk.trans hk'⟩, ?_⟩
    show (!(r'' .temp1 - 1).toBitVec.msb) = _
    rw [hcount]
    exact count_sign 15 (by decide) n hn
  have h0 : inv 0 (on w m f 16 (Function.update r .temp1 15) cy ng) :=
    ⟨_, cy, ng, congrArg (fun f => on w m f 16 _ cy ng) (funext fun i => (if_neg (Nat.not_lt_zero i)).symm),
      rfl, rfl, rfl⟩
  obtain ⟨c', hr, r', cy', ng', rfl, -, hk⟩ :=
    doWhile_count inv (by decide) (show 16 ≤ 256 by decide) hstep h0
  refine ⟨_, ?_, 32, le_rfl, _, r', cy', ng', rfl, hf.thetaPart2, hk.1.trans hrc, hk.2.trans hct⟩
  unfold thetaBody
  rw [show w.start + 16 = w.addr 16 from rfl, he, ldi_on]
  exact hr

end Memtype
