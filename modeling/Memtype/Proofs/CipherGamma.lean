import Memtype.Proofs.CipherShift

/-! gamma, one byte of each word after the other. -/

namespace Memtype

open Lib Lib.Avr Noekeon Asm

variable {w : Window 32} {m : Mem} {f : ℕ → UInt8} {k : ℕ} {r : Reg → UInt8} {cy ng : Bool}

variable {key s : State} {rc ct : UInt8} {c : Core}

def putColumn (f : ℕ → UInt8) (j : ℕ) (s : State) : ℕ → UInt8 :=
  Function.update (Function.update (Function.update (Function.update f j (byteOf s.w0 j))
    (12 + j) (byteOf s.w3 j)) (8 + j) (byteOf s.w2 j)) (4 + j) (byteOf s.w1 j)

def HoldsColumn (r : Reg → UInt8) (s : State) (j : ℕ) : Prop :=
  r .state0 = byteOf s.w0 j ∧ r .state1 = byteOf s.w1 j ∧ r .state2 = byteOf s.w2 j ∧
    r .state3 = byteOf s.w3 j

theorem gammaNonLinearByte_column {j : ℕ} (hj : j < 4) (h : HoldsColumn c.reg s j) :
    HoldsColumn (noekeonGammaNonLinearByte c).reg (gammaNonLinear s) j := by
  obtain ⟨h0, h1, h2, h3⟩ := h
  have hw1 : byteOf (gammaNonLinear s).w1 j = c.reg .state1 ^^^ ~~~(c.reg .state2 ||| c.reg .state3) := by
    unfold gammaNonLinear
    rw [byteOf_xor, byteOf_not _ hj, byteOf_or, h1, h2, h3, UInt8.or_comm]
  have hw0 : byteOf (gammaNonLinear s).w0 j =
      c.reg .state0 ^^^ (c.reg .state2 &&& byteOf (gammaNonLinear s).w1 j) := by
    rw [h0, h2, ← byteOf_and, ← byteOf_xor]
    rfl
  refine ⟨?_, ?_, h2, h3⟩
  · rw [hw0, hw1]
    rfl
  · rw [hw1]
    rfl

/-- `noekeon_gamma_byte` between its loads and its stores. -/
def gammaRegs (c : Core) : Core :=
  c |> noekeonGammaNonLinearByte
    |>.mov .temp1 .state3 |>.mov .state3 .state0 |>.mov .state0 .temp1
    |>.eor .temp1 .state1 |>.eor .temp1 .state3 |>.eor .state2 .temp1
    |> noekeonGammaNonLinearByte

theorem gammaRegs_column {j : ℕ} (hj : j < 4) (h : HoldsColumn c.reg s j) :
    HoldsColumn (gammaRegs c).reg (gamma s) j := by
  unfold gamma gammaRegs
  obtain ⟨h0, h1, h2, h3⟩ := gammaNonLinearByte_column hj h
  refine gammaNonLinearByte_column hj ⟨h3, h1, ?_, h0⟩
  dsimp only
  rw [byteOf_xor, byteOf_xor, byteOf_xor, ← h0, ← h1, ← h2, ← h3]
  rfl

theorem gammaRegs_on : gammaRegs (on w m f k r cy ng) =
    on w m f k (gammaRegs (on w m f k r cy ng)).reg cy ng := rfl

theorem noekeonGammaByte_on (r : Reg → UInt8) (cy ng : Bool) {s : State} {j : ℕ} (hj : j < 4)
    (h0 : f j = byteOf s.w0 j) (h1 : f (4 + j) = byteOf s.w1 j) (h2 : f (8 + j) = byteOf s.w2 j)
    (h3 : f (12 + j) = byteOf s.w3 j) :
    ∃ r', noekeonGammaByte (on w m f (4 + j) r cy ng) =
      on w m (putColumn f j (gamma s)) (4 + j + 1) r' cy ng ∧ Keep r r' := by
  have e1 : 4 + j + (8 : UInt16).toNat = 12 + j := by
    rw [show (8 : UInt16).toNat = 8 from rfl]
    omega
  have e2 : 12 + j - (0x04 : UInt8).toNat = 8 + j := by
    rw [show (0x04 : UInt8).toNat = 4 from rfl]
    omega
  have e3 : 8 + j - (8 : UInt8).toNat = j := by
    rw [show (8 : UInt8).toNat = 8 from rfl]
    omega
  have e4 : j + (12 : UInt16).toNat = 12 + j := Nat.add_comm j 12
  have e5 : 8 + j - (0x04 : UInt8).toNat = 4 + j := by
    rw [show (0x04 : UInt8).toNat = 4 from rfl]
    omega
  have hload : ((((((((on w m f (4 + j) r cy ng).ld .state1).adiwX 8).ld .state3).subiXl 0x04).ld
      .state2).subiXl 8).ld .state0) = on w m f j (Function.update (Function.update (Function.update
        (Function.update r .state1 (f (4 + j))) .state3 (f (12 + j))) .state2 (f (8 + j))) .state0
          (f j)) cy ng := by
    rw [ld_on w m f r cy ng _ (by omega), adiwX_on, e1, ld_on w m f _ cy ng _ (by omega),
      subiXl_on w m f _ cy ng _ (by omega) (Nat.le_add_right_of_le (by decide)), e2,
      ld_on w m f _ cy ng _ (by omega),
      subiXl_on w m f _ cy ng _ (by omega) (Nat.le_add_right_of_le (by decide)), e3,
      ld_on w m f _ cy ng _ (by omega)]
  have hunfold (c : Core) : noekeonGammaByte c =
      ((((((((gammaRegs (((((((c.ld .state1).adiwX 8).ld .state3).subiXl 0x04).ld
        .state2).subiXl 8).ld .state0)).st .state0).adiwX 12).st .state3).subiXl 0x04).st
          .state2).subiXl 0x04).stInc .state1) := rfl
  rw [hunfold, hload, gammaRegs_on]
  generalize hr : (gammaRegs (on w m f j _ cy ng)).reg = r'
  have hcol : HoldsColumn r' (gamma s) j := by
    rw [← hr]
    exact gammaRegs_column hj ⟨h0, h1, h2, h3⟩
  have hkeep : Keep r r' := by
    rw [← hr]
    exact ⟨rfl, rfl⟩
  obtain ⟨g0, g1, g2, g3⟩ := hcol
  refine ⟨r', ?_, hkeep⟩
  rw [st_on w m f r' cy ng _ (by omega), adiwX_on, e4, st_on w m _ r' cy ng _ (by omega),
    subiXl_on w m _ r' cy ng _ (by omega) (Nat.le_add_right_of_le (by decide)), e2,
    st_on w m _ r' cy ng _ (by omega),
    subiXl_on w m _ r' cy ng _ (by omega) (Nat.le_add_right_of_le (by decide)), e5,
    stInc_on w m _ r' cy ng _ (by omega), g0, g1, g2, g3]
  rfl

def gammaColumns (f : ℕ → UInt8) (s : State) (n i : ℕ) : UInt8 :=
  if i < 16 ∧ i % 4 < n then (gamma s).byte i else f i

theorem gammaColumns_succ (f : ℕ → UInt8) (s : State) {n : ℕ} (hn : n < 4) :
    putColumn (gammaColumns f s n) n (gamma s) = gammaColumns f s (n + 1) := by
  funext i
  unfold putColumn
  simp only [Function.update_apply]
  by_cases hi : i < 16 ∧ i % 4 = n
  · obtain ⟨hi, rfl⟩ := hi
    have h : gammaColumns f s (i % 4 + 1) i = (gamma s).byte i := if_pos ⟨hi, Nat.lt_succ_self _⟩
    rw [h]
    interval_cases i <;> rfl
  · rw [if_neg (by omega), if_neg (by omega), if_neg (by omega), if_neg (by omega)]
    unfold gammaColumns
    exact if_congr (by omega) rfl rfl

theorem noekeonGammaByte_iterate (r : Reg → UInt8) (cy ng : Bool) (hf : Coded f key s) {n : ℕ}
    (hn : n ≤ 4) : ∃ r', noekeonGammaByte^[n] (on w m f 4 r cy ng) =
      on w m (gammaColumns f s n) (4 + n) r' cy ng ∧ Keep r r' := by
  induction n with
  | zero =>
    have h : gammaColumns f s 0 = f := funext fun i => if_neg (by omega)
    rw [h]
    exact ⟨r, rfl, rfl, rfl⟩
  | succ n ih =>
    obtain ⟨r', hr, hk⟩ := ih (by omega)
    have hcell (i : ℕ) (hi : i < 16) (h : i % 4 = n) : gammaColumns f s n i = s.byte i := by
      unfold gammaColumns
      rw [if_neg (by omega), hf.state i hi]
    rw [Function.iterate_succ_apply', hr, ← gammaColumns_succ f s (by omega)]
    have hn' : n < 4 := hn
    have h0 : gammaColumns f s n n = byteOf s.w0 n := by
      rw [hcell n (by omega) (by omega)]
      interval_cases n <;> rfl
    have h1 : gammaColumns f s n (4 + n) = byteOf s.w1 n := by
      rw [hcell _ (by omega) (by omega)]
      interval_cases n <;> rfl
    have h2 : gammaColumns f s n (8 + n) = byteOf s.w2 n := by
      rw [hcell _ (by omega) (by omega)]
      interval_cases n <;> rfl
    have h3 : gammaColumns f s n (12 + n) = byteOf s.w3 n := by
      rw [hcell _ (by omega) (by omega)]
      interval_cases n <;> rfl
    obtain ⟨r'', hr', hk'⟩ := noekeonGammaByte_on (w := w) (m := m) r' cy ng hn' h0 h1 h2 h3
    exact ⟨r'', hr', hk.trans hk'⟩

theorem holds_gamma (h : Holds w m key rc ct s c) :
    Holds w m key rc ct (gamma s) (noekeonGamma w.start c) := by
  obtain ⟨f, r, cy, ng, he, hf, hrc, hct⟩ := holdsAt_ldiXl h 4 (by decide)
  obtain ⟨r', hr, hk⟩ := noekeonGammaByte_iterate (w := w) (m := m) r cy ng hf (n := 4) le_rfl
  refine ⟨8, by decide, gammaColumns f s 4, r', cy, ng, ?_, ⟨fun i hi => ?_, fun i hi => ?_⟩,
    hk.1.trans hrc, hk.2.trans hct⟩
  · rw [← he] at hr
    exact hr
  · exact if_pos ⟨hi, Nat.mod_lt i (by decide)⟩
  · exact (if_neg (by omega)).trans (hf.key i hi)

end Memtype
