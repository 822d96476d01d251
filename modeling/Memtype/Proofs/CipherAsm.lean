import Memtype.Proofs.CipherGamma
import Memtype.Proofs.CipherTheta

/-! The routines of noekeon.S compute the cipher on words, and touch nothing but the 16 bytes
of the state. -/

namespace Memtype

open Lib Lib.Avr Noekeon Asm

variable {w : Window 32} {m : Mem} {f : ℕ → UInt8} {k : ℕ} {r : Reg → UInt8} {cy ng : Bool}

variable {key s : State} {rc ct : UInt8} {c : Core}

theorem Holds.isDecryption (h : Holds w m key rc ct s c) :
    isDecryption c = ct.toBitVec.getLsbD 7 := by
  obtain ⟨k, hk, f, r, cy, ng, rfl, hf, hrc, rfl⟩ := h
  rfl

/-- One part, where the test at its end leads to the next. -/
theorem thetaFrom_next {p q : ThetaPart} {c' : Core} (fuel : ℕ)
    (hb : thetaBody w.start c p = .ret c') (h : Holds w m key rc ct s c')
    (hn : thetaNext p (ct.toBitVec.getLsbD 7) = some q) :
    thetaFrom w.start (fuel + 1) p c = thetaFrom w.start fuel q c' := by
  rw [thetaFrom, hb, Outcome.bind_ret, h.isDecryption, hn]

/-- The last part, where the test leads to the `ret`. -/
theorem thetaFrom_last {p : ThetaPart} {c' : Core} (fuel : ℕ)
    (hb : thetaBody w.start c p = .ret c') (h : Holds w m key rc ct s c')
    (hn : thetaNext p (ct.toBitVec.getLsbD 7) = none) :
    thetaFrom w.start (fuel + 1) p c = .ret c' := by
  rw [thetaFrom, hb, Outcome.bind_ret, h.isDecryption, hn]

theorem holds_thetaEncrypt (hct : ct.toBitVec.getLsbD 7 = false) (h : Holds w m key rc ct s c) :
    ∃ c', noekeonThetaEncrypt w.start c = .ret c' ∧ Holds w m key rc ct (thetaEncrypt key s) c' := by
  obtain ⟨c1, hr1, h1⟩ := holds_thetaPart1 h
  obtain ⟨c2, hr2, h2⟩ := holds_thetaPart2 h1
  obtain ⟨c3, hr3, h3⟩ := holds_thetaPart3 h2
  refine ⟨c3, ?_, h3⟩
  unfold noekeonThetaEncrypt
  rw [thetaFrom_next 2 hr1 h1 (by rw [hct]; rfl), thetaFrom_next 1 hr2 h2 (by rw [hct]; rfl),
    thetaFrom_last 0 hr3 h3 (by rw [hct]; rfl)]

theorem holds_thetaDecrypt (hct : ct.toBitVec.getLsbD 7 = true) (h : Holds w m key rc ct s c) :
    ∃ c', noekeonThetaDecrypt w.start c = .ret c' ∧ Holds w m key rc ct (thetaDecrypt key s) c' := by
  obtain ⟨c1, hr1, h1⟩ := holds_thetaPart3 h
  obtain ⟨c2, hr2, h2⟩ := holds_thetaPart2 h1
  obtain ⟨c3, hr3, h3⟩ := holds_thetaPart1 h2
  refine ⟨c3, ?_, h3⟩
  unfold noekeonThetaDecrypt
  rw [thetaFrom_next 2 hr1 h1 (by rw [hct]; rfl), thetaFrom_next 1 hr2 h2 (by rw [hct]; rfl),
    thetaFrom_last 0 hr3 h3 (by rw [hct]; rfl)]

theorem holds_roundTail (h : Holds w m key rc ct s c) :
    ∃ c', roundTail w.start c = .ret c' ∧ Holds w m key rc ct (shiftGamma s) c' := by
  obtain ⟨c1, hr1, h1⟩ := holds_shiftPi1 h
  obtain ⟨c2, hr2, h2⟩ := holds_shiftPi2 (holds_gamma h1)
  refine ⟨c2, ?_, h2⟩
  unfold roundTail
  rw [hr1, Outcome.bind_ret]
  exact hr2

theorem holds_roundEncrypt (hct : ct.toBitVec.getLsbD 7 = false) (h : Holds w m key rc ct s c) :
    ∃ c', noekeonRoundFunctionEncrypt w.start c = .ret c' ∧
      Holds w m key rc ct (shiftGamma (thetaEncrypt key (roundConstAdd rc s))) c' := by
  obtain ⟨c1, hr1, h1⟩ := holds_thetaEncrypt hct (holds_roundConstAdd h)
  obtain ⟨c2, hr2, h2⟩ := holds_roundTail h1
  refine ⟨c2, ?_, h2⟩
  unfold noekeonRoundFunctionEncrypt
  rw [hr1, Outcome.bind_ret]
  exact hr2

theorem holds_roundDecrypt (hct : ct.toBitVec.getLsbD 7 = true) (h : Holds w m key rc ct s c) :
    ∃ c', noekeonRoundFunctionDecrypt w.start c = .ret c' ∧
      Holds w m key rc ct (shiftGamma (roundConstAdd rc (thetaDecrypt key s))) c' := by
  obtain ⟨c1, hr1, h1⟩ := holds_thetaDecrypt hct h
  obtain ⟨c2, hr2, h2⟩ := holds_roundTail (holds_roundConstAdd h1)
  refine ⟨c2, ?_, h2⟩
  unfold noekeonRoundFunctionDecrypt
  rw [hr1, Outcome.bind_ret]
  exact hr2

theorem roundConstUp_eq (rc : UInt8) : roundConstUp rc =
    if rc.toBitVec.msb then shiftLeftIn rc false ^^^ 0x1B else shiftLeftIn rc false := by
  obtain ⟨⟨x⟩⟩ := rc
  revert x
  decide +kernel

theorem roundConstDown_eq (rc : UInt8) : roundConstDown rc =
    if rc.toBitVec.getLsbD 0 then shiftRightIn rc false ^^^ 0x8D else shiftRightIn rc false := by
  obtain ⟨⟨x⟩⟩ := rc
  revert x
  decide +kernel

/-- Code that leaves X and the data memory alone keeps the state. -/
theorem Holds.regs (h : Holds w m key rc ct s c) {d : Core} (hx : d.x = c.x) (hm : d.ram = c.ram) :
    Holds w m key (d.reg .roundConst) (d.reg .roundCounter) s d := by
  obtain ⟨k, hk, f, r, cy, ng, rfl, hf, -, -⟩ := h
  exact ⟨k, hk, f, d.reg, d.carry, d.negative, eq_on w m f hx hm, hf, rfl, rfl⟩

theorem Holds.const (h : Holds w m key rc ct s c) : c.reg .roundConst = rc := by
  obtain ⟨k, hk, f, r, cy, ng, rfl, hf, hrc, hct⟩ := h
  exact hrc

theorem Holds.counter (h : Holds w m key rc ct s c) : c.reg .roundCounter = ct := by
  obtain ⟨k, hk, f, r, cy, ng, rfl, hf, hrc, hct⟩ := h
  exact hct

theorem holds_nextRound (h : Holds w m key rc ct s c) {b : Bool} {v : UInt8} (hb : c.carry = b)
    (hv : c.reg .temp1 = v) :
    Holds w m key (if b then rc ^^^ v else rc) (ct + 1) s (nextRound c) := by
  rw [← h.const, ← h.counter, ← hv]
  unfold nextRound
  rw [hb]
  cases b with
  | false => exact h.regs (d := c.inc .roundCounter) rfl rfl
  | true => exact h.regs (d := (c.eor .roundConst .temp1).inc .roundCounter) rfl rfl

theorem holds_nextEncrypt (h : Holds w m key rc ct s c) :
    Holds w m key (roundConstUp rc) (ct + 1) s
      (c |>.ldi .temp1 0x1B |>.lsl .roundConst |> nextRound) := by
  have h1 : Holds w m key (shiftLeftIn (c.reg .roundConst) false) (c.reg .roundCounter) s
      ((c.ldi .temp1 0x1B).lsl .roundConst) := h.regs rfl rfl
  rw [roundConstUp_eq, ← h.const, ← h.counter]
  exact holds_nextRound h1 rfl rfl

theorem holds_nextDecrypt (h : Holds w m key rc ct s c) :
    Holds w m key (roundConstDown rc) (ct + 1) s
      (c |>.ldi .temp1 0x8D |>.lsr .roundConst |> nextRound) := by
  have h1 : Holds w m key (shiftRightIn (c.reg .roundConst) false) (c.reg .roundCounter) s
      ((c.ldi .temp1 0x8D).lsr .roundConst) := h.regs rfl rfl
  rw [roundConstDown_eq, ← h.const, ← h.counter]
  exact holds_nextRound h1 rfl rfl

theorem encryptCounter_bits : ∀ n < 16, (0x00 + UInt8.ofNat n).toBitVec.getLsbD 7 = false ∧
    (!(0x00 + UInt8.ofNat (n + 1)).toBitVec.getLsbD 4) = decide (n + 1 < 16) := by decide

theorem decryptCounter_bits : ∀ n < 16, (0x80 + UInt8.ofNat n).toBitVec.getLsbD 7 = true ∧
    (!(0x80 + UInt8.ofNat (n + 1)).toBitVec.getLsbD 4) = decide (n + 1 < 16) := by decide

theorem counter_succ (a : UInt8) (n : ℕ) : a + UInt8.ofNat n + 1 = a + UInt8.ofNat (n + 1) := by
  rw [UInt8.ofNat_add, ← UInt8.add_assoc]
  rfl

/-- After `n` rounds of an encryption, what is left of it leads to the same end. -/
def EncryptAt (w : Window 32) (m : Mem) (key s : State) (n : ℕ) (c : Core) : Prop :=
  ∃ s' rc, Holds w m key rc (0x00 + UInt8.ofNat n) s' c ∧
    encryptRounds key (16 - n) rc s' = encryptRounds key 16 0x80 s

def DecryptAt (w : Window 32) (m : Mem) (key s : State) (n : ℕ) (c : Core) : Prop :=
  ∃ s' rc, Holds w m key rc (0x80 + UInt8.ofNat n) s' c ∧
    decryptRounds key (16 - n) rc s' = decryptRounds key 16 0xD4 s

theorem holds_encrypt (h : Holds w m key rc ct s c) :
    ∃ c' rc' ct', encrypt w.start c = .ret c' ∧
      Holds w m key rc' ct' (encryptRounds key 16 0x80 s) c' := by
  have hstep (n : ℕ) (hn : n < 16) (c : Core) (hc : EncryptAt w m key s n c) :
      ∃ c', ((noekeonRoundFunctionEncrypt w.start c).bind fun c =>
          .ret (c |>.ldi .temp1 0x1B |>.lsl .roundConst |> nextRound)) = .ret c' ∧
        EncryptAt w m key s (n + 1) c' ∧ moreRounds c' = decide (n + 1 < 16) := by
    obtain ⟨s', rc, hs, he⟩ := hc
    obtain ⟨hbit, hmore⟩ := encryptCounter_bits n hn
    obtain ⟨c1, hr, h1⟩ := holds_roundEncrypt hbit hs
    have h2 := holds_nextEncrypt h1
    rw [counter_succ] at h2
    rw [hr, Outcome.bind_ret]
    refine ⟨_, rfl, ⟨_, _, h2, ?_⟩, ?_⟩
    · rw [← he, show 16 - n = 16 - (n + 1) + 1 by omega]
      rfl
    · unfold moreRounds
      rw [h2.counter]
      exact hmore
  have h0 : EncryptAt w m key s 0 (c |>.ldi .roundCounter 0x00 |>.ldi .roundConst 0x80) := by
    have hs : Holds w m key 0x80 0x00 s ((c.ldi .roundCounter 0x00).ldi .roundConst 0x80) :=
      h.regs rfl rfl
    exact ⟨s, 0x80, hs, rfl⟩
  obtain ⟨c1, hr1, s1, rc1, h1, he⟩ :=
    doWhile_count (EncryptAt w m key s) (by decide) (show 16 ≤ 256 by decide) hstep h0
  obtain ⟨c2, hr2, h2⟩ := holds_thetaEncrypt (by decide) (holds_roundConstAdd h1)
  have hend : thetaEncrypt key (roundConstAdd rc1 s1) = encryptRounds key 16 0x80 s := he
  rw [hend] at h2
  refine ⟨c2, _, _, ?_, h2⟩
  unfold encrypt
  rw [hr1, Outcome.bind_ret]
  exact hr2

theorem holds_decrypt (h : Holds w m key rc ct s c) :
    ∃ c' rc' ct', decrypt w.start c = .ret c' ∧
      Holds w m key rc' ct' (decryptRounds key 16 0xD4 s) c' := by
  have hstep (n : ℕ) (hn : n < 16) (c : Core) (hc : DecryptAt w m key s n c) :
      ∃ c', ((noekeonRoundFunctionDecrypt w.start c).bind fun c =>
          .ret (c |>.ldi .temp1 0x8D |>.lsr .roundConst |> nextRound)) = .ret c' ∧
        DecryptAt w m key s (n + 1) c' ∧ moreRounds c' = decide (n + 1 < 16) := by
    obtain ⟨s', rc, hs, he⟩ := hc
    obtain ⟨hbit, hmore⟩ := decryptCounter_bits n hn
    obtain ⟨c1, hr, h1⟩ := holds_roundDecrypt hbit hs
    have h2 := holds_nextDecrypt h1
    rw [counter_succ] at h2
    rw [hr, Outcome.bind_ret]
    refine ⟨_, rfl, ⟨_, _, h2, ?_⟩, ?_⟩
    · rw [← he, show 16 - n = 16 - (n + 1) + 1 by omega]
      rfl
    · unfold moreRounds
      rw [h2.counter]
      exact hmore
  have h0 : DecryptAt w m key s 0 (c |>.ldi .roundCounter 0x80 |>.ldi .roundConst 0xD4) := by
    have hs : Holds w m key 0xD4 0x80 s ((c.ldi .roundCounter 0x80).ldi .roundConst 0xD4) :=
      h.regs rfl rfl
    exact ⟨s, 0xD4, hs, rfl⟩
  obtain ⟨c1, hr1, s1, rc1, h1, he⟩ :=
    doWhile_count (DecryptAt w m key s) (by decide) (show 16 ≤ 256 by decide) hstep h0
  obtain ⟨c2, hr2, h2⟩ := holds_thetaDecrypt (by decide) h1
  have h3 := holds_roundConstAdd h2
  have hend : roundConstAdd rc1 (thetaDecrypt key s1) = decryptRounds key 16 0xD4 s := he
  rw [hend] at h3
  refine ⟨_, _, _, ?_, h3⟩
  unfold decrypt
  rw [hr1, Outcome.bind_ret, hr2]
  rfl

theorem store_eq_byte (s : State) (i : Fin 16) : store s i = s.byte i := by
  have hi : (⟨i / 4, by omega⟩ : Fin 4) = Fin.ofNat 4 (i / 4) :=
    Fin.ext (Nat.mod_eq_of_lt (show i.val / 4 < 4 by omega)).symm
  unfold store State.byte
  rw [hi]
  rfl

theorem load_byte (b : Bytes 16) (i : Fin 16) : (load b).byte i = b i := by
  rw [← store_eq_byte, store_load]

def cipherAt (m : Mem) (a : UInt16) : Cipher := ⟨m.read a 16, m.read (a + 16) 16⟩

def putPlain (m : Mem) (a : UInt16) (b : Bytes 16) : Mem :=
  m.write a 16 fun i => b (Fin.ofNat 16 i)

theorem write_same (m : Mem) (a : UInt16) (n : ℕ) :
    m.write a n (fun i => m (a + UInt16.ofNat i)) = m := by
  funext x
  unfold Mem.write
  split_ifs with h
  · dsimp only
    rw [UInt16.ofNat_toNat, UInt16.add_comm, UInt16.sub_add_cancel]
  · rfl

/-- Whatever is in the data memory, X at the start of `cipher` finds its two halves there. -/
theorem holds_start (w : Window 32) (c : Core) :
    Holds w c.ram (load (cipherAt c.ram w.start).key) (c.reg .roundConst) (c.reg .roundCounter)
      (load (cipherAt c.ram w.start).plain) (c |>.ldiXh (hi8 w.start) |>.ldiXl (lo8 w.start)) := by
  refine ⟨0, by decide, fun i => c.ram (w.start + UInt16.ofNat i), c.reg, c.carry, c.negative, ?_,
    ⟨fun i hi => ?_, fun i hi => ?_⟩, rfl, rfl⟩
  · refine eq_on w c.ram _ ?_ (write_same c.ram w.start 32).symm
    show (hi8 ((hi8 w.start).toUInt16 * 256 + (lo8 c.x).toUInt16)).toUInt16 * 256 +
      (lo8 w.start).toUInt16 = w.start + 0
    rw [hi8_make, hi8_lo8, UInt16.add_zero]
  · exact (load_byte (cipherAt c.ram w.start).plain ⟨i, hi⟩).symm
  · refine Eq.trans ?_ (load_byte (cipherAt c.ram w.start).key ⟨i, hi⟩).symm
    show c.ram (w.start + UInt16.ofNat (16 + i)) = c.ram (w.start + 16 + UInt16.ofNat i)
    rw [UInt16.ofNat_add, ← UInt16.add_assoc]
    rfl

/-- With the key that is there, only the plain half has changed. -/
theorem Holds.ram (h : Holds w m (load (cipherAt m w.start).key) rc ct s c) :
    c.ram = putPlain m w.start (store s) := by
  obtain ⟨k, -, f, r, cy, ng, rfl, hf, -, -⟩ := h
  funext a
  show m.write w.start 32 f a = m.write w.start 16 _ a
  unfold Mem.write
  split_ifs with h1 h2 h2
  · rw [hf.state _ h2]
    refine Eq.trans ?_ (store_eq_byte s _).symm
    exact congrArg s.byte (Nat.mod_eq_of_lt h2).symm
  · obtain ⟨i, hi⟩ := Nat.exists_eq_add_of_le (Nat.le_of_not_lt h2)
    have hi' : i < 16 := by omega
    have ha : a = w.start + UInt16.ofNat (16 + i) := by
      rw [← hi, UInt16.ofNat_toNat, UInt16.add_comm, UInt16.sub_add_cancel]
    rw [hi, hf.key i hi']
    refine (load_byte (cipherAt m w.start).key ⟨i, hi'⟩).trans ?_
    show m (w.start + 16 + UInt16.ofNat i) = m a
    rw [ha, UInt16.ofNat_add, ← UInt16.add_assoc]
    rfl
  · omega
  · rfl

/-- Called in the data memory `m`, with whatever in the registers, the routine returns and leaves
`m'` behind. -/
def Transforms (routine : Core → Outcome Core) (m m' : Mem) : Prop :=
  ∀ c : Core, c.ram = m → ∃ c', routine c = .ret c' ∧ c'.ram = m'

theorem noekeonEncrypt_transforms (w : Window 32) (m : Mem) :
    Transforms (Asm.noekeonEncrypt w.start) m
      (putPlain m w.start (Memtype.noekeonEncrypt (cipherAt m w.start)).plain) := by
  rintro c rfl
  obtain ⟨c', rc', ct', hr, h⟩ := holds_encrypt (holds_start w c)
  exact ⟨c', hr, h.ram⟩

theorem noekeonDecrypt_transforms (w : Window 32) (m : Mem) :
    Transforms (Asm.noekeonDecrypt w.start) m
      (putPlain m w.start (Memtype.noekeonDecrypt (cipherAt m w.start)).plain) := by
  rintro c rfl
  obtain ⟨c', rc', ct', hr, h⟩ := holds_decrypt (holds_start w c)
  exact ⟨c', hr, h.ram⟩

end Memtype
