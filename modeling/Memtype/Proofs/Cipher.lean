import Memtype.Spec.Noekeon

/-! Decryption inverts encryption: every part of a round is undone by itself or by its
mirror image, and the round constants are stepped back to where they came from. -/

namespace Memtype

open Noekeon

theorem xor_xor_self (a b : Word) : a ^^^ b ^^^ b = a := by
  rw [BitVec.xor_assoc, BitVec.xor_self, BitVec.xor_zero]

theorem thetaPart1_thetaPart1 (s : State) : thetaPart1 (thetaPart1 s) = s := by
  simp only [thetaPart1, xor_xor_self]

theorem thetaPart2_thetaPart2 (k s : State) : thetaPart2 k (thetaPart2 k s) = s := by
  simp only [thetaPart2, xor_xor_self]

theorem thetaPart3_thetaPart3 (s : State) : thetaPart3 (thetaPart3 s) = s := by
  simp only [thetaPart3, xor_xor_self]

theorem thetaDecrypt_thetaEncrypt (k s : State) : thetaDecrypt k (thetaEncrypt k s) = s := by
  unfold thetaDecrypt thetaEncrypt
  rw [thetaPart3_thetaPart3, thetaPart2_thetaPart2, thetaPart1_thetaPart1]

theorem thetaEncrypt_thetaDecrypt (k s : State) : thetaEncrypt k (thetaDecrypt k s) = s := by
  unfold thetaDecrypt thetaEncrypt
  rw [thetaPart1_thetaPart1, thetaPart2_thetaPart2, thetaPart3_thetaPart3]

theorem roundConstAdd_roundConstAdd (rc : UInt8) (s : State) :
    roundConstAdd rc (roundConstAdd rc s) = s := by
  simp only [roundConstAdd, xor_xor_self]

theorem rotateLeft_rotateRight (n : ℕ) (x : Word) :
    (x.rotateRight n).rotateLeft n = x := by
  ext i hi
  rw [BitVec.getElem_rotateLeft]
  split_ifs with h
  · rw [BitVec.getElem_rotateRight, dif_neg (by omega)]
    congr 1
    omega
  · rw [BitVec.getElem_rotateRight, dif_pos (by omega)]
    congr 1
    omega

theorem rotateRight_rotateLeft (n : ℕ) (x : Word) :
    (x.rotateLeft n).rotateRight n = x := by
  ext i hi
  rw [BitVec.getElem_rotateRight]
  split_ifs with h
  · rw [BitVec.getElem_rotateLeft, dif_neg (by omega)]
    congr 1
    omega
  · rw [BitVec.getElem_rotateLeft, dif_pos (by omega)]
    congr 1
    omega

theorem shiftPi1_shiftPi2 (s : State) : shiftPi1 (shiftPi2 s) = s := by
  unfold shiftPi1 shiftPi2
  dsimp only
  rw [rotateLeft_rotateRight, rotateLeft_rotateRight, rotateLeft_rotateRight]

theorem shiftPi2_shiftPi1 (s : State) : shiftPi2 (shiftPi1 s) = s := by
  unfold shiftPi1 shiftPi2
  dsimp only
  rw [rotateRight_rotateLeft, rotateRight_rotateLeft, rotateRight_rotateLeft]

/-- Bit by bit, `gamma` is an involution of four bits. -/
theorem gamma_gamma (s : State) : gamma (gamma s) = s := by
  obtain ⟨w0, w1, w2, w3⟩ := s
  simp only [gamma, gammaNonLinear, State.mk.injEq]
  refine ⟨?_, ?_, ?_, ?_⟩
  all_goals
    ext i hi
    simp only [BitVec.getElem_xor, BitVec.getElem_and, BitVec.getElem_or, BitVec.getElem_not]
    generalize w0[i] = a
    generalize w1[i] = b
    generalize w2[i] = c
    generalize w3[i] = d
    revert a b c d
    decide

theorem shiftGamma_shiftGamma (s : State) : shiftGamma (shiftGamma s) = s := by
  unfold shiftGamma
  rw [shiftPi1_shiftPi2, gamma_gamma, shiftPi2_shiftPi1]

theorem roundConstDown_roundConstUp (rc : UInt8) : roundConstDown (roundConstUp rc) = rc := by
  obtain ⟨⟨x⟩⟩ := rc
  revert x
  decide +kernel

theorem roundConstUp_roundConstDown (rc : UInt8) : roundConstUp (roundConstDown rc) = rc := by
  obtain ⟨⟨x⟩⟩ := rc
  revert x
  decide +kernel

/-- Decryption starts at the constant that encryption ends with. -/
theorem roundConstUp_sixteen : roundConstUp^[16] 0x80 = 0xD4 := by decide +kernel

/-- The last round of a decryption, taken apart. -/
theorem decryptRounds_succ (k : State) (n : ℕ) (rc : UInt8) (s : State) :
    decryptRounds k (n + 1) rc s = roundConstAdd (roundConstDown^[n + 1] rc)
      (thetaDecrypt k (shiftGamma (decryptRounds k n rc s))) := by
  induction n generalizing rc s with
  | zero => rfl
  | succ n ih =>
    rw [decryptRounds, ih, Function.iterate_succ_apply]
    rfl

/-- The last round of an encryption, taken apart. -/
theorem encryptRounds_succ (k : State) (n : ℕ) (rc : UInt8) (s : State) :
    encryptRounds k (n + 1) rc s = thetaEncrypt k (roundConstAdd (roundConstUp^[n + 1] rc)
      (shiftGamma (encryptRounds k n rc s))) := by
  induction n generalizing rc s with
  | zero => rfl
  | succ n ih =>
    rw [encryptRounds, ih, Function.iterate_succ_apply]
    rfl

theorem decryptRounds_encryptRounds (k : State) (n : ℕ) (rc : UInt8) (s : State) :
    decryptRounds k n (roundConstUp^[n] rc) (encryptRounds k n rc s) = s := by
  induction n generalizing rc s with
  | zero =>
    change roundConstAdd rc (thetaDecrypt k (thetaEncrypt k (roundConstAdd rc s))) = s
    rw [thetaDecrypt_thetaEncrypt, roundConstAdd_roundConstAdd]
  | succ n ih =>
    have hrc : roundConstDown^[n + 1] (roundConstUp^[n + 1] rc) = rc :=
      Function.LeftInverse.iterate roundConstDown_roundConstUp (n + 1) rc
    rw [decryptRounds_succ, hrc, encryptRounds, Function.iterate_succ_apply, ih,
      shiftGamma_shiftGamma, thetaDecrypt_thetaEncrypt, roundConstAdd_roundConstAdd]

theorem encryptRounds_decryptRounds (k : State) (n : ℕ) (rc : UInt8) (s : State) :
    encryptRounds k n (roundConstDown^[n] rc) (decryptRounds k n rc s) = s := by
  induction n generalizing rc s with
  | zero =>
    change thetaEncrypt k (roundConstAdd rc (roundConstAdd rc (thetaDecrypt k s))) = s
    rw [roundConstAdd_roundConstAdd, thetaEncrypt_thetaDecrypt]
  | succ n ih =>
    have hrc : roundConstUp^[n + 1] (roundConstDown^[n + 1] rc) = rc :=
      Function.LeftInverse.iterate roundConstUp_roundConstDown (n + 1) rc
    rw [encryptRounds_succ, hrc, decryptRounds, Function.iterate_succ_apply, ih,
      shiftGamma_shiftGamma, roundConstAdd_roundConstAdd, thetaEncrypt_thetaDecrypt]

theorem roundConstDown_sixteen : roundConstDown^[16] 0xD4 = 0x80 := by decide +kernel

theorem append_extract (x : Word) : x.extractLsb' 24 8 ++ x.extractLsb' 16 8 ++
    x.extractLsb' 8 8 ++ x.extractLsb' 0 8 = x := by
  ext i hi
  simp only [BitVec.getElem_append, BitVec.getElem_extractLsb']
  split_ifs
  all_goals
    rw [← BitVec.getLsbD_eq_getElem]
    congr 1
    omega

theorem extract_append (a b c d : BitVec 8) :
    (a ++ b ++ c ++ d).extractLsb' 0 8 = d ∧ (a ++ b ++ c ++ d).extractLsb' 8 8 = c ∧
    (a ++ b ++ c ++ d).extractLsb' 16 8 = b ∧ (a ++ b ++ c ++ d).extractLsb' 24 8 = a := by
  refine ⟨?_, ?_, ?_, ?_⟩
  all_goals
    ext i hi
    simp only [BitVec.getElem_extractLsb', BitVec.getLsbD_append]
    rw [← BitVec.getLsbD_eq_getElem]
    split_ifs
    all_goals first | omega | (congr 1; omega)

theorem load_store (s : State) : load (store s) = s := by
  have h (i : Fin 4) : loadWord (store s) i = State.word s i := by
    unfold loadWord store
    fin_cases i <;> exact append_extract _
  simp only [load, h]
  rfl

theorem store_load (b : Bytes 16) : store (load b) = b := by
  funext i
  have hword (j : Fin 4) : State.word (load b) j = loadWord b j := by fin_cases j <;> rfl
  have hi : i.val % 4 = 0 ∨ i.val % 4 = 1 ∨ i.val % 4 = 2 ∨ i.val % 4 = 3 := by omega
  have hb {k : ℕ} (hk : i.val % 4 = k) (h : 4 * (i.val / 4) + k < 16) :
      b ⟨4 * (i.val / 4) + k, h⟩ = b i := congrArg b (Fin.ext (by dsimp only; omega))
  unfold store
  rw [hword]
  unfold loadWord
  obtain ⟨h0, h1, h2, h3⟩ := extract_append (b ⟨4 * (i.val / 4) + 3, by omega⟩).toBitVec
    (b ⟨4 * (i.val / 4) + 2, by omega⟩).toBitVec (b ⟨4 * (i.val / 4) + 1, by omega⟩).toBitVec
    (b ⟨4 * (i.val / 4), by omega⟩).toBitVec
  rcases hi with hi | hi | hi | hi <;> rw [hi]
  · exact (congrArg UInt8.ofBitVec h0).trans (hb hi (by omega))
  · exact (congrArg UInt8.ofBitVec h1).trans (hb hi (by omega))
  · exact (congrArg UInt8.ofBitVec h2).trans (hb hi (by omega))
  · exact (congrArg UInt8.ofBitVec h3).trans (hb hi (by omega))

/-- `noekeon_decrypt` after `noekeon_encrypt` under the same key. -/
theorem noekeonDecrypt_noekeonEncrypt (c : Cipher) : noekeonDecrypt (noekeonEncrypt c) = c := by
  unfold noekeonDecrypt noekeonEncrypt
  dsimp only
  rw [load_store, ← roundConstUp_sixteen, decryptRounds_encryptRounds, store_load]

/-- `noekeon_encrypt` after `noekeon_decrypt` under the same key. -/
theorem noekeonEncrypt_noekeonDecrypt (c : Cipher) : noekeonEncrypt (noekeonDecrypt c) = c := by
  unfold noekeonDecrypt noekeonEncrypt
  dsimp only
  rw [load_store, ← roundConstDown_sixteen, encryptRounds_decryptRounds, store_load]

end Memtype
