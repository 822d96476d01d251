import Memtype.Spec.Basic

/-! The cipher of noekeon.S, read on the four little-endian words of the state.
`noekeonEncrypt` and `noekeonDecrypt` share the shifts and `gamma` and run the three
parts of `theta` in opposite orders, with the round constants stepped forwards or
backwards. -/

namespace Memtype

abbrev Word := BitVec 32

structure State where
  w0 : Word
  w1 : Word
  w2 : Word
  w3 : Word
  deriving DecidableEq

namespace Noekeon

/-- `temp = word0 ^ word2; temp ^= temp>>>8 ^ temp<<<8; word1 ^= temp; word3 ^= temp` -/
def thetaPart1 (s : State) : State :=
  let t := s.w0 ^^^ s.w2
  let t := t ^^^ t.rotateRight 8 ^^^ t.rotateLeft 8
  { s with w1 := s.w1 ^^^ t, w3 := s.w3 ^^^ t }

def thetaPart2 (k s : State) : State :=
  ⟨s.w0 ^^^ k.w0, s.w1 ^^^ k.w1, s.w2 ^^^ k.w2, s.w3 ^^^ k.w3⟩

/-- `temp = word1 ^ word3; temp ^= temp>>>8 ^ temp<<<8; word0 ^= temp; word2 ^= temp` -/
def thetaPart3 (s : State) : State :=
  let t := s.w1 ^^^ s.w3
  let t := t ^^^ t.rotateRight 8 ^^^ t.rotateLeft 8
  { s with w0 := s.w0 ^^^ t, w2 := s.w2 ^^^ t }

def thetaEncrypt (k s : State) : State := thetaPart3 (thetaPart2 k (thetaPart1 s))

def thetaDecrypt (k s : State) : State := thetaPart1 (thetaPart2 k (thetaPart3 s))

def roundConstAdd (rc : UInt8) (s : State) : State :=
  { s with w0 := s.w0 ^^^ rc.toBitVec.setWidth 32 }

def shiftPi1 (s : State) : State :=
  ⟨s.w0, s.w1.rotateLeft 1, s.w2.rotateLeft 5, s.w3.rotateLeft 2⟩

def shiftPi2 (s : State) : State :=
  ⟨s.w0, s.w1.rotateRight 1, s.w2.rotateRight 5, s.w3.rotateRight 2⟩

/-- `word1 ^= ~(word3 | word2); word0 ^= word2 & word1` -/
def gammaNonLinear (s : State) : State :=
  let w1 := s.w1 ^^^ ~~~(s.w3 ||| s.w2)
  { s with w1 := w1, w0 := s.w0 ^^^ (s.w2 &&& w1) }

def gamma (s : State) : State :=
  let s := gammaNonLinear s
  gammaNonLinear ⟨s.w3, s.w1, s.w2 ^^^ (s.w3 ^^^ s.w1 ^^^ s.w0), s.w0⟩

/-- The part of a round that encryption and decryption share, from `noekeon_shift_pi1` on. -/
def shiftGamma (s : State) : State := shiftPi2 (gamma (shiftPi1 s))

/-- `lsl`, and `eor 0x1B` on carry. -/
def roundConstUp (rc : UInt8) : UInt8 :=
  if rc &&& 0x80 = 0 then rc <<< 1 else (rc <<< 1) ^^^ 0x1B

/-- `lsr`, and `eor 0x8D` on carry. -/
def roundConstDown (rc : UInt8) : UInt8 :=
  if rc &&& 0x01 = 0 then rc >>> 1 else (rc >>> 1) ^^^ 0x8D

/-- `n` rounds and the last half round of an encryption that starts at constant `rc`. -/
def encryptRounds (k : State) : ℕ → UInt8 → State → State
  | 0, rc, s => thetaEncrypt k (roundConstAdd rc s)
  | n + 1, rc, s =>
    encryptRounds k n (roundConstUp rc) (shiftGamma (thetaEncrypt k (roundConstAdd rc s)))

def decryptRounds (k : State) : ℕ → UInt8 → State → State
  | 0, rc, s => roundConstAdd rc (thetaDecrypt k s)
  | n + 1, rc, s =>
    decryptRounds k n (roundConstDown rc) (shiftGamma (roundConstAdd rc (thetaDecrypt k s)))

def loadWord (b : Bytes 16) (i : Fin 4) : Word :=
  (b ⟨4 * i + 3, by omega⟩).toBitVec ++ (b ⟨4 * i + 2, by omega⟩).toBitVec ++
    (b ⟨4 * i + 1, by omega⟩).toBitVec ++ (b ⟨4 * i, by omega⟩).toBitVec

def load (b : Bytes 16) : State := ⟨loadWord b 0, loadWord b 1, loadWord b 2, loadWord b 3⟩

def State.word (s : State) : Fin 4 → Word
  | 0 => s.w0
  | 1 => s.w1
  | 2 => s.w2
  | 3 => s.w3

def store (s : State) : Bytes 16 := fun i =>
  ⟨(State.word s ⟨i / 4, by omega⟩).extractLsb' (8 * (i % 4)) 8⟩

end Noekeon

open Noekeon

def noekeonEncrypt (c : Cipher) : Cipher :=
  { c with plain := store (encryptRounds (load c.key) 16 0x80 (load c.plain)) }

def noekeonDecrypt (c : Cipher) : Cipher :=
  { c with plain := store (decryptRounds (load c.key) 16 0xD4 (load c.plain)) }

/-- The hash of PIN 0000 that usi.c stores: `"0000…"` encrypted under itself. -/
example : (noekeonEncrypt ⟨fun _ => 0x30, fun _ => 0x30⟩).plain =
    ![0xd4, 0x4f, 0xb2, 0x7a, 0x58, 0xb4, 0x27, 0x4a, 0x21, 0xe6, 0x8f, 0x39, 0x69, 0x74, 0x23,
      0x54] := by
  decide +kernel

end Memtype
