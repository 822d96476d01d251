import Memtype.Lib.Avr
import Memtype.Spec.Basic

/-! The routines of noekeon.S, instruction by instruction. `cipher` is `STATE_START`; a
routine that is jumped to or falls through into the next calls it. Return addresses are
not kept in the data memory. -/

namespace Memtype

namespace Asm

open Lib

inductive Reg where
  | roundConst | temp1 | temp2 | roundCounter | state0 | state1 | state2 | state3
  deriving DecidableEq

abbrev Core := Avr Reg

/-- `sbrc round_counter, IS_DECRYPTION` does not skip. -/
def isDecryption (c : Core) : Bool := (c.reg .roundCounter).toBitVec.getLsbD 7

def ram2RegWord0Half (c : Core) : Core := c |>.ldInc .state2 |>.ldInc .state3

def ram2RegWord0 (c : Core) : Core := c |>.ldInc .state0 |>.ldInc .state1 |> ram2RegWord0Half

def reg2RamWord0 (c : Core) : Core :=
  c |>.stInc .state0 |>.stInc .state1 |>.stInc .state2 |>.stInc .state3

def noekeonShiftRightLeftEnd (c : Core) : Core := c |>.subiXl 4 |> reg2RamWord0

def noekeonShiftLeftLoop (c : Core) : Core :=
  c |>.lsl .temp2 |>.rol .state0 |>.rol .state1 |>.rol .state2 |>.rol .state3 |>.dec .temp1

def noekeonShiftLeft (c : Core) : Outcome Core :=
  (doWhile (fun c => .ret (noekeonShiftLeftLoop c)) (fun c => !c.negative) 256
    (c |> ram2RegWord0 |>.mov .temp2 .state3)).bind fun c => .ret (noekeonShiftRightLeftEnd c)

def noekeonShiftRightLoop (c : Core) : Core :=
  c |>.lsr .temp2 |>.ror .state3 |>.ror .state2 |>.ror .state1 |>.ror .state0 |>.dec .temp1

def noekeonShiftRight (c : Core) : Outcome Core :=
  (doWhile (fun c => .ret (noekeonShiftRightLoop c)) (fun c => !c.negative) 256
    (c |> ram2RegWord0 |>.mov .temp2 .state0)).bind fun c => .ret (noekeonShiftRightLeftEnd c)

section

variable (cipher : UInt16)

def noekeonRoundConstAdd (c : Core) : Core :=
  c |>.ldiXl (lo8 cipher) |>.ld .state0 |>.eor .state0 .roundConst |>.st .state0

def noekeonShiftPi1 (c : Core) : Outcome Core :=
  (c |>.ldiXl (lo8 (cipher + 0x04)) |>.ldi .temp1 0 |> noekeonShiftLeft).bind fun c =>
  (c |>.ldi .temp1 0x04 |> noekeonShiftLeft).bind fun c =>
  c |>.ldi .temp1 1 |> noekeonShiftLeft

def noekeonShiftPi2 (c : Core) : Outcome Core :=
  (c |>.ldiXl (lo8 (cipher + 0x04)) |>.ldi .temp1 0 |> noekeonShiftRight).bind fun c =>
  (c |>.ldi .temp1 0x04 |> noekeonShiftRight).bind fun c =>
  c |>.ldi .temp1 1 |> noekeonShiftRight

def noekeonGammaNonLinearByte (c : Core) : Core :=
  c |>.mov .temp1 .state2 |>.or .temp1 .state3 |>.com .temp1 |>.eor .state1 .temp1
    |>.mov .temp1 .state2 |>.and .temp1 .state1 |>.eor .state0 .temp1

def noekeonGammaByte (c : Core) : Core :=
  c |>.ld .state1 |>.adiwX 8 |>.ld .state3 |>.subiXl 0x04 |>.ld .state2 |>.subiXl 8 |>.ld .state0
    |> noekeonGammaNonLinearByte
    |>.mov .temp1 .state3 |>.mov .state3 .state0 |>.mov .state0 .temp1
    |>.eor .temp1 .state1 |>.eor .temp1 .state3 |>.eor .state2 .temp1
    |> noekeonGammaNonLinearByte
    |>.st .state0 |>.adiwX 12 |>.st .state3 |>.subiXl 0x04 |>.st .state2 |>.subiXl 0x04
    |>.stInc .state1

def noekeonGamma (c : Core) : Core :=
  c |>.ldiXl (lo8 (cipher + 0x04)) |> noekeonGammaByte |> noekeonGammaByte |> noekeonGammaByte
    |> noekeonGammaByte

def noekeonThetaApplyXorAndShiftLoad (c : Core) : Core :=
  c |> ram2RegWord0Half |>.eor .temp1 .state2 |>.eor .temp1 .state3
    |> ram2RegWord0Half |>.eor .temp1 .state2 |>.eor .temp1 .state3

def noekeonThetaApplyXor (c : Core) : Core :=
  c |>.movToXl .state1 |>.inc .state1
    |>.ldInc .state2 |>.adiwX 7 |>.ldInc .state3
    |>.eor .state2 .temp1 |>.eor .state2 .state3
    |>.movToXl .state0 |>.ld .state3 |>.eor .state3 .state2 |>.st .state3
    |>.adiwX 8 |>.ld .state3 |>.eor .state3 .state2 |>.st .state3
    |>.subiXl 7 |>.movOfXl .state0 |>.movToXl .state1

def noekeonThetaApplyXorAndShift (c : Core) : Core :=
  c |>.ldi .temp1 0 |> noekeonThetaApplyXorAndShiftLoad |>.adiwX 0x04
    |> noekeonThetaApplyXorAndShiftLoad
    |>.subiXl 10 |>.movOfXl .state1 |> noekeonThetaApplyXor |> noekeonThetaApplyXor
    |>.subi .state1 0x04 |> noekeonThetaApplyXor |> noekeonThetaApplyXor

def noekeonThetaXorKey (c : Core) : Core :=
  c |>.ld .state3 |>.subiXl 16 |>.ld .state2 |>.eor .state2 .state3 |>.stInc .state2 |>.adiwX 16

inductive ThetaPart where
  | part1 | part2 | part3

/-- A part up to the test of `IS_DECRYPTION` at its end. -/
def thetaBody (c : Core) : ThetaPart → Outcome Core
  | .part1 => .ret (c |>.ldiXl (lo8 (cipher + 0)) |>.ldi .state0 (lo8 (cipher + 0x04))
      |> noekeonThetaApplyXorAndShift)
  | .part2 => c |>.ldiXl (lo8 (cipher + 16)) |>.ldi .temp1 15 |>
      doWhile (fun c => .ret (c |> noekeonThetaXorKey |>.dec .temp1)) (fun c => !c.negative) 256
  | .part3 => .ret (c |>.ldiXl (lo8 (cipher + 0x04)) |>.ldi .state0 (lo8 (cipher + 0))
      |> noekeonThetaApplyXorAndShift)

/-- Where the test at the end of a part leads; `none` is `ret`. -/
def thetaNext : ThetaPart → Bool → Option ThetaPart
  | .part1, true => none
  | .part1, false => some .part2
  | .part2, true => some .part1
  | .part2, false => some .part3
  | .part3, true => some .part2
  | .part3, false => none

/-- From a label to the `ret`, through at most `fuel` parts. -/
def thetaFrom : ℕ → ThetaPart → Core → Outcome Core
  | 0, _, c => .spin c
  | fuel + 1, p, c => (thetaBody cipher c p).bind fun c =>
    match thetaNext p (isDecryption c) with
    | none => .ret c
    | some p => thetaFrom fuel p c

def noekeonThetaEncrypt (c : Core) : Outcome Core := thetaFrom cipher 3 .part1 c

def noekeonThetaDecrypt (c : Core) : Outcome Core := thetaFrom cipher 3 .part3 c

def roundTail (c : Core) : Outcome Core :=
  (noekeonShiftPi1 cipher c).bind fun c => noekeonShiftPi2 cipher (noekeonGamma cipher c)

def noekeonRoundFunctionEncrypt (c : Core) : Outcome Core :=
  (noekeonThetaEncrypt cipher (noekeonRoundConstAdd cipher c)).bind (roundTail cipher)

def noekeonRoundFunctionDecrypt (c : Core) : Outcome Core :=
  (noekeonThetaDecrypt cipher c).bind fun c => roundTail cipher (noekeonRoundConstAdd cipher c)

/-- `brcc` over the `eor`, and the next count. -/
def nextRound (c : Core) : Core :=
  (if c.carry then c.eor .roundConst .temp1 else c) |>.inc .roundCounter

/-- `sbrs round_counter, 4` does not skip. -/
def moreRounds (c : Core) : Bool := !(c.reg .roundCounter).toBitVec.getLsbD 4

def encrypt (c : Core) : Outcome Core :=
  (c |>.ldi .roundCounter 0x00 |>.ldi .roundConst 0x80 |>
    doWhile (fun c => (noekeonRoundFunctionEncrypt cipher c).bind fun c =>
      .ret (c |>.ldi .temp1 0x1B |>.lsl .roundConst |> nextRound)) moreRounds 256).bind fun c =>
  noekeonThetaEncrypt cipher (noekeonRoundConstAdd cipher c)

def decrypt (c : Core) : Outcome Core :=
  (c |>.ldi .roundCounter 0x80 |>.ldi .roundConst 0xD4 |>
    doWhile (fun c => (noekeonRoundFunctionDecrypt cipher c).bind fun c =>
      .ret (c |>.ldi .temp1 0x8D |>.lsr .roundConst |> nextRound)) moreRounds 256).bind fun c =>
  (noekeonThetaDecrypt cipher c).bind fun c => .ret (noekeonRoundConstAdd cipher c)

def noekeonEncrypt (c : Core) : Outcome Core :=
  c |>.ldiXh (hi8 cipher) |>.ldiXl (lo8 cipher) |> encrypt cipher

def noekeonDecrypt (c : Core) : Outcome Core :=
  c |>.ldiXh (hi8 cipher) |>.ldiXl (lo8 cipher) |> decrypt cipher

end

end Asm

end Memtype
