import Memtype.Spec.UsbAsm

/-! The transmitter and the receiver of usbdrvasm165.inc, instruction by instruction, but for their
timing: the samples that the receiver takes between the bits only steer the delay of its phase
locked loop, and neither they nor `phase` and `r0`, which hold them, are here. -/

namespace Memtype

namespace UsbLine

open Lib

def usbMinus : ℕ := 3
def usbPlus : ℕ := 4

def usbMask : UInt8 := 0x18

/-- `USBIDLE`: the value of J. -/
def usbIdle : UInt8 := 0x08

/-- The registers, the pointer Y, what has been written to `USBOUT` and the samples of `USBIN` that
are still to come. When there are none left both lines are low. -/
structure Core where
  x1 : UInt8 := 0
  x2 : UInt8 := 0
  /-- also `bitStatus` -/
  x3 : UInt8 := 0
  x4 : UInt8 := 0
  shift : UInt8 := 0
  cnt : UInt8 := 0
  y : UInt16 := 0
  carry : Bool := false
  ram : Mem := fun _ => 0
  out : List UInt8 := []
  samples : List UInt8 := []

def bit (v : UInt8) (i : ℕ) : Bool := v.toBitVec.getLsbD i

namespace Core

def outX1 (c : Core) : Core := { c with out := c.out ++ [c.x1] }

/-- `eor x1, x4` -/
def toggle (c : Core) : Core := { c with x1 := c.x1 ^^^ c.x4 }

def rorShift (c : Core) : Core :=
  { c with shift := shiftRightIn c.shift c.carry, carry := bit c.shift 0 }

def rorX2 (c : Core) : Core := { c with x2 := shiftRightIn c.x2 c.carry, carry := bit c.x2 0 }

/-- `cpi x2, 0xfc` -/
def cpiX2 (c : Core) : Core := { c with carry := decide (c.x2 < 0xfc) }

def ldShift (c : Core) : Core := { c with shift := c.ram c.y, y := c.y + 1 }

/-- `sbrs shift, 0`, `eor x1, x4` -/
def level (c : Core) : Core := if bit c.shift 0 then c else c.toggle

/-- `bitstuffN`, with the byte that its `lpm` reads into r0, which is at address 0. -/
def bitstuffN (lpm : UInt8) (c : Core) : Core :=
  { { c.toggle with x2 := 0, ram := Function.update c.ram 0 lpm }.outX1 with carry := true }

def bitloop (lpm : UInt8) (c : Core) : Core :=
  let c := c.level.outX1.rorShift.rorX2.cpiX2
  let c := if c.carry then c else c.bitstuffN lpm
  { c with x3 := c.x3 - 37, carry := decide (c.x3 < 37) }

/-- `bitstuff7`, back to `didStuff7` with the carry clear. -/
def bitstuff7 (c : Core) : Core := { c.toggle with x2 := 0, carry := false }.outX1.rorX2.cpiX2

def lastBit (c : Core) : Core :=
  let c := c.level.rorShift.outX1.rorX2.cpiX2
  let c := if c.carry then c else c.bitstuff7
  { c.ldShift with cnt := c.cnt - 1 }

def byteloop (lpm : UInt8) (c : Core) : Outcome Core :=
  (doWhile (fun c => .ret (c.bitloop lpm)) (fun c => !c.carry) 256 c).bind fun c => .ret c.lastBit

/-- Up to `byteloop`: the idle state on the lines, and the sync byte. -/
def acquire (usbOut : UInt8) (c : Core) : Core :=
  { c with x1 := usbOut ||| usbIdle, x4 := usbMask, shift := 0x80, x3 := 0xff }

/-- From SE0 to the release of the bus. -/
def release (c : Core) : Core :=
  let c := { c with x1 := c.x1 &&& ~~~usbMask }.outX1
  let c := { c with x1 := c.x1 ||| usbIdle }.outX1
  { c with x1 := c.x1 &&& ~~~usbMask }.outX1

/-- `usbSendAndReti` with what `USBOUT` and `x2` hold before. -/
def usbSendAndReti (lpm usbOut : UInt8) (c : Core) : Outcome Core :=
  (doWhile (byteloop lpm) (fun c => c.cnt ≠ 0) 256 (c.acquire usbOut)).bind fun c => .ret c.release

/-- `sts usbDeviceAddr, x2`, unless `subi YL, 2`, `sbci YH, 0` gives zero. -/
def assignsAddress (c : Core) : Bool := c.y - 2 ≠ 0

/-- `sendCntAndReti`: a handshake is sent from r0. -/
def sendCntAndReti (lpm usbOut cnt : UInt8) (c : Core) : Outcome Core :=
  usbSendAndReti lpm usbOut { c with ram := Function.update c.ram 0 cnt, y := 0, cnt := 2 }

def sample (c : Core) : UInt8 := c.samples.headD 0

def inX1 (c : Core) : Core := { c with x1 := c.sample, samples := c.samples.tail }
def inX2 (c : Core) : Core := { c with x2 := c.sample, samples := c.samples.tail }

end Core

/-- `bst v, USBMINUS`, `bld r, i` -/
def bld (v r : UInt8) (i : ℕ) : UInt8 :=
  if bit v usbMinus then r ||| (1 <<< UInt8.ofNat i) else r &&& ~~~(1 <<< UInt8.ofNat i)

namespace Core

/-- `eor x1, x2`, and its bit of D- to `shift` -/
def takeX1 (i : ℕ) (c : Core) : Core :=
  { c with x1 := c.x1 ^^^ c.x2, shift := bld (c.x1 ^^^ c.x2) c.shift i }

def takeX2 (i : ℕ) (c : Core) : Core :=
  { c with x2 := c.x2 ^^^ c.x1, shift := bld (c.x2 ^^^ c.x1) c.shift i }

def andiShift (m : UInt8) (c : Core) : Core := { c with shift := c.shift &&& m }

/-- `andi x3, ~m` and `ori shift, m` -/
def unstuffed (m : UInt8) (c : Core) : Core := { c with x3 := c.x3 &&& ~~~m, shift := c.shift ||| m }

def movX1 (c : Core) : Core := { c with x1 := c.x2 }

def movX2 (c : Core) : Core := { c with x2 := c.x1 }

end Core

inductive Ending where
  | se0 | overflow
  deriving DecidableEq

abbrev Received := Except (Ending × Core) Core

namespace Core

/-- `andi x2, USBMASK`, and to `se0` if nothing is left. -/
def checkSe0 (c : Core) : Received :=
  let c := { c with x2 := c.x2 &&& usbMask }
  if c.x2 = 0 then throw (.se0, c) else pure c

/-- From `rxbit1` to `didUnstuff0`, with the zero flag of bit 0. -/
def rxbit1 (z : Bool) (c : Core) : Received :=
  if z then do
    -- unstuff0
    let c ← c.inX2.checkSe0
    pure (c.unstuffed 0x01).movX1.inX2
  else c.inX2.checkSe0

/-- From `didUnstuff0` to the overflow check. -/
def didUnstuff0 (c : Core) : Core :=
  let c := (c.takeX1 1).andiShift 0xf3
  let z := c.shift == 0
  let c := c.inX1
  if z then (c.unstuffed 0x02).movX2.inX1 else c

def checkOverflow (c : Core) : Received :=
  let c := { c with cnt := c.cnt - 1, carry := decide (c.cnt < 1) }
  if c.carry then throw (.overflow, c) else pure c

def bit2 (c : Core) : Core :=
  let c := (c.takeX2 2).andiShift 0xe7
  let z := c.shift == 0
  let c := c.inX2
  if z then (c.unstuffed 0x04).movX1.inX2 else c

def bit3 (c : Core) : Core :=
  let c := (c.takeX1 3).andiShift 0xcf
  if c.shift == 0 then c.inX2.unstuffed 0x08 else c

def bit4 (c : Core) : Core :=
  let c := (c.inX1.takeX2 4).andiShift 0x9f
  if c.shift == 0 then (c.inX1.unstuffed 0x10).andiShift 0x9f else c

def bit6 (c : Core) : Core :=
  let c := c.takeX2 6
  if c.shift < 0x02 then c.inX1.unstuffed 0x40 else c

/-- `continueWithBit5` to `didUnstuff5`: bits 5 and 6. Behind a stuffed bit 5 there is no need to
look for another. -/
def continueWithBit5 (c : Core) : Core :=
  let c := (c.inX2.takeX1 5).andiShift 0x3f
  let z := c.shift == 0
  let c := c.inX1
  if z then (c.unstuffed 0x20).movX2.inX1.takeX2 6 else c.bit6

def bit7 (c : Core) : Core :=
  let c := c.inX2.takeX1 7
  if c.shift < 0x04 then (c.unstuffed 0x80).inX2 else c

/-- `rxLoop` up to `rxbit1`, with the zero flag. -/
def rxLoop (c : Core) : Bool × Core :=
  let c := { c with x3 := c.x3 ^^^ c.shift }.inX1
  let c := { c with ram := Function.update c.ram c.y c.x3, y := c.y + 1 }
  let c := ({ c with x3 := 0xff }.takeX2 0).andiShift 0xf9
  (c.shift == 0, c)

def rxByte (z : Bool) (c : Core) : Received := do
  let c ← c.rxbit1 z
  let c ← c.didUnstuff0.checkOverflow
  pure c.bit2.bit3.bit4.continueWithBit5.bit7

def receive : ℕ → Bool → Core → Received
  | 0, _, c => pure c
  | fuel + 1, z, c => do
    let c ← c.rxByte z
    receive fuel c.rxLoop.1 c.rxLoop.2

/-- `haveTwoBitsK` up to `rxbit1`. -/
def haveTwoBitsK (c : Core) : Core :=
  let c := { c with shift := 0xff, x3 := 0xff }.inX1
  { c with shift := bld c.x1 c.shift 0, cnt := 11 }

/-- What is received behind the sync pattern; the overflow check ends the loop before the fuel. -/
def received (c : Core) : Received := receive 13 false c.haveTwoBitsK

end Core

end UsbLine

end Memtype
