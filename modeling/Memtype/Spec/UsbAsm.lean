import Memtype.Lib.Avr
import Memtype.Lib.Crc

/-! The CRC routines of usbdrvasm.S, instruction by instruction, without `USB_USE_FAST_CRC` and, in
`Fast`, with it. -/

namespace Memtype

namespace UsbAsm

open Lib

/-- The working registers; `argPtrL` and `argPtrH` are `resCrcL` and `resCrcH`. -/
inductive Reg where
  | argLen | byte | bitCnt | scratch | polyL | polyH | resCrcL | resCrcH
  deriving DecidableEq

abbrev Core := Avr Reg

def usbCrcNoXor (c : Core) : Core := c |>.subiCarry .bitCnt 224

def usbCrcBitLoop (c : Core) : Core :=
  let c := c |>.ror .resCrcH |>.ror .resCrcL
  usbCrcNoXor (if c.carry then c else c |>.eor .resCrcL .polyL |>.eor .resCrcH .polyH)

def usbCrcByteLoop (c : Core) : Outcome Core :=
  doWhile (fun c => .ret (usbCrcBitLoop c)) Avr.carry 256
    (c |>.ldInc .byte |>.eor .resCrcL .byte)

def usbCrcLoopEntry (c : Core) : Core := c |>.subiCarry .argLen 0xFF

def usbCrc16 (c : Core) : Outcome Core :=
  let c := c |>.movToXl .resCrcL |>.movToXh .resCrcH |>.ldi .resCrcL 0 |>.ldi .resCrcH 0
    |>.ldi .polyL 0x01 |>.ldi .polyH 0xA0 |>.comCarry .argLen |>.ldi .bitCnt 0 |> usbCrcLoopEntry
  if c.carry then
    doWhile (fun c => (usbCrcByteLoop c).bind fun c => .ret (usbCrcLoopEntry c)) Avr.carry 256 c
  else .ret c

def usbCrc16Append (c : Core) : Outcome Core :=
  (usbCrc16 c).bind fun c => .ret (c |>.stInc .resCrcL |>.stInc .resCrcH)

namespace Fast

def parity (c : Core) : Core :=
  c |>.mov .byte .resCrcL |>.swap .byte |>.eor .byte .resCrcL |>.mov .scratch .byte |>.lsr .byte
    |>.lsr .byte |>.eor .byte .scratch |>.inc .byte |>.lsr .byte |>.andi .byte 1

def usbCrc16ByteLoop (c : Core) : Core :=
  c |>.ldInc .byte |>.eor .resCrcL .byte |> parity |>.mov .scratch .resCrcL |>.mov .resCrcL .resCrcH
    |>.eor .resCrcL .byte |>.neg .byte |>.andi .byte 0xc0 |>.mov .resCrcH .byte |>.clr .byte
    |>.lsr .scratch |>.ror .byte |>.eor .resCrcH .scratch |>.eor .resCrcL .byte
    |>.lsr .scratch |>.ror .byte |>.eor .resCrcH .scratch |>.eor .resCrcL .byte

def usbCrc16LoopTest (c : Core) : Core := c |>.subiCarry .argLen 1

def usbCrc16 (c : Core) : Outcome Core :=
  let c := c |>.movToXl .resCrcL |>.movToXh .resCrcH |>.ldi .resCrcL 0xFF |>.ldi .resCrcH 0xFF
    |> usbCrc16LoopTest
  (if c.carry then .ret c
    else doWhile (fun c => .ret (usbCrc16LoopTest (usbCrc16ByteLoop c))) (fun c => !c.carry) 256 c).bind
  fun c => .ret (c |>.com .resCrcL |>.com .resCrcH)

end Fast

def crcPoly : BitVec 16 := 0xA001#16

def wire (l : List UInt8) : List Bool := l.flatMap fun b => Crc.lsbFirst b.toBitVec

def crcBytes (r : BitVec 16) (l : List UInt8) : BitVec 16 := Crc.bits crcPoly r (wire l)

/-- The CRC of the data of a packet, its bits complemented. -/
def crc16 (l : List UInt8) : BitVec 16 := ~~~crcBytes (BitVec.allOnes 16) l

end UsbAsm

end Memtype
