import Memtype.Spec.Crd
import Memtype.Spec.Fls

/-! ucp.c: the USB protocol, its read and write transfers and the deferred write.
`UIF_Init` of uif.c is here because a completed SET_PIN calls it. -/

namespace Memtype

open Lib

def ucpCmdError : UInt8 := 0x00
def ucpCmdReset : UInt8 := 0x01
def ucpCmdRead : UInt8 := 0x02
def ucpCmdWrite : UInt8 := 0x03
def ucpCmdData : UInt8 := 0x04
def ucpCmdInfo : UInt8 := 0x05
def ucpCmdSetPin : UInt8 := 0x07
def ucpCmdReadPin : UInt8 := 0x08
def ucpCmdKeyboard : UInt8 := 0x09

def ucpErrCmd : UInt8 := 0xF2
def ucpErrSize : UInt8 := 0xF4
def ucpErrProtocol : UInt8 := 0xF5
def ucpErrLocked : UInt8 := 0xF6

def infoData : Bytes 7 := ![3, 2, 0, 0x00, 0x08, 0, 0]

def uifInit (L : Layout) (d : Device) : Device :=
  (printStr L.uifInitStr .flash { d with uif := { d.uif with uifState := .start } }).call .uifInit

namespace Ucp

/-- `customReport.buf[0] = UCP_CMD_ERROR; customReport.buf[1] = code`. -/
def error (code : UInt8) (u : Ucp) : Ucp :=
  { u with customReport := Function.update (Function.update u.customReport 0 ucpCmdError) 1 code }

def protocolError (u : Ucp) : Ucp := { u with ucpState := .idle }.error ucpErrProtocol

end Ucp

namespace Device

def setUcp (d : Device) (u : Ucp) : Device := { d with ucp := u }

end Device

def ucpInit (d : Device) : Device := d.setUcp { d.ucp with ucpState := .deviceLocked }

def ucpUnlock (d : Device) : Device :=
  { d.setUcp { d.ucp with ucpState := .idle } with led := { d.led with led := .green } }

def ucpLock (d : Device) : Device :=
  { d.setUcp { d.ucp with ucpState := .deviceLocked } with led := { d.led with led := .red } }

/-- The 8 bytes that a `READING` report takes from flash, RAM or EEPROM. -/
def readReport (L : Layout) (d : Device) : Bytes 8 :=
  if d.ucp.readType = 0 then d.flash.mem.read (L.credentials + d.ucp.readOffset) 8
  else if d.ucp.readType = 1 then fun i => d.ramByte L (d.ucp.readOffset + UInt16.ofNat i)
  else d.eeprom.read d.ucp.readOffset 8

def ucpTask (L : Layout) (d : Device) : Device :=
  let u := d.ucp
  match u.ucpState with
  | .writeEeprom | .idle | .deviceLocked => d
  | .readingCmd => d.setUcp { u with ucpState := .reading }
  | .reading =>
    if u.readOffset < u.readEnd then
      let u := { u with customReport := readReport L d, readOffset := u.readOffset + 8 }
      d.setUcp (if u.readEnd ≤ u.readOffset then { u with ucpState := .idle } else u)
    else d.setUcp u.protocolError
  | .writting =>
    if u.usbWriteAccepted then d.setUcp { u with usbWrite := true, usbWriteAccepted := false }
    else d

def decodeWritting (d : Device) : Device :=
  let u := d.ucp
  if u.usbWrite = false ∧ u.readOffset < u.readEnd then
    (d.setUcp { u with usbWriteAccepted := true }).call (.accept u.customReport)
  else d.setUcp { u.protocolError with usbWriteAccepted := false, usbWrite := false }

/-- `eeprom_update_block` of the report at `readOffset`. -/
def eepromUpdate (d : Device) : Device :=
  let p := d.ucp.customReport
  { d with eeprom := d.eeprom.write d.ucp.readOffset 8 fun i => p (Fin.ofNat 8 i) }.call
    (.eepromUpdate d.ucp.readOffset p)

def decodeEeprom (L : Layout) (d : Device) : Device :=
  if d.ucp.readOffset < d.ucp.readEnd then
    let d := eepromUpdate d
    let d := d.setUcp { d.ucp with readOffset := d.ucp.readOffset + 8 }
    if d.ucp.readEnd ≤ d.ucp.readOffset then
      if d.ucp.lockAfterSetPin then
        let d := uifInit L d
        d.setUcp { d.ucp with lockAfterSetPin := false }
      else d.setUcp { d.ucp with ucpState := .idle }
    else d
  else d.setUcp d.ucp.protocolError

def decodeCommand (L : Layout) (data : Bytes 8) (d : Device) : Device :=
  let u := d.ucp
  let cmd := data 0
  if cmd = ucpCmdReset then d
  else if cmd = ucpCmdRead then
    if u.ucpState = .idle then
      d.setUcp { u with ucpState := .readingCmd, readOffset := word data 1 2,
                        readEnd := word data 1 2 + word data 3 4, readType := data 5 }
    else d.setUcp u.protocolError
  else if cmd = ucpCmdWrite then
    if u.ucpState = .idle then
      (d.setUcp { u with ucpState := .writting, readOffset := word data 1 2,
                         readEnd := word data 1 2 + word data 3 4, buffIndex := 0,
                         flashWriteAddr := word data 1 2 + L.credentials }).call .openWrite
    else d.setUcp u.protocolError
  else if cmd = ucpCmdSetPin then
    (d.setUcp { u with ucpState := .writeEeprom, readOffset := L.lockHash,
                       readEnd := L.lockHash + 16, lockAfterSetPin := true }).call .setPin
  else if cmd = ucpCmdReadPin then
    d.setUcp { u with ucpState := .readingCmd, readOffset := L.lockHash,
                      readEnd := L.lockHash + 16, readType := 2 }
  else if cmd = ucpCmdKeyboard then
    (d.setUcp { u with ucpState := .writeEeprom, readOffset := L.keyboardLut,
                       readEnd := L.keyboardLut + UInt16.ofNat keyboardSize }).call .keyboard
  else if cmd = ucpCmdData then d
  else if cmd = ucpCmdInfo then
    d.setUcp { u with customReport := Fin.cons (u.customReport 0) infoData }
  else d.setUcp (u.error ucpErrCmd)

/-- `UCP_Decode`. `data` is what the receive buffer holds where the packet starts: 8
bytes are copied whatever `len` is. -/
def ucpDecode (L : Layout) (data : Bytes 8) (len : UInt8) (d : Device) : Device :=
  let d := d.setUcp { d.ucp with customReport := data }
  if len ≠ 8 then d.setUcp (d.ucp.error ucpErrSize)
  else
    match d.ucp.ucpState with
    | .deviceLocked => d.setUcp (d.ucp.error ucpErrLocked)
    | .writting => decodeWritting d
    | .writeEeprom => decodeEeprom L d
    | .idle | .readingCmd | .reading => decodeCommand L data d

/-- `tempBuff[buffIndex++] = b; readOffset++`. -/
def storeByte (b : UInt8) (u : Ucp) : Ucp :=
  { u with tempBuff := Function.update u.tempBuff u.buffIndex.toNat b,
           buffIndex := u.buffIndex + 1, readOffset := u.readOffset + 1 }

def Ucp.flushDue (u : Ucp) : Bool :=
  u.readOffset % UInt16.ofNat spmPagesize = 0 ∨ u.readEnd ≤ u.readOffset

/-- `FLS_write` of the buffer, which is then empty. -/
def flush (d : Device) : Outcome Device :=
  match flsWrite d.ucp.tempBuff d.ucp.flashWriteAddr d.ucp.buffIndex.toUInt16 d.flash with
  | .spin f => .spin { d with flash := f }
  | .ret f => .ret { d with flash := f, ucp := { d.ucp with
      flashWriteAddr := d.ucp.flashWriteAddr + d.ucp.buffIndex.toUInt16, buffIndex := 0 } }

/-- The `for` loop of `UCP_WriteTask` over the bytes of the report that are left. -/
def ucpWriteLoop (L : Layout) : List UInt8 → Device → Outcome Device
  | [], d => .ret d
  | b :: bs, d =>
    let d := d.setUcp (storeByte b d.ucp)
    if d.ucp.flushDue then
      (flush d).bind fun d =>
        -- the end of the transfer leaves the loop
        if d.ucp.readEnd ≤ d.ucp.readOffset then
          crdInit L (d.setUcp { d.ucp with ucpState := .idle })
        else ucpWriteLoop L bs d
    else ucpWriteLoop L bs d

def ucpWriteTask (L : Layout) (d : Device) : Outcome Device :=
  if d.ucp.usbWrite then
    let d := d.call (.copy d.ucp.ucpState d.ucp.customReport)
    (ucpWriteLoop L (List.ofFn d.ucp.customReport) d).bind fun d =>
      .ret (d.setUcp { d.ucp with usbWrite := false })
  else .ret d

end Memtype
