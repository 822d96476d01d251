import Memtype.Spec.Main
import Memtype.Spec.UsbAsm

/-! usbdrv.c and asmcommon.inc as usbconfig.h configures them, and the loop of `main`. The
interrupt routine is taken between the steps of the loop: while `usbRxLen` is not zero it answers
every IN with NAK, and while `usbTxLen` holds a handshake it does not read the buffer, so that what
it shares with a step is one variable, read or written once. -/

namespace Memtype

open Lib

def usbpidSetup : UInt8 := 0x2d
def usbpidOut : UInt8 := 0xe1
def usbpidIn : UInt8 := 0x69
def usbpidData0 : UInt8 := 0xc3
def usbpidData1 : UInt8 := 0x4b
def usbpidAck : UInt8 := 0xd2
def usbpidNak : UInt8 := 0x5a
def usbpidStall : UInt8 := 0x1e

def usbBufsize : ℕ := 11

instance neZero11 : NeZero (11 : ℕ) := ⟨by decide⟩
instance neZero22 : NeZero (22 : ℕ) := ⟨by decide⟩

def usbNoMsg : UInt8 := 0xFF

def usbFlgMsgptrIsRom : UInt8 := 0x40
def usbFlgUseUserRw : UInt8 := 0x80

/-- The bit that only handshake tokens have. -/
def isHandshake (len : UInt8) : Bool := len &&& 0x10 ≠ 0

def usbDescriptorString0 : List UInt8 := [4, 3, 0x09, 0x04]

def usbStringDescriptor (s : List UInt8) : List UInt8 :=
  UInt8.ofNat (2 * s.length + 2) :: 3 :: s.flatMap fun c => [c, 0]

def usbDescriptorStringVendor : List UInt8 :=
  usbStringDescriptor [0x61, 0x72, 0x65, 0x61, 0x30, 0x78, 0x33, 0x33]

def usbDescriptorStringDevice : List UInt8 :=
  usbStringDescriptor [0x4D, 0x65, 0x6D, 0x54, 0x79, 0x70, 0x65, 0x20]

def usbDescriptorDevice : List UInt8 :=
  [18, 1, 0x10, 0x01, 0, 0, 0, 8, 0x09, 0x12, 0x33, 0xA0, 0x00, 0x01, 1, 2, 0, 1]

def usbDescriptorConfiguration : List UInt8 :=
  [9, 2, 34, 0, 1, 1, 0, 0x80, 100,
   9, 4, 0, 0, 1, 3, 0, 0, 0,
   9, 0x21, 0x01, 0x01, 0x00, 0x01, 0x22, 63, 0,
   7, 5, 0x81, 0x03, 8, 0, 10]

def usbDescriptorHidReport : List UInt8 :=
  [0x05, 0x01, 0x09, 0x06, 0xa1, 0x01, 0x85, 0x01, 0x05, 0x07, 0x19, 0xe0, 0x29, 0xe7, 0x15, 0x00,
   0x25, 0x01, 0x75, 0x01, 0x95, 0x08, 0x81, 0x02, 0x75, 0x08, 0x95, 0x01, 0x15, 0x00, 0x25, 0x65,
   0x19, 0x00, 0x29, 0x65, 0x81, 0x00, 0xc0, 0x06, 0x00, 0xff, 0x09, 0x01, 0xa1, 0x01, 0x85, 0x02,
   0x15, 0x00, 0x26, 0xff, 0x00, 0x75, 0x08, 0x95, 0x08, 0x09, 0x00, 0xb2, 0x02, 0x01, 0xc0]

inductive MsgObj where
  | null
  /-- `usbTxBuf + 9` -/
  | txBufEnd
  | configuration | idleRate | protocolVersion | reportBuffer | customReport
  | string0 | stringVendor | stringDevice | descrDevice | descrConfiguration | descrHidReport
  deriving DecidableEq

def MsgObj.isRom : MsgObj → Bool
  | .string0 | .stringVendor | .stringDevice | .descrDevice | .descrConfiguration
  | .descrHidReport => true
  | _ => false

structure MsgPtr where
  obj : MsgObj
  offset : ℕ
  deriving DecidableEq

def putBytes {n : ℕ} (b : Bytes n) (i : ℕ) (l : List UInt8) : Bytes n :=
  fun k => if i ≤ k ∧ k < i + l.length then l.getD (k - i) 0 else b k

structure UsbTxStatus where
  len : UInt8 := usbpidNak
  buffer : Bytes 11 := fun _ => 0

/-- `usbRxLen` is never negative without flow control. -/
structure Usbdrv where
  usbRxBuf : Bytes 22 := fun _ => 0
  usbInputBufOffset : UInt8 := 0
  usbDeviceAddr : UInt8 := 0
  usbNewDeviceAddr : UInt8 := 0
  usbConfiguration : UInt8 := 0
  usbRxLen : UInt8 := 0
  usbCurrentTok : UInt8 := 0
  usbRxToken : UInt8 := 0
  usbTxLen : UInt8 := usbpidNak
  usbTxBuf : Bytes 11 := fun _ => 0
  usbTxStatus1 : UsbTxStatus := {}
  usbMsgPtr : MsgPtr := ⟨.null, 0⟩
  usbMsgLen : UInt8 := usbNoMsg
  usbMsgFlags : UInt8 := 0
  wasReset : Bool := false

inductive Pc where
  /-- `usbPoll`, up to the packet that was received -/
  | rx
  /-- `usbRxLen = 0` -/
  | release
  | transmit
  /-- the end of `usbPoll` -/
  | reset
  | sch
  /-- `usbInterruptIsReady` -/
  | ready
  deriving DecidableEq

structure Firmware where
  dev : Device
  drv : Usbdrv := {}
  pc : Pc := .rx

/-- What goes out on the bus; the packets begin with their PID. -/
inductive Answer where
  | handshake (pid : UInt8)
  /-- from `usbTxBuf` -/
  | control (packet : List UInt8)
  /-- from `usbTxBuf1` -/
  | interrupt (packet : List UInt8)
  deriving DecidableEq

namespace Usbdrv

/-- A byte of the packet in the receiver's half of the buffer. -/
def received (u : Usbdrv) (i : ℕ) : UInt8 := u.usbRxBuf (Fin.ofNat 22 (u.usbInputBufOffset.toNat + i))

/-- `x2`: the address of a token, shifted left. -/
def address (u : Usbdrv) : UInt8 := (u.received 1) <<< 1

/-- `x3`: the endpoint of a token. -/
def endpoint (u : Usbdrv) : UInt8 := ((u.received 2) <<< 1 ||| (u.received 1) >>> 7) &&& 0xf

/-- `usbSendAndReti` of a data packet, whose address assignment is shared by the endpoints. -/
def usbSendAndReti (u : Usbdrv) : Usbdrv := { u with usbDeviceAddr := u.usbNewDeviceAddr <<< 1 }

def handleData (cnt : UInt8) (u : Usbdrv) : Usbdrv × List Answer :=
  if u.usbCurrentTok = 0 then (u, [])
  else if u.usbRxLen ≠ 0 then (u, [.handshake usbpidNak])
  else if cnt < 4 then (u, [.handshake usbpidAck])
  else
    ({ u with usbRxLen := cnt, usbRxToken := u.usbCurrentTok,
              usbInputBufOffset := 11 - u.usbInputBufOffset }, [.handshake usbpidAck])

def handleIn1 (u : Usbdrv) : Usbdrv × List Answer :=
  if isHandshake u.usbTxStatus1.len then (u, [.handshake u.usbTxStatus1.len])
  else
    (usbSendAndReti { u with usbTxStatus1 := { u.usbTxStatus1 with len := usbpidNak } },
     [.interrupt ((List.ofFn u.usbTxStatus1.buffer).take (u.usbTxStatus1.len.toNat - 1))])

def handleIn (u : Usbdrv) : Usbdrv × List Answer :=
  if 1 ≤ u.usbRxLen then (u, [.handshake usbpidNak])
  else if u.endpoint ≠ 0 then u.handleIn1
  else if isHandshake u.usbTxLen then (u, [.handshake u.usbTxLen])
  else
    (usbSendAndReti { u with usbTxLen := usbpidNak },
     [.control ((List.ofFn u.usbTxBuf).take (u.usbTxLen.toNat - 1))])

/-- The packet with a byte of PID and what follows, up to the SE0. -/
def interrupt (pid : UInt8) (rest : List UInt8) (u : Usbdrv) : Usbdrv × List Answer :=
  let u := { u with
    usbRxBuf := putBytes u.usbRxBuf u.usbInputBufOffset.toNat ((pid :: rest).take usbBufsize) }
  if usbBufsize ≤ rest.length then ({ u with usbCurrentTok := 0 }, [])
  else if pid = usbpidData0 ∨ pid = usbpidData1 then u.handleData (UInt8.ofNat (rest.length + 1))
  else if u.address ≠ u.usbDeviceAddr then ({ u with usbCurrentTok := 0 }, [])
  else if pid = usbpidIn then u.handleIn
  else if pid = usbpidSetup ∨ pid = usbpidOut then ({ u with usbCurrentTok := pid }, [])
  else ({ u with usbCurrentTok := 0 }, [])

/-- `usbCrc16Append` at the second byte of a buffer. -/
def append (b : Bytes 11) (l : List UInt8) : Bytes 11 :=
  let crc := UsbAsm.crc16 l
  putBytes (putBytes b 1 l) (1 + l.length) [⟨crc.extractLsb' 0 8⟩, ⟨crc.extractLsb' 8 8⟩]

def usbResetDataToggling (u : Usbdrv) : Usbdrv :=
  { u with usbTxStatus1 :=
    { u.usbTxStatus1 with buffer := Function.update u.usbTxStatus1.buffer 0 usbpidData1 } }

/-- `usbGenericSetInterrupt` with data of one to eight bytes. -/
def usbSetInterrupt (data : List UInt8) (u : Usbdrv) : Usbdrv :=
  let st := u.usbTxStatus1
  let st := if isHandshake st.len then
      { st with buffer := Function.update st.buffer 0 (st.buffer 0 ^^^ (usbpidData0 ^^^ usbpidData1)) }
    else { st with len := usbpidNak }
  { u with usbTxStatus1 :=
    { st with buffer := append st.buffer data, len := UInt8.ofNat data.length + 4 } }

/-- The object and the length that `usbDriverDescriptor` answers with; `usbMsgPtr` stays where it
is when there is none. -/
def usbDriverDescriptor (value0 value1 : UInt8) : Option MsgPtr × UInt8 :=
  if value1 = 1 then (some ⟨.descrDevice, 0⟩, 18)
  else if value1 = 2 then (some ⟨.descrConfiguration, 0⟩, 34)
  else if value1 = 3 then
    if value0 = 0 then (some ⟨.string0, 0⟩, 4)
    else if value0 = 1 then (some ⟨.stringVendor, 0⟩, 18)
    else if value0 = 2 then (some ⟨.stringDevice, 0⟩, 18)
    else (none, 0)
  else if value1 = 0x21 then (some ⟨.descrConfiguration, 18⟩, 9)
  else if value1 = 0x22 then (some ⟨.descrHidReport, 0⟩, 63)
  else (none, 0)

/-- Eight bytes from the other half of the buffer, behind the PID. -/
def rxData (u : Usbdrv) : Bytes 8 :=
  fun i => u.usbRxBuf (Fin.ofNat 22 (usbBufsize + 1 - u.usbInputBufOffset.toNat + i))

def point (p : MsgPtr) (u : Usbdrv) : Usbdrv := { u with usbMsgPtr := p }

def usbDriverSetup (data : Bytes 8) (u : Usbdrv) : Usbdrv × UInt8 :=
  let u := { u with usbTxBuf := Function.update u.usbTxBuf 9 0 }
  if data 1 = 0 then
    (point ⟨.txBufEnd, 0⟩ { u with usbTxBuf := Function.update u.usbTxBuf 10 0 }, 2)
  else if data 1 = 5 then (point ⟨.txBufEnd, 0⟩ { u with usbNewDeviceAddr := data 2 }, 0)
  else if data 1 = 6 then
    let (p, len) := usbDriverDescriptor (data 2) (data 3)
    ({ u with usbMsgPtr := p.getD u.usbMsgPtr, usbMsgFlags := usbFlgMsgptrIsRom }, len)
  else if data 1 = 8 then (point ⟨.configuration, 0⟩ u, 1)
  else if data 1 = 9 then (point ⟨.txBufEnd, 0⟩ { u with usbConfiguration := data 2 }, 0)
  else if data 1 = 10 then (point ⟨.txBufEnd, 0⟩ u, 1)
  else if data 1 = 11 then (point ⟨.txBufEnd, 0⟩ (usbResetDataToggling u), 0)
  else (point ⟨.txBufEnd, 0⟩ u, 0)

end Usbdrv

def usbRequest (data : Bytes 8) : UsbRequest := ⟨data 0, data 1, data 2, data 3⟩

/-- What `usbFunctionSetup` sets `usbMsgPtr` to, if it does. -/
def usbFunctionMsg (rq : UsbRequest) : Option MsgPtr :=
  if rq.bmRequestType &&& usbrqTypeMask ≠ usbrqTypeClass then none
  else if rq.bRequest = usbrqHidGetIdle then some ⟨.idleRate, 0⟩
  else if rq.bRequest = usbrqHidGetProtocol then some ⟨.protocolVersion, 0⟩
  else if rq.bRequest = usbrqHidGetReport then
    if rq.wValue0 = 1 then some ⟨.reportBuffer, 0⟩
    else if rq.wValue0 = 2 then some ⟨.customReport, 0⟩
    else none
  else none

namespace Usbdrv

def newSetup (u : Usbdrv) : Usbdrv :=
  { u with usbTxBuf := Function.update u.usbTxBuf 0 usbpidData0, usbTxLen := usbpidNak,
           usbMsgFlags := 0 }

def limit (data : Bytes 8) (replyLen : UInt8) : UInt8 :=
  if data 7 = 0 ∧ replyLen > data 6 then data 6 else replyLen

def functionReply (data : Bytes 8) (reply : Option (List UInt8)) (u : Usbdrv) : Usbdrv :=
  match reply with
  | some r =>
    { u with usbMsgPtr := (usbFunctionMsg (usbRequest data)).getD u.usbMsgPtr,
             usbMsgLen := limit data (UInt8.ofNat r.length) }
  | none =>
    { u with usbMsgLen := if data 0 &&& 0x80 ≠ 0 then data 6 else usbNoMsg,
             usbMsgFlags := usbFlgUseUserRw }

def driverReply (data : Bytes 8) (u : Usbdrv) : Usbdrv :=
  let (u, len) := u.usbDriverSetup data
  { u with usbMsgLen := limit data len }

end Usbdrv

def usbFunctionWrite (L : Layout) (data : Bytes 8) (len : UInt8) (d : Device) : Device × UInt8 :=
  (ucpDecode L data len d, 1)

namespace Firmware

def object (s : Firmware) : MsgObj → List UInt8
  | .null => []
  | .txBufEnd => [s.drv.usbTxBuf 9, s.drv.usbTxBuf 10]
  | .configuration => [s.drv.usbConfiguration]
  | .idleRate => [s.dev.usb.idleRate]
  | .protocolVersion => [s.dev.usb.protocolVersion]
  | .reportBuffer => reportBuffer s.dev
  | .customReport => List.ofFn s.dev.ucp.customReport
  | .string0 => usbDescriptorString0
  | .stringVendor => usbDescriptorStringVendor
  | .stringDevice => usbDescriptorStringDevice
  | .descrDevice => usbDescriptorDevice
  | .descrConfiguration => usbDescriptorConfiguration
  | .descrHidReport => usbDescriptorHidReport

/-- A byte read through `usbMsgPtr`, from flash or from RAM as the flag says; `beyond` is what
lies outside the object. -/
def msgByte (s : Firmware) (beyond : MsgPtr → UInt8) (i : ℕ) : UInt8 :=
  let p : MsgPtr := { s.drv.usbMsgPtr with offset := s.drv.usbMsgPtr.offset + i }
  if (s.drv.usbMsgFlags &&& usbFlgMsgptrIsRom ≠ 0) = p.obj.isRom then
    (s.object p.obj).getD p.offset (beyond p)
  else beyond p

def usbDeviceRead (beyond : MsgPtr → UInt8) (len : UInt8) (s : Firmware) : Usbdrv × List UInt8 :=
  ({ s.drv with usbMsgPtr := { s.drv.usbMsgPtr with offset := s.drv.usbMsgPtr.offset + len.toNat } },
   (List.range len.toNat).map (s.msgByte beyond))

/-- `usbBuildTxBlock`; what is read is never longer than what is wanted, so the branch that
stalls is not taken. -/
def usbBuildTxBlock (beyond : MsgPtr → UInt8) (s : Firmware) : Usbdrv :=
  let wantLen := if s.drv.usbMsgLen > 8 then 8 else s.drv.usbMsgLen
  let (u, l) := s.usbDeviceRead beyond wantLen
  let buf := Function.update u.usbTxBuf 0 (u.usbTxBuf 0 ^^^ (usbpidData0 ^^^ usbpidData1))
  let len := UInt8.ofNat l.length + 4
  { u with usbTxBuf := Usbdrv.append buf l
           usbMsgLen := if len < 12 then usbNoMsg else u.usbMsgLen - wantLen
           usbTxLen := len }

/-- `usbProcessRx` of a SETUP. -/
def processSetup (L : Layout) (data : Bytes 8) (s : Firmware) : Firmware :=
  if data 0 &&& usbrqTypeMask ≠ 0 then
    let (d, reply) := usbFunctionSetup L (usbRequest data) s.dev
    { s with dev := d, drv := s.drv.newSetup.functionReply data reply }
  else { s with drv := s.drv.newSetup.driverReply data }

/-- `usbProcessRx` of the data of a control-out transfer. -/
def processOut (L : Layout) (data : Bytes 8) (len : UInt8) (s : Firmware) : Firmware :=
  if s.drv.usbMsgFlags &&& usbFlgUseUserRw ≠ 0 then
    let (d, rval) := usbFunctionWrite L data len s.dev
    if rval = 0xff then { s with dev := d, drv := { s.drv with usbTxLen := usbpidStall } }
    else if rval ≠ 0 then { s with dev := d, drv := { s.drv with usbMsgLen := 0 } }
    else { s with dev := d }
  else s

def usbProcessRx (L : Layout) (s : Firmware) : Firmware :=
  let data := s.drv.rxData
  let len := s.drv.usbRxLen - 3
  if s.drv.usbRxToken = usbpidSetup then if len ≠ 8 then s else s.processSetup L data
  else s.processOut L data len

structure Inputs where
  /-- what lies outside the objects that `usbMsgPtr` is set to -/
  beyond : MsgPtr → UInt8 := fun _ => 0
  /-- the line is not in SE0 -/
  lines : Bool := true
  meas : Measure := fun _ _ => 0
  timer : UInt8 := 0
  adc : Option UInt8 := none

/-- `usbSetInterrupt((void*)&reportBuffer, sizeof(reportBuffer))` -/
def sendReport (s : Firmware) : Firmware := { s with drv := s.drv.usbSetInterrupt (reportBuffer s.dev) }

def onDev (s : Firmware) (o : Outcome Device) : Outcome Firmware := o.map fun d => { s with dev := d }

/-- `usbHandleResetHook`, whose hook is `OSCCAL_Start` at the end of a reset. -/
def usbHandleResetHook (L : Layout) (meas : Measure) (isReset : Bool) (s : Firmware) :
    Outcome Firmware :=
  if s.drv.wasReset ≠ isReset then
    (s.onDev (if isReset then .ret s.dev else osccalStart L meas s.dev)).bind fun s =>
      .ret { s with drv := { s.drv with wasReset := isReset } }
  else .ret s

def loop (L : Layout) (i : Inputs) (s : Firmware) : Outcome Firmware :=
  match s.pc with
  | .rx =>
    .ret (if s.drv.usbRxLen < 3 then { s with pc := .transmit }
      else { s.usbProcessRx L with pc := .release })
  | .release => .ret { s with drv := { s.drv with usbRxLen := 0 }, pc := .transmit }
  | .transmit =>
    .ret (if isHandshake s.drv.usbTxLen ∧ s.drv.usbMsgLen ≠ usbNoMsg then
        { s with drv := s.usbBuildTxBlock i.beyond, pc := .reset }
      else { s with pc := .reset })
  | .reset =>
    let u := if i.lines then s.drv else { s.drv with usbNewDeviceAddr := 0, usbDeviceAddr := 0 }
    ({ s with drv := u }.usbHandleResetHook L i.meas (!i.lines)).bind fun s =>
      .ret { s with pc := .sch }
  | .sch => (s.onDev (schTask L i.timer i.adc s.dev)).bind fun s => .ret { s with pc := .ready }
  | .ready =>
    if isHandshake s.drv.usbTxStatus1.len then
      (s.onDev (ucpWriteTask L s.dev)).bind fun s =>
        .ret { { s with dev := printUpdate L (ledTask s.dev) }.sendReport with pc := .rx }
    else .ret { s with pc := .rx }

inductive Event where
  /-- the interrupt routine takes a packet -/
  | packet (pid : UInt8) (rest : List UInt8)
  | loop (i : Inputs)
  /-- code outside the model changes its part of RAM -/
  | background (ram : Mem)

def step (L : Layout) (s : Firmware) : Event → Outcome Firmware
  | .packet pid rest => .ret { s with drv := (s.drv.interrupt pid rest).1 }
  | .loop i => s.loop L i
  | .background ram => .ret { s with dev := { s.dev with ram := ram } }

def answers (s : Firmware) : Event → List Answer
  | .packet pid rest => (s.drv.interrupt pid rest).2
  | _ => []

/-- `main` up to its loop, with `usbInit`. -/
def powerOn (L : Layout) (flash eeprom ram : Mem) : Outcome Firmware :=
  (Memtype.powerOn L flash eeprom ram).map fun d => { dev := d, drv := Usbdrv.usbResetDataToggling {} }

end Firmware

end Memtype
