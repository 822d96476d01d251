import Memtype.Spec.Menu

/-! main.c and the small components it runs (sch.c, adm.c, uib.c, led.c, osccal.c):
the events of the device, one step for each, and power-on. -/

namespace Memtype

open Lib

def admTask (adc : Option UInt8) (d : Device) : Device :=
  match adc with
  | some v => { d with adcValue := v }
  | none => d

def adcSpan : UInt8 := 0xFF / 4

def uibRange (k : UInt8) : UInt8 := k * adcSpan - adcSpan / 2

def uibClassify (v : UInt8) : Button :=
  if v > uibRange 4 then .right
  else if v > uibRange 3 then .up
  else if v > uibRange 2 then .down
  else if v > uibRange 1 then .left
  else .notPressed

def uibInitDebounce : UInt16 := 5
def uibSecondDebounce : UInt16 := 100
def uibRepeatDebounce : UInt16 := 25

namespace Uib

def signal (u : Uib) (st : UibState) : Uib :=
  { u with buttonChanged := true, debounceCtr := 0, uibState := st }

/-- The classification half of `UIB_Task`. -/
def sample (v : UInt8) (u : Uib) : Uib :=
  let u := { u with lastButtonPressed := u.buttonPressed, buttonPressed := uibClassify v }
  let u := if u.lastButtonPressed = u.buttonPressed then
      { u with debounceCtr := u.debounceCtr + 1 }
    else { u with uibState := .initDebounce, debounceCtr := 0 }
  { u with buttonChanged := false }

def task (v : UInt8) (u : Uib) : Uib :=
  let u := u.sample v
  match u.uibState with
  | .initDebounce => if u.debounceCtr ≥ uibInitDebounce then u.signal .secondDebounce else u
  | .secondDebounce => if u.debounceCtr ≥ uibSecondDebounce then u.signal .repeatDebounce else u
  | .repeatDebounce => if u.debounceCtr ≥ uibRepeatDebounce then u.signal .repeatDebounce else u

end Uib

def uibTask (d : Device) : Device := { d with uib := d.uib.task d.adcValue }

def schTask10ms (L : Layout) (adc : Option UInt8) (d : Device) : Outcome Device :=
  uifTask L (uibTask (admTask adc d))

/-- `SCH_Task` when the timer reads `timer` and the converter has `adc` for `ADM_Task`. -/
def schTask (L : Layout) (timer : UInt8) (adc : Option UInt8) (d : Device) : Outcome Device :=
  if d.sch.lastTimerVal ≠ timer then
    let d := { d with sch := { lastTimerVal := timer, tick := d.sch.tick + 1 } }
    if d.sch.tick % 10 = 0 then schTask10ms L adc d else .ret d
  else .ret d

def ledTask (d : Device) : Device :=
  let l := { d.led with i := d.led.i + 1 }
  if d.led.i % 16 = 0 then
    { d with led := match l.led with
      | .red => { l with portRed := true, portGreen := false }
      | .green => { l with portRed := false, portGreen := true }
      | .blinkBoth => { l with portRed := !l.portRed, portGreen := !l.portGreen }
      | .blinkRed => { l with portRed := !l.portRed, portGreen := false }
      | .blinkGreen => { l with portRed := false, portGreen := !l.portGreen }
      | .off => { l with portRed := false, portGreen := false } }
  else { d with led := l }

def osccalInvalid : UInt8 := 0xFF

def osccalInit (L : Layout) (d : Device) : Device :=
  let calib := d.eeprom L.osccalEep
  if calib ≠ osccalInvalid then { d with osccal := calib } else d

/-- `(unsigned)(1499 * (double)F_CPU / 10.5e6 + 0.5)` for 16.5 MHz. -/
def targetValue : Int16 := 2356

/-- What `usbMeasureFrameLength` gives at its `k`-th call, with `OSCCAL` at `v`. -/
abbrev Measure := ℕ → UInt8 → UInt16

/-- The binary search: `trialValue`, the last `x` and the number of measurements. -/
def osccalSearch (meas : Measure) : UInt8 × Int16 × ℕ :=
  ([128, 64, 32, 16, 8, 4, 2, 1] : List UInt8).foldl
    (fun (trialValue, _, k) step =>
      let x := (meas k (trialValue + step)).toInt16
      (if x < targetValue then trialValue + step else trialValue, x, k + 1)) (0, 0, 0)

/-- The `for` loop over the neighbours of `trialValue`; `OSCCAL` is its variable and is
compared as an `int`. It does not end once it has come round. -/
def osccalNeighbours (meas : Measure) (trialValue : UInt8) :
    ℕ → UInt8 → ℕ → Int16 → UInt8 → Option UInt8
  | 0, _, _, _, _ => none
  | fuel + 1, osccal, k, optimumDev, optimumValue =>
    if osccal.toNat ≤ trialValue.toNat + 1 then
      let x := (meas k osccal).toInt16 - targetValue
      let x := if x < 0 then -x else x
      if x < optimumDev then osccalNeighbours meas trialValue fuel (osccal + 1) (k + 1) x osccal
      else osccalNeighbours meas trialValue fuel (osccal + 1) (k + 1) optimumDev optimumValue
    else some optimumValue

def osccalStart (L : Layout) (meas : Measure) (d : Device) : Outcome Device :=
  let (trialValue, x, k) := osccalSearch meas
  match osccalNeighbours meas trialValue 257 (trialValue - 1) k x trialValue with
  | none => .spin d
  | some v => .ret { d with osccal := v, eeprom := d.eeprom.write L.osccalEep 1 fun _ => v }

structure UsbRequest where
  bmRequestType : UInt8
  bRequest : UInt8
  wValue0 : UInt8
  wValue1 : UInt8
  deriving DecidableEq

def usbrqTypeMask : UInt8 := 0x60
def usbrqTypeClass : UInt8 := 0x20
def usbrqHidGetReport : UInt8 := 0x01
def usbrqHidGetIdle : UInt8 := 0x02
def usbrqHidGetProtocol : UInt8 := 0x03
def usbrqHidSetReport : UInt8 := 0x09
def usbrqHidSetIdle : UInt8 := 0x0A
def usbrqHidSetProtocol : UInt8 := 0x0B

/-- `reportBuffer`, whose report id is 1. -/
def reportBuffer (d : Device) : List UInt8 := [1, d.prn.modifier, d.prn.keycode]

/-- The device after a request and the bytes sent back; `none` is `USB_NO_MSG`, after
which the driver hands the data packet to `usbFunctionWrite`. -/
def usbFunctionSetup (L : Layout) (rq : UsbRequest) (d : Device) : Device × Option (List UInt8) :=
  if rq.bmRequestType &&& usbrqTypeMask ≠ usbrqTypeClass then (d, some [])
  else if rq.bRequest = usbrqHidGetIdle then (d, some [d.usb.idleRate])
  else if rq.bRequest = usbrqHidSetIdle then
    ({ d with usb := { d.usb with idleRate := rq.wValue1 } }, some [])
  else if rq.bRequest = usbrqHidGetProtocol then (d, some [d.usb.protocolVersion])
  else if rq.bRequest = usbrqHidSetProtocol then
    ({ d with usb := { d.usb with protocolVersion := rq.wValue1 } }, some [])
  else if rq.bRequest = usbrqHidGetReport then
    if rq.wValue0 = 1 then (d.call (.reply 1 (reportBuffer d)), some (reportBuffer d))
    else if rq.wValue0 = 2 then
      let d := ucpTask L d
      (d.call (.reply 2 (List.ofFn d.ucp.customReport)), some (List.ofFn d.ucp.customReport))
    else (d, some [])
  else if rq.bRequest = usbrqHidSetReport then
    if rq.wValue0 = 2 then (d, none) else (d, some [])
  else (d, some [])

inductive Event where
  /-- a SETUP packet, answered by `usbFunctionSetup` -/
  | setup (rq : UsbRequest)
  /-- the data packet of a SET_REPORT, handed to `usbFunctionWrite` -/
  | write (data : Bytes 8) (len : UInt8)
  | writeTask
  | printUpdate
  | ledTask
  | schTask (timer : UInt8) (adc : Option UInt8)
  /-- `UIF_Task` with a button that `UIB_Task` reports as changed -/
  | button (b : Button)
  /-- the end of a USB reset: `OSCCAL_Start` -/
  | usbReset (meas : Measure)
  /-- code outside the model (stack, USB driver) changes its part of RAM -/
  | background (ram : Mem)

def Event.getReport (id : UInt8) : Event := .setup ⟨0xA1, usbrqHidGetReport, id, 0⟩

def step (L : Layout) (d : Device) : Event → Outcome Device
  | .setup rq => .ret (usbFunctionSetup L rq d).1
  | .write data len => .ret (ucpDecode L data len d)
  | .writeTask => ucpWriteTask L d
  | .printUpdate => .ret (printUpdate L d)
  | .ledTask => .ret (ledTask d)
  | .schTask timer adc => schTask L timer adc d
  | .button b => uifTask L { d with uib := { d.uib with buttonPressed := b, buttonChanged := true } }
  | .usbReset meas => osccalStart L meas d
  | .background ram => .ret { d with ram := ram }

/-- The button that `UIF_Task` handles in this step, if it handles one. -/
def Event.handled (d : Device) : Event → Option Button
  | .button b => if b ≠ .notPressed then some b else none
  | .schTask timer adc =>
    let u := (uibTask (admTask adc d)).uib
    if d.sch.lastTimerVal ≠ timer ∧ (d.sch.tick + 1) % 10 = 0 ∧ u.buttonChanged = true ∧
        u.buttonPressed ≠ .notPressed then
      some u.buttonPressed
    else none
  | _ => none

/-- `main` up to its loop, on the given flash and EEPROM contents. -/
def powerOn (L : Layout) (flash eeprom ram : Mem) : Outcome Device :=
  let d : Device := { flash := { mem := flash }, eeprom := eeprom, ram := ram }
  (crdInit L (uifInit L d)).bind fun d => .ret (osccalInit L (ucpInit d))

def sampleLayout : Layout where
  credentials := 0x1000
  uifInitStr := 0x100
  optStartStr := 0x120
  lockedStr := 0x140
  pinresetStr := 0x160
  lockHash := 0x10
  keyboardLut := 0x20
  osccalEep := 0
  cipher := 0x70
  userText := 0xA0
  emptyStr := 0xC0
  credentials_fit := by decide
  lockHash_fit := by decide
  keyboardLut_fit := by decide
  hash_keyboard := by decide
  hash_osccal := by decide
  keyboard_osccal := by decide
  cipher_fit := by decide
  userText_fit := by decide
  cipher_userText := by decide
  cipher_emptyStr := by decide
  userText_emptyStr := by decide

def factoryEeprom (L : Layout) : Mem :=
  Mem.write (fun _ => 0xFF) L.lockHash 16 fun i => lockHashPgm (Fin.ofNat 16 i)

def Reachable (L : Layout) (flash eeprom ram : Mem) (d : Device) : Prop :=
  ∃ evs, run (step L) (powerOn L flash eeprom ram) evs = .ret d

end Memtype
