import Memtype.Spec.Ucp

/-! uif.c, usi.c, opt.c and the menu of crd.c: what a button event does. -/

namespace Memtype

open Lib

def printOptFlash (L : Layout) (d : Device) : Device := printStr L.optStartStr .flash d

def uifIncrement (val max : UInt8) : UInt8 := UInt8.ofNat ((val.toNat + 1) % max.toNat)

def uifDecrement (val max : UInt8) : UInt8 := if val = 0 then max - 1 else val - 1

def crdFsmStart (d : Device) : Device :=
  ucpUnlock <| crdPrint <| printDeleteStr { d with uif := { d.uif with uifState := .credentials } }

def optFsmStart (L : Layout) (d : Device) : Device :=
  let d := { d with uif := { d.uif with uifState := .options, optionsIndex := 0 } }
  let d := printOptFlash L (printDeleteStr d)
  { d with led := { d.led with led := .blinkBoth } }

def crdFsm (L : Layout) (button : Button) (d : Device) : Outcome Device :=
  let d := printDeleteStr d
  match button with
  | .left => .ret (optFsmStart L d)
  | .up => crdPrevious L d
  | .right => .ret (crdPrintDetail L crdUser crdEnd d)
  | .down => crdNext L d
  | .notPressed => .ret d

def optPrintUser (L : Layout) (d : Device) : Device :=
  let d := crdPrintDetail L crdUser (crdUser + 1) (printDeleteStr d)
  { d with led := { d.led with led := .blinkGreen } }

def optPrintPass (L : Layout) (d : Device) : Device :=
  let d := crdPrintDetail L crdPass (crdPass + 1) (printDeleteStr d)
  { d with led := { d.led with led := .blinkRed } }

/-- `opt_apply` through the table `opt_menuFp`, which has the two entries. -/
def optApply (L : Layout) (d : Device) : Device :=
  if d.uif.optionsIndex = 0 then optPrintPass L d else optPrintUser L d

def maxOptSize : UInt8 := 2

def optPrevious (L : Layout) (d : Device) : Device :=
  let d := printDeleteStr d
  optApply L { d with uif :=
    { d.uif with optionsIndex := uifIncrement d.uif.optionsIndex maxOptSize } }

def optNext (L : Layout) (d : Device) : Device :=
  optApply L { d with uif :=
    { d.uif with optionsIndex := uifDecrement d.uif.optionsIndex maxOptSize } }

def optLock (L : Layout) (d : Device) : Device :=
  let d := uifInit L (printDeleteStr d)
  { d with led := { d.led with led := .off } }

def optFsm (L : Layout) (button : Button) (d : Device) : Device :=
  match button with
  | .left => optLock L d
  | .up => optPrevious L d
  | .right => crdFsmStart d
  | .down => optNext L d
  | .notPressed => d

def usiPinRetries : UInt8 := 2

/-- `USI_keys`, the digits; never read past the ninth. -/
def usiKeys (i : UInt8) : UInt8 := 0x30 + i

def pinStr : List UInt8 := [0x50, 0x49, 0x4E, 0x3A, 0x20, 0]

def pinStrLen : ℕ := 5

/-- The factory hash, that of PIN 0000. -/
def lockHashPgm : Bytes 16 :=
  ![0xd4, 0x4f, 0xb2, 0x7a, 0x58, 0xb4, 0x27, 0x4a, 0x21, 0xe6, 0x8f, 0x39, 0x69, 0x74, 0x23, 0x54]

/-- `memcpy_P(userText, PIN_str, sizeof(PIN_str))`. -/
def copyPinStr (text : ℕ → UInt8) : ℕ → UInt8 :=
  fun i => if h : i < pinStr.length then pinStr[i] else text i

def usiPrint (L : Layout) (d : Device) : Device :=
  let k := d.usi.userTextIndex.toNat
  let c := usiKeys d.uif.userInputIndex
  let text := Function.update d.usi.userText (pinStrLen + k) c
  let text := Function.update text (pinStrLen + k + 1) 0
  printStr L.userText .ram
    { d with usi := { d.usi with userPin := Function.update d.usi.userPin k c, userText := text } }

def usiInit (L : Layout) (d : Device) : Device :=
  let d := { d with usi := { d.usi with userTextIndex := 0, userText := copyPinStr d.usi.userText },
                    uif := { d.uif with userInputIndex := 0 } }
  ucpLock (usiPrint L d)

def usiPrevious (L : Layout) (d : Device) : Device :=
  usiPrint L { d with uif := { d.uif with userInputIndex := uifDecrement d.uif.userInputIndex 10 } }

def usiNext (L : Layout) (d : Device) : Device :=
  usiPrint L { d with uif := { d.uif with userInputIndex := uifIncrement d.uif.userInputIndex 10 } }

def usiResetPin (L : Layout) (d : Device) : Device :=
  { d with eeprom := d.eeprom.write L.lockHash 16 fun i => lockHashPgm (Fin.ofNat 16 i) }.call
    .resetPin

def Device.pin (d : Device) : Bytes 4 := fun i => d.usi.userPin i

def erasePin : Bytes 4 := fun _ => 0x39

/-- Four times the PIN, as key and as plain text. -/
def pinCipher (pin : Bytes 4) : Cipher :=
  { plain := fun i => pin (Fin.ofNat 4 i), key := fun i => pin (Fin.ofNat 4 i) }

/-- Whether the PIN encrypted under itself is the stored hash. -/
def pinMatches (L : Layout) (eeprom : Mem) (pin : Bytes 4) : Bool :=
  (noekeonEncrypt (pinCipher pin)).plain = eeprom.read L.lockHash 16

def usiChecked (L : Layout) (ok : Bool) (d : Device) : Device :=
  { d with crd := { d.crd with cipher := noekeonEncrypt (pinCipher d.pin) } }.call
    (.pinCheck d.pin (d.eeprom.read L.lockHash 16) ok)

/-- `usi_pinCheck`; there is no result when the `while (1)` after the erase PIN is reached. -/
def usiPinCheck (L : Layout) (d : Device) : Device × Option Bool :=
  if d.pin = erasePin then (usiResetPin L d, none)
  else
    let ok := pinMatches L d.eeprom d.pin
    (usiChecked L ok d, some ok)

/-- The end of the `RIGHT` case after a failed check. -/
def usiFailed (L : Layout) (d : Device) : Device :=
  let d := if d.usi.pinRetries > 0 then
      let d := printStr L.lockedStr .flash d
      { d with usi := { d.usi with pinRetries := d.usi.pinRetries - 1 } }
    else
      let d := usiResetPin L (printStr L.pinresetStr .flash d)
      { d with usi := { d.usi with pinRetries := usiPinRetries } }
  { d with uif := { d.uif with userInputIndex := 0 },
           usi := { d.usi with userTextIndex := 0, userPin := Function.update d.usi.userPin 0 0x30,
                               userText := copyPinStr d.usi.userText } }

/-- The `RIGHT` case before the last digit: a star in its place, and the next digit. -/
def usiAccept (L : Layout) (d : Device) : Device :=
  usiPrint L { d with usi := { d.usi with
    userText := Function.update d.usi.userText (pinStrLen + d.usi.userTextIndex.toNat) 0x2A,
    userTextIndex := d.usi.userTextIndex + 1 } }

def usiFsm (L : Layout) (button : Button) (d : Device) : Outcome Device :=
  match button with
  | .left => .ret (usiInit L (printDeleteStr d))
  | .up => .ret (usiNext L (printDeleteStr d))
  | .right =>
    let d := printDeleteStr d
    if d.usi.userTextIndex = 3 then
      match usiPinCheck L d with
      | (d, none) => .spin d
      | (d, some true) => .ret (crdFsmStart d)
      | (d, some false) => .ret (usiFailed L d)
    else .ret (usiAccept L d)
  | .down => .ret (usiPrevious L (printDeleteStr d))
  | .notPressed => .ret d

def uifTask (L : Layout) (d : Device) : Outcome Device :=
  if d.uib.buttonChanged = true ∧ d.uib.buttonPressed ≠ .notPressed then
    match d.uif.uifState with
    | .start =>
      .ret (usiInit L (printDeleteStr { d with uif := { d.uif with uifState := .userInput } }))
    | .options => .ret (optFsm L d.uib.buttonPressed d)
    | .userInput => usiFsm L d.uib.buttonPressed d
    | .credentials => crdFsm L d.uib.buttonPressed d
  else .ret d

end Memtype
