import Memtype.Lib.Memory
import Memtype.Lib.Outcome

/-! The firmware's globals, one structure for each source file, and the device
that holds them together with the two non-volatile memories. -/

namespace Memtype

open Lib

abbrev Bytes (n : ℕ) := Fin n → UInt8

/-! Literals index buffers of these sizes. -/

instance neZero4 : NeZero (4 : ℕ) := ⟨by decide⟩
instance neZero5 : NeZero (5 : ℕ) := ⟨by decide⟩
instance neZero8 : NeZero (8 : ℕ) := ⟨by decide⟩
instance neZero16 : NeZero (16 : ℕ) := ⟨by decide⟩

/-- `*(uint16_t*)&p[i]`, little-endian. -/
def word (p : Bytes 8) (i : Fin 8) (j : Fin 8) : UInt16 :=
  (p i).toUInt16 + (p j).toUInt16 * 256

def spmPagesize : ℕ := 64

def maxCredFlashSize : ℕ := 2048

def eepromSize : ℕ := 512

def keyboardSize : ℕ := 128

/-- Where the linker placed the objects that the code names by address: the
`PROGMEM` ones in flash, the `EEMEM` ones in EEPROM and the printed buffers in RAM.
Objects of one memory do not overlap. -/
structure Layout where
  credentials : UInt16
  uifInitStr : UInt16
  optStartStr : UInt16
  lockedStr : UInt16
  pinresetStr : UInt16
  lockHash : UInt16
  keyboardLut : UInt16
  osccalEep : UInt16
  cipher : UInt16
  userText : UInt16
  emptyStr : UInt16
  credentials_fit : credentials.toNat + maxCredFlashSize ≤ 65536
  lockHash_fit : lockHash.toNat + 16 ≤ eepromSize
  keyboardLut_fit : keyboardLut.toNat + keyboardSize ≤ eepromSize
  hash_keyboard : lockHash.toNat + 16 ≤ keyboardLut.toNat ∨
    keyboardLut.toNat + keyboardSize ≤ lockHash.toNat
  hash_osccal : osccalEep.toNat < lockHash.toNat ∨ lockHash.toNat + 16 ≤ osccalEep.toNat
  keyboard_osccal : osccalEep.toNat < keyboardLut.toNat ∨
    keyboardLut.toNat + keyboardSize ≤ osccalEep.toNat
  cipher_fit : cipher.toNat + 32 ≤ 65536
  userText_fit : userText.toNat + 16 ≤ 65536
  cipher_userText : cipher.toNat + 32 ≤ userText.toNat ∨ userText.toNat + 16 ≤ cipher.toNat
  cipher_emptyStr : emptyStr.toNat < cipher.toNat ∨ cipher.toNat + 32 ≤ emptyStr.toNat
  userText_emptyStr : emptyStr.toNat < userText.toNat ∨ userText.toNat + 16 ≤ emptyStr.toNat

inductive UcpState where
  | idle | readingCmd | reading | writting | deviceLocked | writeEeprom
  deriving DecidableEq, Repr

/-- `tempBuff` has `SPM_PAGESIZE` bytes; the cells from there on stand for the RAM
behind it, so that a store past the end is a store like any other. -/
structure Ucp where
  ucpState : UcpState := .idle
  customReport : Bytes 8 := fun _ => 0
  tempBuff : ℕ → UInt8 := fun _ => 0
  flashWriteAddr : UInt16 := 0
  buffIndex : UInt8 := 0
  usbWrite : Bool := false
  usbWriteAccepted : Bool := false
  lockAfterSetPin : Bool := false
  readOffset : UInt16 := 0
  readEnd : UInt16 := 0
  readType : UInt8 := 0

structure Cipher where
  plain : Bytes 16 := fun _ => 0
  key : Bytes 16 := fun _ => 0

structure Credential where
  name : UInt16 := 0
  next : UInt16 := 0
  encrypt : UInt16 := 0
  deriving DecidableEq

structure Crd where
  cipher : Cipher := {}
  credential : Credential := {}
  position : UInt8 := 0
  counter : UInt8 := 0
  crdStart : UInt8 := 0
  crdStop : UInt8 := 0

inductive Info where
  | empty | ram | flash
  deriving DecidableEq, Repr

inductive KbdStatus where
  | init | pressed | released | idle | delete | deletePressed
  deriving DecidableEq, Repr

structure StrPtr where
  strPtr : UInt16 := 0
  info : Info := .empty
  len : UInt8 := 0
  callback : Bool := false
  deriving DecidableEq

/-- `actString` is only ever set modulo `STRBUF_SIZE`. -/
structure Print where
  strBuf : Fin 5 → StrPtr := fun _ => {}
  actString : Fin 5 := 0
  cCount : UInt8 := 0
  eos : Bool := false
  debounceCount : UInt8 := 0
  modifier : UInt8 := 0
  keycode : UInt8 := 0
  kbdStatus : KbdStatus := .init

inductive UifState where
  | start | credentials | options | userInput
  deriving DecidableEq, Repr

inductive Button where
  | notPressed | down | right | up | left
  deriving DecidableEq, Repr

structure Uif where
  uifState : UifState := .start
  optionsIndex : UInt8 := 0
  userInputIndex : UInt8 := 0

/-- `userText` has 16 bytes and `userPin` four; further cells stand for what lies behind. -/
structure Usi where
  userText : ℕ → UInt8 := fun _ => 0
  userPin : ℕ → UInt8 := fun _ => 0
  userTextIndex : UInt8 := 0
  pinRetries : UInt8 := 2

inductive UibState where
  | initDebounce | secondDebounce | repeatDebounce
  deriving DecidableEq, Repr

structure Uib where
  buttonPressed : Button := .notPressed
  buttonChanged : Bool := false
  lastButtonPressed : Button := .notPressed
  debounceCtr : UInt16 := 0
  uibState : UibState := .initDebounce

structure Sch where
  lastTimerVal : UInt8 := 0
  tick : UInt8 := 0

inductive LedStatus where
  | off | red | green | blinkRed | blinkGreen | blinkBoth
  deriving DecidableEq, Repr

structure Led where
  led : LedStatus := .off
  i : UInt8 := 0
  portRed : Bool := false
  portGreen : Bool := false

structure Usb where
  idleRate : UInt8 := 125
  protocolVersion : UInt8 := 0

inductive KeySource where
  | string | detail | erase
  deriving DecidableEq, Repr

/-- The calls a run makes, each added where the source makes the call or the assignment that it
names. No function reads this record. -/
inductive Call where
  | deleteStr
  | printDetail (start stop : UInt8)
  | decrypt (addr : UInt16)
  | segment (len : UInt8)
  | placeholder
  | press (src : KeySource) (ascii : UInt8)
  | pause
  | openWrite
  | accept (p : Bytes 8)
  | copy (st : UcpState) (p : Bytes 8)
  | setPin
  | keyboard
  | eepromUpdate (addr : UInt16) (p : Bytes 8)
  | uifInit
  | pinCheck (pin : Bytes 4) (hash : Bytes 16) (ok : Bool)
  | resetPin
  | reply (id : UInt8) (report : List UInt8)
  deriving DecidableEq

/-- An SPM command: what was done, and to the page at which address. -/
inductive Spm where
  | erase (page : UInt16)
  | write (page : UInt16)
  deriving DecidableEq, Repr

/-- Flash, the temporary page buffer of its controller and the SPM commands so far. -/
structure Flash where
  mem : Mem
  page : ℕ → UInt8 := fun _ => 0xFF
  spm : List Spm := []

structure Device where
  flash : Flash
  eeprom : Mem
  /-- the data space that no modelled object occupies -/
  ram : Mem
  ucp : Ucp := {}
  crd : Crd := {}
  prn : Print := {}
  uif : Uif := {}
  usi : Usi := {}
  uib : Uib := {}
  sch : Sch := {}
  led : Led := {}
  usb : Usb := {}
  adcValue : UInt8 := 0
  osccal : UInt8 := 0
  calls : List Call := []

namespace Device

def call (d : Device) (c : Call) : Device := { d with calls := d.calls ++ [c] }

def ramByte (L : Layout) (d : Device) (a : UInt16) : UInt8 :=
  if h : (a - L.cipher).toNat < 16 then d.crd.cipher.plain ⟨(a - L.cipher).toNat, h⟩
  else if h : (a - L.cipher).toNat - 16 < 16 then d.crd.cipher.key ⟨(a - L.cipher).toNat - 16, h⟩
  else if (a - L.userText).toNat < 16 then d.usi.userText (a - L.userText).toNat
  else if a = L.emptyStr then 0
  else d.ram a

end Device

end Memtype
