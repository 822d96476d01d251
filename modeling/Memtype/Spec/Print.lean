import Memtype.Spec.Basic

/-! print.c without `printUpdate`: the ring of strings to type and the key report. -/

namespace Memtype

def shiftMask : UInt8 := 0x80
def altgrMask : UInt8 := 0x40
def keyEurope2 : UInt8 := 0x3A
def keyEurope2Org : UInt8 := 0x64

/-- `SYNCHRONOUS_IDLE_KEY`, the character that stands for a pause. -/
def synchronousIdleKey : UInt8 := 0x16
def idleTimeout : UInt8 := 50
def initDebounce : UInt8 := 50

/-- The key of an ASCII code (`char` is unsigned), as modifier and keycode. -/
def keyReport (key : UInt8) : UInt8 × UInt8 :=
  let modifier := ((shiftMask &&& key) >>> 6) ||| (altgrMask &&& key)
  let key := ~~~(shiftMask ||| altgrMask) &&& key
  (modifier, if key = keyEurope2 then keyEurope2Org else key)

def printPressKey (L : Layout) (src : KeySource) (ascii : UInt8) (d : Device) : Device :=
  let key := d.eeprom (L.keyboardLut + ascii.toUInt16)
  let d := { d with prn := { d.prn with
    modifier := (keyReport key).1, keycode := (keyReport key).2 } }
  d.call (.press src ascii)

namespace Print

def setSlot (p : Print) (i : Fin 5) (s : StrPtr) : Print :=
  { p with strBuf := Function.update p.strBuf i s }

def slot (p : Print) : StrPtr := p.strBuf p.actString

def setAct (p : Print) (s : StrPtr) : Print := p.setSlot p.actString s

def releaseKey (p : Print) : Print := { p with modifier := 0, keycode := 0 }

/-- The search of `print`: the first empty slot from `actString` on, round the ring.
The source looks 25 times where five are enough. -/
def firstEmpty (p : Print) : Option (Fin 5) :=
  ([0, 1, 2, 3, 4].map (p.actString + ·)).find? fun i => (p.strBuf i).info = .empty

/-- `print`: the request is dropped when no slot is empty. -/
def print (str : UInt16) (isRam : Info) (len : UInt8) (p : Print) : Print :=
  match p.firstEmpty with
  | some i => p.setSlot i { strPtr := str, info := isRam, len := len, callback := len ≠ 0 }
  | none => p

end Print

def printStr (str : UInt16) (info : Info) (d : Device) : Device :=
  { d with prn := d.prn.print str info 0 }

def printNStr (str : UInt16) (len : UInt8) (d : Device) : Device :=
  { d with prn := d.prn.print str .ram len }

def printDeleteStr (d : Device) : Device :=
  { d with prn := { d.prn with kbdStatus := .delete } }.call .deleteStr

end Memtype
