import Memtype.Spec.Noekeon
import Memtype.Spec.Print

/-! crd.c without its menu, and the half of print.c that calls back into it. -/

namespace Memtype

open Lib

def crdUser : UInt8 := 0
def crdPass : UInt8 := 2
def crdEnd : UInt8 := 4

def findEosLoop (m : Mem) : ℕ → UInt16 → Option UInt16
  | 0, _ => none
  | n + 1, off => if m off = 0 then some (off + 1) else findEosLoop m n (off + 1)

/-- `crd_findEOS`: the address after the first NUL. Once all addresses have been
read without one, the loop reads them again for ever. -/
def crdFindEos (m : Mem) (offset : UInt16) : Option UInt16 := findEosLoop m 65536 offset

def pgmReadWord (m : Mem) (a : UInt16) : UInt16 := (m a).toUInt16 + (m (a + 1)).toUInt16 * 256

def crdLoadCredential (L : Layout) (cred : UInt16) (d : Device) : Outcome Device :=
  let offset := cred + L.credentials
  match crdFindEos d.flash.mem offset with
  | none =>
    .spin { d with crd := { d.crd with credential := { d.crd.credential with name := offset } } }
  | some offset' =>
    .ret { d with crd := { d.crd with credential :=
      { name := offset, next := pgmReadWord d.flash.mem offset', encrypt := offset' + 2 } } }

def crdInit (L : Layout) (d : Device) : Outcome Device := crdLoadCredential L 0 d

/-- `crd_find`: the position of the first NUL among `len` bytes, else `len`. -/
def crdFind (start : ℕ → UInt8) (len : ℕ) : ℕ :=
  ((List.range len).find? fun i => start i = 0).getD len

def Crd.buffpos (c : Crd) : ℕ := (c.position % 16).toNat

/-- Step 1 of `CRD_apply`: at the start of a block, decrypt it in place. -/
def applyDecrypt (d : Device) : Device :=
  if d.crd.buffpos = 0 then
    let a := d.crd.credential.encrypt + d.crd.position.toUInt16
    let cipher := noekeonDecrypt { d.crd.cipher with plain := d.flash.mem.read a 16 }
    { d with crd := { d.crd with cipher := cipher } }.call (.decrypt a)
  else d

/-- Step 2: how many characters there are up to the NUL or the end of the block. -/
def applySize (c : Crd) : ℕ :=
  crdFind (fun i => c.cipher.plain (Fin.ofNat 16 (c.buffpos + i))) (16 - c.buffpos)

/-- Step 3: queue them, or one character 0 in their place. -/
def applyQueue (L : Layout) (size : ℕ) (d : Device) : Device :=
  if d.crd.crdStart ≤ d.crd.counter ∧ size ≠ 0 then
    (printNStr (L.cipher + UInt16.ofNat d.crd.buffpos) (UInt8.ofNat size) d).call
      (.segment (UInt8.ofNat size))
  else (printNStr L.emptyStr 1 d).call .placeholder

def applyAdvance (size : ℕ) (c : Crd) : Crd :=
  let c' := if size < 16 - c.buffpos then
      { c with counter := c.counter + 1, position := c.position + 1 }
    else c
  { c' with position := c'.position + UInt8.ofNat size }

def crdApply (L : Layout) (d : Device) : Device :=
  if d.crd.crdStop ≤ d.crd.counter then d
  else
    let d := applyDecrypt d
    let size := applySize d.crd
    let d := applyQueue L size d
    { d with crd := applyAdvance size d.crd }

def crdPrintDetail (L : Layout) (start stop : UInt8) (d : Device) : Device :=
  crdApply L <| { d with crd :=
    { d.crd with position := 0, counter := 0, crdStart := start, crdStop := stop } }.call
      (.printDetail start stop)

def crdPrint (d : Device) : Device := printStr d.crd.credential.name .flash d

/-- The `while` of `crd_previous`, which reads nothing but flash: the offset selected
last, once `next` is the offset it started from. -/
def crdPreviousLoop (L : Layout) (currentcred : UInt16) :
    ℕ → UInt16 → Device → Outcome (UInt16 × Device)
  | 0, lastcred, d => .spin (lastcred, d)
  | fuel + 1, lastcred, d =>
    if d.crd.credential.next = currentcred then .ret (lastcred, d)
    else
      match crdLoadCredential L d.crd.credential.next d with
      | .ret d' => crdPreviousLoop L currentcred fuel d.crd.credential.next d'
      | .spin d' => .spin (d.crd.credential.next, d')

/-- After as many passes as there are offsets the walk has met one twice, and goes
round for ever. -/
def crdPrevious (L : Layout) (d : Device) : Outcome Device :=
  match crdPreviousLoop L (d.crd.credential.name - L.credentials) 65538 0 d with
  | .ret (lastcred, d) => (crdLoadCredential L lastcred d).bind fun d => .ret (crdPrint d)
  | .spin (_, d) => .spin d

def crdNext (L : Layout) (d : Device) : Outcome Device :=
  (crdLoadCredential L d.crd.credential.next d).bind fun d => .ret (crdPrint d)

def readChar (L : Layout) (d : Device) : UInt8 :=
  match d.prn.slot.info with
  | .empty => 0
  | .ram => d.ramByte L d.prn.slot.strPtr
  | .flash => d.flash.mem d.prn.slot.strPtr

namespace Print

def decLen (p : Print) : Print :=
  if p.slot.len > 0 then p.setAct { p.slot with len := p.slot.len - 1 } else p

def freeAct (p : Print) : Print := p.setAct { p.slot with info := .empty }

def nextString (p : Print) : Print := { p with actString := p.actString + 1 }

end Print

def printReleased (L : Layout) (d : Device) : Device :=
  let ascii := readChar L d
  let s := d.prn.slot
  if s.callback = false ∧ ascii = 0 then
    { d with prn := { d.prn.freeAct.nextString with eos := true } }
  else if s.callback = true ∧ s.len = 0 then
    let d := crdApply L { d with prn := d.prn.freeAct }
    if d.prn.slot.info = .empty then { d with prn := { d.prn with eos := true } } else d
  else
    let d := { d with prn := d.prn.setAct { s with strPtr := s.strPtr + 1 } }
    if ascii = synchronousIdleKey then
      { d with prn := { d.prn with kbdStatus := .idle } }.call .pause
    else
      let d := printPressKey L (if s.callback then .detail else .string) ascii d
      let prn := if d.prn.eos = false then { d.prn with cCount := d.prn.cCount + 1 }
        else { d.prn with eos := false, cCount := 1 }
      { d with prn := { prn with kbdStatus := .pressed } }

def printDelete (L : Layout) (d : Device) : Device :=
  if d.prn.cCount > 0 then
    let d := printPressKey L .erase 0x08 d
    { d with prn := { d.prn with cCount := d.prn.cCount - 1, kbdStatus := .deletePressed } }
  else
    let prn := { d.prn.releaseKey with kbdStatus := .released }
    -- half a word is typed: the current string is given up
    if d.prn.eos = false then { d with prn := { prn.freeAct.nextString with eos := true } }
    else { d with prn := prn }

def printUpdate (L : Layout) (d : Device) : Device :=
  match d.prn.kbdStatus with
  | .init =>
    if d.prn.debounceCount < initDebounce then
      { d with prn := { d.prn.releaseKey with debounceCount := d.prn.debounceCount + 1 } }
    else { d with prn := { d.prn with kbdStatus := .released, debounceCount := 0 } }
  | .pressed => { d with prn := { d.prn.releaseKey with kbdStatus := .released }.decLen }
  | .released => printReleased L d
  | .idle =>
    if d.prn.debounceCount < idleTimeout then
      { d with prn := { d.prn.releaseKey with debounceCount := d.prn.debounceCount + 1 } }
    else { d with prn := { d.prn with kbdStatus := .released, debounceCount := 0 }.decLen }
  | .delete => printDelete L d
  | .deletePressed => { d with prn := { d.prn.releaseKey with kbdStatus := .delete } }

end Memtype
