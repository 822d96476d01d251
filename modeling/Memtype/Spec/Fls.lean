import Memtype.Spec.Basic

/-! fls.c: flash is rewritten page by page through the controller's page buffer. -/

namespace Memtype

open Lib

namespace Flash

/-- `boot_page_erase_safe`: the 64 bytes of the page read `0xFF`. -/
def bootPageErase (f : Flash) (a : UInt16) : Flash :=
  { f with mem := f.mem.write (a &&& 0xFFC0) spmPagesize fun _ => 0xFF,
           spm := f.spm ++ [.erase (a &&& 0xFFC0)] }

def bootPageFill (f : Flash) (a : UInt16) (w : UInt16) : Flash :=
  let page := Function.update f.page (a.toNat % 64) w.toUInt8
  { f with page := Function.update page (a.toNat % 64 + 1) (w >>> 8).toUInt8 }

/-- `boot_page_write_safe`: the page takes the buffer, and the buffer is clear again. -/
def bootPageWrite (f : Flash) (a : UInt16) : Flash :=
  { mem := f.mem.write (a &&& 0xFFC0) spmPagesize f.page, page := fun _ => 0xFF,
    spm := f.spm ++ [.write (a &&& 0xFFC0)] }

end Flash

def flsWritePage (f : Flash) (byteaddr : UInt16) : Flash := f.bootPageWrite byteaddr

def flsErasePage (f : Flash) (byteaddr : UInt16) : Flash := f.bootPageErase byteaddr

def buffWord (buff : ℕ → UInt8) (i : ℕ) : UInt16 :=
  (buff i).toUInt16 + ((buff (i + 1)).toUInt16 <<< 8)

def flsLoadPage (f : Flash) (buff : ℕ → UInt8) (byteaddr : UInt16) : Flash :=
  (List.range 32).foldl
    (fun f j => f.bootPageFill (byteaddr + UInt16.ofNat (2 * j)) (buffWord buff (2 * j))) f

/-- One pass of the `while` loop of `FLS_write`: the flash and `i` after it. The bytes
of `buff` taken so far are `b`. -/
def flsWriteBody (buff : ℕ → UInt8) (startaddr size : UInt16) (f : Flash) (i : UInt16) (b : ℕ) :
    Flash × UInt16 × ℕ :=
  let alignedStartAddr := (startaddr + i) &&& 0xFFC0
  let eraseBuffStart := ((startaddr + i) &&& 0x003F).toUInt8
  let totalBytesPending := (size - i).toUInt8
  let eraseBuffEnd := eraseBuffStart + totalBytesPending
  let eraseBuffEnd := if eraseBuffEnd > 64 then 64 else eraseBuffEnd
  let s := eraseBuffStart.toNat
  let e := eraseBuffEnd.toNat
  let tempBuff := fun j => if s ≤ j ∧ j < e then buff (b + (j - s))
    else f.mem (alignedStartAddr + UInt16.ofNat j)
  let f := flsErasePage f alignedStartAddr
  let f := flsLoadPage f tempBuff alignedStartAddr
  let f := flsWritePage f alignedStartAddr
  (f, i + (eraseBuffEnd.toUInt16 - eraseBuffStart.toUInt16), b + (e - s))

/-- The loop depends on flash nowhere but through `i`, so when `i` has taken more
passes than it has values, the loop does not end. -/
def flsWriteLoop (buff : ℕ → UInt8) (startaddr size : UInt16) :
    ℕ → Flash → UInt16 → ℕ → Outcome Flash
  | 0, f, _, _ => .spin f
  | fuel + 1, f, i, b =>
    if i < size then
      let (f, i, b) := flsWriteBody buff startaddr size f i b
      flsWriteLoop buff startaddr size fuel f i b
    else .ret f

def flsWrite (buff : ℕ → UInt8) (startaddr size : UInt16) (f : Flash) : Outcome Flash :=
  flsWriteLoop buff startaddr size 65537 f 0 0

end Memtype
