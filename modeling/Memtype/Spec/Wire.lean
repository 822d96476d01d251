import Memtype.Spec.Usbdrv
import Memtype.Spec.UsbLine

/-! Where the driver and its interrupt routine meet the lines: the buffers in RAM, and how
asmcommon.inc calls the transmitter for an answer. -/

namespace Memtype

/-- What goes out behind the sync byte. -/
def Answer.bytes : Answer → List UInt8
  | .handshake pid => [pid]
  | .control packet | .interrupt packet => packet

namespace UsbLine

open Lib

/-- Where the linker placed the buffers of the driver in RAM. -/
structure Buffers where
  usbRxBuf : UInt16
  usbTxBuf : UInt16
  usbTxBuf1 : UInt16
  rx_fit : 0x60 ≤ usbRxBuf.toNat ∧ usbRxBuf.toNat + 22 ≤ 0x260
  tx_fit : 0x60 ≤ usbTxBuf.toNat ∧ usbTxBuf.toNat + 11 ≤ 0x260
  tx1_fit : 0x60 ≤ usbTxBuf1.toNat ∧ usbTxBuf1.toNat + 11 ≤ 0x260
  rx_tx : usbRxBuf.toNat + 22 ≤ usbTxBuf.toNat ∨ usbTxBuf.toNat + 11 ≤ usbRxBuf.toNat
  rx_tx1 : usbRxBuf.toNat + 22 ≤ usbTxBuf1.toNat ∨ usbTxBuf1.toNat + 11 ≤ usbRxBuf.toNat

/-- `sendCntAndReti` and `usbSendAndReti` as `handleData`, `handleIn` and `handleIn1` go to them. -/
def Core.answer (A : Buffers) (lpm usbOut : UInt8) (u : Usbdrv) (c : Core) : Answer → Outcome Core
  | .handshake pid => c.sendCntAndReti lpm usbOut pid
  | .control _ => { c with y := A.usbTxBuf, cnt := u.usbTxLen }.usbSendAndReti lpm usbOut
  | .interrupt _ => { c with y := A.usbTxBuf1, cnt := u.usbTxStatus1.len }.usbSendAndReti lpm usbOut

end UsbLine

end Memtype
