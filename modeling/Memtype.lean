import Memtype.Proofs.Buffer
import Memtype.Proofs.Flash
import Memtype.Proofs.Deferred
import Memtype.Proofs.Locked
import Memtype.Proofs.TwoRuns
import Memtype.Proofs.Pin
import Memtype.Proofs.Transfer
import Memtype.Proofs.Store
import Memtype.Proofs.RoundTrip
import Memtype.Lib.Fields
import Memtype.Proofs.Cipher
import Memtype.Proofs.Typing
import Memtype.Proofs.Detail
import Memtype.Proofs.Queue
import Memtype.Proofs.Cancel
import Memtype.Proofs.Bounds
import Memtype.Proofs.Eeprom
import Memtype.Proofs.Retries
import Memtype.Proofs.Cache
import Memtype.Lib.Avr
import Memtype.Spec.NoekeonAsm
import Memtype.Proofs.CipherShift
import Memtype.Proofs.CipherGamma
import Memtype.Proofs.CipherTheta
import Memtype.Proofs.CipherAsm
import Memtype.Proofs.Blocks
import Memtype.Proofs.Blind
import Memtype.Proofs.Retransmit
import Memtype.Proofs.BlockDue
import Memtype.Proofs.Rests
import Memtype.Proofs.Mixing
import Memtype.Proofs.Buttons
import Memtype.Proofs.Reads
import Memtype.Lib.Bisect
import Memtype.Proofs.Calibration
import Memtype.Lib.Walk
import Memtype.Proofs.Ring
import Memtype.Proofs.Upward
import Memtype.Proofs.Entry
import Memtype.Lib.Fifo
import Memtype.Proofs.Order
import Memtype.Lib.Apart
import Memtype.Proofs.Release
import Memtype.Proofs.Window
import Memtype.Proofs.Offset
import Memtype.Proofs.Reports
import Memtype.Proofs.Erase
import Memtype.Proofs.Desk
import Memtype.Proofs.Retype
import Memtype.Proofs.Replace
import Memtype.Proofs.Neighbours
import Memtype.Lib.Period
import Memtype.Proofs.Schedule
import Memtype.Lib.Crc
import Memtype.Spec.UsbAsm
import Memtype.Proofs.UsbCrc
import Memtype.Lib.Project
import Memtype.Lib.Chunks
import Memtype.Spec.Usbdrv
import Memtype.Proofs.BusSteps
import Memtype.Proofs.Bus
import Memtype.Proofs.Packets
import Memtype.Proofs.Message
import Memtype.Proofs.Requests
import Memtype.Proofs.Control
import Memtype.Proofs.Inside
import Memtype.Proofs.Endpoint
import Memtype.Proofs.Address
import Memtype.Proofs.Progress
import Memtype.Proofs.Status
import Memtype.Lib.Line
import Memtype.Spec.UsbLine
import Memtype.Proofs.UsbSend
import Memtype.Proofs.UsbBits
import Memtype.Proofs.UsbReceive
import Memtype.Proofs.UsbBounds
import Memtype.Proofs.Vault
import Memtype.Proofs.VaultBus
import Memtype.Proofs.NewPin
import Memtype.Spec.Wire
import Memtype.Proofs.Wire
import Memtype.Spec.Vault
