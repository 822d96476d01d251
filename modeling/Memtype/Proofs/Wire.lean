import Memtype.Spec.Wire
import Memtype.Proofs.Endpoint
import Memtype.Proofs.Progress
import Memtype.Proofs.UsbReceive

/-! The packets of the driver on the lines: the receiver stores them where the interrupt routine
looks for them, and its answers go out with the bytes that the driver has for them. -/

namespace Memtype

open Lib

namespace Firmware

/-- A length that is no handshake is that of a packet with up to eight bytes of data. -/
def Length (len : UInt8) : Prop := isHandshake len = true ∨ ∃ n ≤ 8, len = UInt8.ofNat n + 4

def Lengths (u : Usbdrv) : Prop := Length u.usbTxLen ∧ Length u.usbTxStatus1.len

theorem length_nak : Length usbpidNak := .inl (by decide)

variable {L : Layout}

theorem length_built (beyond : MsgPtr → UInt8) (s : Firmware) :
    Length (s.usbBuildTxBlock beyond).usbTxLen := by
  refine .inr ⟨_, ?_, rfl⟩
  rw [List.length_map, List.length_range, (limit_eight s.drv.usbMsgLen).2]
  exact Nat.min_le_right _ _

theorem lengths_step {s s' : Firmware} {e : Event} (h : Lengths s.drv) (hs : step L s e = .ret s') :
    Lengths s'.drv := by
  cases e with
  | packet pid rest =>
    cases Outcome.ret.inj hs
    have hint := s.drv.interrupts pid rest
    dsimp only
    generalize s.drv.interrupt pid rest = x at hint
    cases hint with
    | quiet _ _ _ _ _ => exact h
    | stored _ _ _ _ _ => exact h
    | control _ _ _ => exact ⟨length_nak, h.2⟩
    | report _ _ _ => exact ⟨h.1, length_nak⟩
  | background ram =>
    cases Outcome.ret.inj hs
    exact h
  | loop i =>
    cases loops hs with
    | process _ _ =>
      constructor
      · show Length (s.usbProcessRx L).drv.usbTxLen
        unfold usbProcessRx
        dsimp only
        split_ifs
        · exact h.1
        · rw [processSetup_txLen]
          exact length_nak
        · rw [processOut_txLen]
          exact h.1
      · show Length (s.usbProcessRx L).drv.usbTxStatus1.len
        rw [usbProcessRx_status]
        split_ifs
        · exact h.2
        · exact h.2
    | build _ _ _ => exact ⟨length_built _ s, h.2⟩
    | report _ _ d _ => exact ⟨h.1, .inr ⟨3, by decide, rfl⟩⟩
    | poll _ _ => exact h
    | release _ => exact h
    | skip _ _ => exact h
    | lines _ _ _ _ _ => exact h
    | task _ _ => exact h
    | busy _ _ => exact h

theorem half_lengths {flash eeprom ram : Mem} {evs : List Event} {s : Firmware}
    (h : run (step L) (powerOn L flash eeprom ram) evs = .ret s) : s.drv.Half ∧ Lengths s.drv := by
  have hstart (s : Firmware) (hs : powerOn L flash eeprom ram = .ret s) : RxInv s [] [] ∧ Lengths s.drv := by
    refine ⟨rxInv_powerOn hs, ?_⟩
    rw [(powerOn_ret hs).2.1]
    exact ⟨length_nak, length_nak⟩
  have hinv : RxInv s _ _ ∧ Lengths s.drv := inv_logs (I := fun s l k => RxInv s l k ∧ Lengths s.drv)
    (fun _ _ _ _ _ h _ hs => ⟨rxInv_step h.1 hs, lengths_step h.2 hs⟩) (l := []) (k := []) hstart
    (eachStep_true _ evs) h
  exact ⟨hinv.1.half, hinv.2⟩

end Firmware

namespace UsbLine

/-- The buffers hold what the driver's state says. -/
structure Holds (A : Buffers) (m : Mem) (u : Usbdrv) : Prop where
  rx : m.read A.usbRxBuf 22 = u.usbRxBuf
  tx : m.read A.usbTxBuf 11 = u.usbTxBuf
  tx1 : m.read A.usbTxBuf1 11 = u.usbTxStatus1.buffer

variable {A : Buffers} {m : Mem} {u : Usbdrv} {c : Core} {pid : UInt8} {rest : List UInt8}

def start (A : Buffers) (u : Usbdrv) : UInt16 := A.usbRxBuf + UInt16.ofNat u.usbInputBufOffset.toNat

theorem toNat_start (A : Buffers) (hhalf : u.Half) :
    (start A u).toNat = A.usbRxBuf.toNat + u.usbInputBufOffset.toNat ∧ u.usbInputBufOffset.toNat ≤ 11 := by
  have hfit := A.rx_fit
  have hoff : u.usbInputBufOffset.toNat ≤ 11 := by
    rcases hhalf with h | h
    · rw [h]
      decide
    · rw [h]
      decide
  refine ⟨?_, hoff⟩
  unfold start
  rw [UInt16.toNat_add, UInt16.toNat_ofNat']
  omega

theorem getD_take (l : List UInt8) {n i : ℕ} (hi : i < n) : (l.take n).getD i 0 = l.getD i 0 := by
  rw [List.getD_eq_getElem?_getD, List.getD_eq_getElem?_getD, List.getElem?_take_of_lt hi]

/-- What the receiver stores is the packet in its half of the buffer. -/
theorem Holds.stored (h : Holds A m u) (hhalf : u.Half) (pid : UInt8) (rest : List UInt8) :
    Holds A (m.write (start A u) (min (rest.length + 1) 11) fun i => (pid :: rest).getD i 0)
      (u.take pid rest) := by
  have hfit := A.rx_fit
  obtain ⟨hstart, hoff⟩ := toNat_start A hhalf
  have hbeside {b : UInt16} {k : ℕ} (hk : 0x60 ≤ b.toNat ∧ b.toNat + k ≤ 0x260)
      (hb : A.usbRxBuf.toNat + 22 ≤ b.toNat ∨ b.toNat + k ≤ A.usbRxBuf.toNat) :
      (m.write (start A u) (min (rest.length + 1) 11) fun i => (pid :: rest).getD i 0).read b k =
        m.read b k := by
    refine Mem.read_write_out _ _ _ _ fun i hi => ?_
    rw [Mem.toNat_sub, hstart, UInt16.toNat_add, UInt16.toNat_ofNat']
    omega
  refine ⟨?_, (hbeside A.tx_fit A.rx_tx).trans h.tx, (hbeside A.tx1_fit A.rx_tx1).trans h.tx1⟩
  funext i
  have hsub : (A.usbRxBuf + UInt16.ofNat i - start A u).toNat =
      (65536 - u.usbInputBufOffset.toNat + i) % 65536 := by
    rw [Mem.toNat_sub, hstart, UInt16.toNat_add, UInt16.toNat_ofNat']
    omega
  rw [Mem.read_apply]
  unfold Usbdrv.take putBytes usbBufsize
  dsimp only
  rw [List.length_take, List.length_cons, Nat.min_comm]
  split_ifs with hin
  · have hpos : (A.usbRxBuf + UInt16.ofNat i - start A u).toNat = i - u.usbInputBufOffset.toNat := by
      rw [hsub]
      omega
    rw [Mem.write_in (by rw [hpos]; omega), hpos, getD_take _ (by omega)]
  · rw [Mem.write_out (by rw [hsub]; omega)]
    exact congrFun h.rx i

/-- The interrupt routine leaves the buffers. -/
theorem Holds.interrupt (h : Holds A m (u.take pid rest)) : Holds A m (u.interrupt pid rest).1 := by
  have hint := u.interrupts pid rest
  generalize u.interrupt pid rest = x at hint
  cases hint with
  | quiet _ _ _ _ _ => exact ⟨h.rx, h.tx, h.tx1⟩
  | stored _ _ _ _ _ => exact ⟨h.rx, h.tx, h.tx1⟩
  | control _ _ _ => exact ⟨h.rx, h.tx, h.tx1⟩
  | report _ _ _ => exact ⟨h.rx, h.tx, h.tx1⟩

theorem bytesAt_read {a : UInt16} {b : Bytes 11} (h : m.read a 11 = b) {n : ℕ} (hn : n ≤ 11) :
    UsbAsm.bytesAt m a n = (List.ofFn b).take n := by
  subst h
  unfold UsbAsm.bytesAt
  refine List.ext_getElem (by simp [hn]) fun i hi hi' => ?_
  rw [List.getElem_map, List.getElem_range, List.getElem_take, List.getElem_ofFn]
  rfl

/-- An answer is on the lines, and the address has been assigned if it is a packet. -/
def Sent (usbOut : UInt8) (c : Core) (ans : Answer) (o : Outcome Core) : Prop :=
  ∃ c', o = .ret c' ∧ c'.assignsAddress = ans.isData ∧
    c'.out = c.out ++ (levels ans.bytes).map (port (usbOut &&& ~~~usbMask)) ++
      [usbOut &&& ~~~usbMask, usbOut &&& ~~~usbMask ||| usbIdle, usbOut &&& ~~~usbMask]

theorem sent_handshake (lpm : UInt8) {usbOut : UInt8} (hplus : bit usbOut usbPlus = false) (c : Core)
    (pid : UInt8) : Sent usbOut c (.handshake pid) (c.answer A lpm usbOut u (.handshake pid)) := by
  obtain ⟨c', hret, haddr, hout⟩ := Core.sends_handshake lpm hplus c pid
  exact ⟨c', hret, haddr, hout⟩

/-- A packet goes out of its buffer. -/
theorem sent_packet (lpm : UInt8) {usbOut : UInt8} (hplus : bit usbOut usbPlus = false) (c : Core)
    {a : UInt16} {b : Bytes 11} (ha : 0x60 ≤ a.toNat ∧ a.toNat + 11 ≤ 0x260)
    (hread : c.ram.read a 11 = b) {len : UInt8} (hdata : isHandshake len = false)
    (hlen : Firmware.Length len) : ∃ c',
      ({ c with y := a, cnt := len } : Core).usbSendAndReti lpm usbOut = .ret c' ∧
      c'.assignsAddress = true ∧
      c'.out = c.out ++ (levels ((List.ofFn b).take (len.toNat - 1))).map (port (usbOut &&& ~~~usbMask)) ++
        [usbOut &&& ~~~usbMask, usbOut &&& ~~~usbMask ||| usbIdle, usbOut &&& ~~~usbMask] := by
  obtain ⟨n, hn, rfl⟩ := hlen.resolve_left (by rw [hdata]; nofun)
  have hcnt : UInt8.ofNat n + 4 = UInt8.ofNat (n + 3 + 1) := by
    rw [Nat.add_assoc, UInt8.ofNat_add]
    rfl
  obtain ⟨c', hret, haddr, hout⟩ := Core.sends_packet lpm hplus { c with y := a, cnt := UInt8.ofNat n + 4 }
    (n := n + 3) (by omega) hcnt (show 2 < a.toNat by omega) (show a.toNat + _ + 1 < 65536 by omega)
  refine ⟨c', hret, haddr, ?_⟩
  rw [hout, (Firmware.isHandshake_length hn).2, Nat.add_sub_assoc (by decide)]
  dsimp only
  rw [bytesAt_read hread (by omega)]

theorem sent_answers (lpm : UInt8) {usbOut : UInt8} (hplus : bit usbOut usbPlus = false)
    (h : Holds A c.ram (u.take pid rest)) (hl : Firmware.Lengths u) :
    ∀ ans ∈ (u.interrupt pid rest).2, Sent usbOut c ans (c.answer A lpm usbOut u ans) := by
  have hint := u.interrupts pid rest
  generalize u.interrupt pid rest = x at hint
  intro ans hans
  cases hint with
  | quiet tok l _ hl _ =>
    obtain ⟨pid, rfl⟩ := hl ans hans
    exact sent_handshake lpm hplus c pid
  | stored _ _ _ _ _ =>
    rw [List.mem_singleton.mp hans]
    exact sent_handshake lpm hplus c _
  | control _ _ hdata =>
    rw [List.mem_singleton.mp hans]
    exact sent_packet lpm hplus c A.tx_fit h.tx hdata hl.1
  | report _ _ hdata =>
    rw [List.mem_singleton.mp hans]
    exact sent_packet lpm hplus c A.tx1_fit h.tx1 hdata hl.2

/-- In every state of the firmware a packet that comes over the lines leaves in the buffers what the
step of the interrupt routine leaves there, and what that step answers goes out over the lines. -/
theorem interrupt_line {L : Layout} {flash eeprom ram : Mem} {evs : List Firmware.Event} {s : Firmware}
    (hrun : run (Firmware.step L) (Firmware.powerOn L flash eeprom ram) evs = .ret s)
    (h : Holds A c.ram s.drv) (hy : c.y = start A s.drv) {pid a b : UInt8} {ss tail : List UInt8}
    (hpid : pid &&& 0x1f ≠ 0x1f) (hss : List.Forall₂ On ss ((levels (pid :: rest)).drop 8))
    (hs : c.samples = ss ++ a :: b :: tail) (hse0 : b &&& usbMask = 0) (lpm : UInt8) {usbOut : UInt8}
    (hplus : bit usbOut usbPlus = false) :
    ∃ c', c.received = .error (if rest.length < 11 then .se0 else .overflow, c') ∧
      (rest.length < 11 → 11 - c'.cnt = UInt8.ofNat (rest.length + 1)) ∧
      Holds A c'.ram (s.drv.interrupt pid rest).1 ∧
      ∀ ans ∈ (s.drv.interrupt pid rest).2, Sent usbOut c' ans (c'.answer A lpm usbOut s.drv ans) := by
  obtain ⟨hhalf, hl⟩ := Firmware.half_lengths hrun
  have htail : (a :: b :: tail).tail.headD 0 &&& usbMask = 0 := hse0
  obtain ⟨c', hret, hram, hcnt⟩ := Core.receive_reads htail (by decide) (by decide : 11 < 13) rfl
    (Core.haveTwoBitsK_reads (ahead_levels hpid hss hs))
  have hstored : Holds A c'.ram (s.drv.take pid rest) := by
    rw [hram, show c.haveTwoBitsK.y = start A s.drv from hy]
    exact h.stored hhalf pid rest
  refine ⟨c', hret, fun hlen => ?_, hstored.interrupt, sent_answers lpm hplus hstored hl⟩
  rw [hcnt hlen]
  exact cnt_received _ hlen

def sampleBuffers : Buffers where
  usbRxBuf := 0x60
  usbTxBuf := 0x80
  usbTxBuf1 := 0x90
  rx_fit := by decide
  tx_fit := by decide
  tx1_fit := by decide
  rx_tx := by decide
  rx_tx1 := by decide

def reporting : Firmware :=
  (run (Firmware.step sampleLayout) Firmware.sampleFirmware (Firmware.Event.passes 5)).state

def tokenIn : Core where
  ram := Mem.write (fun _ => 0) 0x90 11 fun i => reporting.drv.usbTxStatus1.buffer (Fin.ofNat 11 i)
  y := 0x60
  samples := ((levels [usbpidIn, 0x80, 0]).drop 8).map (port 3) ++ [3, 3]

theorem interrupt_line_tokenIn : ∃ c', tokenIn.received = .error (.se0, c') ∧
    Sent 3 c' (.interrupt [usbpidData0, 1, 0, 0, 0xdf, 0xff])
      (c'.answer sampleBuffers 0 3 reporting.drv (.interrupt [usbpidData0, 1, 0, 0, 0xdf, 0xff])) := by
  have hrun : run (Firmware.step sampleLayout) Firmware.sampleFirmware (Firmware.Event.passes 5) =
      .ret reporting := Outcome.eq_ret_of_returns (by decide +kernel)
  have hold : Holds sampleBuffers tokenIn.ram reporting.drv :=
    ⟨by decide +kernel, by decide +kernel, by decide +kernel⟩
  have hss : List.Forall₂ On (((levels [usbpidIn, 0x80, 0]).drop 8).map (port 3))
      ((levels [usbpidIn, 0x80, 0]).drop 8) :=
    List.forall₂_map_left_iff.mpr (List.forall₂_same.mpr fun j _ => on_port 3 (by decide) j)
  obtain ⟨c', hret, -, -, hans⟩ := interrupt_line hrun hold (by decide +kernel)
    (by decide : usbpidIn &&& 0x1f ≠ 0x1f) hss rfl (by decide) 0 (by decide : bit 3 usbPlus = false)
  refine ⟨c', hret, hans _ ?_⟩
  have hanswers : (reporting.drv.interrupt usbpidIn [0x80, 0]).2 =
      [.interrupt [usbpidData0, 1, 0, 0, 0xdf, 0xff]] := by decide +kernel
  rw [hanswers]
  exact List.mem_singleton_self _

end UsbLine

end Memtype
