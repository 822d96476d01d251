import Memtype.Lib.Project
import Memtype.Spec.Usbdrv

/-! What the interrupt routine and a step of the loop do, each as one of a few cases, and what is in
the two halves of the receive buffer. -/

namespace Memtype

open Lib

/-- A packet in the buffer: `usbRxToken`, the bytes behind the PID and how many of them came. -/
structure Rx where
  token : UInt8
  data : Bytes 8
  len : UInt8

namespace Rx

instance : DecidableEq Rx := fun r r' =>
  decidable_of_iff (r.token = r'.token ∧ r.data = r'.data ∧ r.len = r'.len)
    ⟨fun ⟨h, h', h''⟩ => by cases r; cases r'; cases h; cases h'; cases h''; rfl,
      fun h => h ▸ ⟨rfl, rfl, rfl⟩⟩

/-- Whether data packets go to `usbFunctionWrite` after this packet, if they did before it or not. -/
def mode (r : Rx) (rw : Bool) : Bool :=
  if r.token = usbpidSetup ∧ r.len = 8 then
    r.data 0 &&& usbrqTypeMask = usbrqTypeClass ∧ r.data 1 = usbrqHidSetReport ∧ r.data 2 = 2
  else rw

def events (r : Rx) (rw : Bool) : List Memtype.Event :=
  if r.token = usbpidSetup then
    if r.len = 8 ∧ r.data 0 &&& usbrqTypeMask ≠ 0 then [.setup (usbRequest r.data)] else []
  else if rw then [.write r.data r.len]
  else []

end Rx

def Event.fromHost : Event → Bool
  | .setup _ | .write _ _ => true
  | _ => false

/-- The requests and data packets that the device sees when the host sends these packets. -/
def hostEvents : Bool → List Rx → List Memtype.Event
  | _, [] => []
  | rw, r :: l => r.events rw ++ hostEvents (r.mode rw) l

def hostMode (rw : Bool) (l : List Rx) : Bool := l.foldl (fun rw r => r.mode rw) rw

theorem hostEvents_snoc (rw : Bool) (l : List Rx) (r : Rx) :
    hostEvents rw (l ++ [r]) = hostEvents rw l ++ r.events (hostMode rw l) := by
  induction l generalizing rw with
  | nil => simp [hostEvents, hostMode]
  | cons r' l ih => rw [List.cons_append, hostEvents, hostEvents, ih, List.append_assoc]; rfl

theorem hostMode_snoc (rw : Bool) (l : List Rx) (r : Rx) :
    hostMode rw (l ++ [r]) = r.mode (hostMode rw l) := by
  unfold hostMode
  rw [List.foldl_append]
  rfl

def Usbdrv.rx (u : Usbdrv) : Rx := ⟨u.usbRxToken, u.rxData, u.usbRxLen - 3⟩

def Usbdrv.userRw (u : Usbdrv) : Bool := u.usbMsgFlags &&& usbFlgUseUserRw ≠ 0

namespace Firmware

def events (s : Firmware) : Event → List Memtype.Event
  | .packet _ _ => []
  | .background ram => [.background ram]
  | .loop i =>
    match s.pc with
    | .rx => if s.drv.usbRxLen < 3 then [] else s.drv.rx.events s.drv.userRw
    | .reset => if s.drv.wasReset = true ∧ i.lines = true then [.usbReset i.meas] else []
    | .sch => [.schTask i.timer i.adc]
    | .ready =>
      if isHandshake s.drv.usbTxStatus1.len then [.writeTask, .ledTask, .printUpdate] else []
    | .release | .transmit => []

variable {L : Layout}

@[simp] theorem dev_onDev (s : Firmware) (o : Outcome Device) : (s.onDev o).map dev = o := by
  cases o <;> rfl

@[simp] theorem dev_bind (o : Outcome Firmware) {f : Firmware → Firmware} (h : ∀ s, (f s).dev = s.dev) :
    (o.bind fun s => .ret (f s)).map dev = o.map dev := by
  cases o with
  | ret s => exact congrArg Outcome.ret (h s)
  | spin s => rfl

theorem dev_processSetup (data : Bytes 8) (s : Firmware) : (s.processSetup L data).dev =
    if data 0 &&& usbrqTypeMask ≠ 0 then (usbFunctionSetup L (usbRequest data) s.dev).1 else s.dev := by
  unfold processSetup
  split_ifs
  · rfl
  · rfl

theorem dev_processOut (data : Bytes 8) (len : UInt8) (s : Firmware) :
    (s.processOut L data len).dev = if s.drv.userRw then ucpDecode L data len s.dev else s.dev := by
  unfold processOut Usbdrv.userRw
  by_cases h : s.drv.usbMsgFlags &&& usbFlgUseUserRw ≠ 0
  · rw [if_pos h, if_pos (decide_eq_true h)]
    rfl
  · rw [if_neg h, if_neg (by simpa using h)]

theorem dev_usbProcessRx (s : Firmware) : Outcome.ret (s.usbProcessRx L).dev =
    run (Memtype.step L) (.ret s.dev) (s.drv.rx.events s.drv.userRw) := by
  unfold usbProcessRx Rx.events Usbdrv.rx
  dsimp only
  split_ifs with h1 h2 h3 h4 h5
  · exact absurd h3.1 h2
  · rfl
  · rw [dev_processSetup, if_pos h4.2]
    rfl
  · rw [dev_processSetup, if_neg fun h => h4 ⟨not_not.mp h2, h⟩]
    rfl
  · rw [dev_processOut, if_pos h5]
    rfl
  · rw [dev_processOut, if_neg h5]
    rfl

theorem dev_usbHandleResetHook (meas : Measure) (isReset : Bool) (s : Firmware) :
    (s.usbHandleResetHook L meas isReset).map dev =
      if s.drv.wasReset = true ∧ isReset = false then osccalStart L meas s.dev else .ret s.dev := by
  unfold usbHandleResetHook
  cases hw : s.drv.wasReset with
  | false =>
    cases isReset with
    | false => rfl
    | true => rfl
  | true =>
    cases isReset with
    | false =>
      rw [if_pos nofun, if_neg nofun, if_pos ⟨rfl, rfl⟩]
      exact (dev_bind (f := fun s => { s with drv := { s.drv with wasReset := false } }) _
        fun _ => rfl).trans (dev_onDev _ _)
    | true => rfl

theorem dev_step (s : Firmware) (e : Event) :
    (step L s e).map dev = run (Memtype.step L) (.ret s.dev) (s.events e) := by
  cases e with
  | packet pid rest => rfl
  | background ram => rfl
  | loop i =>
    unfold step loop events
    dsimp only
    cases hpc : s.pc with
    | rx =>
      dsimp only
      split_ifs with h
      · rfl
      · exact dev_usbProcessRx s
    | release => rfl
    | transmit =>
      dsimp only
      split_ifs
      · rfl
      · rfl
    | reset =>
      dsimp only
      rw [dev_bind (f := fun s => { s with pc := .sch }) _ fun _ => rfl, dev_usbHandleResetHook]
      cases hl : i.lines with
      | false => simp
      | true =>
        by_cases hw : s.drv.wasReset = true
        · simp [hw, Memtype.step]
        · simp [hw]
    | sch =>
      dsimp only
      rw [dev_bind (f := fun s => { s with pc := .ready }) _ fun _ => rfl, dev_onDev]
      rfl
    | ready =>
      dsimp only
      split_ifs with h
      · cases hw : ucpWriteTask L s.dev with
        | spin d => simp [onDev, Memtype.step, hw]
        | ret d => simp [onDev, Memtype.step, hw, sendReport]
      · rfl

end Firmware

namespace Usbdrv

def take (u : Usbdrv) (pid : UInt8) (rest : List UInt8) : Usbdrv :=
  { u with
    usbRxBuf := putBytes u.usbRxBuf u.usbInputBufOffset.toNat ((pid :: rest).take usbBufsize) }

/-- A data packet with something in it that was answered with ACK. -/
def Acked (pid : UInt8) (rest : List UInt8) (ans : List Answer) : Prop :=
  (pid = usbpidData0 ∨ pid = usbpidData1) ∧ ans = [.handshake usbpidAck] ∧ 3 ≤ rest.length

instance (pid : UInt8) (rest : List UInt8) (ans : List Answer) : Decidable (Acked pid rest ans) :=
  inferInstanceAs (Decidable (_ ∧ _ ∧ _))

inductive Interrupts (u : Usbdrv) (pid : UInt8) (rest : List UInt8) : Usbdrv × List Answer → Prop
  | quiet (tok : UInt8) (ans : List Answer)
      (htok : tok = u.usbCurrentTok ∨ tok = 0 ∨ tok = usbpidSetup ∨ tok = usbpidOut)
      (hans : ∀ a ∈ ans, ∃ h, a = .handshake h) (hacked : ¬Acked pid rest ans) :
      Interrupts u pid rest ({ u.take pid rest with usbCurrentTok := tok }, ans)
  | stored (hpid : pid = usbpidData0 ∨ pid = usbpidData1) (hlen : 3 ≤ rest.length)
      (hfit : rest.length < usbBufsize) (htok : u.usbCurrentTok ≠ 0) (hfree : u.usbRxLen = 0) :
      Interrupts u pid rest ({ u.take pid rest with
        usbRxLen := UInt8.ofNat (rest.length + 1), usbRxToken := u.usbCurrentTok,
        usbInputBufOffset := 11 - u.usbInputBufOffset }, [.handshake usbpidAck])
  | control (hpid : pid = usbpidIn) (hfree : u.usbRxLen = 0) (hlen : isHandshake u.usbTxLen = false) :
      Interrupts u pid rest (usbSendAndReti { u.take pid rest with usbTxLen := usbpidNak },
        [.control ((List.ofFn u.usbTxBuf).take (u.usbTxLen.toNat - 1))])
  | report (hpid : pid = usbpidIn) (hfree : u.usbRxLen = 0)
      (hlen : isHandshake u.usbTxStatus1.len = false) :
      Interrupts u pid rest (usbSendAndReti { u.take pid rest with
        usbTxStatus1 := { u.usbTxStatus1 with len := usbpidNak } },
        [.interrupt ((List.ofFn u.usbTxStatus1.buffer).take (u.usbTxStatus1.len.toNat - 1))])

theorem acked_in {pid : UInt8} {rest : List UInt8} {ans : List Answer} (h : pid = usbpidIn) :
    ¬Acked pid rest ans := by
  rintro ⟨h' | h', -, -⟩
  · exact absurd (h.symm.trans h') (by decide)
  · exact absurd (h.symm.trans h') (by decide)

theorem interrupts_handleIn {u : Usbdrv} {pid : UInt8} {rest : List UInt8} (hpid : pid = usbpidIn) :
    Interrupts u pid rest (u.take pid rest).handleIn := by
  have hquiet (h : UInt8) : Interrupts u pid rest (u.take pid rest, [.handshake h]) :=
    .quiet u.usbCurrentTok _ (.inl rfl) (fun a ha => ⟨h, List.mem_singleton.mp ha⟩) (acked_in hpid)
  have hfree (h : ¬1 ≤ u.usbRxLen) : u.usbRxLen = 0 := by
    apply UInt8.toNat_inj.mp
    rw [UInt8.le_iff_toNat_le, UInt8.toNat_one] at h
    rw [UInt8.toNat_zero]
    omega
  unfold handleIn handleIn1
  split_ifs with h1 h2 h3 h4
  · exact hquiet _
  · exact hquiet _
  · exact .report hpid (hfree h1) (Bool.eq_false_iff.mpr h3)
  · exact hquiet _
  · exact .control hpid (hfree h1) (Bool.eq_false_iff.mpr h4)

theorem interrupts_handleData {u : Usbdrv} {pid : UInt8} {rest : List UInt8}
    (hpid : pid = usbpidData0 ∨ pid = usbpidData1) (hfit : rest.length < usbBufsize) :
    Interrupts u pid rest ((u.take pid rest).handleData (UInt8.ofNat (rest.length + 1))) := by
  have hcnt : UInt8.ofNat (rest.length + 1) < 4 ↔ rest.length < 3 := by
    unfold usbBufsize at hfit
    rw [UInt8.lt_iff_toNat_lt, UInt8.toNat_ofNat', show (4 : UInt8).toNat = 4 from rfl]
    omega
  have hquiet (ans : List Answer) (hans : ∀ a ∈ ans, ∃ h, a = .handshake h)
      (h : ¬Acked pid rest ans) : Interrupts u pid rest (u.take pid rest, ans) :=
    .quiet u.usbCurrentTok ans (.inl rfl) hans h
  unfold handleData
  split_ifs with h1 h2 h3
  · exact hquiet [] nofun fun h => absurd h.2.1 nofun
  · refine hquiet _ (fun a ha => ⟨_, List.mem_singleton.mp ha⟩) fun h => absurd h.2.1 (by decide)
  · refine hquiet _ (fun a ha => ⟨_, List.mem_singleton.mp ha⟩) fun h => ?_
    exact absurd h.2.2 (Nat.not_le.mpr (hcnt.mp h3))
  · exact .stored hpid (Nat.not_lt.mp fun h => h3 (hcnt.mpr h)) hfit h1 (not_not.mp h2)

theorem interrupts (u : Usbdrv) (pid : UInt8) (rest : List UInt8) :
    Interrupts u pid rest (u.interrupt pid rest) := by
  have hquiet (tok : UInt8) (htok : tok = 0 ∨ tok = usbpidSetup ∨ tok = usbpidOut) :
      Interrupts u pid rest ({ u.take pid rest with usbCurrentTok := tok }, []) :=
    .quiet tok [] (.inr htok) nofun fun h => absurd h.2.1 nofun
  unfold interrupt
  dsimp only
  split_ifs with h1 h2 h3 h4 h5
  · exact hquiet 0 (.inl rfl)
  · exact interrupts_handleData h2 (Nat.not_le.mp h1)
  · exact hquiet 0 (.inl rfl)
  · exact interrupts_handleIn h4
  · exact hquiet pid (.inr h5)
  · exact hquiet 0 (.inl rfl)

end Usbdrv

namespace Firmware

variable {L : Layout}

inductive Loops (L : Layout) (i : Inputs) (s : Firmware) : Firmware → Prop
  | poll (hpc : s.pc = .rx) (hlen : s.drv.usbRxLen < 3) : Loops L i s { s with pc := .transmit }
  | process (hpc : s.pc = .rx) (hlen : ¬s.drv.usbRxLen < 3) :
      Loops L i s { s.usbProcessRx L with pc := .release }
  | release (hpc : s.pc = .release) :
      Loops L i s { s with drv := { s.drv with usbRxLen := 0 }, pc := .transmit }
  | build (hpc : s.pc = .transmit) (hidle : isHandshake s.drv.usbTxLen = true)
      (hmsg : s.drv.usbMsgLen ≠ usbNoMsg) :
      Loops L i s { s with drv := s.usbBuildTxBlock i.beyond, pc := .reset }
  | skip (hpc : s.pc = .transmit)
      (h : ¬(isHandshake s.drv.usbTxLen = true ∧ s.drv.usbMsgLen ≠ usbNoMsg)) :
      Loops L i s { s with pc := .reset }
  | lines (hpc : s.pc = .reset) (d : Device) (new addr : UInt8)
      (haddr : (new = s.drv.usbNewDeviceAddr ∧ addr = s.drv.usbDeviceAddr) ∨
        (i.lines = false ∧ new = 0 ∧ addr = 0)) :
      Loops L i s { s with dev := d, pc := .sch, drv := { s.drv with
        usbNewDeviceAddr := new, usbDeviceAddr := addr, wasReset := !i.lines } }
  | task (hpc : s.pc = .sch) (d : Device) : Loops L i s { s with dev := d, pc := .ready }
  | report (hpc : s.pc = .ready) (hready : isHandshake s.drv.usbTxStatus1.len = true) (d : Device)
      (hd : run (Memtype.step L) (.ret s.dev) [.writeTask, .ledTask, .printUpdate] = .ret d) :
      Loops L i s { s with dev := d, drv := s.drv.usbSetInterrupt (reportBuffer d), pc := .rx }
  | busy (hpc : s.pc = .ready) (h : isHandshake s.drv.usbTxStatus1.len = false) :
      Loops L i s { s with pc := .rx }

theorem ret_of_onDev {s s' : Firmware} {o : Outcome Device} {f : Firmware → Firmware}
    (h : ((s.onDev o).bind fun s => .ret (f s)) = .ret s') :
    ∃ d, o = .ret d ∧ s' = f { s with dev := d } := by
  cases o with
  | spin d => exact absurd h nofun
  | ret d => exact ⟨d, rfl, (Outcome.ret.inj h).symm⟩

theorem hook_ret {meas : Measure} {isReset : Bool} {s s' : Firmware}
    (h : s.usbHandleResetHook L meas isReset = .ret s') :
    ∃ d, s' = { s with dev := d, drv := { s.drv with wasReset := isReset } } := by
  unfold usbHandleResetHook at h
  by_cases hw : s.drv.wasReset ≠ isReset
  · rw [if_pos hw] at h
    obtain ⟨d, -, hs⟩ := ret_of_onDev (f := fun s => { s with drv := { s.drv with wasReset := isReset } }) h
    exact ⟨d, hs⟩
  · rw [if_neg hw] at h
    cases Outcome.ret.inj h
    exact ⟨s.dev, by rw [← not_not.mp hw]⟩

theorem loops {i : Inputs} {s s' : Firmware} (h : s.loop L i = .ret s') : Loops L i s s' := by
  unfold loop at h
  cases hpc : s.pc with
  | rx =>
    rw [hpc] at h
    cases Outcome.ret.inj h
    split_ifs with hlen
    · exact .poll hpc hlen
    · exact .process hpc hlen
  | release =>
    rw [hpc] at h
    cases Outcome.ret.inj h
    exact .release hpc
  | transmit =>
    rw [hpc] at h
    cases Outcome.ret.inj h
    split_ifs with hb
    · exact .build hpc hb.1 hb.2
    · exact .skip hpc hb
  | reset =>
    rw [hpc] at h
    dsimp only at h
    generalize hu : (if i.lines = true then s.drv else
      { s.drv with usbNewDeviceAddr := 0, usbDeviceAddr := 0 }) = u at h
    cases ho : usbHandleResetHook L i.meas (!i.lines) ⟨s.dev, u, .reset⟩ with
    | spin t =>
      rw [ho] at h
      exact absurd h nofun
    | ret t =>
      rw [ho] at h
      obtain ⟨d, rfl⟩ := hook_ret ho
      cases Outcome.ret.inj h
      by_cases hl : i.lines = true
      · rw [if_pos hl] at hu
        subst hu
        exact .lines hpc d s.drv.usbNewDeviceAddr s.drv.usbDeviceAddr (.inl ⟨rfl, rfl⟩)
      · rw [if_neg hl] at hu
        subst hu
        exact .lines hpc d 0 0 (.inr ⟨Bool.eq_false_iff.mpr hl, rfl, rfl⟩)
  | sch =>
    rw [hpc] at h
    obtain ⟨d, -, rfl⟩ := ret_of_onDev (f := fun s => { s with pc := .ready }) h
    exact .task hpc d
  | ready =>
    rw [hpc] at h
    dsimp only at h
    split_ifs at h with hr
    · obtain ⟨d, hd, rfl⟩ := ret_of_onDev (f := fun s =>
        { { s with dev := printUpdate L (ledTask s.dev) }.sendReport with pc := .rx }) h
      refine .report hpc hr (printUpdate L (ledTask d)) ?_
      simp [Memtype.step, hd]
    · cases Outcome.ret.inj h
      exact .busy hpc (Bool.eq_false_iff.mpr hr)

end Firmware

theorem putBytes_out {n : ℕ} (b : Bytes n) {i : ℕ} (l : List UInt8) {k : Fin n}
    (h : k.val < i ∨ i + l.length ≤ k) : putBytes b i l k = b k := by
  unfold putBytes
  rw [if_neg (by omega)]

theorem putBytes_in {n : ℕ} (b : Bytes n) {i : ℕ} (l : List UInt8) {k : Fin n}
    (h : i ≤ k.val ∧ k.val < i + l.length) : putBytes b i l k = l.getD (k - i) 0 := if_pos h

namespace Usbdrv

/-- The receiver writes to one half only. -/
def Half (u : Usbdrv) : Prop := u.usbInputBufOffset = 0 ∨ u.usbInputBufOffset = 11

theorem Half.toNat {u : Usbdrv} (h : u.Half) :
    u.usbInputBufOffset.toNat = 0 ∨ u.usbInputBufOffset.toNat = 11 := by
  rcases h with h | h
  · exact .inl (by rw [h]; rfl)
  · exact .inr (by rw [h]; rfl)

/-- What is received does not touch the packet that waits in the other half. -/
theorem rxData_take {u : Usbdrv} (h : u.Half) (pid : UInt8) (rest : List UInt8) :
    (u.take pid rest).rxData = u.rxData := by
  funext i
  have hlen : ((pid :: rest).take usbBufsize).length ≤ 11 := List.length_take_le 11 _
  refine putBytes_out _ _ ?_
  change (usbBufsize + 1 - u.usbInputBufOffset.toNat + i) % 22 < _ ∨
    _ ≤ (usbBufsize + 1 - u.usbInputBufOffset.toNat + i) % 22
  have hi := i.isLt
  generalize ((pid :: rest).take usbBufsize).length = n at hlen ⊢
  unfold usbBufsize
  rcases h.toNat with h0 | h0
  · rw [h0]
    omega
  · rw [h0]
    omega

/-- After the halves have been swapped the packet is behind the other one's PID. -/
theorem rxData_swapped {u : Usbdrv} (h : u.Half) (pid : UInt8) {rest : List UInt8}
    (hfit : rest.length < usbBufsize) :
    ({ u.take pid rest with usbInputBufOffset := 11 - u.usbInputBufOffset } : Usbdrv).rxData =
      fun i : Fin 8 => rest.getD i (u.received (1 + i)) := by
  funext i
  have hi := i.isLt
  unfold usbBufsize at hfit
  have hpos : usbBufsize + 1 - (11 - u.usbInputBufOffset).toNat + i =
      u.usbInputBufOffset.toNat + (1 + i) := by
    rcases h with h0 | h0
    · rw [h0]
      change 11 + 1 - 11 + i.val = 0 + (1 + i)
      omega
    · rw [h0]
      change 11 + 1 - 0 + i.val = 11 + (1 + i)
      omega
  have hall : (pid :: rest).take usbBufsize = pid :: rest := List.take_of_length_le hfit
  change putBytes u.usbRxBuf u.usbInputBufOffset.toNat ((pid :: rest).take usbBufsize)
    (Fin.ofNat 22 (usbBufsize + 1 - (11 - u.usbInputBufOffset).toNat + i)) = _
  rw [hall, hpos]
  have hval : (Fin.ofNat 22 (u.usbInputBufOffset.toNat + (1 + i))).val =
      u.usbInputBufOffset.toNat + (1 + i) := by
    change (u.usbInputBufOffset.toNat + (1 + i.val)) % 22 = _
    rcases h.toNat with h0 | h0
    · rw [h0]
      omega
    · rw [h0]
      omega
  by_cases hr : i.val < rest.length
  · rw [putBytes_in _ _ ⟨by omega, by rw [hval, List.length_cons]; omega⟩, hval,
      Nat.add_sub_cancel_left, Nat.add_comm 1, List.getD_cons_succ, List.getD_eq_getElem _ _ hr,
      List.getD_eq_getElem _ _ hr]
  · rw [putBytes_out _ _ (.inr (by rw [hval, List.length_cons]; omega)),
      List.getD_eq_default _ _ (Nat.not_lt.mp hr)]
    rfl

end Usbdrv

end Memtype
