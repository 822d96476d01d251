import Memtype.Proofs.Steps

/-! Inversion for ucp.c: what a packet, a GET_REPORT and the deferred write can do to
the transfer. -/

namespace Memtype

open Lib

/-- The transfer after the packet `data`, still unchecked, is in `customReport`. -/
def Ucp.received (u : Ucp) (data : Bytes 8) : Ucp := { u with customReport := data }

/-- The device after one half of a WRITE_EEPROM transfer. -/
def eepromStored (data : Bytes 8) (d : Device) : Device :=
  let d := eepromUpdate (d.setUcp (d.ucp.received data))
  d.setUcp { d.ucp with readOffset := d.ucp.readOffset + 8 }

@[simp] theorem eepromStored_ucpState (data : Bytes 8) (d : Device) :
    (eepromStored data d).ucp.ucpState = d.ucp.ucpState := rfl

@[simp] theorem eepromStored_readOffset (data : Bytes 8) (d : Device) :
    (eepromStored data d).ucp.readOffset = d.ucp.readOffset + 8 := rfl

@[simp] theorem eepromStored_calls (data : Bytes 8) (d : Device) :
    (eepromStored data d).calls = d.calls ++ [.eepromUpdate d.ucp.readOffset data] := rfl

inductive DecodeStep (L : Layout) (data : Bytes 8) (len : UInt8) (d : Device) : Device → Prop
  | size (h : len ≠ 8) : DecodeStep L data len d (d.setUcp ((d.ucp.received data).error ucpErrSize))
  | locked (h : len = 8) (h0 : d.ucp.ucpState = .deviceLocked) :
      DecodeStep L data len d (d.setUcp ((d.ucp.received data).error ucpErrLocked))
  | accept (h : len = 8) (h0 : d.ucp.ucpState = .writting) (hw : d.ucp.usbWrite = false)
      (ho : d.ucp.readOffset < d.ucp.readEnd) : DecodeStep L data len d
        ((d.setUcp { d.ucp.received data with usbWriteAccepted := true }).call (.accept data))
  | reject (h : len = 8) (h0 : d.ucp.ucpState = .writting)
      (hw : ¬(d.ucp.usbWrite = false ∧ d.ucp.readOffset < d.ucp.readEnd)) : DecodeStep L data len d
        (d.setUcp { (d.ucp.received data).protocolError with
          usbWriteAccepted := false, usbWrite := false })
  | half (h : len = 8) (h0 : d.ucp.ucpState = .writeEeprom) (ho : d.ucp.readOffset < d.ucp.readEnd)
      (he : ¬d.ucp.readEnd ≤ d.ucp.readOffset + 8) : DecodeStep L data len d (eepromStored data d)
  | pinDone (h : len = 8) (h0 : d.ucp.ucpState = .writeEeprom)
      (ho : d.ucp.readOffset < d.ucp.readEnd) (he : d.ucp.readEnd ≤ d.ucp.readOffset + 8)
      (hl : d.ucp.lockAfterSetPin = true) : DecodeStep L data len d
        ((uifInit L (eepromStored data d)).setUcp
          { (eepromStored data d).ucp with lockAfterSetPin := false })
  | eepromDone (h : len = 8) (h0 : d.ucp.ucpState = .writeEeprom)
      (ho : d.ucp.readOffset < d.ucp.readEnd) (he : d.ucp.readEnd ≤ d.ucp.readOffset + 8)
      (hl : d.ucp.lockAfterSetPin = false) : DecodeStep L data len d
        ((eepromStored data d).setUcp { (eepromStored data d).ucp with ucpState := .idle })
  | eepromRefused (h : len = 8) (h0 : d.ucp.ucpState = .writeEeprom)
      (ho : ¬d.ucp.readOffset < d.ucp.readEnd) : DecodeStep L data len d
        (d.setUcp (d.ucp.received data).protocolError)
  | openWrite (h : len = 8) (h0 : d.ucp.ucpState = .idle) (hc : data 0 = ucpCmdWrite) :
      DecodeStep L data len d ((d.setUcp { d.ucp.received data with
        ucpState := .writting, readOffset := word data 1 2,
        readEnd := word data 1 2 + word data 3 4, buffIndex := 0,
        flashWriteAddr := word data 1 2 + L.credentials }).call .openWrite)
  | setPin (h : len = 8)
      (h0 : d.ucp.ucpState ≠ .deviceLocked ∧ d.ucp.ucpState ≠ .writting ∧
        d.ucp.ucpState ≠ .writeEeprom) : DecodeStep L data len d
        ((d.setUcp { d.ucp.received data with
          ucpState := .writeEeprom, readOffset := L.lockHash, readEnd := L.lockHash + 16,
          lockAfterSetPin := true }).call .setPin)
  | keyboard (h : len = 8)
      (h0 : d.ucp.ucpState ≠ .deviceLocked ∧ d.ucp.ucpState ≠ .writting ∧
        d.ucp.ucpState ≠ .writeEeprom) : DecodeStep L data len d
        ((d.setUcp { d.ucp.received data with
          ucpState := .writeEeprom, readOffset := L.keyboardLut,
          readEnd := L.keyboardLut + UInt16.ofNat keyboardSize }).call .keyboard)
  /-- every other command -/
  | command (s : UcpState) (r : Bytes 8) (o e : UInt16) (t : UInt8) (h : len = 8)
      (h0 : d.ucp.ucpState ≠ .deviceLocked ∧ d.ucp.ucpState ≠ .writting ∧
        d.ucp.ucpState ≠ .writeEeprom)
      (hs : s = d.ucp.ucpState ∨ s = .idle ∨ s = .readingCmd) : DecodeStep L data len d
        (d.setUcp { d.ucp with
          ucpState := s, customReport := r, readOffset := o, readEnd := e, readType := t })

theorem decodeCommand_cases (L : Layout) (data : Bytes 8) (d : Device)
    (h0 : d.ucp.ucpState ≠ .deviceLocked ∧ d.ucp.ucpState ≠ .writting ∧
      d.ucp.ucpState ≠ .writeEeprom) :
    DecodeStep L data 8 d (decodeCommand L data (d.setUcp (d.ucp.received data))) := by
  have hc (s : UcpState) (r : Bytes 8) (o e : UInt16) (t : UInt8)
      (hs : s = d.ucp.ucpState ∨ s = .idle ∨ s = .readingCmd) : DecodeStep L data 8 d _ :=
    .command s r o e t rfl h0 hs
  unfold decodeCommand
  dsimp only
  split_ifs with h1 h2 h3 h4 h5
  · exact hc _ _ _ _ _ (.inl rfl)
  · exact hc _ _ _ _ _ (.inr (.inr rfl))
  · exact hc _ _ _ _ _ (.inr (.inl rfl))
  · exact .openWrite rfl h5 h4
  · exact hc _ _ _ _ _ (.inr (.inl rfl))
  · exact .setPin rfl h0
  · exact hc _ _ _ _ _ (.inr (.inr rfl))
  · exact .keyboard rfl h0
  all_goals exact hc _ _ _ _ _ (.inl rfl)

theorem decodeEeprom_cases (L : Layout) (data : Bytes 8) (d : Device)
    (h0 : d.ucp.ucpState = .writeEeprom) :
    DecodeStep L data 8 d (decodeEeprom L (d.setUcp (d.ucp.received data))) := by
  unfold decodeEeprom
  dsimp only
  split_ifs with ho he hl
  · exact .pinDone rfl h0 ho he hl
  · exact .eepromDone rfl h0 ho he (eq_false_of_ne_true hl)
  · exact .half rfl h0 ho he
  · exact .eepromRefused rfl h0 ho

/-- What `UCP_Decode` can do. -/
theorem decode_cases (L : Layout) (data : Bytes 8) (len : UInt8) (d : Device) :
    DecodeStep L data len d (ucpDecode L data len d) := by
  unfold ucpDecode
  dsimp only
  split_ifs with h
  · exact .size h
  have hlen : len = 8 := not_not.mp h
  subst hlen
  split
  · next h0 => exact .locked rfl h0
  · next h0 =>
    unfold decodeWritting
    dsimp only
    split_ifs with hw
    · exact .accept rfl h0 hw.1 hw.2
    · exact .reject rfl h0 hw
  · next h0 => exact decodeEeprom_cases L data d h0
  all_goals
    next h0 =>
    refine decodeCommand_cases L data d ?_
    rw [show d.ucp.ucpState = _ from h0]
    exact ⟨nofun, nofun, nofun⟩

theorem decode_openWrite (L : Layout) {data : Bytes 8} {d : Device} (h0 : d.ucp.ucpState = .idle)
    (hc : data 0 = ucpCmdWrite) : ucpDecode L data 8 d = (d.setUcp { d.ucp.received data with
      ucpState := .writting, readOffset := word data 1 2,
      readEnd := word data 1 2 + word data 3 4, buffIndex := 0,
      flashWriteAddr := word data 1 2 + L.credentials }).call .openWrite := by
  simp [ucpDecode, decodeCommand, h0, hc, ucpCmdWrite, ucpCmdReset, ucpCmdRead, Ucp.received,
    Device.setUcp]

theorem decode_openRead (L : Layout) {data : Bytes 8} {d : Device} (h0 : d.ucp.ucpState = .idle)
    (hc : data 0 = ucpCmdRead) : ucpDecode L data 8 d = d.setUcp { d.ucp.received data with
      ucpState := .readingCmd, readOffset := word data 1 2,
      readEnd := word data 1 2 + word data 3 4, readType := data 5 } := by
  simp [ucpDecode, decodeCommand, h0, hc, ucpCmdReset, ucpCmdRead, Ucp.received, Device.setUcp]

theorem decode_accept (L : Layout) {data : Bytes 8} {d : Device} (h0 : d.ucp.ucpState = .writting)
    (hw : d.ucp.usbWrite = false) (ho : d.ucp.readOffset < d.ucp.readEnd) : ucpDecode L data 8 d =
      (d.setUcp { d.ucp.received data with usbWriteAccepted := true }).call (.accept data) := by
  simp [ucpDecode, decodeWritting, h0, hw, ho, Ucp.received, Device.setUcp]

theorem decode_reject (L : Layout) {data : Bytes 8} {d : Device} (h0 : d.ucp.ucpState = .writting)
    (h : ¬(d.ucp.usbWrite = false ∧ d.ucp.readOffset < d.ucp.readEnd)) : ucpDecode L data 8 d =
      d.setUcp { (d.ucp.received data).protocolError with
        usbWriteAccepted := false, usbWrite := false } := by
  unfold ucpDecode decodeWritting
  rw [if_neg (by decide)]
  dsimp only
  rw [show (d.setUcp { d.ucp with customReport := data }).ucp.ucpState = .writting from h0]
  exact if_neg h

theorem decode_writeEeprom (L : Layout) (data : Bytes 8) {d : Device} (h0 : d.ucp.ucpState = .writeEeprom) :
    ucpDecode L data 8 d = decodeEeprom L (d.setUcp (d.ucp.received data)) := by
  unfold ucpDecode
  rw [if_neg (by decide)]
  dsimp only
  rw [show (d.setUcp { d.ucp with customReport := data }).ucp.ucpState = .writeEeprom from h0]
  rfl

theorem decode_size (L : Layout) (data : Bytes 8) {len : UInt8} (d : Device) (h : len ≠ 8) :
    ucpDecode L data len d = d.setUcp ((d.ucp.received data).error ucpErrSize) :=
  if_pos h

/-- The reply of a locked protocol to a packet. -/
theorem decode_locked (L : Layout) (data : Bytes 8) (len : UInt8) {d : Device}
    (hl : d.ucp.ucpState = .deviceLocked) : ucpDecode L data len d =
      d.setUcp ((d.ucp.received data).error (if len ≠ 8 then ucpErrSize else ucpErrLocked)) := by
  unfold ucpDecode
  dsimp only
  split_ifs with h
  · rfl
  · split
    · rfl
    all_goals
      next h0 => exact absurd (hl.symm.trans h0) nofun

inductive TaskStep (d : Device) : Device → Prop
  | same : TaskStep d d
  | promote (h0 : d.ucp.ucpState = .writting) (ha : d.ucp.usbWriteAccepted = true) :
      TaskStep d (d.setUcp { d.ucp with usbWrite := true, usbWriteAccepted := false })
  | read (s : UcpState) (r : Bytes 8) (o : UInt16)
      (h0 : d.ucp.ucpState = .readingCmd ∨ d.ucp.ucpState = .reading)
      (hs : s = .reading ∨ s = .idle) :
      TaskStep d (d.setUcp { d.ucp with ucpState := s, customReport := r, readOffset := o })

/-- What `UCP_Task` can do. -/
theorem task_cases (L : Layout) (d : Device) : TaskStep d (ucpTask L d) := by
  unfold ucpTask
  dsimp only
  split
  · exact .same
  · exact .same
  · exact .same
  · next h0 => exact .read .reading d.ucp.customReport d.ucp.readOffset (.inl h0) (.inl rfl)
  · next h0 =>
    split_ifs
    · exact .read .idle _ _ (.inr h0) (.inr rfl)
    · exact .read d.ucp.ucpState _ _ (.inr h0) (.inl h0)
    · exact .read .idle _ _ (.inr h0) (.inr rfl)
  · next h0 =>
    split_ifs with ha
    · exact .promote h0 ha
    · exact .same

theorem task_core (L : Layout) (d : Device) :
    ∃ u, ucpTask L d = d.setUcp u := by
  have h := task_cases L d
  generalize ucpTask L d = d' at h
  cases h with
  | same => exact ⟨d.ucp, rfl⟩
  | promote h0 ha => exact ⟨_, rfl⟩
  | read s r o h0 hs => exact ⟨_, rfl⟩

theorem task_promote (L : Layout) {d : Device} (h0 : d.ucp.ucpState = .writting)
    (ha : d.ucp.usbWriteAccepted = true) :
    ucpTask L d = d.setUcp { d.ucp with usbWrite := true, usbWriteAccepted := false } := by
  simp [ucpTask, h0, ha]

theorem task_same (L : Layout) {d : Device}
    (h0 : d.ucp.ucpState = .writting ∧ d.ucp.usbWriteAccepted = false ∨ d.ucp.ucpState = .idle) :
    ucpTask L d = d := by
  rcases h0 with ⟨h0, ha⟩ | h0
  · simp [ucpTask, h0, ha]
  · simp [ucpTask, h0]

theorem task_still (L : Layout) {d : Device} (h0 : d.ucp.ucpState = .idle ∨
    d.ucp.ucpState = .writeEeprom ∨ d.ucp.ucpState = .deviceLocked) : ucpTask L d = d := by
  rcases h0 with h0 | h0 | h0 <;> simp [ucpTask, h0]

theorem task_readingCmd (L : Layout) {d : Device} (h0 : d.ucp.ucpState = .readingCmd) :
    ucpTask L d = d.setUcp { d.ucp with ucpState := .reading } := by
  simp [ucpTask, h0]

theorem task_reading (L : Layout) {d : Device} (h0 : d.ucp.ucpState = .reading) :
    ucpTask L d = d.setUcp (if d.ucp.readOffset < d.ucp.readEnd then
      { d.ucp with
        ucpState := if d.ucp.readEnd ≤ d.ucp.readOffset + 8 then .idle else .reading,
        customReport := readReport L d, readOffset := d.ucp.readOffset + 8 }
      else d.ucp.protocolError) := by
  unfold ucpTask
  simp only [h0]
  split_ifs <;> rfl

def idleDevice (m : Mem) : Device := { flash := { mem := m }, eeprom := fun _ => 0, ram := fun _ => 0 }

namespace Device

def replies (d : Device) : List Call :=
  d.calls.filter fun c => match c with
    | .reply id _ => id = 2
    | _ => false

end Device

theorem replies_append {d d' : Device} {m : List Call} (h : d'.calls = d.calls ++ m)
    (hm : ∀ c ∈ m, c.isPrint = true ∨ c.isMenu = true) : d'.replies = d.replies := by
  unfold Device.replies
  rw [h, List.filter_append]
  refine (congrArg _ (List.filter_eq_nil_iff.mpr ?_)).trans (List.append_nil _)
  intro c hc
  have := hm c hc
  cases c <;> simp_all [Call.isPrint, Call.isMenu]

theorem replies_calm {d d' : Device} (h : Calm d d') : d'.replies = d.replies := by
  obtain ⟨m, hm, hp⟩ := h.calls
  exact replies_append hm fun c hc => .inl (hp c hc)

theorem replies_reply (d : Device) (l : List UInt8) :
    (d.call (.reply 2 l)).replies = d.replies ++ [.reply 2 l] := by
  unfold Device.replies
  rw [call_calls, List.filter_append]
  rfl

def Event.isWriteTask : Event → Bool
  | .writeTask => true
  | _ => false

/-- Everything but flash and what `UCP_WriteTask` moves of the transfer. -/
def Device.offWrite (d : Device) : Device :=
  { d with flash := { mem := fun _ => 0 }, crd := { d.crd with credential := {} },
           ucp := { d.ucp with ucpState := .idle, tempBuff := fun _ => 0, buffIndex := 0,
                               flashWriteAddr := 0, readOffset := 0 } }

structure WriteStep (d d' : Device) : Prop where
  frame : d'.offWrite = d.offWrite
  state : d'.ucp.ucpState = d.ucp.ucpState ∨ d'.ucp.ucpState = .idle

namespace WriteStep

theorem refl (d : Device) : WriteStep d d := ⟨rfl, .inl rfl⟩

theorem trans {a b c : Device} (h1 : WriteStep a b) (h2 : WriteStep b c) : WriteStep a c := by
  refine ⟨h2.frame.trans h1.frame, ?_⟩
  rcases h2.state with h | h
  · exact h1.state.imp h.trans h.trans
  · exact .inr h

variable {d d' : Device} (h : WriteStep d d')
include h

theorem eeprom : d'.eeprom = d.eeprom := (congrArg Device.eeprom h.frame :)
theorem key : d'.crd.cipher.key = d.crd.cipher.key :=
  (congrArg (fun d => d.crd.cipher.key) h.frame :)
theorem uif : d'.uif = d.uif := (congrArg Device.uif h.frame :)
theorem usi : d'.usi = d.usi := (congrArg Device.usi h.frame :)
theorem calls : d'.calls = d.calls := (congrArg Device.calls h.frame :)
theorem customReport : d'.ucp.customReport = d.ucp.customReport :=
  (congrArg (fun d => d.ucp.customReport) h.frame :)
theorem usbWriteAccepted : d'.ucp.usbWriteAccepted = d.ucp.usbWriteAccepted :=
  (congrArg (fun d => d.ucp.usbWriteAccepted) h.frame :)
theorem lockAfterSetPin : d'.ucp.lockAfterSetPin = d.ucp.lockAfterSetPin :=
  (congrArg (fun d => d.ucp.lockAfterSetPin) h.frame :)
theorem readEnd : d'.ucp.readEnd = d.ucp.readEnd :=
  (congrArg (fun d => d.ucp.readEnd) h.frame :)

end WriteStep

theorem writeStep_storeByte (b : UInt8) (d : Device) :
    WriteStep d (d.setUcp (storeByte b d.ucp)) := ⟨rfl, .inl rfl⟩

theorem writeStep_flush (d : Device) : WriteStep d (flush d).state := by
  unfold flush
  split <;> exact ⟨rfl, .inl rfl⟩

theorem writeStep_finish (L : Layout) (d : Device) :
    WriteStep d (crdInit L (d.setUcp { d.ucp with ucpState := .idle })).state := by
  obtain ⟨c, hc⟩ := loadCredential_state L 0 (d.setUcp { d.ucp with ucpState := .idle })
  unfold crdInit
  rw [hc]
  exact ⟨rfl, .inr rfl⟩

theorem writeStep_loop (L : Layout) (bs : List UInt8) (d : Device) :
    WriteStep d (ucpWriteLoop L bs d).state := by
  induction bs generalizing d with
  | nil => exact .refl d
  | cons b bs ih =>
    have h := writeStep_storeByte b d
    unfold ucpWriteLoop
    dsimp only
    split_ifs
    · refine Outcome.state_bind (P := WriteStep d) (h.trans (writeStep_flush _)) fun s hs => ?_
      split_ifs
      · exact hs.trans (writeStep_finish L s)
      · exact hs.trans (ih s)
    · exact h.trans (ih _)

theorem writeTask_none (L : Layout) (d : Device) (h : d.ucp.usbWrite = false) :
    ucpWriteTask L d = .ret d := by
  unfold ucpWriteTask
  rw [h]
  rfl

theorem writeTask_pending (L : Layout) (d : Device) (h : d.ucp.usbWrite = true) :
    ucpWriteTask L d = (ucpWriteLoop L (List.ofFn d.ucp.customReport)
      (d.call (.copy d.ucp.ucpState d.ucp.customReport))).bind fun d =>
        .ret (d.setUcp { d.ucp with usbWrite := false }) := by
  unfold ucpWriteTask
  rw [if_pos h]
  rfl

/-- What `UCP_WriteTask` can do when a write is pending. -/
theorem writeTask_cases (L : Layout) (d : Device) (h : d.ucp.usbWrite = true) :
    ∃ d', WriteStep (d.call (.copy d.ucp.ucpState d.ucp.customReport)) d' ∧
      (ucpWriteTask L d = .ret (d'.setUcp { d'.ucp with usbWrite := false }) ∨
        ucpWriteTask L d = .spin d') := by
  have hw := writeStep_loop L (List.ofFn d.ucp.customReport)
    (d.call (.copy d.ucp.ucpState d.ucp.customReport))
  rw [writeTask_pending L d h]
  generalize ucpWriteLoop L _ _ = o at hw
  refine ⟨o.state, hw, ?_⟩
  cases o with
  | ret s => exact .inl rfl
  | spin s => exact .inr rfl

/-- What `UCP_WriteTask` does in all, whether or not it returns. -/
inductive WriteTaskStep (d : Device) : Device → Prop
  | idle (hw : d.ucp.usbWrite = false) : WriteTaskStep d d
  | wrote (hw : d.ucp.usbWrite = true) (d1 : Device)
      (h : WriteStep (d.call (.copy d.ucp.ucpState d.ucp.customReport)) d1) (w : Bool) :
      WriteTaskStep d (d1.setUcp { d1.ucp with usbWrite := w })

theorem writeTask_step (L : Layout) (d : Device) : WriteTaskStep d (ucpWriteTask L d).state := by
  cases hw : d.ucp.usbWrite with
  | false =>
    rw [writeTask_none L d hw]
    exact .idle hw
  | true =>
    obtain ⟨d1, h, hr | hr⟩ := writeTask_cases L d hw
    · rw [hr]
      exact .wrote hw d1 h false
    · rw [hr]
      exact .wrote hw d1 h d1.ucp.usbWrite

/-- What `UCP_WriteTask` has done when it returns. -/
inductive WriteTaskRet (L : Layout) (d : Device) : Device → Prop
  | idle (hw : d.ucp.usbWrite = false) : WriteTaskRet L d d
  | wrote (hw : d.ucp.usbWrite = true) (d1 : Device)
      (hl : ucpWriteLoop L (List.ofFn d.ucp.customReport)
        (d.call (.copy d.ucp.ucpState d.ucp.customReport)) = .ret d1)
      (h : WriteStep (d.call (.copy d.ucp.ucpState d.ucp.customReport)) d1) :
      WriteTaskRet L d (d1.setUcp { d1.ucp with usbWrite := false })

theorem writeTask_ret {L : Layout} {d d' : Device} (hs : ucpWriteTask L d = .ret d') :
    WriteTaskRet L d d' := by
  cases hw : d.ucp.usbWrite with
  | false =>
    rw [writeTask_none L d hw] at hs
    cases hs
    exact .idle hw
  | true =>
    have h := writeStep_loop L (List.ofFn d.ucp.customReport)
      (d.call (.copy d.ucp.ucpState d.ucp.customReport))
    rw [writeTask_pending L d hw] at hs
    cases hl : ucpWriteLoop L (List.ofFn d.ucp.customReport)
      (d.call (.copy d.ucp.ucpState d.ucp.customReport)) with
    | spin d1 =>
      rw [hl] at hs
      cases hs
    | ret d1 =>
      rw [hl] at hs h
      cases hs
      exact .wrote hw d1 hl h

theorem writeTask_calls (L : Layout) {d : Device} (h : d.ucp.usbWrite = true) :
    (ucpWriteTask L d).state.calls =
      d.calls ++ [.copy d.ucp.ucpState d.ucp.customReport] := by
  have hs := writeTask_step L d
  generalize (ucpWriteTask L d).state = d' at hs ⊢
  cases hs with
  | idle hw => cases hw.symm.trans h
  | wrote hw d1 h1 w => exact h1.calls

theorem writeTask_flags {L : Layout} {d d' : Device} (h : d.ucp.usbWrite = true)
    (hs : ucpWriteTask L d = .ret d') :
    d'.ucp.usbWrite = false ∧ d'.ucp.usbWriteAccepted = d.ucp.usbWriteAccepted := by
  cases writeTask_ret hs with
  | idle hw => cases hw.symm.trans h
  | wrote hw d1 hl h1 => exact ⟨rfl, h1.usbWriteAccepted⟩

/-- The device as `main` enters its loop. -/
theorem powerOn_ret {L : Layout} {flash eeprom ram : Mem} {d : Device}
    (h : powerOn L flash eeprom ram = .ret d) :
    ∃ c v, d = { uifInit L { flash := { mem := flash }, eeprom := eeprom, ram := ram } with
      ucp := { ucpState := .deviceLocked }, crd := { credential := c }, osccal := v } := by
  unfold powerOn at h
  dsimp only at h
  obtain ⟨c, hc⟩ := loadCredential_state L 0
    (uifInit L { flash := { mem := flash }, eeprom := eeprom, ram := ram })
  unfold crdInit at h
  cases ho : crdLoadCredential L 0
    (uifInit L { flash := { mem := flash }, eeprom := eeprom, ram := ram }) with
  | spin s => simp [ho] at h
  | ret s =>
    rw [ho] at hc h
    rw [Outcome.state_ret] at hc
    rw [Outcome.bind_ret, hc] at h
    cases h
    unfold osccalInit
    dsimp only
    split_ifs
    · exact ⟨c, _, rfl⟩
    · exact ⟨c, 0, rfl⟩

end Memtype
