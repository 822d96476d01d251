import Memtype.Proofs.Message

/-! What a SETUP asks for: the answers of `usbDriverSetup` and `usbFunctionSetup` cut to `wLength`,
and that the message which `usbProcessRx` begins is the answer. -/

namespace Memtype

open Lib

namespace Firmware

variable {L : Layout}

def wLength (data : Bytes 8) : ℕ := (data 6).toNat + 256 * (data 7).toNat

def descriptor (value0 value1 : UInt8) : List UInt8 :=
  if value1 = 1 then usbDescriptorDevice
  else if value1 = 2 then usbDescriptorConfiguration
  else if value1 = 3 then
    if value0 = 0 then usbDescriptorString0
    else if value0 = 1 then usbDescriptorStringVendor
    else if value0 = 2 then usbDescriptorStringDevice
    else []
  else if value1 = 0x21 then (usbDescriptorConfiguration.drop 18).take 9
  else if value1 = 0x22 then usbDescriptorHidReport
  else []

def standardReply (data : Bytes 8) (configuration : UInt8) : List UInt8 :=
  if data 1 = 0 then [0, 0]
  else if data 1 = 6 then descriptor (data 2) (data 3)
  else if data 1 = 8 then [configuration]
  else if data 1 = 10 then [0]
  else []

/-- What the host is to receive, unless data from it is awaited. -/
def reply (L : Layout) (data : Bytes 8) (s : Firmware) : Option (List UInt8) :=
  (if data 0 &&& usbrqTypeMask ≠ 0 then (usbFunctionSetup L (usbRequest data) s.dev).2
    else some (standardReply data s.drv.usbConfiguration)).map (List.take (wLength data))

theorem toNat_limit (data : Bytes 8) (len : UInt8) :
    (Usbdrv.limit data len).toNat = min len.toNat (wLength data) := by
  unfold Usbdrv.limit wLength
  have hlen := len.toNat_lt
  by_cases h7 : data 7 = 0
  · rw [h7, UInt8.toNat_zero]
    by_cases hgt : len > data 6
    · have := UInt8.lt_iff_toNat_lt.mp hgt
      rw [if_pos ⟨rfl, hgt⟩]
      omega
    · have : ¬(data 6).toNat < len.toNat := fun h => hgt (UInt8.lt_iff_toNat_lt.mpr h)
      rw [if_neg fun h => hgt h.2]
      omega
  · have : 0 < (data 7).toNat := Nat.pos_of_ne_zero fun h => h7 (UInt8.toNat_inj.mp h)
    rw [if_neg fun h => h7 h.1]
    omega

/-- The message that a SETUP with an answer begins. -/
structure Answers (s : Firmware) (data : Bytes 8) (r : List UInt8) : Prop where
  pc : s.pc = .release
  len : s.drv.usbMsgLen = Usbdrv.limit data (UInt8.ofNat r.length)
  short : r.length ≤ 63
  pid : s.drv.usbTxBuf 0 = usbpidData0
  idle : s.drv.usbTxLen = usbpidNak
  bytes : r ≠ [] → r <+: (s.object s.drv.usbMsgPtr.obj).drop s.drv.usbMsgPtr.offset
  rom : r ≠ [] → (s.drv.usbMsgFlags &&& usbFlgMsgptrIsRom ≠ 0) = s.drv.usbMsgPtr.obj.isRom

theorem Answers.toNat_len {s : Firmware} {data : Bytes 8} {r : List UInt8} (h : Answers s data r) :
    s.drv.usbMsgLen.toNat = min r.length (wLength data) := by
  have := h.short
  rw [h.len, toNat_limit, UInt8.toNat_ofNat', Nat.mod_eq_of_lt (by omega)]

theorem Answers.toSend {s : Firmware} {data : Bytes 8} {r : List UInt8} (h : Answers s data r) :
    s.toSend = Usbdrv.packets usbpidData1 (r.take (wLength data)) ∧ MsgInv s := by
  have hlen := h.toNat_len
  have hshort := h.short
  have hmsg : s.drv.usbMsgLen ≠ usbNoMsg := fun h0 => by
    rw [h0, show usbNoMsg.toNat = 255 from rfl] at hlen
    omega
  have hidle : isHandshake s.drv.usbTxLen = true := by
    rw [h.idle]
    decide
  have hne (hl : s.Live) : r ≠ [] := by
    rintro rfl
    have := live_toNat hl
    rw [hlen] at this
    simp at this
  have hmessage : s.message = r.take (wLength data) := by
    unfold message
    rw [hlen]
    by_cases hr : r = []
    · simp [hr]
    · obtain ⟨t, ht⟩ := h.bytes hr
      rw [← ht, List.take_append_of_le_length (Nat.min_le_left _ _), Nat.min_comm]
      exact List.take_eq_take_min.symm
  refine ⟨?_, fun hl => ?_, fun hl => h.rom (hne hl), fun hl => .inr ⟨.inl h.pc, hidle⟩⟩
  · unfold Firmware.toSend inBuffer toBuild
    rw [if_pos hidle, if_neg hmsg, hmessage, h.pid]
    rfl
  · have hle := (h.bytes (hne hl)).length_le
    have hpos := live_toNat hl
    rw [List.length_drop] at hle
    omega

theorem functionSetup_object {rq : UsbRequest} {d : Device} {r : List UInt8}
    (h : (usbFunctionSetup L rq d).2 = some r) : r.length ≤ 8 ∧ (r ≠ [] → ∃ o,
      usbFunctionMsg rq = some ⟨o, 0⟩ ∧ o.isRom = false ∧
      ∀ u pc, object ⟨(usbFunctionSetup L rq d).1, u, pc⟩ o = r) := by
  unfold usbFunctionSetup at h ⊢
  unfold usbFunctionMsg
  split_ifs at h ⊢
  all_goals simp only [Option.some.injEq] at h
  all_goals subst h
  all_goals first
    | exact ⟨Nat.zero_le 8, fun h => (h rfl).elim⟩
    | exact ⟨(by decide : 1 ≤ 8), fun _ => ⟨.idleRate, rfl, rfl, fun _ _ => rfl⟩⟩
    | exact ⟨(by decide : 1 ≤ 8), fun _ => ⟨.protocolVersion, rfl, rfl, fun _ _ => rfl⟩⟩
    | exact ⟨(by decide : 3 ≤ 8), fun _ => ⟨.reportBuffer, rfl, rfl, fun _ _ => rfl⟩⟩
    | exact ⟨by simp, fun _ => ⟨.customReport, rfl, rfl, fun _ _ => rfl⟩⟩

theorem newSetup_pid (u : Usbdrv) : u.newSetup.usbTxBuf 0 = usbpidData0 := by
  change Function.update u.usbTxBuf 0 usbpidData0 0 = usbpidData0
  exact Function.update_self ..

theorem answers_function {s : Firmware} {data : Bytes 8} {r : List UInt8}
    (htype : data 0 &&& usbrqTypeMask ≠ 0)
    (h : (usbFunctionSetup L (usbRequest data) s.dev).2 = some r) :
    Answers { s.processSetup L data with pc := .release } data r := by
  obtain ⟨hshort, hobj⟩ := functionSetup_object h
  have hp : s.processSetup L data = { s with
      dev := (usbFunctionSetup L (usbRequest data) s.dev).1,
      drv := s.drv.newSetup.functionReply data (some r) } := by
    unfold processSetup
    rw [if_pos htype, ← h]
  have hptr {p : MsgPtr} (hmsg : usbFunctionMsg (usbRequest data) = some p) :
      (s.drv.newSetup.functionReply data (some r)).usbMsgPtr = p := by
    unfold Usbdrv.functionReply
    dsimp only
    rw [hmsg]
    rfl
  rw [hp]
  refine ⟨rfl, rfl, by omega, ?_, rfl, fun hr => ?_, fun hr => ?_⟩
  · exact newSetup_pid s.drv
  · obtain ⟨o, hmsg, hram, ho⟩ := hobj hr
    dsimp only
    rw [hptr hmsg, ho]
    exact List.prefix_refl r
  · obtain ⟨o, hmsg, hram, ho⟩ := hobj hr
    dsimp only
    rw [hptr hmsg, hram]
    exact propext ⟨fun h => absurd (by decide : (0 : UInt8) &&& usbFlgMsgptrIsRom = 0) h, nofun⟩

/-- What `usbDriverSetup` leaves, in a driver whose flags are clear. -/
structure DriverAnswers (u u' : Usbdrv) (len : UInt8) (r : List UInt8) : Prop where
  len : len = UInt8.ofNat r.length
  short : r.length ≤ 63
  pid : u'.usbTxBuf 0 = u.usbTxBuf 0
  idle : u'.usbTxLen = u.usbTxLen
  bytes : r ≠ [] → ∀ d pc x,
    r <+: (object ⟨d, { u' with usbMsgLen := x }, pc⟩ u'.usbMsgPtr.obj).drop u'.usbMsgPtr.offset
  rom : r ≠ [] → (u'.usbMsgFlags &&& usbFlgMsgptrIsRom ≠ 0) = u'.usbMsgPtr.obj.isRom

theorem ram_flags : ((0 : UInt8) &&& usbFlgMsgptrIsRom ≠ 0) = (false = true) :=
  propext ⟨fun h => absurd (by decide : (0 : UInt8) &&& usbFlgMsgptrIsRom = 0) h, nofun⟩

theorem rom_flags : (usbFlgMsgptrIsRom &&& usbFlgMsgptrIsRom ≠ 0) = (true = true) :=
  propext ⟨fun _ => rfl, fun _ => by decide⟩

theorem descriptor_answers (value0 value1 : UInt8) (u : Usbdrv) :
    DriverAnswers u { u with
      usbMsgPtr := (Usbdrv.usbDriverDescriptor value0 value1).1.getD u.usbMsgPtr,
      usbMsgFlags := usbFlgMsgptrIsRom } (Usbdrv.usbDriverDescriptor value0 value1).2
      (descriptor value0 value1) := by
  unfold Usbdrv.usbDriverDescriptor descriptor
  split_ifs
  · exact ⟨rfl, by decide, rfl, rfl, fun _ _ _ _ => List.prefix_refl _, fun _ => rom_flags⟩
  · exact ⟨rfl, by decide, rfl, rfl, fun _ _ _ _ => List.prefix_refl _, fun _ => rom_flags⟩
  · exact ⟨rfl, by decide, rfl, rfl, fun _ _ _ _ => List.prefix_refl _, fun _ => rom_flags⟩
  · exact ⟨rfl, by decide, rfl, rfl, fun _ _ _ _ => List.prefix_refl _, fun _ => rom_flags⟩
  · exact ⟨rfl, by decide, rfl, rfl, fun _ _ _ _ => List.prefix_refl _, fun _ => rom_flags⟩
  · exact ⟨rfl, by decide, rfl, rfl, fun h => (h rfl).elim, fun h => (h rfl).elim⟩
  · exact ⟨rfl, by decide, rfl, rfl, fun _ _ _ _ => List.take_prefix 9 _, fun _ => rom_flags⟩
  · exact ⟨rfl, by decide, rfl, rfl, fun _ _ _ _ => List.prefix_refl _, fun _ => rom_flags⟩
  · exact ⟨rfl, by decide, rfl, rfl, fun h => (h rfl).elim, fun h => (h rfl).elim⟩

theorem driverSetup_answers (data : Bytes 8) {u : Usbdrv} (hf : u.usbMsgFlags = 0) :
    DriverAnswers u (u.usbDriverSetup data).1 (u.usbDriverSetup data).2
      (standardReply data u.usbConfiguration) := by
  have hram : (u.usbMsgFlags &&& usbFlgMsgptrIsRom ≠ 0) = (false = true) := hf ▸ ram_flags
  have hnone {u' : Usbdrv} (hpid : u'.usbTxBuf 0 = u.usbTxBuf 0) (hidle : u'.usbTxLen = u.usbTxLen) :
      DriverAnswers u u' 0 [] :=
    ⟨rfl, by decide, hpid, hidle, fun h => (h rfl).elim, fun h => (h rfl).elim⟩
  unfold Usbdrv.usbDriverSetup standardReply
  by_cases h0 : data 1 = 0
  · rw [if_pos h0, if_pos h0]
    exact ⟨rfl, by decide, rfl, rfl, fun _ _ _ _ => List.prefix_refl _, fun _ => hram⟩
  by_cases h5 : data 1 = 5
  · rw [h5]
    exact hnone rfl rfl
  by_cases h6 : data 1 = 6
  · rw [h6]
    obtain ⟨h1, h2, h3, h4, h5, h6⟩ := descriptor_answers (data 2) (data 3)
      { u with usbTxBuf := Function.update u.usbTxBuf 9 0 }
    exact ⟨h1, h2, h3, h4, h5, h6⟩
  by_cases h8 : data 1 = 8
  · rw [h8]
    exact ⟨rfl, (by decide : 1 ≤ 63), rfl, rfl, fun _ _ _ _ => List.prefix_refl _, fun _ => hram⟩
  by_cases h9 : data 1 = 9
  · rw [h9]
    exact hnone rfl rfl
  by_cases h10 : data 1 = 10
  · rw [h10]
    refine ⟨rfl, (by decide : 1 ≤ 63), rfl, rfl, fun _ _ _ _ => ?_, fun _ => hram⟩
    exact List.prefix_append [0] [u.usbTxBuf 10]
  by_cases h11 : data 1 = 11
  · rw [h11]
    exact hnone rfl rfl
  rw [if_neg h0, if_neg h5, if_neg h6, if_neg h8, if_neg h9, if_neg h10, if_neg h11, if_neg h0,
    if_neg h6, if_neg h8, if_neg h10]
  exact hnone rfl rfl

theorem answers_driver {s : Firmware} {data : Bytes 8} (htype : data 0 &&& usbrqTypeMask = 0) :
    Answers { s.processSetup L data with pc := .release } data
      (standardReply data s.drv.usbConfiguration) := by
  obtain ⟨h1, h2, h3, h4, h5, h6⟩ := driverSetup_answers data (u := s.drv.newSetup) rfl
  have hp : s.processSetup L data = { s with drv := s.drv.newSetup.driverReply data } := by
    unfold processSetup
    rw [if_neg (not_not.mpr htype)]
  rw [hp]
  refine ⟨rfl, congrArg (Usbdrv.limit data) h1, h2, ?_, h4, fun hr => h5 hr _ _ _, h6⟩
  exact h3.trans (newSetup_pid s.drv)

/-- A request for data to `usbFunctionWrite` that says the host is to receive it. -/
def Stray (data : Bytes 8) : Prop :=
  data 0 &&& usbrqTypeMask = usbrqTypeClass ∧ data 1 = usbrqHidSetReport ∧ data 2 = 2 ∧
    data 0 &&& 0x80 ≠ 0

instance (data : Bytes 8) : Decidable (Stray data) := inferInstanceAs (Decidable (_ ∧ _ ∧ _ ∧ _))

def asked (L : Layout) (data : Bytes 8) (s : Firmware) : List (List UInt8) :=
  match reply L data s with
  | some r => Usbdrv.packets usbpidData1 r
  | none => []

theorem toSend_setup {s : Firmware} {data : Bytes 8} (hstray : ¬Stray data) :
    toSend { s.processSetup L data with pc := .release } = asked L data s ∧
      MsgInv { s.processSetup L data with pc := .release } := by
  unfold asked reply
  by_cases htype : data 0 &&& usbrqTypeMask = 0
  · rw [if_neg (not_not.mpr htype)]
    exact (answers_driver htype).toSend
  · rw [if_pos htype]
    cases hr : (usbFunctionSetup L (usbRequest data) s.dev).2 with
    | some r => exact (answers_function htype hr).toSend
    | none =>
      obtain ⟨h1, h2, h3⟩ := usbFunctionSetup_none.mp hr
      have hout : data 0 &&& 0x80 = 0 := not_not.mp fun h => hstray ⟨h1, h2, h3, h⟩
      have hp : s.processSetup L data = { s with
          dev := (usbFunctionSetup L (usbRequest data) s.dev).1,
          drv := s.drv.newSetup.functionReply data none } := by
        unfold processSetup
        rw [if_pos htype, ← hr]
      have hmsg : (s.drv.newSetup.functionReply data none).usbMsgLen = usbNoMsg :=
        if_neg (not_not.mpr hout)
      have hdead {d : Device} {pc : Pc} : ¬Live ⟨d, s.drv.newSetup.functionReply data none, pc⟩ :=
        fun hl => hl.1 hmsg
      have hidle : isHandshake usbpidNak = true := by decide
      rw [hp]
      refine ⟨?_, fun hl => absurd hl hdead, fun hl => absurd hl hdead, fun hl => absurd hl hdead⟩
      unfold toSend inBuffer toBuild
      exact (congrArg₂ _ (if_pos hidle) (if_pos hmsg)).trans rfl

end Firmware

end Memtype
