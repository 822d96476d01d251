import Memtype.Proofs.Packets

/-! What the default endpoint has still to send: the packet in `usbTxBuf` and the message cut into
packets. An IN that is answered with data takes the first packet, and no step of the loop but the
one that takes a received packet changes it. -/

namespace Memtype

open Lib

namespace Firmware

variable {L : Layout}

def message (s : Firmware) : List UInt8 :=
  ((s.object s.drv.usbMsgPtr.obj).drop s.drv.usbMsgPtr.offset).take s.drv.usbMsgLen.toNat

def inBuffer (s : Firmware) : List (List UInt8) :=
  if isHandshake s.drv.usbTxLen then []
  else [(List.ofFn s.drv.usbTxBuf).take (s.drv.usbTxLen.toNat - 1)]

def toBuild (s : Firmware) : List (List UInt8) :=
  if s.drv.usbMsgLen = usbNoMsg then []
  else Usbdrv.packets (Usbdrv.toggle (s.drv.usbTxBuf 0)) s.message

def toSend (s : Firmware) : List (List UInt8) := s.inBuffer ++ s.toBuild

/-- There are bytes to be read through `usbMsgPtr`. -/
def Live (s : Firmware) : Prop := s.drv.usbMsgLen ≠ usbNoMsg ∧ s.drv.usbMsgLen ≠ 0

/-- The message lies inside its object, and is in flash unless its packet is about to be built. -/
structure MsgInv (s : Firmware) : Prop where
  inside : s.Live →
    s.drv.usbMsgPtr.offset + s.drv.usbMsgLen.toNat ≤ (s.object s.drv.usbMsgPtr.obj).length
  rom : s.Live → (s.drv.usbMsgFlags &&& usbFlgMsgptrIsRom ≠ 0) = s.drv.usbMsgPtr.obj.isRom
  fixed : s.Live → s.drv.usbMsgPtr.obj.isRom = true ∨
    (s.pc = .release ∨ s.pc = .transmit) ∧ isHandshake s.drv.usbTxLen = true

theorem object_rom {o : MsgObj} (h : o.isRom = true) (s s' : Firmware) : s'.object o = s.object o := by
  cases o <;> first | rfl | exact absurd h (by decide)

theorem length_object_ram {o : MsgObj} (h : o.isRom = false) (s : Firmware) :
    (s.object o).length ≤ 8 := by
  cases o <;> first | exact absurd h (by decide) | simp [object, reportBuffer]

theorem length_message {s : Firmware} (h : MsgInv s) (hmsg : s.drv.usbMsgLen ≠ usbNoMsg) :
    s.message.length = s.drv.usbMsgLen.toNat := by
  unfold message
  rw [List.length_take, List.length_drop]
  by_cases h0 : s.drv.usbMsgLen = 0
  · rw [h0, UInt8.toNat_zero, Nat.zero_min]
  · have := h.inside ⟨hmsg, h0⟩
    omega

/-- Nothing outside the object is read. -/
theorem usbDeviceRead_message {s : Firmware} (h : MsgInv s) (hmsg : s.drv.usbMsgLen ≠ usbNoMsg)
    (beyond : MsgPtr → UInt8) {len : UInt8} (hlen : len ≤ s.drv.usbMsgLen) :
    (s.usbDeviceRead beyond len).2 = s.message.take len.toNat := by
  have hm := length_message h hmsg
  have hle : len.toNat ≤ s.drv.usbMsgLen.toNat := UInt8.le_iff_toNat_le.mp hlen
  unfold usbDeviceRead
  refine List.ext_getElem (by simp [hm, hle]) fun i hi hi' => ?_
  have hi2 : i < len.toNat := by simpa using hi
  have hlive : s.Live := ⟨hmsg, fun h0 => by
    rw [h0, UInt8.toNat_zero] at hle
    omega⟩
  have hin := h.inside hlive
  have hobj : s.drv.usbMsgPtr.offset + i < (s.object s.drv.usbMsgPtr.obj).length := by omega
  rw [List.getElem_map, List.getElem_range]
  unfold msgByte
  dsimp only
  rw [if_pos (h.rom hlive), List.getD_eq_getElem _ _ hobj]
  simp [message, List.getElem_take, List.getElem_drop]

theorem isHandshake_length {n : ℕ} (h : n ≤ 8) : isHandshake (UInt8.ofNat n + 4) = false ∧
    (UInt8.ofNat n + 4).toNat = n + 4 := by
  interval_cases n <;> decide

theorem limit_eight (n : UInt8) : (if n > 8 then 8 else n) ≤ n ∧
    (if n > 8 then 8 else n).toNat = min n.toNat 8 := by
  split_ifs with h
  · have h' : 8 < n.toNat := UInt8.lt_iff_toNat_lt.mp h
    exact ⟨UInt8.le_iff_toNat_le.mpr h'.le, by rw [Nat.min_eq_right h'.le]; rfl⟩
  · have h' : ¬8 < n.toNat := fun h' => h (UInt8.lt_iff_toNat_lt.mpr h')
    exact ⟨UInt8.le_refl n, by rw [Nat.min_eq_left (by omega)]⟩

/-- `usbBuildTxBlock` in the terms of the message. -/
structure Built (s : Firmware) (u : Usbdrv) : Prop where
  len : u.usbTxLen = UInt8.ofNat (s.message.take 8).length + 4
  buf : u.usbTxBuf = Usbdrv.append
    (Function.update s.drv.usbTxBuf 0 (Usbdrv.toggle (s.drv.usbTxBuf 0))) (s.message.take 8)
  obj : u.usbMsgPtr.obj = s.drv.usbMsgPtr.obj
  offset : 8 ≤ s.drv.usbMsgLen.toNat → u.usbMsgPtr.offset = s.drv.usbMsgPtr.offset + 8
  flags : u.usbMsgFlags = s.drv.usbMsgFlags
  last : s.drv.usbMsgLen.toNat < 8 → u.usbMsgLen = usbNoMsg
  rest : 8 ≤ s.drv.usbMsgLen.toNat → u.usbMsgLen.toNat = s.drv.usbMsgLen.toNat - 8

theorem built {s : Firmware} (h : MsgInv s) (hmsg : s.drv.usbMsgLen ≠ usbNoMsg)
    (beyond : MsgPtr → UInt8) : Built s (s.usbBuildTxBlock beyond) := by
  obtain ⟨hwant, hwant8⟩ := limit_eight s.drv.usbMsgLen
  have hlen := length_message h hmsg
  have hread := usbDeviceRead_message h hmsg beyond hwant
  generalize hw : (if s.drv.usbMsgLen > 8 then 8 else s.drv.usbMsgLen) = want at hwant hwant8 hread
  have htake : s.message.take want.toNat = s.message.take 8 := by
    rw [hwant8, ← hlen, Nat.min_comm]
    exact List.take_eq_take_min.symm
  rw [htake] at hread
  have hlen8 : (s.message.take 8).length = min s.drv.usbMsgLen.toNat 8 := by
    rw [List.length_take, hlen, Nat.min_comm]
  have h12 : UInt8.ofNat (s.message.take 8).length + 4 < 12 ↔ s.drv.usbMsgLen.toNat < 8 := by
    rw [UInt8.lt_iff_toNat_lt, (isHandshake_length (by omega)).2, hlen8,
      show (12 : UInt8).toNat = 12 from rfl]
    omega
  unfold usbBuildTxBlock
  dsimp only
  rw [hw, hread]
  refine ⟨rfl, rfl, rfl, fun h8 => ?_, rfl, fun h8 => if_pos (h12.mpr h8), fun h8 => ?_⟩
  · change s.drv.usbMsgPtr.offset + want.toNat = _
    rw [hwant8, Nat.min_eq_right h8]
  · rw [if_neg (fun h => Nat.not_lt.mpr h8 (h12.mp h))]
    change (s.drv.usbMsgLen - want).toNat = _
    rw [UInt8.toNat_sub_of_le _ _ hwant, hwant8, Nat.min_eq_right h8]

theorem live_toNat {s : Firmware} (h : s.Live) : 0 < s.drv.usbMsgLen.toNat :=
  Nat.pos_of_ne_zero fun h0 => h.2 (UInt8.toNat_inj.mp h0)

/-- A message of more than eight bytes is in flash. -/
theorem rom_of_long {s : Firmware} (h : MsgInv s) (hmsg : s.drv.usbMsgLen ≠ usbNoMsg)
    (hlong : 8 < s.drv.usbMsgLen.toNat) : s.drv.usbMsgPtr.obj.isRom = true := by
  have hlive : s.Live := ⟨hmsg, fun h0 => by
    rw [h0, UInt8.toNat_zero] at hlong
    omega⟩
  by_contra hram
  have := length_object_ram (Bool.eq_false_iff.mpr hram) s
  have := h.inside hlive
  omega

/-- What is left of the message after a packet. -/
theorem message_built {s : Firmware} (h : MsgInv s) (hmsg : s.drv.usbMsgLen ≠ usbNoMsg) {u : Usbdrv}
    (hb : Built s u) (h8 : 8 ≤ s.drv.usbMsgLen.toNat) (pc : Pc) :
    message ⟨s.dev, u, pc⟩ = s.message.drop 8 := by
  have hlen := length_message h hmsg
  rcases Nat.eq_or_lt_of_le h8 with h8' | h8'
  · have hnil : s.message.drop 8 = [] := List.drop_eq_nil_of_le (by omega)
    rw [hnil]
    refine List.take_eq_nil_iff.mpr (.inl ?_)
    exact (hb.rest h8).trans (by omega)
  · have hrom := rom_of_long h hmsg h8'
    have hobj : object ⟨s.dev, u, pc⟩ u.usbMsgPtr.obj = s.object s.drv.usbMsgPtr.obj := by
      rw [hb.obj]
      exact object_rom hrom s _
    unfold message
    change ((object ⟨s.dev, u, pc⟩ u.usbMsgPtr.obj).drop u.usbMsgPtr.offset).take u.usbMsgLen.toNat = _
    rw [hobj, hb.offset h8, hb.rest h8, List.drop_take, List.drop_drop]

theorem toSend_built {s : Firmware} (h : MsgInv s) (hmsg : s.drv.usbMsgLen ≠ usbNoMsg) {u : Usbdrv}
    (hb : Built s u) (hidle : isHandshake s.drv.usbTxLen = true) (pc : Pc) :
    toSend ⟨s.dev, u, pc⟩ = s.toSend := by
  have hlen := length_message h hmsg
  have hle : (s.message.take 8).length ≤ 8 := List.length_take_le 8 _
  obtain ⟨hdata, hnat⟩ := isHandshake_length hle
  have hold : s.inBuffer = [] := if_pos hidle
  have hpid : u.usbTxBuf 0 = Usbdrv.toggle (s.drv.usbTxBuf 0) := by
    rw [hb.buf, Usbdrv.append_apply _ (Nat.succ_pos _), Function.update_self]
    rfl
  have hnew : inBuffer ⟨s.dev, u, pc⟩ =
      [Usbdrv.framed (Usbdrv.toggle (s.drv.usbTxBuf 0)) (s.message.take 8)] := by
    unfold inBuffer
    dsimp only
    rw [hb.len, hdata, if_neg nofun, hnat, hb.buf, Nat.add_sub_assoc (by decide),
      Usbdrv.take_append _ hle, Function.update_self]
  unfold toSend
  rw [hold, hnew, List.nil_append]
  unfold toBuild
  rw [if_neg hmsg]
  rcases Nat.lt_or_ge s.drv.usbMsgLen.toNat 8 with h8 | h8
  · rw [if_pos (hb.last h8), Usbdrv.packets_short _ (by omega), List.take_of_length_le (by omega),
      List.append_nil]
  · have hne : u.usbMsgLen ≠ usbNoMsg := fun h0 => by
      have h1 := hb.rest h8
      have h2 := s.drv.usbMsgLen.toNat_lt
      rw [h0, show usbNoMsg.toNat = 255 from rfl] at h1
      omega
    rw [if_neg hne, hpid, message_built h hmsg hb h8 pc,
      Usbdrv.packets_long (l := s.message) _ (by omega)]
    rfl

theorem msgInv_built {s : Firmware} (h : MsgInv s) (hmsg : s.drv.usbMsgLen ≠ usbNoMsg) {u : Usbdrv}
    (hb : Built s u) (pc : Pc) : MsgInv ⟨s.dev, u, pc⟩ := by
  have hlong (hlive : Live ⟨s.dev, u, pc⟩) : 8 < s.drv.usbMsgLen.toNat := by
    have hpos := live_toNat hlive
    rcases Nat.lt_or_ge s.drv.usbMsgLen.toNat 8 with h8 | h8
    · exact absurd (hb.last h8) hlive.1
    · have : u.usbMsgLen.toNat = s.drv.usbMsgLen.toNat - 8 := hb.rest h8
      change 0 < u.usbMsgLen.toNat at hpos
      omega
  have hold (hlive : Live ⟨s.dev, u, pc⟩) : s.Live := ⟨hmsg, fun h0 => by
    have := hlong hlive
    rw [h0, UInt8.toNat_zero] at this
    omega⟩
  refine ⟨fun hlive => ?_, fun hlive => ?_, fun hlive => .inl ?_⟩
  · have h8 := (hlong hlive).le
    have hobj : object ⟨s.dev, u, pc⟩ u.usbMsgPtr.obj = s.object s.drv.usbMsgPtr.obj := by
      rw [hb.obj]
      exact object_rom (rom_of_long h hmsg (hlong hlive)) s _
    change u.usbMsgPtr.offset + u.usbMsgLen.toNat ≤ (object ⟨s.dev, u, pc⟩ u.usbMsgPtr.obj).length
    have := h.inside (hold hlive)
    rw [hobj, hb.offset h8, hb.rest h8]
    omega
  · change (u.usbMsgFlags &&& usbFlgMsgptrIsRom ≠ 0) = u.usbMsgPtr.obj.isRom
    rw [hb.flags, hb.obj]
    exact h.rom (hold hlive)
  · change u.usbMsgPtr.obj.isRom = true
    rw [hb.obj]
    exact rom_of_long h hmsg (hlong hlive)

structure SameTx (u u' : Usbdrv) : Prop where
  buf : u'.usbTxBuf = u.usbTxBuf
  len : u'.usbTxLen = u.usbTxLen
  ptr : u'.usbMsgPtr = u.usbMsgPtr
  msgLen : u'.usbMsgLen = u.usbMsgLen
  flags : u'.usbMsgFlags = u.usbMsgFlags

theorem sameTx_refl (u : Usbdrv) : SameTx u u := ⟨rfl, rfl, rfl, rfl, rfl⟩

theorem live_congr {s s' : Firmware} (htx : SameTx s.drv s'.drv) : s'.Live ↔ s.Live := by
  unfold Live
  rw [htx.msgLen]

theorem toBuild_congr {s s' : Firmware} (hbuf : s'.drv.usbTxBuf = s.drv.usbTxBuf)
    (hptr : s'.drv.usbMsgPtr = s.drv.usbMsgPtr) (hlen : s'.drv.usbMsgLen = s.drv.usbMsgLen)
    (hobj : s.Live → s'.object s.drv.usbMsgPtr.obj = s.object s.drv.usbMsgPtr.obj) :
    s'.toBuild = s.toBuild := by
  unfold toBuild message
  rw [hbuf, hptr, hlen]
  by_cases hmsg : s.drv.usbMsgLen = usbNoMsg
  · rw [if_pos hmsg, if_pos hmsg]
  · rw [if_neg hmsg, if_neg hmsg]
    by_cases h0 : s.drv.usbMsgLen = 0
    · rw [h0, UInt8.toNat_zero, List.take_zero, List.take_zero]
    · rw [hobj ⟨hmsg, h0⟩]

theorem toSend_congr {s s' : Firmware} (htx : SameTx s.drv s'.drv)
    (hobj : s.Live → s'.object s.drv.usbMsgPtr.obj = s.object s.drv.usbMsgPtr.obj) :
    s'.toSend = s.toSend := by
  unfold toSend inBuffer
  rw [toBuild_congr htx.buf htx.ptr htx.msgLen hobj, htx.buf, htx.len]

theorem msgInv_congr {s s' : Firmware} (h : MsgInv s) (htx : SameTx s.drv s'.drv)
    (hobj : s.Live → s'.object s.drv.usbMsgPtr.obj = s.object s.drv.usbMsgPtr.obj)
    (hfixed : s.Live → s.drv.usbMsgPtr.obj.isRom = true ∨
      (s'.pc = .release ∨ s'.pc = .transmit) ∧ isHandshake s.drv.usbTxLen = true) : MsgInv s' := by
  refine ⟨fun hl => ?_, fun hl => ?_, fun hl => ?_⟩
  · have hl := (live_congr htx).mp hl
    rw [htx.ptr, htx.msgLen, hobj hl]
    exact h.inside hl
  · rw [htx.ptr, htx.flags]
    exact h.rom ((live_congr htx).mp hl)
  · rw [htx.ptr, htx.len]
    exact hfixed ((live_congr htx).mp hl)

/-- Outside the two places where a packet is about to be built a message in RAM is over. -/
theorem rom_of_fixed {s : Firmware} (h : MsgInv s)
    (hpc : ¬((s.pc = .release ∨ s.pc = .transmit) ∧ isHandshake s.drv.usbTxLen = true)) :
    s.Live → s.drv.usbMsgPtr.obj.isRom = true := fun hl => (h.fixed hl).resolve_right hpc

theorem keeps_rom {s s' : Firmware} (h : MsgInv s) (htx : SameTx s.drv s'.drv)
    (hrom : s.Live → s.drv.usbMsgPtr.obj.isRom = true) : s'.toSend = s.toSend ∧ MsgInv s' :=
  ⟨toSend_congr htx fun hl => object_rom (hrom hl) s s',
    msgInv_congr h htx (fun hl => object_rom (hrom hl) s s') fun hl => .inl (hrom hl)⟩

/-- Everything that the loop does but taking a packet from the receiver. -/
theorem toSend_loop {s s' : Firmware} {i : Inputs} (h : MsgInv s) (hs : Loops L i s s')
    (hrx : s.pc ≠ .rx ∨ s.drv.usbRxLen < 3) : s'.toSend = s.toSend ∧ MsgInv s' := by
  have hother {pc : Pc} (hpc : s.pc = pc) (hne : ¬(pc = .release ∨ pc = .transmit)) :
      s.Live → s.drv.usbMsgPtr.obj.isRom = true := rom_of_fixed h (hpc ▸ fun h => hne h.1)
  cases hs with
  | poll hpc hlen => exact keeps_rom h (sameTx_refl _) (hother hpc (by decide))
  | process hpc hlen => exact absurd hrx (not_or.mpr ⟨not_not.mpr hpc, hlen⟩)
  | release hpc =>
    have htx : SameTx s.drv { s.drv with usbRxLen := 0 } := ⟨rfl, rfl, rfl, rfl, rfl⟩
    have hobj (o : MsgObj) : object ⟨s.dev, { s.drv with usbRxLen := 0 }, .transmit⟩ o = s.object o := by
      cases o <;> rfl
    exact ⟨toSend_congr htx fun _ => hobj _, msgInv_congr h htx (fun _ => hobj _) fun hl =>
      (h.fixed hl).imp_right fun h => ⟨.inr rfl, h.2⟩⟩
  | build hpc hidle hmsg =>
    exact ⟨toSend_built h hmsg (built h hmsg i.beyond) hidle .reset,
      msgInv_built h hmsg (built h hmsg i.beyond) .reset⟩
  | skip hpc hskip =>
    refine keeps_rom h (sameTx_refl _) fun hl => (h.fixed hl).resolve_right fun h => hskip ⟨h.2, hl.1⟩
  | lines hpc d new addr _ => exact keeps_rom h ⟨rfl, rfl, rfl, rfl, rfl⟩ (hother hpc (by decide))
  | task hpc d => exact keeps_rom h (sameTx_refl _) (hother hpc (by decide))
  | report hpc _ d _ => exact keeps_rom h ⟨rfl, rfl, rfl, rfl, rfl⟩ (hother hpc (by decide))
  | busy hpc _ => exact keeps_rom h (sameTx_refl _) (hother hpc (by decide))

def Answer.controlPacket : Answer → Option (List UInt8)
  | .control p => some p
  | _ => none

def controlSent (s : Firmware) (e : Event) : List (List UInt8) :=
  (s.answers e).filterMap Answer.controlPacket

/-- An IN that is answered with data takes the first packet. -/
theorem toSend_packet {s : Firmware} (h : MsgInv s) (pid : UInt8) (rest : List UInt8) :
    s.toSend = s.controlSent (.packet pid rest) ++
      toSend { s with drv := (s.drv.interrupt pid rest).1 } ∧
    MsgInv { s with drv := (s.drv.interrupt pid rest).1 } := by
  have hint := s.drv.interrupts pid rest
  dsimp only [controlSent, answers]
  generalize s.drv.interrupt pid rest = r at hint
  have hobj {u : Usbdrv} (hbuf : u.usbTxBuf = s.drv.usbTxBuf)
      (hconf : u.usbConfiguration = s.drv.usbConfiguration) (o : MsgObj) :
      object { s with drv := u } o = s.object o := by
    unfold object
    dsimp only
    rw [hbuf, hconf]
  have hkeep {u : Usbdrv} (htx : SameTx s.drv u) (hconf : u.usbConfiguration = s.drv.usbConfiguration) :
      s.toSend = toSend { s with drv := u } ∧ MsgInv { s with drv := u } :=
    ⟨(toSend_congr htx fun _ => hobj htx.buf hconf _).symm,
      msgInv_congr h htx (fun _ => hobj htx.buf hconf _) h.fixed⟩
  cases hint with
  | quiet tok ans htok hans hacked =>
    have hnone : ans.filterMap Answer.controlPacket = [] := by
      refine List.filterMap_eq_nil_iff.mpr fun a ha => ?_
      obtain ⟨h, rfl⟩ := hans a ha
      rfl
    dsimp only
    rw [hnone]
    exact hkeep ⟨rfl, rfl, rfl, rfl, rfl⟩ rfl
  | stored hpid hlen hfit htok hfree => exact hkeep ⟨rfl, rfl, rfl, rfl, rfl⟩ rfl
  | control hpid hfree hlen =>
    have hrom : s.Live → s.drv.usbMsgPtr.obj.isRom = true :=
      rom_of_fixed h fun h => absurd (hlen.symm.trans h.2) nofun
    refine ⟨?_, fun hl => ?_, fun hl => h.rom hl, fun hl => .inl (hrom hl)⟩
    · have hbuffer : s.inBuffer = [(List.ofFn s.drv.usbTxBuf).take (s.drv.usbTxLen.toNat - 1)] :=
        if_neg (Bool.eq_false_iff.mp hlen)
      have hbuild : toBuild { s with
          drv := Usbdrv.usbSendAndReti { s.drv.take pid rest with usbTxLen := usbpidNak } } = s.toBuild :=
        toBuild_congr rfl rfl rfl fun _ => hobj rfl rfl _
      have hempty : inBuffer { s with
          drv := Usbdrv.usbSendAndReti { s.drv.take pid rest with usbTxLen := usbpidNak } } = [] :=
        if_pos (by decide : isHandshake usbpidNak = true)
      unfold toSend
      dsimp only
      rw [hbuffer, hempty, hbuild]
      rfl
    · exact (h.inside hl).trans_eq (congrArg List.length (hobj rfl rfl _)).symm
  | report hpid hfree hlen => exact hkeep ⟨rfl, rfl, rfl, rfl, rfl⟩ rfl

end Firmware

end Memtype
