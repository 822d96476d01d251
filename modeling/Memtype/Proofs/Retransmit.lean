import Memtype.Proofs.Blind
import Memtype.Proofs.Buffer

/-! A packet that the bus delivers twice. The driver is built without data-toggle checking
(`USB_CFG_CHECK_DATA_TOGGLING` is 0) and `UCP_Decode` takes each copy as a packet of its own,
so whether the second one matters is up to the state that the first one left. -/

namespace Memtype

open Lib

/-- An event, and whether it happens twice in immediate succession. -/
structure Delivery where
  event : Event
  twice : Bool

def Delivery.copies (x : Delivery) : List Event :=
  if x.twice then [x.event, x.event] else [x.event]

def quietCommand (data : Bytes 8) : Prop :=
  data 0 ≠ ucpCmdRead ∧ data 0 ≠ ucpCmdWrite ∧ data 0 ≠ ucpCmdSetPin ∧ data 0 ≠ ucpCmdReadPin ∧
    data 0 ≠ ucpCmdKeyboard

instance (data : Bytes 8) : Decidable (quietCommand data) :=
  inferInstanceAs (Decidable (_ ∧ _))

namespace Ucp

/-- A WRITE command that opens a transfer which accepts a packet at once. -/
def opensWrite (u : Ucp) (data : Bytes 8) : Bool :=
  u.ucpState = .idle ∧ data 0 = ucpCmdWrite ∧ u.usbWrite = false ∧
    word data 1 2 < word data 1 2 + word data 3 4

/-- In state `s`, a second copy of a packet of 8 bytes does nothing that lasts. -/
def harmlessIn (u : Ucp) (data : Bytes 8) : UcpState → Prop
  | .deviceLocked => True
  | .idle | .readingCmd | .reading =>
    quietCommand data ∨ data 0 = ucpCmdReadPin ∨ u.opensWrite data
  | .writting => u.usbWrite = false ∧ u.readOffset < u.readEnd ∨ quietCommand data
  -- the first copy is refused, or ends the transfer; the second is then a command
  | .writeEeprom =>
    (¬u.readOffset < u.readEnd ∨ u.readEnd ≤ u.readOffset + 8 ∧ u.lockAfterSetPin = false) ∧
      quietCommand data ∧ u.usbWrite = false

instance (u : Ucp) (data : Bytes 8) : (s : UcpState) → Decidable (u.harmlessIn data s)
  | .deviceLocked => .isTrue trivial
  | .idle | .readingCmd | .reading | .writting => inferInstanceAs (Decidable (_ ∨ _))
  | .writeEeprom => inferInstanceAs (Decidable ((¬_ ∨ _) ∧ _ ∧ _))

end Ucp

def Event.harmlessTwice (d : Device) : Event → Prop
  | .write data len => len = 8 → d.ucp.harmlessIn data d.ucp.ucpState
  | _ => False

instance (d : Device) : (e : Event) → Decidable (e.harmlessTwice d)
  | .write _ len => inferInstanceAs (Decidable (len = 8 → _))
  | .setup _ | .writeTask | .printUpdate | .ledTask | .schTask .. | .button _ | .usbReset _
  | .background _ => .isFalse id

def Delivery.leavesJunk (d : Device) (x : Delivery) : Bool :=
  x.twice && match x.event with
    | .write data len => len = 8 ∧ d.ucp.opensWrite data = true
    | _ => false

/-- A packet of data, accepted in the place of any before it, or refused with it. -/
def Event.settles (d : Device) : Event → Bool
  | .write _ len => len = 8 ∧ d.ucp.ucpState = .writting
  | _ => false

def Event.promotes (d : Device) : Event → Bool
  | .setup rq => rq.asksReport = true ∧ d.ucp.ucpState = .writting
  | _ => false

/-- Along the run with both copies, each packet that comes twice is harmless, and a WRITE
command that came twice is followed by a packet of data before any GET_REPORT can hand over
its second copy, which `junk` says is still there. -/
def Spared (L : Layout) : Bool → Outcome Device → List Delivery → Prop
  | _, _, [] => True
  | _, .spin _, _ :: _ => True
  | junk, .ret t, x :: xs =>
    (x.twice = true → x.event.harmlessTwice t) ∧ (junk = true → x.event.promotes t = false) ∧
      Spared L (junk && !x.event.settles t || x.leavesJunk t) (run (step L) (.ret t) x.copies) xs

instance decidableSpared (L : Layout) : (junk : Bool) → (o : Outcome Device) →
    (xs : List Delivery) → Decidable (Spared L junk o xs)
  | _, _, [] => .isTrue trivial
  | _, .spin _, _ :: _ => .isTrue trivial
  | junk, .ret t, x :: xs =>
    haveI := decidableSpared L (junk && !x.event.settles t || x.leavesJunk t)
      (run (step L) (.ret t) x.copies) xs
    inferInstanceAs (Decidable ((x.twice = true → _) ∧ (junk = true → _) ∧ _))

structure SameStore (o o' : Outcome Device) : Prop where
  returns : o'.returns = o.returns
  flash : o'.state.flash = o.state.flash
  eeprom : o'.state.eeprom = o.state.eeprom
  ucpState : o'.state.ucp.ucpState = o.state.ucp.ucpState

/-- `t` took the copies that `d` did not. -/
structure Twin (junk : Bool) (d t : Device) : Prop where
  blind : t.blind = d.blind
  report : t.ucp.customReport = d.ucp.customReport ∨
    d.ucp.usbWrite = false ∧ d.ucp.ucpState ≠ .writting
  accepted : junk = false → t.ucp.usbWriteAccepted = d.ucp.usbWriteAccepted

namespace Twin

variable {junk junk' : Bool} {d t u : Device}

theorem refl (d : Device) : Twin junk d d := ⟨rfl, .inl rfl, fun _ => rfl⟩

theorem ucpState (h : Twin junk d t) : t.ucp.ucpState = d.ucp.ucpState :=
  (congrArg (fun d => d.ucp.ucpState) h.blind :)

theorem usbWrite (h : Twin junk d t) : t.ucp.usbWrite = d.ucp.usbWrite :=
  (congrArg (fun d => d.ucp.usbWrite) h.blind :)

theorem readOffset (h : Twin junk d t) : t.ucp.readOffset = d.ucp.readOffset :=
  (congrArg (fun d => d.ucp.readOffset) h.blind :)

theorem readEnd (h : Twin junk d t) : t.ucp.readEnd = d.ucp.readEnd :=
  (congrArg (fun d => d.ucp.readEnd) h.blind :)

theorem trans (h : Twin junk d t) (h' : Twin junk' t u) : Twin (junk || junk') d u := by
  refine ⟨h'.blind.trans h.blind, ?_, fun hj => ?_⟩
  · rcases h.report with hr | hr
    · rcases h'.report with hr' | ⟨hw, hs⟩
      · exact .inl (hr'.trans hr)
      · exact .inr ⟨h.usbWrite ▸ hw, h.ucpState ▸ hs⟩
    · exact .inr hr
  · obtain ⟨h1, h2⟩ := Bool.or_eq_false_iff.mp hj
    exact (h'.accepted h2).trans (h.accepted h1)

end Twin

def Device.unaccepted (d : Device) : Device :=
  { d with ucp := { d.ucp with usbWriteAccepted := false }, calls := [] }

theorem through_decodeWritting : Through Device.unaccepted decodeWritting :=
  Through.ite (fun _ => Iff.rfl) (fun _ => rfl) fun _ => rfl

theorem through_decodeEeprom (L : Layout) : Through Device.unaccepted (decodeEeprom L) :=
  Through.ite (fun _ => Iff.rfl) (Through.ite (fun _ => Iff.rfl)
    (Through.ite (fun _ => Iff.rfl) (fun _ => rfl) fun _ => rfl) fun _ => rfl) fun _ => rfl

theorem through_decodeCommand (L : Layout) (data : Bytes 8) :
    Through Device.unaccepted (decodeCommand L data) := by
  refine Through.ite (fun _ => Iff.rfl) (fun _ => rfl) ?_
  refine Through.ite (fun _ => Iff.rfl) (Through.ite (fun _ => Iff.rfl) (fun _ => rfl) fun _ => rfl) ?_
  refine Through.ite (fun _ => Iff.rfl) (Through.ite (fun _ => Iff.rfl) (fun _ => rfl) fun _ => rfl) ?_
  intro d
  dsimp only
  split_ifs <;> rfl

/-- The decoder, once the report is stored and its length checked. -/
def decodeIn (L : Layout) (data : Bytes 8) (s : UcpState) (d : Device) : Device :=
  match s with
  | .deviceLocked => d.setUcp (d.ucp.error ucpErrLocked)
  | .writting => decodeWritting d
  | .writeEeprom => decodeEeprom L d
  | .idle | .readingCmd | .reading => decodeCommand L data d

theorem through_decode (L : Layout) (data : Bytes 8) (len : UInt8) :
    Through Device.unaccepted (ucpDecode L data len) := by
  have hr : Through Device.unaccepted fun d => d.setUcp (d.ucp.received data) := fun _ => rfl
  refine Through.ite (fun _ => Iff.rfl) (fun _ => rfl) ?_
  refine Through.read (v := fun d : Device => d.ucp.ucpState)
    (f := fun (s : UcpState) (d : Device) => decodeIn L data s (d.setUcp (d.ucp.received data)))
    (fun _ => rfl) fun s => ?_
  cases s with
  | deviceLocked => exact fun _ => rfl
  | writting => exact hr.comp through_decodeWritting
  | writeEeprom => exact hr.comp (through_decodeEeprom L)
  | idle | readingCmd | reading => exact hr.comp (through_decodeCommand L data)

/-- Nor does it look at the report before. -/
theorem decode_unaccepted (L : Layout) (data : Bytes 8) (len : UInt8) {d t : Device}
    (h : t.blind = d.blind) :
    (ucpDecode L data len t).unaccepted = (ucpDecode L data len d).unaccepted := by
  have hr (d : Device) : ucpDecode L data len d = ucpDecode L data len (d.setUcp (d.ucp.received data)) :=
    rfl
  rw [hr d, hr t]
  refine (through_decode L data len).eq ?_
  exact (congrArg (fun d => (d.setUcp (d.ucp.received data)).unaccepted) h :)

theorem decode_accepted (L : Layout) (data : Bytes 8) (len : UInt8) (d : Device) :
    (ucpDecode L data len d).ucp.usbWriteAccepted =
      if len = 8 ∧ d.ucp.ucpState = .writting then
        decide (d.ucp.usbWrite = false ∧ d.ucp.readOffset < d.ucp.readEnd)
      else d.ucp.usbWriteAccepted := by
  have hc := decode_cases L data len d
  generalize ucpDecode L data len d = d' at hc ⊢
  have hn (s : UcpState) (h0 : d.ucp.ucpState = s) (hs : s ≠ .writting) :
      ¬(len = 8 ∧ d.ucp.ucpState = .writting) := fun hw => hs (h0.symm.trans hw.2)
  cases hc with
  | size h => rw [if_neg fun hw => h hw.1]; rfl
  | accept h h0 hw ho => rw [if_pos ⟨h, h0⟩, decide_eq_true ⟨hw, ho⟩]; rfl
  | reject h h0 hw => rw [if_pos ⟨h, h0⟩, decide_eq_false hw]; rfl
  | locked h h0 | half h h0 _ _ | pinDone h h0 _ _ _ | eepromDone h h0 _ _ _ | eepromRefused h h0 _
    | openWrite h h0 _ => rw [if_neg (hn _ h0 nofun)]; rfl
  | setPin h h0 | keyboard h h0 | command _ _ _ _ _ h h0 _ => rw [if_neg fun hw => h0.2.1 hw.2]; rfl

theorem Twin.decode (L : Layout) (data : Bytes 8) (len : UInt8) {junk : Bool} {d t : Device}
    (h : Twin junk d t) : Twin (junk && !(Event.write data len).settles t)
      (ucpDecode L data len d) (ucpDecode L data len t) := by
  have hu := decode_unaccepted L data len h.blind
  refine ⟨(congrArg Device.blind hu :), .inl (congrArg (fun d => d.ucp.customReport) hu :), ?_⟩
  intro hj
  rw [decode_accepted, decode_accepted, h.ucpState, h.usbWrite, h.readOffset, h.readEnd]
  split_ifs with hw
  · rfl
  · refine h.accepted ?_
    simpa [Event.settles, h.ucpState, hw] using hj

def Ucp.takesCommand (u : Ucp) : Prop :=
  u.ucpState ≠ .deviceLocked ∧ u.ucpState ≠ .writting ∧ u.ucpState ≠ .writeEeprom

def quietReport (data : Bytes 8) : Bytes 8 :=
  if data 0 = ucpCmdReset ∨ data 0 = ucpCmdData then data
  else if data 0 = ucpCmdInfo then Fin.cons (data 0) infoData
  else Function.update (Function.update data 0 ucpCmdError) 1 ucpErrCmd

theorem decode_command (L : Layout) (data : Bytes 8) {d : Device} (h0 : d.ucp.takesCommand) :
    ucpDecode L data 8 d = decodeCommand L data (d.setUcp (d.ucp.received data)) := by
  obtain ⟨h1, h2, h3⟩ := h0
  unfold ucpDecode
  rw [if_neg (by decide)]
  dsimp only
  split
  · next h => exact absurd h h1
  · next h => exact absurd h h2
  · next h => exact absurd h h3
  all_goals rfl

theorem decode_quiet (L : Layout) {data : Bytes 8} {d : Device} (h0 : d.ucp.takesCommand)
    (hq : quietCommand data) :
    ucpDecode L data 8 d = d.setUcp { d.ucp with customReport := quietReport data } := by
  obtain ⟨h1, h2, h3, h4, h5⟩ := hq
  rw [decode_command L data h0]
  unfold decodeCommand quietReport
  dsimp only
  rw [if_neg h1, if_neg h2, if_neg h3, if_neg h4, if_neg h5]
  by_cases hr : data 0 = ucpCmdReset
  · rw [if_pos hr, if_pos (.inl hr)]
    rfl
  rw [if_neg hr]
  by_cases hd : data 0 = ucpCmdData
  · rw [if_pos hd, if_pos (.inr hd)]
    rfl
  rw [if_neg hd, if_neg (not_or.mpr ⟨hr, hd⟩)]
  split_ifs <;> rfl

theorem decode_readPin (L : Layout) {data : Bytes 8} {d : Device} (h0 : d.ucp.takesCommand)
    (hc : data 0 = ucpCmdReadPin) : ucpDecode L data 8 d = d.setUcp { d.ucp.received data with
      ucpState := .readingCmd, readOffset := L.lockHash, readEnd := L.lockHash + 16,
      readType := 2 } := by
  rw [decode_command L data h0]
  simp [decodeCommand, hc, ucpCmdReset, ucpCmdRead, ucpCmdWrite, ucpCmdSetPin, ucpCmdReadPin,
    Device.setUcp, Ucp.received]

/-- A quiet command after anything that left the device ready for it. -/
theorem twin_quiet (L : Layout) {data : Bytes 8} {d : Device} (h0 : d.ucp.takesCommand)
    (hq : quietCommand data) (hw : d.ucp.usbWrite = false) :
    Twin false d (ucpDecode L data 8 d) := by
  rw [decode_quiet L h0 hq]
  exact ⟨rfl, .inr ⟨hw, h0.2.1⟩, fun _ => rfl⟩

theorem takesCommand_idle {u : Ucp} (h : u.ucpState = .idle) : u.takesCommand := by
  rw [Ucp.takesCommand, h]
  exact ⟨nofun, nofun, nofun⟩

theorem twin_again_command (L : Layout) {data : Bytes 8} {d : Device} (h0 : d.ucp.takesCommand)
    (h : quietCommand data ∨ data 0 = ucpCmdReadPin ∨ d.ucp.opensWrite data) :
    Twin (d.ucp.opensWrite data) (ucpDecode L data 8 d) (ucpDecode L data 8 (ucpDecode L data 8 d)) := by
  rcases h with hq | hp | ho
  · have h1 := decode_quiet L h0 hq
    have h2 := decode_quiet (d := ucpDecode L data 8 d) L (by rw [h1]; exact h0) hq
    rw [h2, h1]
    exact .refl _
  · have h1 := decode_readPin L h0 hp
    have h2 := decode_readPin (d := ucpDecode L data 8 d) L (by rw [h1]; exact ⟨nofun, nofun, nofun⟩) hp
    rw [h2, h1]
    exact .refl _
  · obtain ⟨hi, hc, hw, hlt⟩ : d.ucp.ucpState = .idle ∧ data 0 = ucpCmdWrite ∧ d.ucp.usbWrite = false ∧
      word data 1 2 < word data 1 2 + word data 3 4 := by simpa [Ucp.opensWrite] using ho
    have h1 := decode_openWrite L hi hc
    have h2 : ucpDecode L data 8 (ucpDecode L data 8 d) = _ := decode_accept L (by rw [h1]; rfl)
      (by rw [h1]; exact hw) (by rw [h1]; exact hlt)
    rw [ho, h2, h1]
    exact ⟨rfl, .inl rfl, nofun⟩

theorem twin_again_writting (L : Layout) {data : Bytes 8} {d : Device} (h0 : d.ucp.ucpState = .writting)
    (h : d.ucp.usbWrite = false ∧ d.ucp.readOffset < d.ucp.readEnd ∨ quietCommand data) :
    Twin false (ucpDecode L data 8 d) (ucpDecode L data 8 (ucpDecode L data 8 d)) := by
  by_cases ha : d.ucp.usbWrite = false ∧ d.ucp.readOffset < d.ucp.readEnd
  · have h1 : ucpDecode L data 8 d = _ := decode_accept L h0 ha.1 ha.2
    have h2 : ucpDecode L data 8 (ucpDecode L data 8 d) = _ := decode_accept L (by rw [h1]; exact h0)
      (by rw [h1]; exact ha.1) (by rw [h1]; exact ha.2)
    rw [h2, h1]
    exact ⟨rfl, .inl rfl, fun _ => rfl⟩
  · have h1 : ucpDecode L data 8 d = _ := decode_reject L h0 ha
    exact twin_quiet L (takesCommand_idle (by rw [h1]; rfl)) (h.resolve_left ha) (by rw [h1]; rfl)

/-- A packet that is refused, or that ends a transfer of the keyboard table. -/
theorem decode_eepromEnds (L : Layout) (data : Bytes 8) {d : Device}
    (h0 : d.ucp.ucpState = .writeEeprom) (h : ¬d.ucp.readOffset < d.ucp.readEnd ∨
      d.ucp.readEnd ≤ d.ucp.readOffset + 8 ∧ d.ucp.lockAfterSetPin = false) :
    (ucpDecode L data 8 d).ucp.ucpState = .idle ∧
      (ucpDecode L data 8 d).ucp.usbWrite = d.ucp.usbWrite := by
  rw [decode_writeEeprom L data h0]
  unfold decodeEeprom
  dsimp only
  split_ifs with ho he hl
  · obtain ⟨-, h⟩ := h.resolve_left (not_not.mpr ho)
    exact absurd ((show d.ucp.lockAfterSetPin = true from hl).symm.trans h) nofun
  · exact ⟨rfl, rfl⟩
  · exact absurd (h.resolve_left (not_not.mpr ho)).1 he
  · exact ⟨rfl, rfl⟩

/-- The second copy of a packet, where it is harmless. -/
theorem twin_again (L : Layout) {data : Bytes 8} {len : UInt8} {d : Device}
    (h : (Event.write data len).harmlessTwice d) :
    Twin (len = 8 ∧ d.ucp.opensWrite data = true) (ucpDecode L data len d)
      (ucpDecode L data len (ucpDecode L data len d)) := by
  by_cases hl : len = 8
  · subst hl
    replace h : d.ucp.harmlessIn data d.ucp.ucpState := h rfl
    have hj : decide ((8 : UInt8) = 8 ∧ d.ucp.opensWrite data = true) = d.ucp.opensWrite data := by
      simp
    have hn (hs : d.ucp.ucpState ≠ .idle) : d.ucp.opensWrite data = false := by
      simp [Ucp.opensWrite, hs]
    rw [hj]
    cases hs : d.ucp.ucpState with
    | deviceLocked =>
      have h1 := decode_locked L data 8 hs
      have h2 := decode_locked (d := ucpDecode L data 8 d) L data 8 (by rw [h1]; exact hs)
      rw [h2, h1]
      exact .refl _
    | writting =>
      rw [hs] at h
      rw [hn (by rw [hs]; nofun)]
      exact twin_again_writting L hs h
    | writeEeprom =>
      rw [hs] at h
      obtain ⟨h, hq, hw⟩ := h
      rw [hn (by rw [hs]; nofun)]
      have he := decode_eepromEnds L data hs h
      exact twin_quiet L (takesCommand_idle he.1) hq (he.2.trans hw)
    | idle | readingCmd | reading =>
      rw [hs] at h
      refine twin_again_command L ?_ h
      rw [Ucp.takesCommand, hs]
      exact ⟨nofun, nofun, nofun⟩
  · have h1 := decode_size L data d hl
    have h2 := decode_size L data (ucpDecode L data len d) hl
    rw [h2, h1]
    exact .refl _

/-- The twin by what may differ. -/
theorem Twin.eq {junk : Bool} {d t : Device} (h : Twin junk d t) : ∃ r a c,
    t = { d with ucp := { d.ucp with customReport := r, usbWriteAccepted := a }, calls := c } := by
  refine ⟨t.ucp.customReport, t.ucp.usbWriteAccepted, t.calls, ?_⟩
  exact (congrArg (fun s : Device =>
    { s with
      ucp := { s.ucp with
        customReport := t.ucp.customReport, usbWriteAccepted := t.ucp.usbWriteAccepted },
      calls := t.calls }) h.blind :)

theorem Twin.task (L : Layout) {junk : Bool} {d t : Device} (h : Twin junk d t)
    (hj : junk = true → d.ucp.ucpState ≠ .writting) : Twin junk (ucpTask L d) (ucpTask L t) := by
  have ht := h.ucpState
  obtain ⟨r, a, c, rfl⟩ := h.eq
  cases hd : d.ucp.ucpState with
  | idle => rwa [task_still L (.inl hd), task_still L (.inl (ht.trans hd))]
  | writeEeprom =>
    rwa [task_still L (.inr (.inl hd)), task_still L (.inr (.inl (ht.trans hd)))]
  | deviceLocked =>
    rwa [task_still L (.inr (.inr hd)), task_still L (.inr (.inr (ht.trans hd)))]
  | readingCmd =>
    rw [task_readingCmd L hd, task_readingCmd L (ht.trans hd)]
    exact ⟨rfl, h.report.imp_right fun hw => ⟨hw.1, nofun⟩, h.accepted⟩
  | reading =>
    rw [task_reading L hd, task_reading L (ht.trans hd)]
    dsimp only
    split_ifs
    · exact ⟨rfl, .inl rfl, h.accepted⟩
    · exact ⟨rfl, .inl rfl, h.accepted⟩
    · refine ⟨rfl, h.report.imp (fun hr => ?_) fun hw => ⟨hw.1, nofun⟩, h.accepted⟩
      exact (congrArg (fun r : Bytes 8 => Function.update (Function.update r 0 ucpCmdError) 1
        ucpErrProtocol) hr :)
  | writting =>
    have ha := h.accepted (eq_false_of_ne_true fun h => hj h hd)
    have hr := h.report.resolve_right fun hw => hw.2 hd
    cases hp : d.ucp.usbWriteAccepted with
    | true =>
      rw [task_promote L hd hp, task_promote L (ht.trans hd) (ha.trans hp)]
      exact ⟨rfl, .inl hr, fun _ => rfl⟩
    | false =>
      rwa [task_same L (.inl ⟨hd, hp⟩), task_same L (.inl ⟨ht.trans hd, ha.trans hp⟩)]

theorem blind_storeByte (b : UInt8) : Blind fun d => d.setUcp (storeByte b d.ucp) := fun _ => rfl

theorem blind_flush : BlindCall flush := by
  intro d
  unfold flush
  rw [show flsWrite d.blind.ucp.tempBuff d.blind.ucp.flashWriteAddr d.blind.ucp.buffIndex.toUInt16
    d.blind.flash = flsWrite d.ucp.tempBuff d.ucp.flashWriteAddr d.ucp.buffIndex.toUInt16 d.flash
    from rfl]
  split <;> rfl

theorem blind_writeLoop (L : Layout) (bs : List UInt8) : BlindCall (ucpWriteLoop L bs) := by
  induction bs with
  | nil => exact fun _ => rfl
  | cons b bs ih =>
    have hend : BlindCall fun d => crdInit L (d.setUcp { d.ucp with ucpState := .idle }) :=
      CallThrough.comp (f := fun d : Device => d.setUcp { d.ucp with ucpState := .idle })
        (fun _ => rfl) (blind_load L 0)
    have hnext : BlindCall fun d => (flush d).bind fun d =>
        if d.ucp.readEnd ≤ d.ucp.readOffset then
          crdInit L (d.setUcp { d.ucp with ucpState := .idle })
        else ucpWriteLoop L bs d :=
      blind_flush.bind (CallThrough.ite (fun _ => Iff.rfl) hend ih)
    have hdue : BlindCall fun d => if d.ucp.flushDue = true then
        (flush d).bind fun d =>
          if d.ucp.readEnd ≤ d.ucp.readOffset then
            crdInit L (d.setUcp { d.ucp with ucpState := .idle })
          else ucpWriteLoop L bs d
        else ucpWriteLoop L bs d :=
      CallThrough.ite (fun _ => Iff.rfl) hnext ih
    have hstore := CallThrough.comp (blind_storeByte b) hdue
    exact hstore

theorem writeTask_report {L : Layout} {d d' : Device} (hs : ucpWriteTask L d = .ret d') :
    d'.ucp.customReport = d.ucp.customReport := by
  cases writeTask_ret hs with
  | idle hw => rfl
  | wrote hw d1 hl h1 => exact h1.customReport

theorem Twin.writeTask (L : Layout) {junk : Bool} {d t : Device} (h : Twin junk d t) :
    (ucpWriteTask L t).map Device.blind = (ucpWriteTask L d).map Device.blind ∧
      ∀ d' t', ucpWriteTask L d = .ret d' → ucpWriteTask L t = .ret t' → Twin junk d' t' := by
  cases hw : d.ucp.usbWrite with
  | false =>
    rw [writeTask_none L d hw, writeTask_none L t (h.usbWrite.trans hw)]
    refine ⟨congrArg Outcome.ret h.blind, fun d' t' hd ht => ?_⟩
    rwa [← Outcome.ret.inj hd, ← Outcome.ret.inj ht]
  | true =>
    -- the report is about to be copied, and is the same
    have hr := h.report.resolve_right fun hn => absurd (hw.symm.trans hn.1) nofun
    have hb : (ucpWriteTask L t).map Device.blind = (ucpWriteTask L d).map Device.blind := by
      have hend : BlindCall fun d => .ret (d.setUcp { d.ucp with usbWrite := false }) := fun _ => rfl
      rw [writeTask_pending L d hw, writeTask_pending L t (h.usbWrite.trans hw), hr]
      exact ((blind_writeLoop L _).bind hend).eq h.blind
    refine ⟨hb, fun d' t' hd ht => ?_⟩
    have hw' := h.usbWrite.trans hw
    rw [hd, ht] at hb
    refine ⟨Outcome.ret.inj hb, .inl ?_, fun hj => ?_⟩
    · rw [writeTask_report hd, writeTask_report ht, hr]
    · rw [(writeTask_flags hw hd).2, (writeTask_flags hw' ht).2, h.accepted hj]

theorem blind_setup (L : Layout) {rq : UsbRequest} (h : ¬rq.asksReport = true) :
    Blind fun d => (usbFunctionSetup L rq d).1 := by
  obtain ⟨f, hf⟩ := setup_answers L h
  intro d
  obtain ⟨l, hd, -⟩ := hf d
  obtain ⟨m, hb, -⟩ := hf d.blind
  simp only [hd, hb]
  rfl

/-- A request for another report, or none. -/
theorem Twin.setup (L : Layout) {rq : UsbRequest} (hq : ¬rq.asksReport = true) {junk : Bool}
    {d t : Device} (h : Twin junk d t) :
    Twin junk (usbFunctionSetup L rq d).1 (usbFunctionSetup L rq t).1 := by
  have hb := (blind_setup L hq).eq h.blind
  obtain ⟨u, l, hd, -⟩ := setup_other L d hq
  obtain ⟨v, m, ht, -⟩ := setup_other L t hq
  rw [hd, ht] at hb ⊢
  exact ⟨hb, h.report, h.accepted⟩

/-- No other event touches the transfer, but for a lock or an unlock. -/
theorem ucp_other {L : Layout} {d d' : Device} {e : Event} (h : step L d e = .ret d')
    (hs : ∀ rq, e ≠ .setup rq) (hw : ∀ data len, e ≠ .write data len) (ht : e ≠ .writeTask) :
    ∃ s, d'.ucp = { d.ucp with ucpState := s } ∧ (s = .writting → d.ucp.ucpState = .writting) := by
  cases step_ret_cases h with
  | still h => exact ⟨_, h.ucp, id⟩
  | poll rq => exact absurd rfl (hs rq)
  | decode data len => exact absurd rfl (hw data len)
  | write => exact absurd rfl ht
  | button b he d1 h hb =>
    rcases button_ucp hb with hu | ⟨-, s, hs, hu⟩
    · exact ⟨_, hu.trans h.ucp, id⟩
    · exact ⟨s, by rw [hu, h.ucp], fun h => absurd h hs⟩
  | calibrate meas _ _ _ hu => exact ⟨_, hu, id⟩

theorem Twin.other {L : Layout} {junk : Bool} {d t d' t' : Device} {e : Event} (h : Twin junk d t)
    (hs : ∀ rq, e ≠ .setup rq) (hw : ∀ data len, e ≠ .write data len) (hk : e ≠ .writeTask)
    (hd : step L d e = .ret d') (ht : step L t e = .ret t') : Twin junk d' t' := by
  have hb := (blind_step L e hs hw hk).eq h.blind
  rw [hd, ht] at hb
  obtain ⟨r, hr, hn⟩ := ucp_other hd hs hw hk
  obtain ⟨r', hr', -⟩ := ucp_other ht hs hw hk
  refine ⟨Outcome.ret.inj hb, ?_, ?_⟩
  · rw [hr, hr']
    exact h.report.imp_right fun hw => ⟨hw.1, fun h => hw.2 (hn h)⟩
  · rw [hr, hr']
    exact h.accepted

theorem twin_step (L : Layout) {junk : Bool} {d t : Device} (e : Event) (h : Twin junk d t)
    (hj : junk = true → e.promotes t = false) :
    (step L t e).map Device.blind = (step L d e).map Device.blind ∧
      ∀ d' t', step L d e = .ret d' → step L t e = .ret t' → Twin (junk && !e.settles t) d' t' := by
  have of_ret {d' t' : Device} {junk' : Bool} (hf : Twin junk' d' t') :
      (Outcome.ret t').map Device.blind = (Outcome.ret d').map Device.blind ∧
        ∀ d'' t'', Outcome.ret d' = .ret d'' → Outcome.ret t' = .ret t'' → Twin junk' d'' t'' := by
    refine ⟨congrArg Outcome.ret hf.blind, fun d'' t'' hd ht => ?_⟩
    rwa [← Outcome.ret.inj hd, ← Outcome.ret.inj ht]
  have of_other (hs : ∀ rq, e ≠ .setup rq) (hw : ∀ data len, e ≠ .write data len)
      (hk : e ≠ .writeTask) : (step L t e).map Device.blind = (step L d e).map Device.blind ∧
        ∀ d' t', step L d e = .ret d' → step L t e = .ret t' → Twin junk d' t' :=
    ⟨(blind_step L e hs hw hk).eq h.blind, fun _ _ => h.other hs hw hk⟩
  have kept (he : e.settles t = false) : (junk && !e.settles t) = junk := by simp [he]
  cases e with
  | write data len => exact of_ret (h.decode L data len)
  | setup rq =>
    rw [kept rfl]
    by_cases hq : rq.asksReport = true
    · have hp (hj' : junk = true) : d.ucp.ucpState ≠ .writting := by
        intro hd
        have hn := hj hj'
        simp [Event.promotes, hq, h.ucpState, hd] at hn
      have ht := h.task L hp
      refine of_ret ?_
      rw [setup_report L hq, setup_report L hq]
      exact ⟨ht.blind, ht.report, ht.accepted⟩
    · exact of_ret (h.setup L hq)
  | writeTask =>
    rw [kept rfl]
    exact h.writeTask L
  | printUpdate | ledTask | schTask | button | usbReset | background =>
    rw [kept rfl]
    exact of_other nofun nofun nofun

theorem twin_run (L : Layout) (xs : List Delivery) {junk : Bool} {d t : Device} (h : Twin junk d t)
    (hs : Spared L junk (.ret t) xs) :
    (run (step L) (.ret t) (xs.flatMap Delivery.copies)).map Device.blind =
      (run (step L) (.ret d) (xs.map Delivery.event)).map Device.blind := by
  induction xs generalizing junk d t with
  | nil => exact congrArg Outcome.ret h.blind
  | cons x xs ih =>
    obtain ⟨hx, hj, hs⟩ := hs
    rw [List.flatMap_cons, List.map_cons, run_append, run_cons, Outcome.bind_ret]
    obtain ⟨e, twice⟩ := x
    cases twice with
    | false =>
      obtain ⟨hb, hr⟩ := twin_step L e h hj
      rw [show run (step L) (.ret t) (Delivery.copies ⟨e, false⟩) = step L t e from rfl] at hs ⊢
      cases hd : step L d e with
      | spin d' =>
        cases ht : step L t e with
        | spin t' =>
          rw [hd, ht] at hb
          rwa [run_spin, run_spin]
        | ret t' =>
          rw [hd, ht] at hb
          exact absurd hb nofun
      | ret d' =>
        cases ht : step L t e with
        | spin t' =>
          rw [hd, ht] at hb
          exact absurd hb nofun
        | ret t' =>
          rw [ht] at hs
          refine ih (hr d' t' hd ht) ?_
          rwa [show (junk && !e.settles t || Delivery.leavesJunk t ⟨e, false⟩) =
            (junk && !e.settles t) from Bool.or_false _] at hs
    | true =>
      cases e with
      | write data len => exact ih ((h.decode L data len).trans (twin_again L (hx rfl))) hs
      | setup | writeTask | printUpdate | ledTask | schTask | button | usbReset | background =>
        exact (hx rfl).elim

/-- Packets that come twice, where that is harmless. -/
theorem retransmission_harmless (L : Layout) (d : Device) (xs : List Delivery)
    (h : Spared L false (.ret d) xs) : SameStore
      (run (step L) (.ret d) (xs.map Delivery.event))
      (run (step L) (.ret d) (xs.flatMap Delivery.copies)) := by
  have hb := twin_run L xs (.refl d) h
  generalize run (step L) (.ret d) (xs.map Delivery.event) = o at hb ⊢
  generalize run (step L) (.ret d) (xs.flatMap Delivery.copies) = o' at hb ⊢
  have hs : o'.state.blind = o.state.blind := by
    rw [← Outcome.state_map Device.blind o', hb, Outcome.state_map]
  refine ⟨?_, (congrArg Device.flash hs :), (congrArg Device.eeprom hs :),
    (congrArg (fun d => d.ucp.ucpState) hs :)⟩
  rw [← Outcome.returns_map Device.blind, hb, Outcome.returns_map]

def repeatedWrite : List Delivery :=
  [⟨.write ![3, 0, 0, 8, 0, 0, 0, 0] 8, true⟩, ⟨.write ![1, 2, 3, 4, 5, 6, 7, 8] 8, true⟩,
    ⟨.getReport 2, false⟩, ⟨.writeTask, false⟩]

theorem retransmission_harmless_write : SameStore
    (run (step sampleLayout) (.ret (run (step sampleLayout) sampleBoot enterFactoryPin).state)
      (repeatedWrite.map Delivery.event))
    (run (step sampleLayout) (.ret (run (step sampleLayout) sampleBoot enterFactoryPin).state)
      (repeatedWrite.flatMap Delivery.copies)) :=
  retransmission_harmless sampleLayout _ repeatedWrite (by decide +kernel)

/-- The packets of a SET_PIN, each of them once or twice. -/
def deliveredPin (twice : Fin 3 → Bool) (p q : Bytes 8) : List Delivery :=
  [⟨.write ![7, 0, 0, 0, 0, 0, 0, 0] 8, twice 0⟩, ⟨.write p 8, twice 1⟩, ⟨.write q 8, twice 2⟩]

/-- The second copy of the command is the first half of the hash. -/
theorem not_retransmission_harmless_setPin : ¬∀ L flash eeprom ram d twice p q,
    Reachable L flash eeprom ram d → d.ucp.ucpState = .idle → SameStore
      (run (step L) (.ret d) ((deliveredPin twice p q).map Delivery.event))
      (run (step L) (.ret d) ((deliveredPin twice p q).flatMap Delivery.copies)) := by
  intro h
  have hs := h sampleLayout (fun _ => 0) (factoryEeprom sampleLayout) (fun _ => 0)
    (run (step sampleLayout) sampleBoot enterFactoryPin).state ![true, false, false]
    (fun _ => 1) (fun _ => 2) ⟨_, Outcome.eq_ret_of_returns (by decide +kernel)⟩ (by decide +kernel)
  have he := congrFun hs.eeprom sampleLayout.lockHash
  exact absurd he (by decide +kernel)

end Memtype
