import Memtype.Proofs.Buffer
import Memtype.Proofs.Deferred

/-! SET_PIN: the hash is written in two halves, and is whole whenever no transfer to EEPROM
is open, provided that nothing tears the transfer between the halves. -/

namespace Memtype

open Lib

def Call.isEeprom : Call → Bool
  | .setPin | .keyboard | .eepromUpdate .. => true
  | _ => false

namespace Device

def eepromLog (d : Device) : List Call := d.calls.filter Call.isEeprom

def hash (L : Layout) (d : Device) : Bytes 16 := d.eeprom.read L.lockHash 16

end Device

/-- The hash is that of power-on, that of the factory, or the two packets of one SET_PIN
transfer, which no other transfer interrupted. -/
def WholeHash (L : Layout) (eeprom : Mem) (d : Device) : Prop :=
  d.hash L = eeprom.read L.lockHash 16 ∨ d.hash L = lockHashPgm ∧ .resetPin ∈ d.calls ∨
    ∃ p q, [.setPin, .eepromUpdate L.lockHash p, .eepromUpdate (L.lockHash + 8) q] <:+: d.eepromLog ∧
      d.hash L = Fin.append p q

def Event.resetsPin (L : Layout) (d : Device) (e : Event) : Prop :=
  e.checksPin d ∧
    (d.pin = erasePin ∨ pinMatches L d.eeprom d.pin = false ∧ d.usi.pinRetries = 0)

def Ucp.pinOpen (L : Layout) (u : Ucp) : Prop :=
  u.ucpState = .writeEeprom ∧ u.readEnd = L.lockHash + 16 ∧ u.readOffset < u.readEnd

/-- The menu locks, unlocks or resets between the halves of the hash, or a write left over
from before the transfer is carried out during it. -/
def Event.tearsPin (L : Layout) (d : Device) (e : Event) : Prop :=
  d.ucp.pinOpen L ∧
    (d.ucp.readOffset = L.lockHash + 8 ∧ (e.switchesUcp L d ∨ e.resetsPin L d) ∨
      e.isWriteTask = true ∧ d.ucp.usbWrite = true)

instance (L : Layout) (d : Device) (e : Event) : Decidable (e.resetsPin L d) :=
  inferInstanceAs (Decidable (_ ∧ (_ ∨ _ ∧ _)))

instance (L : Layout) (u : Ucp) : Decidable (u.pinOpen L) :=
  inferInstanceAs (Decidable (_ ∧ _ ∧ _))

instance (L : Layout) (d : Device) (e : Event) : Decidable (e.tearsPin L d) :=
  inferInstanceAs (Decidable (_ ∧ (_ ∧ (_ ∨ _) ∨ _ ∧ _)))

def Grows (d d' : Device) : Prop := ∃ m, d'.calls = d.calls ++ m

theorem Grows.log {d d' : Device} (h : Grows d d') : ∃ m, d'.eepromLog = d.eepromLog ++ m := by
  obtain ⟨m, hm⟩ := h
  exact ⟨m.filter Call.isEeprom, by rw [Device.eepromLog, hm, List.filter_append]; rfl⟩

theorem wholeHash_of {L : Layout} {eeprom : Mem} {d d' : Device} (hd : WholeHash L eeprom d)
    (hh : d'.hash L = d.hash L) (hg : Grows d d') : WholeHash L eeprom d' := by
  have hlog := hg.log
  obtain ⟨m, hm⟩ := hg
  unfold WholeHash
  rw [hh]
  rcases hd with h | ⟨h, hr⟩ | ⟨p, q, hi, h⟩
  · exact .inl h
  · exact .inr (.inl ⟨h, by rw [hm]; exact List.mem_append_left _ hr⟩)
  · obtain ⟨l, hl⟩ := hlog
    exact .inr (.inr ⟨p, q, by rw [hl]; exact hi.trans (List.prefix_append _ _).isInfix, h⟩)

theorem hash_reset (L : Layout) (d : Device) : (usiResetPin L d).hash L = lockHashPgm := by
  unfold Device.hash
  rw [show (usiResetPin L d).eeprom =
    d.eeprom.write L.lockHash 16 fun i => lockHashPgm (Fin.ofNat 16 i) from rfl,
    Mem.read_write_self _ _ _ (by decide)]
  funext i
  rw [Fin.ofNat_eq_cast, Fin.cast_val_eq_self]

/-- A block of EEPROM beside the hash. -/
theorem hash_write_out {L : Layout} {d : Device} {a : UInt16} {n : ℕ} {f : ℕ → UInt8}
    (ha : a.toNat + n ≤ eepromSize)
    (h : a.toNat + n ≤ L.lockHash.toNat ∨ L.lockHash.toNat + 16 ≤ a.toNat) (k : ℕ) (hk : k ≤ 16) :
    (d.eeprom.write a n f).read L.lockHash k = d.eeprom.read L.lockHash k := by
  refine Mem.read_write_out _ _ _ _ fun i hi => ?_
  have hl := L.lockHash_fit
  unfold eepromSize at ha hl
  rw [Mem.toNat_sub, UInt16.toNat_add, UInt16.toNat_ofNat']
  omega

theorem toNat_lockHash (L : Layout) {k : ℕ} (hk : k ≤ 16) :
    (L.lockHash + UInt16.ofNat k).toNat = L.lockHash.toNat + k := by
  have hl := L.lockHash_fit
  unfold eepromSize at hl
  rw [UInt16.toNat_add, UInt16.toNat_ofNat']
  omega

/-- Where the second packet of SET_PIN goes. -/
theorem toNat_lockHash_half (L : Layout) : (L.lockHash + 8).toNat = L.lockHash.toNat + 8 :=
  toNat_lockHash L (k := 8) (by decide)

theorem toNat_lockHash_end (L : Layout) : (L.lockHash + 16).toNat = L.lockHash.toNat + 16 :=
  toNat_lockHash L (k := 16) (by decide)

theorem Ucp.pinOpen_of {L : Layout} {u : Ucp} (h0 : u.ucpState = .writeEeprom)
    (he : u.readEnd = L.lockHash + 16) (ho : u.readOffset.toNat < L.lockHash.toNat + 16) :
    u.pinOpen L := by
  refine ⟨h0, he, ?_⟩
  rwa [he, UInt16.lt_iff_toNat_lt, toNat_lockHash_end]

/-- Where the device is in a transfer to EEPROM, and what it has of the hash. -/
inductive PinInv (L : Layout) (eeprom : Mem) (d : Device) : Prop
  | closed (h0 : d.ucp.ucpState ≠ .writeEeprom) (hw : WholeHash L eeprom d)
  | opened (h0 : d.ucp.ucpState = .writeEeprom) (ho : d.ucp.readOffset = L.lockHash)
      (he : d.ucp.readEnd = L.lockHash + 16) (hl : [.setPin] <:+ d.eepromLog)
      (hw : WholeHash L eeprom d)
  | half (h0 : d.ucp.ucpState = .writeEeprom) (ho : d.ucp.readOffset = L.lockHash + 8)
      (he : d.ucp.readEnd = L.lockHash + 16) (p : Bytes 8)
      (hl : [.setPin, .eepromUpdate L.lockHash p] <:+ d.eepromLog)
      (hp : d.eeprom.read L.lockHash 8 = p)
  | done (h0 : d.ucp.ucpState = .writeEeprom) (ho : d.ucp.readOffset = L.lockHash + 16)
      (he : d.ucp.readEnd = L.lockHash + 16) (hw : WholeHash L eeprom d)
  | keyboard (h0 : d.ucp.ucpState = .writeEeprom) (k : ℕ) (hk : k ≤ 16)
      (ho : d.ucp.readOffset.toNat = L.keyboardLut.toNat + 8 * k)
      (he : d.ucp.readEnd.toNat = L.keyboardLut.toNat + 128) (hw : WholeHash L eeprom d)

namespace PinInv

variable {L : Layout} {eeprom : Mem} {d d' : Device}

/-- The hash is whole but between the two packets. -/
theorem whole_or_half (h : PinInv L eeprom d) :
    WholeHash L eeprom d ∨ d.ucp.pinOpen L ∧ d.ucp.readOffset = L.lockHash + 8 := by
  cases h with
  | closed _ hw => exact .inl hw
  | opened _ _ _ _ hw => exact .inl hw
  | half h0 ho he p hl hp =>
    refine .inr ⟨Ucp.pinOpen_of h0 he ?_, ho⟩
    rw [ho, toNat_lockHash_half]
    omega
  | done _ _ _ hw => exact .inl hw
  | keyboard _ _ _ _ _ hw => exact .inl hw

theorem whole (h : PinInv L eeprom d) (h0 : d.ucp.ucpState ≠ .writeEeprom) :
    WholeHash L eeprom d :=
  h.whole_or_half.resolve_right fun hp => h0 hp.1.1

/-- A step that touches neither the transfer nor the EEPROM log, nor the hash. -/
theorem quiet (h : PinInv L eeprom d) (hu : d'.ucp.ucpState = d.ucp.ucpState)
    (ho : d'.ucp.readOffset = d.ucp.readOffset) (he : d'.ucp.readEnd = d.ucp.readEnd)
    (hg : Grows d d') (hl : d'.eepromLog = d.eepromLog)
    (hr : ∀ k ≤ 16, d'.eeprom.read L.lockHash k = d.eeprom.read L.lockHash k) :
    PinInv L eeprom d' := by
  have hw (hw : WholeHash L eeprom d) : WholeHash L eeprom d' := wholeHash_of hw (hr 16 le_rfl) hg
  cases h with
  | closed h0 h => exact .closed (by rwa [hu]) (hw h)
  | opened h0 h1 h2 h3 h => exact .opened (hu.trans h0) (ho.trans h1) (he.trans h2) (by rwa [hl]) (hw h)
  | half h0 h1 h2 p h3 hp =>
    exact .half (hu.trans h0) (ho.trans h1) (he.trans h2) p (by rwa [hl]) ((hr 8 (by decide)).trans hp)
  | done h0 h1 h2 h => exact .done (hu.trans h0) (ho.trans h1) (he.trans h2) (hw h)
  | keyboard h0 k hk h1 h2 h =>
    exact .keyboard (hu.trans h0) k hk (by rw [ho, h1]) (by rw [he, h2]) (hw h)

/-- A step that touches neither, and leaves a whole hash. -/
theorem rehash (h : PinInv L eeprom d)
    (hn : ¬(d.ucp.pinOpen L ∧ d.ucp.readOffset = L.lockHash + 8)) (hu : d'.ucp = d.ucp)
    (hl : d'.eepromLog = d.eepromLog) (hw : WholeHash L eeprom d') : PinInv L eeprom d' := by
  cases h with
  | closed h0 _ => exact .closed (by rwa [hu]) hw
  | opened h0 ho he h3 _ => exact .opened (by rwa [hu]) (by rwa [hu]) (by rwa [hu]) (by rwa [hl]) hw
  | half h0 ho he p h3 hp =>
    refine absurd ⟨Ucp.pinOpen_of h0 he ?_, ho⟩ hn
    rw [ho, toNat_lockHash_half]
    omega
  | done h0 ho he _ => exact .done (by rwa [hu]) (by rwa [hu]) (by rwa [hu]) hw
  | keyboard h0 k hk ho he _ => exact .keyboard (by rwa [hu]) k hk (by rwa [hu]) (by rwa [hu]) hw

end PinInv

theorem eepromStored_log (data : Bytes 8) (d : Device) :
    (eepromStored data d).eepromLog = d.eepromLog ++ [.eepromUpdate d.ucp.readOffset data] := by
  unfold Device.eepromLog
  rw [eepromStored_calls, List.filter_append]
  rfl

/-- The first packet of SET_PIN is the first half of the hash. -/
theorem read_first (L : Layout) (data : Bytes 8) (m : Mem) :
    (m.write L.lockHash 8 fun i => data (Fin.ofNat 8 i)).read L.lockHash 8 = data := by
  rw [Mem.read_write_self _ _ _ (by decide)]
  funext i
  rw [Fin.ofNat_eq_cast, Fin.cast_val_eq_self]

/-- The second packet completes it. -/
theorem read_second (L : Layout) (p q : Bytes 8) (m : Mem) (hp : m.read L.lockHash 8 = p) :
    (m.write (L.lockHash + 8) 8 fun i => q (Fin.ofNat 8 i)).read L.lockHash 16 = Fin.append p q := by
  have h8 := toNat_lockHash_half L
  have hl := L.lockHash_fit
  unfold eepromSize at hl
  funext i
  rw [Mem.read_apply]
  have hi := toNat_lockHash L (k := i) (by omega)
  by_cases h : i.val < 8
  · rw [Mem.write_out (by rw [Mem.toNat_sub, hi, h8]; omega)]
    rw [show i = Fin.castAdd 8 ⟨i, h⟩ from rfl, Fin.append_left, ← hp]
    rfl
  · have hd : (L.lockHash + UInt16.ofNat i - (L.lockHash + 8)).toNat = i - 8 := by
      rw [Mem.toNat_sub, hi, h8]
      omega
    have hi8 : i = Fin.natAdd 8 (⟨i - 8, by omega⟩ : Fin 8) :=
      Fin.ext (show i.val = 8 + (i.val - 8) by omega)
    rw [Mem.write_in (by rw [hd]; omega), hd]
    conv_rhs => rw [hi8, Fin.append_right]
    congr 1
    exact Fin.ext (Nat.mod_eq_of_lt (by omega))

theorem grows_same {d d' : Device} (h : d'.calls = d.calls) : Grows d d' := ⟨[], by simp [h]⟩

theorem eepromLog_append {d d' : Device} {m : List Call} (h : d'.calls = d.calls ++ m)
    (hm : ∀ c ∈ m, c.isEeprom = false) : d'.eepromLog = d.eepromLog := by
  unfold Device.eepromLog
  rw [h, List.filter_append]
  refine (congrArg _ (List.filter_eq_nil_iff.mpr fun c hc => ?_)).trans (List.append_nil _)
  simp [hm c hc]

/-- A packet of SET_KEYBOARD goes beside the hash. -/
theorem wholeHash_keyboard {L : Layout} {eeprom : Mem} {d : Device} (data : Bytes 8) {k : ℕ}
    (ho : d.ucp.readOffset.toNat = L.keyboardLut.toNat + 8 * k) (hk : k < 16)
    (hw : WholeHash L eeprom d) : WholeHash L eeprom (eepromStored data d) := by
  have hl := L.lockHash_fit
  have hkb := L.keyboardLut_fit
  have hd := L.hash_keyboard
  unfold eepromSize at hl hkb
  unfold keyboardSize at hkb hd
  have hfit : d.ucp.readOffset.toNat + 8 ≤ eepromSize := by
    unfold eepromSize
    omega
  have hside : d.ucp.readOffset.toNat + 8 ≤ L.lockHash.toNat ∨
      L.lockHash.toNat + 16 ≤ d.ucp.readOffset.toNat := by omega
  refine wholeHash_of hw ?_ ⟨_, rfl⟩
  unfold Device.hash
  rw [show (eepromStored data d).eeprom =
    d.eeprom.write d.ucp.readOffset 8 fun i => data (Fin.ofNat 8 i) from rfl]
  exact hash_write_out hfit hside 16 le_rfl

/-- A packet of an open transfer. -/
theorem pinInv_stored {L : Layout} {eeprom : Mem} {d : Device} (data : Bytes 8)
    (hd : PinInv L eeprom d) (h0 : d.ucp.ucpState = .writeEeprom)
    (ho : d.ucp.readOffset < d.ucp.readEnd) : PinInv L eeprom (eepromStored data d) ∧
      (d.ucp.readEnd ≤ d.ucp.readOffset + 8 → WholeHash L eeprom (eepromStored data d)) := by
  have hlog := eepromStored_log data d
  have heep : (eepromStored data d).eeprom =
    d.eeprom.write d.ucp.readOffset 8 fun i => data (Fin.ofNat 8 i) := rfl
  cases hd with
  | closed h _ => exact absurd h0 h
  | opened _ h1 h2 h3 hw =>
    refine ⟨.half h0 ?_ h2 data ?_ ?_, fun he => ?_⟩
    · rw [eepromStored_readOffset, h1]
    · rw [hlog, h1]
      obtain ⟨l, hl⟩ := h3
      exact ⟨l, by rw [← hl, List.append_assoc]; rfl⟩
    · rw [heep, h1]
      exact read_first L data d.eeprom
    · rw [h1, h2, UInt16.le_iff_toNat_le] at he
      have h8 := toNat_lockHash_half L
      have h16 := toNat_lockHash_end L
      omega
  | half _ h1 h2 p h3 hp =>
    have hw : WholeHash L eeprom (eepromStored data d) := by
      refine .inr (.inr ⟨p, data, ?_, ?_⟩)
      · rw [hlog, h1]
        obtain ⟨l, hl⟩ := h3
        exact ⟨l, [], by rw [← hl]; simp⟩
      · unfold Device.hash
        rw [heep, h1]
        exact read_second L p data d.eeprom hp
    refine ⟨.done h0 ?_ h2 hw, fun _ => hw⟩
    rw [eepromStored_readOffset, h1, UInt16.add_assoc]
    rfl
  | done _ h1 h2 hw =>
    rw [h1, h2] at ho
    exact absurd ho (UInt16.lt_irrefl _)
  | keyboard _ k hk h1 h2 hw =>
    rw [UInt16.lt_iff_toNat_lt, h1, h2] at ho
    have hw' := wholeHash_keyboard data h1 (by omega) hw
    refine ⟨.keyboard h0 (k + 1) (by omega) ?_ h2 hw', fun _ => hw'⟩
    have hkb := L.keyboardLut_fit
    unfold eepromSize keyboardSize at hkb
    rw [eepromStored_readOffset, UInt16.toNat_add, h1, show (8 : UInt16).toNat = 8 from rfl]
    omega

theorem pinInv_decode {L : Layout} {eeprom : Mem} {data : Bytes 8} {len : UInt8} {d d' : Device}
    (h : DecodeStep L data len d d') (hd : PinInv L eeprom d) : PinInv L eeprom d' := by
  -- a packet outside a transfer to EEPROM
  have hq {d' : Device} (h0 : d.ucp.ucpState ≠ .writeEeprom) (h1 : d'.ucp.ucpState ≠ .writeEeprom)
      (he : d'.eeprom = d.eeprom) (hg : Grows d d') : PinInv L eeprom d' :=
    .closed h1 (wholeHash_of (hd.whole h0) (by unfold Device.hash; rw [he]) hg)
  cases h with
  | size h => exact hd.quiet rfl rfl rfl (grows_same rfl) rfl fun _ _ => rfl
  | locked h h0 => exact hd.quiet rfl rfl rfl (grows_same rfl) rfl fun _ _ => rfl
  | accept h h0 => exact hq (by simp [h0]) (by simp [Ucp.received, h0]) rfl ⟨_, rfl⟩
  | reject h h0 =>
    exact hq (by simp [h0]) (by simp [Ucp.protocolError, Ucp.error]) rfl (grows_same rfl)
  | half h h0 ho he => exact (pinInv_stored data hd h0 ho).1
  | pinDone h h0 ho he hl =>
    exact (pinInv_stored data hd h0 ho).1.quiet rfl rfl rfl ⟨[.uifInit], rfl⟩
      (eepromLog_append (m := [.uifInit]) rfl (by simp [Call.isEeprom])) fun _ _ => rfl
  | eepromDone h h0 ho he hl =>
    have hw := (pinInv_stored data hd h0 ho).2 he
    exact .closed (by simp) (wholeHash_of hw rfl (grows_same rfl))
  | eepromRefused h h0 ho =>
    have hw := hd.whole_or_half.resolve_right fun hp => ho hp.1.2.2
    exact .closed (by simp [Ucp.protocolError, Ucp.error]) (wholeHash_of hw rfl (grows_same rfl))
  | openWrite h h0 hc => exact hq (by simp [h0]) (by simp) rfl ⟨_, rfl⟩
  | setPin h h0 =>
    refine .opened rfl rfl rfl ⟨d.eepromLog, ?_⟩ (wholeHash_of (hd.whole h0.2.2) rfl ⟨_, rfl⟩)
    unfold Device.eepromLog
    rw [call_calls, setUcp_calls, List.filter_append]
    rfl
  | keyboard h h0 =>
    refine .keyboard rfl 0 (by decide) rfl ?_ (wholeHash_of (hd.whole h0.2.2) rfl ⟨_, rfl⟩)
    have hl := L.keyboardLut_fit
    unfold eepromSize keyboardSize at hl
    rw [call_ucp, setUcp_ucp, UInt16.toNat_add, UInt16.toNat_ofNat']
    unfold keyboardSize
    omega
  | command s r o e t h h0 hs =>
    refine hq h0.2.2 ?_ rfl (grows_same rfl)
    rcases hs with rfl | rfl | rfl
    · exact h0.2.2
    · simp
    · simp

/-- A step to a state outside a transfer that leaves the hash alone. -/
theorem pinInv_closed {L : Layout} {eeprom : Mem} {d d' : Device} (hw : WholeHash L eeprom d)
    (h1 : d'.ucp.ucpState ≠ .writeEeprom) (he : d'.eeprom = d.eeprom) (hg : Grows d d') :
    PinInv L eeprom d' :=
  .closed h1 (wholeHash_of hw (by unfold Device.hash; rw [he]) hg)

theorem pinInv_task {L : Layout} {eeprom : Mem} {d d' : Device} (h : TaskStep d d')
    (hd : PinInv L eeprom d) : PinInv L eeprom d' := by
  cases h with
  | same => exact hd
  | promote h0 ha =>
    exact pinInv_closed (hd.whole (by simp [h0])) (by simp [h0]) rfl (grows_same rfl)
  | read s r o h0 hs =>
    have hne : d.ucp.ucpState ≠ .writeEeprom := by rcases h0 with h0 | h0 <;> simp [h0]
    refine pinInv_closed (hd.whole hne) ?_ rfl (grows_same rfl)
    rcases hs with rfl | rfl <;> exact nofun

/-- A deferred write, where it does not hit an open SET_PIN transfer. -/
theorem pinInv_write {L : Layout} {eeprom : Mem} {d d' : Device} (hd : PinInv L eeprom d)
    (hg : ¬(d.ucp.pinOpen L ∧ d.ucp.usbWrite = true)) (hs : ucpWriteTask L d = .ret d') :
    PinInv L eeprom d' := by
  cases writeTask_ret hs with
  | idle hw => exact hd
  | wrote hw d1 hl hst =>
    have hoff := writeLoop_packet hl
    rw [call_ucp] at hoff
    have hgr : Grows d (d1.setUcp { d1.ucp with usbWrite := false }) := ⟨_, hst.calls⟩
    have hnot : ¬d.ucp.pinOpen L := fun hp => hg ⟨hp, hw⟩
    cases hd with
    | closed h0 h =>
      refine pinInv_closed h ?_ hst.eeprom hgr
      rcases hst.state with h1 | h1
      · exact fun h2 => h0 (h1.symm.trans h2)
      · exact fun h2 => absurd (h1.symm.trans h2) nofun
    | opened h0 h1 h2 h3 h =>
      refine absurd (Ucp.pinOpen_of h0 h2 ?_) hnot
      rw [h1]
      omega
    | half h0 h1 h2 p h3 hp =>
      refine absurd (Ucp.pinOpen_of h0 h2 ?_) hnot
      rw [h1, toNat_lockHash_half]
      omega
    | done h0 h1 h2 h =>
      rcases hoff with hi | ⟨-, hn⟩
      · exact pinInv_closed h (by simp [hi]) hst.eeprom hgr
      · refine absurd ?_ hn
        have hlf := L.lockHash_fit
        unfold eepromSize at hlf
        rw [h1, h2, UInt16.le_iff_toNat_le, toNat_lockHash_end, UInt16.toNat_add, toNat_lockHash_end,
          UInt16.toNat_one]
        omega
    | keyboard h0 k hk h1 h2 h =>
      have hkb := L.keyboardLut_fit
      unfold eepromSize keyboardSize at hkb
      rcases hoff with hi | ⟨ho, hn⟩
      · exact pinInv_closed h (by simp [hi]) hst.eeprom hgr
      have hk' : k ≠ 16 := by
        intro hk
        refine hn ?_
        rw [UInt16.le_iff_toNat_le, UInt16.toNat_add, h1, h2, UInt16.toNat_one]
        omega
      have hwd : WholeHash L eeprom (d1.setUcp { d1.ucp with usbWrite := false }) :=
        wholeHash_of h (by unfold Device.hash; rw [setUcp_eeprom, hst.eeprom]; rfl) hgr
      rcases hst.state with hs | hs
      · refine .keyboard (hs.trans h0) (k + 1) (by omega) ?_ ?_ hwd
        · rw [setUcp_ucp, ho, UInt16.toNat_add, h1, show (8 : UInt16).toNat = 8 from rfl]
          omega
        · rw [setUcp_ucp, hst.readEnd]
          exact h2
      · exact pinInv_closed h (by simp [hs]) hst.eeprom hgr

theorem pinInv_button {L : Layout} {eeprom : Mem} {b : Button} {d d' : Device}
    (h : ButtonStep L b d d') (hd : PinInv L eeprom d)
    (hsw : d.ucp.pinOpen L ∧ d.ucp.readOffset = L.lockHash + 8 → ¬d.switches L b)
    (hre : d.ucp.pinOpen L ∧ d.ucp.readOffset = L.lockHash + 8 →
      ¬(b = .right ∧ d.uif.uifState = .userInput ∧ d.usi.userTextIndex = 3 ∧
        (d.pin = erasePin ∨ pinMatches L d.eeprom d.pin = false ∧ d.usi.pinRetries = 0))) :
    PinInv L eeprom d' := by
  obtain ⟨m, hm, hp⟩ := button_calls h
  have hg : Grows d d' := ⟨m, hm⟩
  have hlog : d'.eepromLog = d.eepromLog := by
    refine eepromLog_append hm fun c hc => ?_
    have := hp c hc
    cases c <;> simp_all [Call.isPrint, Call.isMenu, Call.isEeprom]
  have hquiet (hu : d'.ucp = d.ucp) (he : d'.eeprom = d.eeprom) : PinInv L eeprom d' :=
    hd.quiet (by rw [hu]) (by rw [hu]) (by rw [hu]) hg hlog fun _ _ => by rw [he]
  -- between the two packets neither of these may happen
  have hswitch (hs : d.switches L b) (he : d'.eeprom = d.eeprom)
      (h1 : d'.ucp.ucpState ≠ .writeEeprom) : PinInv L eeprom d' :=
    pinInv_closed (hd.whole_or_half.resolve_right fun hp => hsw hp hs) h1 he hg
  have hreset (hu : d'.ucp = d.ucp) (he : d'.eeprom = (usiResetPin L d).eeprom)
      (hc : .resetPin ∈ d'.calls) (hr : b = .right ∧ d.uif.uifState = .userInput ∧
        d.usi.userTextIndex = 3 ∧ (d.pin = erasePin ∨
          pinMatches L d.eeprom d.pin = false ∧ d.usi.pinRetries = 0)) : PinInv L eeprom d' := by
    refine hd.rehash (fun hp => hre hp hr) hu hlog (.inr (.inl ⟨?_, hc⟩))
    unfold Device.hash
    rw [he]
    exact hash_reset L d
  cases h with
  | quiet h hu hs => exact hquiet hu h.eeprom
  | options h0 hb h hu hs => exact hquiet hu h.eeprom
  | optLock h0 hb d1 h hf he hk hc hu hs => exact hquiet hu (he.trans h.eeprom)
  | lock h0 h hu hs =>
    refine hswitch ?_ h.eeprom (by simp [hu])
    rcases h0 with h0 | h0 <;> simp [Device.switches, h0]
  | back h0 hb h hu hs => exact hswitch (.inr (.inr (.inl ⟨h0, hb⟩))) h.eeprom (by simp [hu])
  | accepted h0 hb hi hp hm d1 d2 h hf he hk hc h' hu hs =>
    exact hswitch (.inr (.inr (.inr ⟨h0, hb, hi, hp, hm⟩))) (h'.eeprom.trans (he.trans h.eeprom))
      (by simp [hu])
  | refused h0 hb hi hp hm d1 h hf he hu hs =>
    rcases he with ⟨he, -⟩ | ⟨hz, he, hc⟩
    · exact hquiet hu he
    · exact hreset hu he (by simp [hc]) ⟨hb, h0, hi, .inr ⟨hm, hz⟩⟩
  | erased h0 hb hi hp d1 h hf he hk hc hu hs =>
    exact hreset hu he (by simp [hc]) ⟨hb, h0, hi, .inl hp⟩

/-- Every step but the deferred write, whether or not it returns. -/
theorem pinInv_case {L : Layout} {eeprom : Mem} {d d' : Device} {e : Event}
    (hd : PinInv L eeprom d) (hg : ¬e.tearsPin L d) (hne : e ≠ .writeTask)
    (hs : StepCase L d e d') : PinInv L eeprom d' := by
  have hcalm {d d' : Device} (h : Calm d d') : Grows d d' ∧ d'.eepromLog = d.eepromLog := by
    obtain ⟨m, hm, hp⟩ := h.calls
    refine ⟨⟨m, hm⟩, eepromLog_append hm fun c hc => ?_⟩
    have := hp c hc
    cases c <;> simp_all [Call.isPrint, Call.isEeprom]
  have hstill {d1 : Device} (h : Still d d1) : PinInv L eeprom d1 :=
    hd.quiet (by rw [h.ucp]) (by rw [h.ucp]) (by rw [h.ucp]) (hcalm h.calm).1 (hcalm h.calm).2
      fun _ _ => by rw [h.calm.eeprom]
  cases hs with
  | still h => exact hstill h
  | poll rq =>
    exact (pinInv_task (task_cases L d) hd).quiet rfl rfl rfl ⟨_, rfl⟩
      (eepromLog_append (m := [.reply 2 _]) rfl (by simp [Call.isEeprom])) fun _ _ => rfl
  | decode data len => exact pinInv_decode (decode_cases L data len d) hd
  | write => exact absurd rfl hne
  | button b he d1 h hb =>
    have hpin : d1.pin = d.pin := by
      unfold Device.pin
      rw [h.usi]
    refine pinInv_button hb (hstill h) (fun hp hsw => ?_) fun hp hre => ?_
    · rw [h.ucp] at hp
      exact hg ⟨hp.1, .inl ⟨hp.2, .inl ⟨b, he, (h.switches b).mp hsw⟩⟩⟩
    · rw [h.ucp] at hp
      rw [h.uif, h.usi, hpin, h.calm.eeprom] at hre
      obtain ⟨rfl, h0, hi, hr⟩ := hre
      exact hg ⟨hp.1, .inl ⟨hp.2, .inr ⟨⟨he, h0, hi⟩, hr⟩⟩⟩
  | calibrate meas hf hk hc hu hs hi he =>
    refine hd.quiet (by rw [hu]) (by rw [hu]) (by rw [hu]) (grows_same hc) ?_ fun k hk => ?_
    · unfold Device.eepromLog
      rw [hc]
    · rcases he with he | ⟨v, he⟩
      · rw [he]
      · rw [he]
        refine Mem.read_write_out _ _ _ _ fun i hi => ?_
        have hl := L.lockHash_fit
        have ho := L.hash_osccal
        have hlt := L.osccalEep.toNat_lt
        unfold eepromSize at hl
        rw [Mem.toNat_sub, UInt16.toNat_add, UInt16.toNat_ofNat']
        omega

/-- When no transfer to EEPROM is open, the hash is whole. -/
def PinWhole (L : Layout) (eeprom : Mem) (d : Device) : Prop :=
  d.ucp.ucpState ≠ .writeEeprom → WholeHash L eeprom d

theorem PinInv.pinWhole {L : Layout} {eeprom : Mem} {d : Device} (h : PinInv L eeprom d) :
    PinWhole L eeprom d := h.whole

theorem pinWhole_write {L : Layout} {eeprom : Mem} {d : Device} (hd : PinInv L eeprom d)
    (hg : ¬(d.ucp.pinOpen L ∧ d.ucp.usbWrite = true)) :
    PinWhole L eeprom (ucpWriteTask L d).state := by
  intro h0
  have hs := writeTask_step L d
  generalize (ucpWriteTask L d).state = d' at hs h0 ⊢
  cases hs with
  | idle hw => exact hd.whole h0
  | wrote hw d1 h w =>
    have hwh := hd.whole_or_half.resolve_right fun hp => hg ⟨hp.1, hw⟩
    exact wholeHash_of hwh (by unfold Device.hash; rw [setUcp_eeprom, h.eeprom]; rfl) ⟨_, h.calls⟩

theorem pinInv_powerOn {L : Layout} {flash eeprom ram : Mem} {d : Device}
    (h : powerOn L flash eeprom ram = .ret d) : PinInv L eeprom d := by
  obtain ⟨c, v, rfl⟩ := powerOn_ret h
  exact .closed nofun (.inl rfl)

/-- In a run from power-on in which nothing tears a SET_PIN transfer, the hash is whole in
every state outside a transfer to EEPROM. -/
theorem pinWhole_run (L : Layout) (flash eeprom ram : Mem) (evs : List Event)
    (hg : EachStep (step L) (fun d e => ¬e.tearsPin L d) (powerOn L flash eeprom ram) evs) :
    Always (step L) (PinWhole L eeprom) (powerOn L flash eeprom ram) evs := by
  refine always_of_inv (I := PinInv L eeprom) (fun d hd => hd.pinWhole) (fun d e hd hg => ?_)
    (fun d h => pinInv_powerOn h) hg
  by_cases hw : e = .writeTask
  · subst hw
    have hg' : ¬(d.ucp.pinOpen L ∧ d.ucp.usbWrite = true) := fun h => hg ⟨h.1, .inr ⟨rfl, h.2⟩⟩
    exact ⟨pinWhole_write hd hg', fun d' hs => pinInv_write hd hg' hs⟩
  · have h := pinInv_case hd hg hw (step_cases L d e)
    exact ⟨h.pinWhole, fun d' hs => by rwa [hs] at h⟩

def samplePin : List Event :=
  [.write ![7, 0, 0, 0, 0, 0, 0, 0] 8, .write ![1, 2, 3, 4, 5, 6, 7, 8] 8,
    .write ![9, 10, 11, 12, 13, 14, 15, 16] 8, .button .up]

theorem pinWhole_samplePin : Always (step sampleLayout) (PinWhole sampleLayout
    (factoryEeprom sampleLayout)) sampleBoot (enterFactoryPin ++ samplePin) :=
  pinWhole_run sampleLayout (fun _ => 0) (factoryEeprom sampleLayout) (fun _ => 0)
    (enterFactoryPin ++ samplePin) (by decide +kernel)

/-- A look into OPTIONS between the two packets: the transfer is given up and the hash
half written. -/
theorem not_pinWhole_options : ¬∀ L flash eeprom ram evs,
    Always (step L) (PinWhole L eeprom) (powerOn L flash eeprom ram) evs := by
  intro h
  have hd := always_state (by decide +kernel) (h sampleLayout (fun _ => 0)
    (factoryEeprom sampleLayout) (fun _ => 0) (enterFactoryPin ++
      [.write ![7, 0, 0, 0, 0, 0, 0, 0] 8, .write ![1, 2, 3, 4, 5, 6, 7, 8] 8,
        .button .left, .button .right]))
  rcases hd (by decide +kernel) with hh | ⟨hh, -⟩ | ⟨p, q, hi, -⟩
  · exact absurd hh (by decide +kernel)
  · exact absurd hh (by decide +kernel)
  · have hlen : 3 ≤ _ := hi.length_le
    exact absurd hlen (by decide +kernel)

end Memtype
