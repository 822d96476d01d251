import Memtype.Proofs.Pin

/-! Transfers to EEPROM: where their blocks go, and which of them end in `UIF_Init`. -/

namespace Memtype

open Lib

inductive EepromTransfer where
  | setPin | keyboard
  deriving DecidableEq

namespace EepromTransfer

def base (L : Layout) : EepromTransfer → UInt16
  | setPin => L.lockHash
  | keyboard => L.keyboardLut

def packets : EepromTransfer → ℕ
  | setPin => 2
  | keyboard => 16

theorem fit (L : Layout) (t : EepromTransfer) : (t.base L).toNat + 8 * t.packets ≤ 512 := by
  cases t with
  | setPin => exact L.lockHash_fit
  | keyboard => exact L.keyboardLut_fit

end EepromTransfer

def Call.opens : Call → Option EepromTransfer
  | .setPin => some .setPin
  | .keyboard => some .keyboard
  | _ => none

namespace Device

def opened (d : Device) : Option EepromTransfer := (d.calls.filterMap Call.opens).getLast?

def transfer (d : Device) : Option EepromTransfer :=
  if d.ucp.ucpState = .writeEeprom then d.opened else none

def newCalls (d d' : Device) : List Call := d'.calls.drop d.calls.length

end Device

theorem newCalls_eq {d d' : Device} {m : List Call} (h : d'.calls = d.calls ++ m) :
    d.newCalls d' = m := by
  unfold Device.newCalls
  rw [h, List.drop_left]

theorem opened_append {d d' : Device} {m : List Call} (h : d'.calls = d.calls ++ m)
    (hm : ∀ c ∈ m, c.isEeprom = false) : d'.opened = d.opened := by
  have hnil : m.filterMap Call.opens = [] := by
    refine List.filterMap_eq_nil_iff.mpr fun c hc => ?_
    have := hm c hc
    cases c <;> simp_all [Call.isEeprom, Call.opens]
  unfold Device.opened
  rw [h, List.filterMap_append, hnil, List.append_nil]

theorem opened_stored (data : Bytes 8) (d : Device) : (eepromStored data d).opened = d.opened := by
  unfold Device.opened
  rw [eepromStored_calls, List.filterMap_append]
  exact congrArg List.getLast? (List.append_nil _)

theorem opened_call {d : Device} {c : Call} {t : EepromTransfer} (h : c.opens = some t) :
    (d.call c).opened = some t := by
  unfold Device.opened
  rw [call_calls, List.filterMap_append, List.filterMap_cons_some h, List.filterMap_nil,
    List.getLast?_concat]

/-- The transfer has `k` of its packets. -/
structure EepromAt (L : Layout) (t : EepromTransfer) (k : ℕ) (u : Ucp) : Prop where
  le : k ≤ t.packets
  offset : u.readOffset.toNat = (t.base L).toNat + 8 * k
  ends : u.readEnd.toNat = (t.base L).toNat + 8 * t.packets
  flag : t = .setPin → k < t.packets → u.lockAfterSetPin = true

/-- A transfer in progress stands between two packets of its region. -/
def EepromInv (L : Layout) (d : Device) : Prop :=
  d.ucp.ucpState = .writeEeprom → ∃ t k, d.opened = some t ∧ EepromAt L t k d.ucp

theorem eepromInv_closed {L : Layout} {d : Device} (h : d.ucp.ucpState ≠ .writeEeprom) :
    EepromInv L d := fun h0 => absurd h0 h

def Ucp.eepromPart (u : Ucp) : UcpState × UInt16 × UInt16 × Bool :=
  (u.ucpState, u.readOffset, u.readEnd, u.lockAfterSetPin)

theorem EepromInv.quiet {L : Layout} {d d' : Device} (hd : EepromInv L d)
    (hu : d'.ucp.eepromPart = d.ucp.eepromPart) (ho : d'.opened = d.opened) : EepromInv L d' := by
  simp only [Ucp.eepromPart, Prod.mk.injEq] at hu
  obtain ⟨h0, h1, h2, h3⟩ := hu
  intro h
  obtain ⟨t, k, ht, hk⟩ := hd (h0.symm.trans h)
  refine ⟨t, k, ho.trans ht, hk.le, by rw [h1, hk.offset], by rw [h2, hk.ends], fun hs hl => ?_⟩
  rw [h3]
  exact hk.flag hs hl

theorem eepromAt_lt {L : Layout} {t : EepromTransfer} {k : ℕ} {u : Ucp} (h : EepromAt L t k u)
    (ho : u.readOffset < u.readEnd) : k < t.packets := by
  rw [UInt16.lt_iff_toNat_lt, h.offset, h.ends] at ho
  omega

/-- The packet that is due, and whether it is the last. -/
theorem eepromAt_next {L : Layout} {t : EepromTransfer} {k : ℕ} {u : Ucp} (h : EepromAt L t k u)
    (hk : k < t.packets) : (u.readOffset + 8).toNat = (t.base L).toNat + 8 * (k + 1) ∧
      (u.readEnd ≤ u.readOffset + 8 ↔ k + 1 = t.packets) := by
  have hf := t.fit L
  have hn : (u.readOffset + 8).toNat = (t.base L).toNat + 8 * (k + 1) := by
    rw [UInt16.toNat_add, h.offset, show (8 : UInt16).toNat = 8 from rfl]
    omega
  refine ⟨hn, ?_⟩
  rw [UInt16.le_iff_toNat_le, hn, h.ends]
  omega

theorem eepromInv_stored {L : Layout} {d : Device} (data : Bytes 8) (hd : EepromInv L d)
    (h0 : d.ucp.ucpState = .writeEeprom) (ho : d.ucp.readOffset < d.ucp.readEnd) :
    EepromInv L (eepromStored data d) := by
  obtain ⟨t, k, ht, hk⟩ := hd h0
  have hlt := eepromAt_lt hk ho
  refine fun _ => ⟨t, k + 1, (opened_stored data d).trans ht, hlt, ?_, hk.ends, fun hs _ => ?_⟩
  · exact (eepromAt_next hk hlt).1
  · exact hk.flag hs hlt

theorem eepromInv_decode {L : Layout} {data : Bytes 8} {len : UInt8} {d d' : Device}
    (h : DecodeStep L data len d d') (hd : EepromInv L d) : EepromInv L d' := by
  cases h with
  | size h => exact hd.quiet rfl rfl
  | locked h h0 => exact hd.quiet rfl rfl
  | half h h0 ho he => exact eepromInv_stored data hd h0 ho
  | pinDone h h0 ho he hl =>
    obtain ⟨t, k, ht, hk⟩ := hd h0
    have hlt := eepromAt_lt hk ho
    have hlast := (eepromAt_next hk hlt).2.mp he
    refine fun _ => ⟨t, k + 1, ?_, hlt, (eepromAt_next hk hlt).1, hk.ends, fun _ h => by omega⟩
    exact (opened_append (d := eepromStored data d) (m := [.uifInit]) rfl
      (by simp [Call.isEeprom])).trans ((opened_stored data d).trans ht)
  | setPin h h0 =>
    have hl := L.lockHash_fit
    unfold eepromSize at hl
    refine fun _ => ⟨.setPin, 0, opened_call rfl, Nat.zero_le _, rfl, ?_, fun _ _ => rfl⟩
    exact toNat_lockHash_end L
  | keyboard h h0 =>
    have hl := L.keyboardLut_fit
    unfold eepromSize keyboardSize at hl
    refine fun _ => ⟨.keyboard, 0, opened_call rfl, Nat.zero_le _, rfl, ?_, fun hk => by cases hk⟩
    rw [call_ucp, setUcp_ucp, UInt16.toNat_add, UInt16.toNat_ofNat',
      show EepromTransfer.keyboard.base L = L.keyboardLut from rfl,
      show EepromTransfer.keyboard.packets = 16 from rfl]
    unfold keyboardSize
    omega
  | accept h h0 => exact eepromInv_closed (by simp [Ucp.received, h0])
  | reject h h0 => exact eepromInv_closed (by simp [Ucp.protocolError, Ucp.error])
  | eepromDone h h0 => exact eepromInv_closed (by simp)
  | eepromRefused h h0 => exact eepromInv_closed (by simp [Ucp.protocolError, Ucp.error])
  | openWrite h h0 => exact eepromInv_closed (by simp)
  | command s r o e t h h0 hs =>
    refine eepromInv_closed ?_
    rcases hs with rfl | rfl | rfl
    · exact h0.2.2
    · simp
    · simp

/-- A write that was left over moves the transfer on by a whole packet, or ends it. -/
theorem eepromInv_write {L : Layout} {d d' : Device} (hd : EepromInv L d)
    (hs : ucpWriteTask L d = .ret d') : EepromInv L d' := by
  cases writeTask_ret hs with
  | idle hw => exact hd
  | wrote hw d1 hl hst =>
    intro h0
    have h1 : d.ucp.ucpState = .writeEeprom := by
      rcases hst.state with h | h
      · exact h.symm.trans h0
      · exact absurd (h.symm.trans h0) nofun
    obtain ⟨t, k, ht, hk⟩ := hd h1
    have hf := t.fit L
    rcases writeLoop_packet hl with hi | ⟨ho, hn⟩
    · exact absurd (hi.symm.trans h0) nofun
    · rw [call_ucp] at ho hn
      have hlt : k < t.packets := by
        by_contra hge
        refine hn ?_
        have := hk.le
        rw [UInt16.le_iff_toNat_le, UInt16.toNat_add, hk.offset, hk.ends,
          UInt16.toNat_one]
        omega
      refine ⟨t, k + 1, ?_, hlt, ?_, ?_, fun hp _ => ?_⟩
      · refine (opened_append (d := d) hst.calls fun c hc => ?_).trans ht
        rw [List.mem_singleton.mp hc]
        rfl
      · rw [setUcp_ucp, ho]
        exact (eepromAt_next hk hlt).1
      · rw [setUcp_ucp, hst.readEnd]
        exact hk.ends
      · rw [setUcp_ucp, hst.lockAfterSetPin]
        exact hk.flag hp hlt

theorem opened_calls {d d' : Device} {m : List Call} (h : d'.calls = d.calls ++ m)
    (hm : ∀ c ∈ m, c.isPrint = true ∨ c.isMenu = true) : d'.opened = d.opened := by
  refine opened_append h fun c hc => ?_
  have := hm c hc
  cases c <;> simp_all [Call.isPrint, Call.isMenu, Call.isEeprom]

theorem opened_calm {d d' : Device} (h : Calm d d') : d'.opened = d.opened := by
  obtain ⟨m, hm, hp⟩ := h.calls
  exact opened_calls hm fun c hc => .inl (hp c hc)

theorem eepromInv_button {L : Layout} {b : Button} {d d' : Device} (h : ButtonStep L b d d')
    (hd : EepromInv L d) : EepromInv L d' := by
  obtain ⟨m, hm, hp⟩ := button_calls h
  have ho := opened_calls hm hp
  cases h with
  | quiet h hu | options h0 hb h hu | optLock h0 hb d1 h hf he hk hc hu
  | refused h0 hb hi hp hm d1 h hf he hu | erased h0 hb hi hp d1 h hf he hk hc hu =>
    exact hd.quiet (by rw [hu]) ho
  | lock h0 h hu => exact eepromInv_closed (by simp [hu])
  | back h0 hb h hu => exact eepromInv_closed (by simp [hu])
  | accepted h0 hb hi hp hm d1 d2 h hf he hk hc h' hu => exact eepromInv_closed (by simp [hu])

theorem eepromInv_step {L : Layout} {d d' : Device} {e : Event} (hd : EepromInv L d)
    (hs : step L d e = .ret d') : EepromInv L d' := by
  cases step_ret_cases hs with
  | still h => exact hd.quiet (by rw [h.ucp]) (opened_calm h.calm)
  | poll rq =>
    have h := task_cases L d
    generalize ucpTask L d = d1 at h
    have ho (d1 : Device) (h : d1.calls = d.calls) (l : List UInt8) :
        (d1.call (.reply 2 l)).opened = d.opened :=
      opened_append (m := [.reply 2 l]) (by rw [call_calls, h]) (by simp [Call.isEeprom])
    cases h with
    | same => exact hd.quiet rfl (ho _ rfl _)
    | promote h0 ha => exact hd.quiet rfl (ho _ rfl _)
    | read s r o h0 hs' =>
      refine eepromInv_closed ?_
      rcases hs' with rfl | rfl <;> simp
  | decode data len => exact eepromInv_decode (decode_cases L data len d) hd
  | write => exact eepromInv_write hd hs
  | button b he d1 h hb =>
    exact eepromInv_button hb (hd.quiet (by rw [h.ucp]) (opened_calm h.calm))
  | calibrate meas hf hk hc hu =>
    exact hd.quiet (by rw [hu]) (opened_append (m := []) (by simp [hc]) (by simp))

theorem eepromInv_powerOn {L : Layout} {flash eeprom ram : Mem} {d : Device}
    (h : powerOn L flash eeprom ram = .ret d) : EepromInv L d := by
  obtain ⟨c, v, rfl⟩ := powerOn_ret h
  exact eepromInv_closed nofun

theorem reachable_eepromInv {L : Layout} {flash eeprom ram : Mem} {d : Device}
    (h : Reachable L flash eeprom ram d) : EepromInv L d := by
  obtain ⟨evs, hr⟩ := h
  exact inv_ret (fun _ _ _ hd hs => eepromInv_step hd hs) (fun _ hd => eepromInv_powerOn hd) hr

/-- A packet, a request of the host or the write they defer. -/
def Event.isUsb : Event → Bool
  | .writeTask | .setup _ | .write .. => true
  | _ => false

theorem Call.isEeprom_print (c : Call) (h : c.isPrint = true) : c.isEeprom = false := by
  cases c <;> first | rfl | cases h

theorem Call.isEeprom_menu (c : Call) (h : c.isMenu = true) : c.isEeprom = false := by
  cases c <;> first | rfl | cases h

/-- Only a packet makes a call of a transfer to EEPROM. -/
theorem step_calls {L : Layout} {d d' : Device} {e : Event} (h : StepCase L d e d') :
    (∃ m, d'.calls = d.calls ++ m ∧ ∀ c ∈ m, c.isEeprom = false) ∨
      ∃ data len, e = .write data len ∧ d' = ucpDecode L data len d := by
  have hprint {d1 : Device} (h : Calm d d1) :
      ∃ m, d1.calls = d.calls ++ m ∧ ∀ c ∈ m, c.isEeprom = false := by
    obtain ⟨m, hm, hp⟩ := h.calls
    exact ⟨m, hm, fun c hc => c.isEeprom_print (hp c hc)⟩
  cases h with
  | still h => exact .inl (hprint h.calm)
  | poll rq =>
    obtain ⟨u, hu⟩ := task_core L d
    rw [hu]
    exact .inl ⟨[.reply 2 _], rfl, by simp [Call.isEeprom]⟩
  | decode data len => exact .inr ⟨data, len, rfl, rfl⟩
  | write =>
    cases hw : d.ucp.usbWrite with
    | false =>
      rw [writeTask_none L d hw]
      exact .inl ⟨[], (List.append_nil _).symm, by simp⟩
    | true => exact .inl ⟨_, writeTask_calls L hw, by simp [Call.isEeprom]⟩
  | button b he d1 h hb =>
    obtain ⟨m, hm, hp⟩ := hprint h.calm
    obtain ⟨l, hl, hq⟩ := button_calls hb
    refine .inl ⟨m ++ l, by rw [hl, hm, List.append_assoc], fun c hc => ?_⟩
    rcases List.mem_append.mp hc with hc | hc
    · exact hp c hc
    · rcases hq c hc with hq | hq
      · exact c.isEeprom_print hq
      · exact c.isEeprom_menu hq
  | calibrate meas hf hk hc =>
    exact .inl ⟨[], hc.trans (List.append_nil _).symm, by simp⟩

/-- A packet writes at most one block, at the offset of the transfer. -/
theorem decode_eeprom {L : Layout} {data : Bytes 8} {len : UInt8} {d d' : Device}
    (h : DecodeStep L data len d d') :
    (d'.eeprom = d.eeprom ∧ ∀ a p, .eepromUpdate a p ∉ d.newCalls d') ∨
      d.ucp.ucpState = .writeEeprom ∧ d.ucp.readOffset < d.ucp.readEnd ∧
        (d'.eeprom = d.eeprom.write d.ucp.readOffset 8 fun i => data (Fin.ofNat 8 i)) ∧
        ∀ a p, .eepromUpdate a p ∈ d.newCalls d' → a = d.ucp.readOffset := by
  have hnone {d' : Device} (he : d'.eeprom = d.eeprom) (m : List Call)
      (hc : d'.calls = d.calls ++ m) (hm : ∀ c ∈ m, c.isEeprom = true → c = .setPin ∨ c = .keyboard) :
      d'.eeprom = d.eeprom ∧ ∀ a p, .eepromUpdate a p ∉ d.newCalls d' := by
    refine ⟨he, fun a p h => ?_⟩
    rw [newCalls_eq hc] at h
    rcases hm _ h rfl with hs | hs <;> exact absurd hs nofun
  have hsame {d' : Device} (he : d'.eeprom = d.eeprom) (hc : d'.calls = d.calls) :
      d'.eeprom = d.eeprom ∧ ∀ a p, .eepromUpdate a p ∉ d.newCalls d' :=
    hnone he [] (by rw [hc, List.append_nil]) (by simp)
  have hone (m : List Call) {a : UInt16} {p : Bytes 8}
      (h : .eepromUpdate a p ∈ [.eepromUpdate d.ucp.readOffset data] ++ m)
      (hm : ∀ c ∈ m, c.isEeprom = false) : a = d.ucp.readOffset := by
    rcases List.mem_append.mp h with h | h
    · cases List.mem_singleton.mp h
      rfl
    · exact absurd (hm _ h) (by simp [Call.isEeprom])
  cases h with
  | half h h0 ho he =>
    refine .inr ⟨h0, ho, rfl, fun a p hm => ?_⟩
    rw [newCalls_eq (eepromStored_calls data d)] at hm
    exact hone [] hm (by simp)
  | pinDone h h0 ho he hl =>
    refine .inr ⟨h0, ho, rfl, fun a p hm => ?_⟩
    rw [newCalls_eq (m := [.eepromUpdate d.ucp.readOffset data] ++ [.uifInit])
      (List.append_assoc ..)] at hm
    exact hone [.uifInit] hm (by simp [Call.isEeprom])
  | eepromDone h h0 ho he hl =>
    refine .inr ⟨h0, ho, rfl, fun a p hm => ?_⟩
    have hm : .eepromUpdate a p ∈ d.newCalls (eepromStored data d) := hm
    rw [newCalls_eq (eepromStored_calls data d)] at hm
    exact hone [] hm (by simp)
  | accept => exact .inl (hnone rfl [.accept data] rfl (by simp [Call.isEeprom]))
  | openWrite => exact .inl (hnone rfl [.openWrite] rfl (by simp [Call.isEeprom]))
  | setPin => exact .inl (hnone rfl [.setPin] rfl (by simp))
  | keyboard => exact .inl (hnone rfl [.keyboard] rfl (by simp))
  | size | locked | reject | eepromRefused | command => exact .inl (hsame rfl rfl)

namespace EepromTransfer

def Within (L : Layout) (t : EepromTransfer) (a n : ℕ) : Prop :=
  (t.base L).toNat ≤ a ∧ a + n ≤ (t.base L).toNat + 8 * t.packets

end EepromTransfer

/-- Each `eeprom_update_block` of the step is inside the region of the transfer in progress, and
on the part of the host nothing else of EEPROM changes. -/
structure KeepsEeprom (L : Layout) (d : Device) (e : Event) : Prop where
  inside : ∀ a p, .eepromUpdate a p ∈ d.newCalls (step L d e).state →
    ∃ t, d.transfer = some t ∧ t.Within L a.toNat 8
  others : e.isUsb = true → ∀ x, (step L d e).state.eeprom x ≠ d.eeprom x →
    ∃ t, d.transfer = some t ∧ t.Within L x.toNat 1

theorem step_eeprom {L : Layout} {d : Device} {e : Event} (he : e.isUsb = true)
    (hw : ∀ data len, e ≠ .write data len) : (step L d e).state.eeprom = d.eeprom := by
  cases e with
  | writeTask =>
    change (ucpWriteTask L d).state.eeprom = d.eeprom
    have hs := writeTask_step L d
    generalize (ucpWriteTask L d).state = d' at hs ⊢
    cases hs with
    | idle hw => rfl
    | wrote hw d1 h w => exact h.eeprom
  | setup rq =>
    have h := setup_cases L rq d
    change (usbFunctionSetup L rq d).1.eeprom = d.eeprom
    generalize (usbFunctionSetup L rq d).1 = d' at h
    cases h with
    | still h => exact h.calm.eeprom
    | poll rq =>
      obtain ⟨u, hu⟩ := task_core L d
      rw [hu]
      rfl
    | button b he => exact absurd he nofun
  | write data len => exact absurd rfl (hw data len)
  | _ => exact absurd he nofun

theorem keepsEeprom_step {L : Layout} {d : Device} (hd : EepromInv L d) (e : Event) :
    KeepsEeprom L d e := by
  by_cases hw : ∃ data len, e = .write data len
  · obtain ⟨data, len, rfl⟩ := hw
    rcases decode_eeprom (decode_cases L data len d) with ⟨he, hc⟩ | ⟨h0, ho, he, hc⟩
    · exact ⟨fun a p hm => absurd hm (hc a p), fun _ x hx => absurd (congrFun he x) hx⟩
    · obtain ⟨t, k, ht, hk⟩ := hd h0
      have hlt := eepromAt_lt hk ho
      have hoff := hk.offset
      have hf := t.fit L
      have htr : d.transfer = some t := (if_pos h0).trans ht
      refine ⟨fun a p hm => ⟨t, htr, ?_⟩, fun _ x hx => ⟨t, htr, ?_⟩⟩
      · rw [hc a p hm]
        unfold EepromTransfer.Within
        omega
      · have hin : (x - d.ucp.readOffset).toNat < 8 := by
          by_contra hn
          exact hx ((congrFun he x).trans (Mem.write_out (not_lt.mp hn)))
        have hxlt := x.toNat_lt
        rw [Mem.toNat_sub] at hin
        unfold EepromTransfer.Within
        omega
  · have hw (data : Bytes 8) (len : UInt8) : e ≠ .write data len := fun h => hw ⟨data, len, h⟩
    refine ⟨fun a p hm => ?_, fun he x hx => absurd (congrFun (step_eeprom he hw) x) hx⟩
    rcases step_calls (step_cases L d e) with ⟨m, hc, hp⟩ | ⟨data, len, h, -⟩
    · rw [newCalls_eq hc] at hm
      exact absurd (hp _ hm) (by simp [Call.isEeprom])
    · exact absurd h (hw data len)

/-- In every run from power-on, the blocks that packets write to EEPROM are those of the
transfer in progress. -/
theorem keepsEeprom_run (L : Layout) (flash eeprom ram : Mem) (evs : List Event) :
    EachStep (step L) (KeepsEeprom L) (powerOn L flash eeprom ram) evs := by
  have h : EachStep (step L) (fun _ _ => True) (powerOn L flash eeprom ram) evs :=
    eachStep_true _ evs
  exact eachStep_of_inv (I := EepromInv L)
    (fun _ e hd _ => ⟨keepsEeprom_step hd e, fun _ hs => eepromInv_step hd hs⟩)
    (fun _ hd => eepromInv_powerOn hd) h

def Event.completesEeprom (d : Device) : Event → Prop
  | .write _ len => len = 8 ∧ d.ucp.ucpState = .writeEeprom ∧ d.ucp.readOffset < d.ucp.readEnd ∧
      d.ucp.readEnd ≤ d.ucp.readOffset + 8
  | _ => False

/-- A packet calls `UIF_Init` if and only if it completes a SET_PIN transfer. -/
def LocksAfterPin (L : Layout) (d : Device) : Event → Prop
  | .write data len => .uifInit ∈ d.newCalls (ucpDecode L data len d) ↔
      (Event.write data len).completesEeprom d ∧ d.transfer = some .setPin
  | _ => True

/-- The packet completes a KEYBOARD transfer with the flag of an earlier SET_PIN still set. -/
def Event.locksAfterKeyboard (d : Device) (e : Event) : Prop :=
  e.completesEeprom d ∧ d.transfer = some .keyboard ∧ d.ucp.lockAfterSetPin = true

instance (d : Device) : (e : Event) → Decidable (e.completesEeprom d)
  | .write _ _ => inferInstanceAs (Decidable (_ ∧ _ ∧ _ ∧ _))
  | .setup _ | .writeTask | .printUpdate | .ledTask | .schTask .. | .button _ | .usbReset _
  | .background _ => .isFalse id

instance (d : Device) (e : Event) : Decidable (e.locksAfterKeyboard d) :=
  inferInstanceAs (Decidable (_ ∧ _ ∧ _))

theorem uifInit_decode {L : Layout} (data : Bytes 8) (len : UInt8) (d : Device) :
    .uifInit ∈ d.newCalls (ucpDecode L data len d) ↔
      (Event.write data len).completesEeprom d ∧ d.ucp.lockAfterSetPin = true := by
  have h := decode_cases L data len d
  generalize ucpDecode L data len d = d' at h
  have hno {d' : Device} (m : List Call) (hc : d'.calls = d.calls ++ m) (hm : .uifInit ∉ m)
      (hn : ¬((Event.write data len).completesEeprom d ∧ d.ucp.lockAfterSetPin = true)) :
      .uifInit ∈ d.newCalls d' ↔
        (Event.write data len).completesEeprom d ∧ d.ucp.lockAfterSetPin = true := by
    rw [newCalls_eq hc]
    exact iff_of_false hm hn
  have hsame {d' : Device} (hc : d'.calls = d.calls) (h0 : len ≠ 8 ∨ d.ucp.ucpState ≠ .writeEeprom) :
      .uifInit ∈ d.newCalls d' ↔
        (Event.write data len).completesEeprom d ∧ d.ucp.lockAfterSetPin = true :=
    hno [] (by rw [hc, List.append_nil]) List.not_mem_nil
      fun hn => h0.elim (fun h => h hn.1.1) fun h => h hn.1.2.1
  cases h with
  | pinDone h h0 ho he hl =>
    rw [newCalls_eq (m := [.eepromUpdate d.ucp.readOffset data] ++ [.uifInit])
      (List.append_assoc ..)]
    exact iff_of_true (by simp) ⟨⟨h, h0, ho, he⟩, hl⟩
  | eepromDone h h0 ho he hl =>
    exact hno _ (eepromStored_calls data d) (by simp) fun hn => by simp [hl] at hn
  | half h h0 ho he =>
    exact hno _ (eepromStored_calls data d) (by simp) fun hn => he hn.1.2.2.2
  | eepromRefused h h0 ho =>
    exact hno [] (List.append_nil _).symm List.not_mem_nil fun hn => ho hn.1.2.2.1
  | size h => exact hsame rfl (.inl h)
  | locked h h0 => exact hsame rfl (.inr (by simp [h0]))
  | reject h h0 => exact hsame rfl (.inr (by simp [h0]))
  | command s r o e t h h0 => exact hsame rfl (.inr h0.2.2)
  | accept h h0 => exact hno [.accept data] rfl (by simp) fun hn => absurd hn.1.2.1 (by simp [h0])
  | openWrite h h0 => exact hno [.openWrite] rfl (by simp) fun hn => absurd hn.1.2.1 (by simp [h0])
  | setPin h h0 => exact hno [.setPin] rfl (by simp) fun hn => h0.2.2 hn.1.2.1
  | keyboard h h0 => exact hno [.keyboard] rfl (by simp) fun hn => h0.2.2 hn.1.2.1

theorem locksAfterPin_iff {L : Layout} {d : Device} (hd : EepromInv L d) (e : Event) :
    LocksAfterPin L d e ↔ ¬e.locksAfterKeyboard d := by
  cases e with
  | write data len =>
    unfold LocksAfterPin Event.locksAfterKeyboard
    dsimp only
    rw [uifInit_decode]
    constructor
    · rintro h ⟨hc, ht, hl⟩
      exact absurd ((h.mp ⟨hc, hl⟩).2.symm.trans ht) nofun
    · intro h
      refine and_congr_right fun hc => ?_
      obtain ⟨-, h0, ho, -⟩ := id hc
      obtain ⟨t, k, ht, hk⟩ := hd h0
      have htr : d.transfer = some t := (if_pos h0).trans ht
      cases t with
      | setPin => exact iff_of_true (hk.flag rfl (eepromAt_lt hk ho)) htr
      | keyboard => exact iff_of_false (fun hl => h ⟨hc, htr, hl⟩) (by simp [htr])
  | _ => exact iff_of_true trivial fun h => h.1

/-- Along a run from power-on `UCP_Decode` locks after PIN changes only, and after each of them,
if and only if no KEYBOARD transfer is completed with the flag of a SET_PIN still set. -/
theorem locksAfterPin_run_iff (L : Layout) (flash eeprom ram : Mem) (evs : List Event) :
    EachStep (step L) (LocksAfterPin L) (powerOn L flash eeprom ram) evs ↔
      EachStep (step L) (fun d e => ¬e.locksAfterKeyboard d) (powerOn L flash eeprom ram) evs :=
  eachStep_iff (I := EepromInv L) (fun _ e hd => locksAfterPin_iff hd e)
    (fun _ _ _ hd _ hs => eepromInv_step hd hs) (fun _ hd => eepromInv_powerOn hd) evs

/-- SET_PIN, a look into OPTIONS, and KEYBOARD with all packets but one. -/
def abandonedPin : List Event :=
  enterFactoryPin ++ [.write ![7, 0, 0, 0, 0, 0, 0, 0] 8, .button .left, .button .right,
    .write ![9, 0, 0, 0, 0, 0, 0, 0] 8] ++ List.replicate 15 (.write ![1, 2, 3, 4, 5, 6, 7, 8] 8)

/-- The end of the keyboard table locks the device. -/
theorem not_locksAfterPin_keyboard : ¬∀ L flash eeprom ram evs,
    EachStep (step L) (LocksAfterPin L) (powerOn L flash eeprom ram) evs := by
  intro h
  have hr : run (step sampleLayout) sampleBoot abandonedPin = .ret _ :=
    Outcome.eq_ret_of_returns (by decide +kernel)
  refine (locksAfterPin_iff (reachable_eepromInv ⟨_, hr⟩) (.write ![1, 2, 3, 4, 5, 6, 7, 8] 8)).mp ?_
    (by decide +kernel)
  exact eachStep_last (h _ _ _ _ _) hr

end Memtype
