import Memtype.Proofs.Buffer
import Memtype.Proofs.Transfer

/-! USB writes and the credential store. `UCP_Decode` opens a transfer for whatever range
a WRITE names; only when the range lies in `credentials` do the writes. -/

namespace Memtype

open Lib

/-- A WRITE of a range whose start or end leaves `credentials`. -/
def Event.outOfStore : Event → Bool
  | .write data len => len = 8 ∧ data 0 = ucpCmdWrite ∧
      (maxCredFlashSize ≤ (word data 1 2).toNat ∨
        maxCredFlashSize < (word data 1 2).toNat + (word data 3 4).toNat)
  | _ => false

def OutsideKept (L : Layout) (m : Mem) (d : Device) : Prop :=
  ∀ a, maxCredFlashSize ≤ (a - L.credentials).toNat → d.flash.mem a = m a

theorem OutsideKept.of_eq {L : Layout} {m : Mem} {d d' : Device} (h : OutsideKept L m d)
    (hf : d'.flash = d.flash) : OutsideKept L m d' := by
  unfold OutsideKept
  rw [hf]
  exact h

/-- A WRITE command that would be carried out as it stands. -/
def Event.opensOutside (d : Device) (e : Event) : Prop :=
  d.ucp.ucpState = .idle ∧ e.outOfStore = true

instance (d : Device) (e : Event) : Decidable (e.opensOutside d) :=
  inferInstanceAs (Decidable (_ ∧ _))

/-- While the protocol is `WRITTING` there is a transfer inside the store, with bytes left to
come if a packet is pending. -/
structure StoreInv (L : Layout) (m : Mem) (d : Device) : Prop where
  outside : OutsideKept L m d
  pending : PendingInv d.ucp
  transfer : d.ucp.ucpState = .writting → ∃ m' off n k p, Transfer L m' off n k p d ∧
    (d.ucp.pending = true → k < n)

section

variable {L : Layout} {m : Mem} {d : Device}

theorem storeInv_decode {data : Bytes 8} {len : UInt8} {d' : Device}
    (h : DecodeStep L data len d d') (hd : StoreInv L m d)
    (hg : ¬(Event.write data len).opensOutside d) : StoreInv L m d' := by
  have hi := pendingInv_decode h hd.pending
  have hs (hf : d'.flash = d.flash) (hn : d'.ucp.ucpState ≠ .writting) : StoreInv L m d' :=
    ⟨hd.outside.of_eq hf, hi, fun hw => absurd hw hn⟩
  -- a refused packet leaves the transfer as it was
  have ht (hf : d'.flash = d.flash) (hw : d'.ucp.ucpState = d.ucp.ucpState)
      (hp : d'.ucp.pending = d.ucp.pending)
      (hr : ∀ m' off n k p, Transfer L m' off n k p d → Transfer L m' off n k p d') :
      StoreInv L m d' := by
    refine ⟨hd.outside.of_eq hf, hi, fun h0 => ?_⟩
    rw [hw] at h0
    obtain ⟨m', off, n, k, p, ht, hk⟩ := hd.transfer h0
    exact ⟨m', off, n, k, p, hr _ _ _ _ _ ht, by rwa [hp]⟩
  cases h with
  | size h => exact ht rfl rfl rfl fun _ _ _ _ _ ht => ht.of_eq rfl rfl rfl rfl rfl rfl
  | locked h h0 => exact ht rfl rfl rfl fun _ _ _ _ _ ht => ht.of_eq rfl rfl rfl rfl rfl rfl
  | accept h h0 hw ho =>
    refine ⟨hd.outside, hi, fun _ => ?_⟩
    obtain ⟨m', off, n, k, p, ht, -⟩ := hd.transfer h0
    exact ⟨m', off, n, k, p, ht.of_eq rfl rfl rfl rfl rfl rfl, fun _ => ht.readOffset_lt.mp ho⟩
  | openWrite h h0 hc =>
    have hin : (word data 1 2).toNat + (word data 3 4).toNat ≤ maxCredFlashSize := by
      by_contra hout
      exact hg ⟨h0, by simp [Event.outOfStore, h, hc, not_le.mp hout]⟩
    have hsum : (word data 1 2 + word data 3 4).toNat =
        (word data 1 2).toNat + (word data 3 4).toNat := by
      rw [UInt16.toNat_add]
      unfold maxCredFlashSize at hin
      omega
    refine ⟨hd.outside, hi, fun _ => ⟨d.flash.mem, _, _, 0, fun _ => 0,
      Transfer.opened hin rfl hsum rfl rfl rfl rfl, fun hp => ?_⟩⟩
    exact absurd hp (Ucp.not_pending.mpr (hd.pending.none (by simp [h0])))
  | command s r o e t h h0 hs' =>
    refine hs rfl fun hw => ?_
    rcases hs' with rfl | rfl | rfl
    · exact h0.2.1 hw
    · exact absurd hw nofun
    · exact absurd hw nofun
  | half h h0 => exact hs rfl fun hw => absurd (h0.symm.trans hw) nofun
  | pinDone h h0 => exact hs rfl fun hw => absurd (h0.symm.trans hw) nofun
  | _ => exact hs rfl nofun

theorem storeInv_task (hd : StoreInv L m d) : StoreInv L m (ucpTask L d) := by
  have h := task_cases L d
  generalize ucpTask L d = d' at h
  have hi := pendingInv_task h hd.pending
  cases h with
  | same => exact hd
  | promote h0 ha =>
    refine ⟨hd.outside, hi, fun _ => ?_⟩
    obtain ⟨m', off, n, k, p, ht, hk⟩ := hd.transfer h0
    exact ⟨m', off, n, k, p, ht.of_eq rfl rfl rfl rfl rfl rfl, fun _ => hk (by simp [Ucp.pending, ha])⟩
  | read s r o h0 hs =>
    refine ⟨hd.outside, hi, fun hw => ?_⟩
    rcases hs with rfl | rfl <;> simp at hw

/-- The deferred write of whatever packet is pending stays in the store. -/
theorem storeInv_write (hd : StoreInv L m d) : OutsideKept L m (ucpWriteTask L d).state ∧
    ∀ d', ucpWriteTask L d = .ret d' → StoreInv L m d' := by
  cases hw : d.ucp.usbWrite with
  | false =>
    rw [writeTask_none L d hw]
    refine ⟨hd.outside, fun d' hs => ?_⟩
    cases hs
    exact hd
  | true =>
    have hp : d.ucp.pending = true := by simp [Ucp.pending, hw]
    have h0 := hd.pending.writting hp
    obtain ⟨m', off, n, k, p, ht, hk⟩ := hd.transfer h0
    have hm (a : UInt16) (ha : maxCredFlashSize ≤ (a - L.credentials).toNat) : m' a = m a :=
      (ht.outside ha).symm.trans (hd.outside a ha)
    obtain ⟨q, hq, ht'⟩ := ht.splice d.ucp.customReport
    rcases ht'.writeTask (hk hp) hw hq with ⟨hlt, d', hr, hd', hst⟩ | ⟨-, d', hr, hmem⟩
    · have hout : OutsideKept L m d' := fun a ha => (hd'.outside ha).trans (hm a ha)
      have hi := pendingInv_write hr hd.pending
      rw [hr]
      refine ⟨hout, fun d1 hs => ?_⟩
      cases hs
      exact ⟨hout, hi, fun _ => ⟨m', off, n, k + 8, q, hd', fun _ => hlt⟩⟩
    · have hout : OutsideKept L m d' := fun a ha => by
        have hle := ht.le
        have hfit := ht.fit
        rw [hmem, Mem.write_region m' _ hfit ha, hm a ha]
      have hc : (crdInit L (d'.setUcp { d'.ucp with ucpState := .idle })).state.flash = d'.flash :=
        crdInit_flash L _
      cases ho : crdInit L (d'.setUcp { d'.ucp with ucpState := .idle }) with
      | spin d1 =>
        rw [ho] at hc hr
        rw [hr, Outcome.bind_spin]
        exact ⟨hout.of_eq hc, fun d2 hs => by simp at hs⟩
      | ret d1 =>
        rw [ho] at hc hr
        have hi := pendingInv_write hr hd.pending
        rw [hr, Outcome.bind_ret]
        refine ⟨hout.of_eq hc, fun d2 hs => ?_⟩
        cases hs
        obtain ⟨c, hd1⟩ := crdInit_ret ho
        refine ⟨hout.of_eq hc, hi, fun hw => ?_⟩
        simp [hd1] at hw

theorem storeInv_step {e : Event} (hd : StoreInv L m d)
    (hg : d.ucp.pending = true → ¬e.switchesUcp L d) (ho : ¬e.opensOutside d) :
    OutsideKept L m (step L d e).state ∧ ∀ d', step L d e = .ret d' → StoreInv L m d' := by
  refine ⟨?_, fun d' hs => ?_⟩
  · have hc := step_cases L d e
    generalize (step L d e).state = d' at hc
    cases hc with
    | still h => exact hd.outside.of_eq h.calm.flash
    | poll rq => exact (storeInv_task hd).outside
    | decode data len => exact (storeInv_decode (decode_cases L data len d) hd ho).outside
    | write => exact (storeInv_write hd).1
    | button b he d1 h hb => exact hd.outside.of_eq ((button_flash hb).trans h.calm.flash)
    | calibrate meas hf hk hc hu => exact hd.outside.of_eq hf
  · have hi := pendingInv_step hd.pending hg hs
    have hq (d' : Device) (hf : d'.flash = d.flash) (hu : d'.ucp = d.ucp) : StoreInv L m d' := by
      refine ⟨hd.outside.of_eq hf, by rw [hu]; exact hd.pending, fun hw => ?_⟩
      rw [hu] at hw
      obtain ⟨m', off, n, k, p, ht, hk⟩ := hd.transfer hw
      refine ⟨m', off, n, k, p, ?_, by rwa [hu]⟩
      exact ht.of_eq (by rw [hf]) (by rw [hu]) (by rw [hu]) (by rw [hu]) (by rw [hu]) (by rw [hu])
    cases step_ret_cases hs with
    | still h => exact hq d' h.calm.flash h.ucp
    | poll rq =>
      obtain ⟨h1, h2, h3⟩ := storeInv_task hd
      refine ⟨h1, h2, fun hw => ?_⟩
      obtain ⟨m', off, n, k, p, ht, hk⟩ := h3 hw
      exact ⟨m', off, n, k, p, ht.of_eq rfl rfl rfl rfl rfl rfl, hk⟩
    | decode data len => exact storeInv_decode (decode_cases L data len d) hd ho
    | write => exact (storeInv_write hd).2 _ hs
    | button b he d1 h hb =>
      have hf := (button_flash hb).trans h.calm.flash
      rcases button_ucp hb with hu | ⟨-, s, hs', hu⟩
      · exact hq _ hf (hu.trans h.ucp)
      · refine ⟨hd.outside.of_eq hf, hi, fun hw => ?_⟩
        rw [hu] at hw
        exact absurd hw hs'
    | calibrate meas hf hk hc hu => exact hq d' hf hu

/-- A WRITE command in state `IDLE` is carried out whatever it names. -/
theorem opensOutside_writting {e : Event} (h : e.opensOutside d) :
    (step L d e).state.ucp.ucpState = .writting := by
  obtain ⟨h0, hw⟩ := h
  cases e with
  | write data len =>
    obtain ⟨hl, hc, -⟩ : len = 8 ∧ data 0 = ucpCmdWrite ∧ _ := by simpa [Event.outOfStore] using hw
    subst hl
    exact congrArg (fun d => d.ucp.ucpState) (decode_openWrite L h0 hc)
  | _ => exact absurd hw nofun

end

theorem storeInv_powerOn {L : Layout} {flash eeprom ram : Mem} {d : Device}
    (h : powerOn L flash eeprom ram = .ret d) : StoreInv L flash d := by
  obtain ⟨c, v, rfl⟩ := powerOn_ret h
  exact ⟨fun a _ => rfl, pendingInv_none (by simp [Ucp.pending]), nofun⟩

/-- As long as the menu leaves the protocol alone while data is pending, writes stay in the
store and WRITE commands out of it are refused exactly when there are no such commands. -/
theorem storeKept_iff (L : Layout) (flash eeprom ram : Mem) (evs : List Event)
    (hg : EachStep (step L) (fun d e => d.ucp.pending = true → ¬e.switchesUcp L d)
      (powerOn L flash eeprom ram) evs) :
    (Always (step L) (OutsideKept L flash) (powerOn L flash eeprom ram) evs ∧
      EachStep (step L) (fun d e => e.opensOutside d → (step L d e).state.ucp.ucpState ≠ .writting)
        (powerOn L flash eeprom ram) evs) ↔
    EachStep (step L) (fun d e => ¬e.opensOutside d) (powerOn L flash eeprom ram) evs := by
  constructor
  · intro h
    exact h.2.mono fun d e hr ho => hr ho (opensOutside_writting ho)
  · intro h
    refine ⟨?_, h.mono fun d e hn ho => absurd ho hn⟩
    exact always_of_inv (I := StoreInv L flash) (fun d hd => hd.outside)
      (fun d e hd hs => storeInv_step hd hs.1 hs.2) (fun d hd => storeInv_powerOn hd) (hg.and h)

/-- `sampleWrite` stays in the store. -/
theorem storeKept_sampleWrite :
    Always (step sampleLayout) (OutsideKept sampleLayout fun _ => 0) sampleBoot
      (enterFactoryPin ++ sampleWrite) :=
  ((storeKept_iff sampleLayout (fun _ => 0) (factoryEeprom sampleLayout) (fun _ => 0)
    (enterFactoryPin ++ sampleWrite) (by decide +kernel)).mpr (by decide +kernel)).1

/-- WRITE of 8 bytes to offset 2048, and a packet: the bytes behind the store are overwritten. -/
theorem not_storeKept_behind : ¬∀ L flash eeprom ram evs,
    EachStep (step L) (fun d e => d.ucp.pending = true → ¬e.switchesUcp L d)
      (powerOn L flash eeprom ram) evs →
    Always (step L) (OutsideKept L flash) (powerOn L flash eeprom ram) evs := by
  intro h
  have hd := always_state (by decide +kernel) (h sampleLayout (fun _ => 0)
    (factoryEeprom sampleLayout) (fun _ => 0) (enterFactoryPin ++
      [.write ![3, 0, 8, 8, 0, 0, 0, 0] 8, .write ![1, 2, 3, 4, 5, 6, 7, 8] 8, .getReport 2,
        .writeTask]) (by decide +kernel))
  exact absurd (hd 0x1800 (by decide)) (by decide +kernel)

end Memtype
