import Memtype.Proofs.Flash
import Memtype.Proofs.Protocol

/-! `UCP_WriteTask`: when the buffer is flushed, and what has reached flash after any
number of bytes of a transfer. -/

namespace Memtype

open Lib

theorem writeLoop_quiet_cons (L : Layout) (b : UInt8) (bs : List UInt8) (d : Device)
    (h : (storeByte b d.ucp).flushDue = false) :
    ucpWriteLoop L (b :: bs) d = ucpWriteLoop L bs (d.setUcp (storeByte b d.ucp)) := by
  rw [ucpWriteLoop]
  dsimp only
  rw [if_neg (by simp [h])]

theorem writeLoop_due_cons (L : Layout) (b : UInt8) (bs : List UInt8) (d : Device)
    (h : (storeByte b d.ucp).flushDue = true) :
    ucpWriteLoop L (b :: bs) d = (flush (d.setUcp (storeByte b d.ucp))).bind fun d =>
      if d.ucp.readEnd ≤ d.ucp.readOffset then crdInit L (d.setUcp { d.ucp with ucpState := .idle })
      else ucpWriteLoop L bs d := by
  rw [ucpWriteLoop]
  dsimp only
  rw [if_pos (by simpa using h)]

theorem flush_ret {d d' : Device} (h : flush d = .ret d') :
    ∃ f, d' = { d with
      flash := f
      ucp := { d.ucp with
        flashWriteAddr := d.ucp.flashWriteAddr + d.ucp.buffIndex.toUInt16, buffIndex := 0 } } := by
  unfold flush at h
  split at h
  · exact absurd h nofun
  · next f _ => cases h; exact ⟨f, rfl⟩

theorem crdInit_ret {L : Layout} {d d' : Device} (h : crdInit L d = .ret d') :
    ∃ c, d' = { d with crd := { d.crd with credential := c } } := by
  obtain ⟨c, hc⟩ := loadCredential_state L 0 d
  unfold crdInit at h
  rw [h, Outcome.state_ret] at hc
  exact ⟨c, hc⟩

def Device.flushed (b : UInt8) (f : Flash) (d : Device) : Device :=
  { d with
    flash := f
    ucp := { storeByte b d.ucp with
      flashWriteAddr := d.ucp.flashWriteAddr + (d.ucp.buffIndex + 1).toUInt16, buffIndex := 0 } }

/-- A byte whose store returns with the buffer flushed ends the transfer, or leaves the rest. -/
theorem writeLoop_due_ret {L : Layout} {b : UInt8} {bs : List UInt8} {d d' : Device}
    (hdue : (storeByte b d.ucp).flushDue = true) (hr : ucpWriteLoop L (b :: bs) d = .ret d') :
    ∃ f, flush (d.setUcp (storeByte b d.ucp)) = .ret (d.flushed b f) ∧
      (crdInit L ((d.flushed b f).setUcp { (d.flushed b f).ucp with ucpState := .idle }) = .ret d' ∨
        ¬d.ucp.readEnd ≤ d.ucp.readOffset + 1 ∧ ucpWriteLoop L bs (d.flushed b f) = .ret d') := by
  rw [writeLoop_due_cons L b bs d hdue] at hr
  cases hf : flush (d.setUcp (storeByte b d.ucp)) with
  | spin d1 =>
    rw [hf] at hr
    cases hr
  | ret d1 =>
    obtain ⟨f, rfl⟩ := flush_ret hf
    rw [hf, Outcome.bind_ret] at hr
    refine ⟨f, rfl, ?_⟩
    split_ifs at hr with he
    · exact .inl hr
    · exact .inr ⟨he, hr⟩

theorem toNat_add_one_mod (x : UInt16) : (x + 1).toNat % 64 = (x.toNat % 64 + 1) % 64 := by
  rw [UInt16.toNat_add, UInt16.toNat_one]
  omega

theorem flushDue_iff (u : Ucp) :
    u.flushDue = true ↔ u.readOffset.toNat % 64 = 0 ∨ u.readEnd.toNat ≤ u.readOffset.toNat := by
  unfold Ucp.flushDue spmPagesize
  rw [decide_eq_true_iff, UInt16.le_iff_toNat_le, ← UInt16.toNat_inj, UInt16.toNat_mod]
  rfl

/-- The buffer never holds more than the bytes since the last multiple of 64. -/
theorem writeLoop_fill {L : Layout} {bs : List UInt8} {d d' : Device}
    (hb : d.ucp.buffIndex.toNat ≤ d.ucp.readOffset.toNat % 64)
    (hr : ucpWriteLoop L bs d = .ret d') :
    d'.ucp.buffIndex.toNat ≤ d'.ucp.readOffset.toNat % 64 := by
  induction bs generalizing d with
  | nil =>
    cases hr
    exact hb
  | cons b bs ih =>
    cases hdue : (storeByte b d.ucp).flushDue with
    | false =>
      rw [writeLoop_quiet_cons L b bs d hdue] at hr
      refine ih ?_ hr
      have hn : ¬((storeByte b d.ucp).readOffset.toNat % 64 = 0) := by
        intro h0
        rw [(flushDue_iff _).mpr (.inl h0)] at hdue
        exact absurd hdue nofun
      have hm := toNat_add_one_mod d.ucp.readOffset
      have hi : (d.ucp.buffIndex + 1).toNat = d.ucp.buffIndex.toNat + 1 := toNat_succ8 (by omega)
      simp only [setUcp_ucp, storeByte] at hn ⊢
      omega
    | true =>
      obtain ⟨f, -, hr | ⟨-, hr⟩⟩ := writeLoop_due_ret hdue hr
      · obtain ⟨c, rfl⟩ := crdInit_ret hr
        exact Nat.zero_le _
      · exact ih (Nat.zero_le _) hr

/-- Whether the buffer is flushed at the `k`-th byte from now. -/
def Ucp.dueAfter (u : Ucp) (k : ℕ) : Bool :=
  Ucp.flushDue { u with readOffset := u.readOffset + UInt16.ofNat k }

theorem storeByte_dueAfter (b : UInt8) (u : Ucp) (k : ℕ) :
    (storeByte b u).dueAfter k = u.dueAfter (k + 1) := by
  unfold Ucp.dueAfter storeByte
  have h : u.readOffset + 1 + UInt16.ofNat k = u.readOffset + UInt16.ofNat (k + 1) := by
    rw [UInt16.ofNat_add, UInt16.add_assoc, UInt16.add_comm 1]
    rfl
  rw [← h]
  rfl

theorem storeByte_flushDue (b : UInt8) (u : Ucp) :
    (storeByte b u).flushDue = u.dueAfter 1 := rfl

/-- While no flush is due the bytes go into the buffer and nothing else happens. -/
theorem writeLoop_quiet {L : Layout} {bs : List UInt8} {d : Device}
    (h : ∀ k < bs.length, d.ucp.dueAfter (k + 1) = false) :
    ∃ t, ucpWriteLoop L bs d = .ret (d.setUcp { d.ucp with
      tempBuff := t, buffIndex := d.ucp.buffIndex + UInt8.ofNat bs.length,
      readOffset := d.ucp.readOffset + UInt16.ofNat bs.length }) := by
  induction bs generalizing d with
  | nil => exact ⟨d.ucp.tempBuff, by simp [ucpWriteLoop, Device.setUcp]⟩
  | cons b bs ih =>
    have h0 : (storeByte b d.ucp).flushDue = false := h 0 (by simp)
    obtain ⟨t, hr⟩ := ih (d := d.setUcp (storeByte b d.ucp)) fun k hk => by
      rw [setUcp_ucp, storeByte_dueAfter]
      exact h (k + 1) (by simpa using hk)
    refine ⟨t, ?_⟩
    rw [writeLoop_quiet_cons L b bs d h0, hr]
    simp only [Device.setUcp, storeByte, List.length_cons]
    rw [UInt16.add_assoc, UInt16.add_comm 1, ← show UInt16.ofNat (bs.length + 1) =
      UInt16.ofNat bs.length + 1 from UInt16.ofNat_add .., UInt8.add_assoc, UInt8.add_comm 1,
      ← show UInt8.ofNat (bs.length + 1) = UInt8.ofNat bs.length + 1 from UInt8.ofNat_add ..]

/-- A write that returns has ended its transfer, or moved `readOffset` by all its bytes
without reaching the end. -/
theorem writeLoop_offset {L : Layout} {bs : List UInt8} {d d' : Device}
    (hr : ucpWriteLoop L bs d = .ret d') : d'.ucp.ucpState = .idle ∨
      d'.ucp.readOffset = d.ucp.readOffset + UInt16.ofNat bs.length ∧
        ∀ k < bs.length, ¬d.ucp.readEnd ≤ d.ucp.readOffset + UInt16.ofNat (k + 1) := by
  induction bs generalizing d with
  | nil =>
    cases hr
    exact .inr ⟨(UInt16.add_zero _).symm, nofun⟩
  | cons b bs ih =>
    have hadd (k : ℕ) : d.ucp.readOffset + 1 + UInt16.ofNat k =
        d.ucp.readOffset + UInt16.ofNat (k + 1) := by
      rw [UInt16.add_assoc, UInt16.add_comm 1, UInt16.ofNat_add]
      rfl
    -- the bytes after the first, from a state with the offset moved by one
    have hstep (d1 : Device) (ho : d1.ucp.readOffset = d.ucp.readOffset + 1)
        (he : d1.ucp.readEnd = d.ucp.readEnd) (hn : ¬d.ucp.readEnd ≤ d.ucp.readOffset + 1)
        (hr : ucpWriteLoop L bs d1 = .ret d') : d'.ucp.ucpState = .idle ∨
          d'.ucp.readOffset = d.ucp.readOffset + UInt16.ofNat (b :: bs).length ∧
            ∀ k < (b :: bs).length, ¬d.ucp.readEnd ≤ d.ucp.readOffset + UInt16.ofNat (k + 1) := by
      rcases ih hr with h | ⟨h1, h2⟩
      · exact .inl h
      · refine .inr ⟨by rw [h1, ho, hadd]; rfl, fun k hk => ?_⟩
        cases k with
        | zero => exact hn
        | succ k =>
          have h := h2 k (by simpa using hk)
          rwa [ho, he, hadd] at h
    cases hdue : (storeByte b d.ucp).flushDue with
    | false =>
      rw [writeLoop_quiet_cons L b bs d hdue] at hr
      refine hstep (d.setUcp (storeByte b d.ucp)) rfl rfl (fun he => ?_) hr
      rw [(flushDue_iff _).mpr (.inr (UInt16.le_iff_toNat_le.mp he))] at hdue
      exact absurd hdue nofun
    | true =>
      obtain ⟨f, -, hr | ⟨he, hr⟩⟩ := writeLoop_due_ret hdue hr
      · obtain ⟨c, rfl⟩ := crdInit_ret hr
        exact .inl rfl
      · exact hstep (d.flushed b f) rfl rfl he hr

/-- A packet that is stored whole, or ends the transfer. -/
theorem writeLoop_packet {L : Layout} {r : Bytes 8} {d d' : Device}
    (hr : ucpWriteLoop L (List.ofFn r) d = .ret d') : d'.ucp.ucpState = .idle ∨
      d'.ucp.readOffset = d.ucp.readOffset + 8 ∧ ¬d.ucp.readEnd ≤ d.ucp.readOffset + 1 := by
  have h := writeLoop_offset hr
  rw [List.length_ofFn] at h
  exact h.imp_right fun h => ⟨h.1, h.2 0 (by decide)⟩

theorem flush_spm (d : Device) : d.flash.spm <+: (flush d).state.flash.spm := by
  have h := flsWriteLoop_spm d.ucp.tempBuff d.ucp.flashWriteAddr d.ucp.buffIndex.toUInt16 65537
    d.flash 0 0
  unfold flush flsWrite
  split
  · next f hf => rwa [hf] at h
  · next f hf => rwa [hf] at h

theorem flush_spm_lt (d : Device) (h : 0 < d.ucp.buffIndex) :
    d.flash.spm.length < (flush d).state.flash.spm.length := by
  have h0 : 0 < d.ucp.buffIndex.toUInt16 := by
    rw [UInt16.lt_iff_toNat_lt]
    rw [UInt8.lt_iff_toNat_lt] at h
    simpa using h
  have h := flsWrite_spm_lt d.ucp.tempBuff d.ucp.flashWriteAddr d.ucp.buffIndex.toUInt16 d.flash h0
  unfold flush
  split
  · next f hf => rwa [hf] at h
  · next f hf => rwa [hf] at h

theorem crdInit_flash (L : Layout) (d : Device) : (crdInit L d).state.flash = d.flash := by
  obtain ⟨c, hc⟩ := loadCredential_state L 0 d
  unfold crdInit
  rw [hc]

theorem writeLoop_spm (L : Layout) (bs : List UInt8) (d : Device) :
    d.flash.spm <+: (ucpWriteLoop L bs d).state.flash.spm := by
  induction bs generalizing d with
  | nil => exact List.prefix_refl _
  | cons b bs ih =>
    cases hdue : (storeByte b d.ucp).flushDue with
    | false =>
      rw [writeLoop_quiet_cons L b bs d hdue]
      exact ih (d.setUcp (storeByte b d.ucp))
    | true =>
      rw [writeLoop_due_cons L b bs d hdue]
      refine Outcome.state_bind (P := fun d' : Device => d.flash.spm <+: d'.flash.spm)
        (flush_spm (d.setUcp (storeByte b d.ucp))) fun d1 h1 => ?_
      split_ifs
      · rw [crdInit_flash]
        exact h1
      · exact h1.trans (ih d1)

/-- A flush that is due within the bytes left erases a page. -/
theorem writeLoop_spm_lt {L : Layout} {bs : List UInt8} {d : Device} {k : ℕ} (hk : k < bs.length)
    (hdue : d.ucp.dueAfter (k + 1) = true) (hb : d.ucp.buffIndex.toNat + bs.length < 256) :
    d.flash.spm.length < (ucpWriteLoop L bs d).state.flash.spm.length := by
  induction bs generalizing d k with
  | nil => simp at hk
  | cons b bs ih =>
    have hi : (storeByte b d.ucp).buffIndex.toNat = d.ucp.buffIndex.toNat + 1 := by
      rw [List.length_cons] at hb
      exact toNat_succ8 (by omega)
    cases hnow : (storeByte b d.ucp).flushDue with
    | false =>
      rw [writeLoop_quiet_cons L b bs d hnow]
      cases k with
      | zero =>
        rw [storeByte_flushDue, hdue] at hnow
        exact absurd hnow nofun
      | succ k =>
        refine ih (d := d.setUcp (storeByte b d.ucp)) (k := k) (by simpa using hk) ?_ ?_
        · rw [setUcp_ucp, storeByte_dueAfter]
          exact hdue
        · rw [setUcp_ucp, hi]
          rw [List.length_cons] at hb
          omega
    | true =>
      rw [writeLoop_due_cons L b bs d hnow]
      refine Outcome.state_bind (P := fun d' : Device => d.flash.spm.length < d'.flash.spm.length)
        (flush_spm_lt (d.setUcp (storeByte b d.ucp)) ?_) fun d1 h1 => ?_
      · rw [UInt8.lt_iff_toNat_lt, setUcp_ucp, hi]
        exact Nat.succ_pos _
      · split_ifs
        · rw [crdInit_flash]
          exact h1
        · exact h1.trans_le (writeLoop_spm L bs d1).length_le

end Memtype
