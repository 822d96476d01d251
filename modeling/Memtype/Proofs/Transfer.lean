import Memtype.Proofs.Deferred

/-! A write transfer: after `k` of its `n` bytes, those before the buffer are in flash
from `off` on and the buffer holds the rest. Where the 8-byte packets, the flushes and
the pages of flash end does not matter. -/

namespace Memtype

open Lib

/-- `k` of the `n` bytes `p` of a transfer to `off` have been stored over the flash `m`:
the last of them are in the buffer, which reaches back no further than a multiple of 64. -/
structure Stored (L : Layout) (m : Mem) (off n k : ℕ) (p : ℕ → UInt8) (d : Device) : Prop where
  fit : off + n ≤ maxCredFlashSize
  le : k ≤ n
  offset : d.ucp.readOffset.toNat = off + k
  readEnd : d.ucp.readEnd.toNat = off + n
  index : d.ucp.buffIndex.toNat ≤ k
  small : d.ucp.buffIndex.toNat ≤ (off + k + 63) % 64 + 1
  addr : d.ucp.flashWriteAddr =
    L.credentials + UInt16.ofNat off + UInt16.ofNat (k - d.ucp.buffIndex.toNat)
  buff : ∀ j < d.ucp.buffIndex.toNat, d.ucp.tempBuff j = p (k - d.ucp.buffIndex.toNat + j)
  mem : d.flash.mem =
    m.write (L.credentials + UInt16.ofNat off) (k - d.ucp.buffIndex.toNat) p

/-- Between two packets: the buffer is empty at a multiple of 64. -/
structure Transfer (L : Layout) (m : Mem) (off n k : ℕ) (p : ℕ → UInt8) (d : Device) : Prop
    extends Stored L m off n k p d where
  aligned : d.ucp.buffIndex.toNat ≤ (off + k) % 64

section

variable {L : Layout} {m : Mem} {off n k : ℕ} {p q : ℕ → UInt8} {d : Device}

namespace Stored

/-- Only the bytes stored so far matter. -/
theorem congr (h : Stored L m off n k p d) (hq : ∀ j < k, p j = q j) :
    Stored L m off n k q d := by
  have hi := h.index
  refine { h with buff := fun j hj => ?_, mem := ?_ }
  · rw [h.buff j hj, hq _ (by omega)]
  · rw [h.mem]
    exact Mem.write_congr _ _ fun j hj => hq j (by omega)

/-- Outside the store flash is as it was. -/
theorem outside (h : Stored L m off n k p d) {a : UInt16}
    (ha : maxCredFlashSize ≤ (a - L.credentials).toNat) : d.flash.mem a = m a := by
  have hle := h.le
  have hfit := h.fit
  rw [h.mem]
  exact Mem.write_region m p (by omega) ha

/-- A buffer that is flushed leaves all the bytes so far in flash. -/
theorem flush (h : Stored L m off n k p d) : ∃ d', Memtype.flush d = .ret d' ∧
    Transfer L m off n k p d' ∧ d'.flash.mem = m.write (L.credentials + UInt16.ofNat off) k p ∧
    d'.ucp.ucpState = d.ucp.ucpState := by
  have hi := h.index
  have hs := h.small
  have hle := h.le
  have hfit := h.fit
  unfold maxCredFlashSize at hfit
  have hsize : d.ucp.buffIndex.toUInt16.toNat = d.ucp.buffIndex.toNat := by simp
  obtain ⟨f, hf, hmem⟩ := flsWrite_spec d.ucp.tempBuff d.ucp.flashWriteAddr
    d.ucp.buffIndex.toUInt16 d.flash (by omega)
  have hall : f.mem = m.write (L.credentials + UInt16.ofNat off) k p := by
    rw [hmem, hsize, h.mem, h.addr, Mem.write_append _ _ _ _ _ _ (by omega),
      show k - d.ucp.buffIndex.toNat + d.ucp.buffIndex.toNat = k by omega]
    refine Mem.write_congr _ _ fun j hj => ?_
    split_ifs with hjk
    · rfl
    · rw [h.buff _ (by omega)]
      congr 1
      omega
  refine ⟨{ d with flash := f, ucp := { d.ucp with
    flashWriteAddr := d.ucp.flashWriteAddr + d.ucp.buffIndex.toUInt16, buffIndex := 0 } },
    by unfold Memtype.flush; rw [hf], ?_, hall, rfl⟩
  have hidx : (k - d.ucp.buffIndex.toNat) + d.ucp.buffIndex.toNat = k := by omega
  refine ⟨⟨h.fit, h.le, h.offset, h.readEnd, Nat.zero_le _, Nat.zero_le _, ?_,
    fun j hj => absurd hj (Nat.not_lt_zero j), hall⟩, Nat.zero_le _⟩
  show d.ucp.flashWriteAddr + d.ucp.buffIndex.toUInt16 = _
  rw [h.addr, UInt16.add_assoc, ← UInt16.ofNat_uInt8ToNat, ← UInt16.ofNat_add, hidx]
  rfl

end Stored

namespace Transfer

theorem congr (h : Transfer L m off n k p d) (hq : ∀ j < k, p j = q j) :
    Transfer L m off n k q d := ⟨h.toStored.congr hq, h.aligned⟩

/-- The bytes of the transfer from here on can be taken to be those of any packet. -/
theorem splice (h : Transfer L m off n k p d) (r : Bytes 8) :
    ∃ q, (∀ i : Fin 8, r i = q (k + i)) ∧ Transfer L m off n k q d := by
  refine ⟨fun i => if i < k then p i else r (Fin.ofNat 8 (i - k)), fun i => ?_,
    h.congr fun j hj => (if_pos hj).symm⟩
  have hi : Fin.ofNat 8 (k + i - k) = i := by
    rw [Nat.add_sub_cancel_left]
    exact Fin.ofNat_val_eq_self i
  dsimp only
  rw [if_neg (by omega), hi]

/-- The transfer reads nothing but its own variables. -/
theorem of_eq {d' : Device} (h : Transfer L m off n k p d) (hf : d'.flash.mem = d.flash.mem)
    (ho : d'.ucp.readOffset = d.ucp.readOffset) (he : d'.ucp.readEnd = d.ucp.readEnd)
    (hi : d'.ucp.buffIndex = d.ucp.buffIndex) (ht : d'.ucp.tempBuff = d.ucp.tempBuff)
    (ha : d'.ucp.flashWriteAddr = d.ucp.flashWriteAddr) : Transfer L m off n k p d' where
  fit := h.fit
  le := h.le
  offset := by rw [ho, h.offset]
  readEnd := by rw [he, h.readEnd]
  index := by rw [hi]; exact h.index
  small := by rw [hi]; exact h.small
  aligned := by rw [hi]; exact h.aligned
  addr := by rw [ha, hi, h.addr]
  buff := by rw [hi, ht]; exact h.buff
  mem := by rw [hf, hi, h.mem]

theorem readOffset_lt (h : Transfer L m off n k p d) :
    d.ucp.readOffset < d.ucp.readEnd ↔ k < n := by
  rw [UInt16.lt_iff_toNat_lt, h.offset, h.readEnd]
  omega

/-- A WRITE command of a range inside the store opens a transfer. -/
theorem opened {u : Ucp} (hfit : off + n ≤ maxCredFlashSize) (ho : u.readOffset.toNat = off)
    (he : u.readEnd.toNat = off + n) (hi : u.buffIndex = 0)
    (ha : u.flashWriteAddr = u.readOffset + L.credentials) (hu : d.ucp = u)
    (hm : d.flash.mem = m) : Transfer L m off n 0 p d := by
  subst hu
  have hb : d.ucp.buffIndex.toNat = 0 := by rw [hi]; rfl
  refine ⟨⟨hfit, Nat.zero_le n, ho, he, by omega, by omega, ?_, fun j hj => by omega, ?_⟩, by omega⟩
  · rw [ha, hb, UInt16.add_comm, ← ho, UInt16.ofNat_toNat]
    exact (UInt16.add_zero _).symm
  · rw [hm, hb, Mem.write_zero]

theorem store (h : Transfer L m off n k p d) (hk : k < n) :
    Stored L m off n (k + 1) p (d.setUcp (storeByte (p k) d.ucp)) := by
  have hfit := h.fit
  unfold maxCredFlashSize at hfit
  have hi := h.index
  have ha := h.aligned
  have hidx : (d.ucp.buffIndex + 1).toNat = d.ucp.buffIndex.toNat + 1 := toNat_succ8 (by omega)
  have hsub : k + 1 - (d.ucp.buffIndex + 1).toNat = k - d.ucp.buffIndex.toNat := by omega
  have hoff : (d.ucp.readOffset + 1).toNat = off + (k + 1) := by
    have ho := h.offset
    rw [toNat_succ16 (by omega), ho, Nat.add_assoc]
  refine ⟨h.fit, hk, hoff, h.readEnd, ?_, ?_, ?_, fun j hj => ?_, ?_⟩
  · simp only [setUcp_ucp, storeByte, hidx]
    omega
  · simp only [setUcp_ucp, storeByte, hidx]
    omega
  · simp only [setUcp_ucp, storeByte, hsub]
    exact h.addr
  · simp only [setUcp_ucp, storeByte, hsub] at hj ⊢
    rw [hidx] at hj
    by_cases hlast : j = d.ucp.buffIndex.toNat
    · rw [hlast, Function.update_self]
      congr 1
      omega
    · rw [Function.update_of_ne hlast]
      exact h.buff j (by omega)
  · simp only [setUcp_ucp, setUcp_flash, storeByte, hsub]
    exact h.mem

end Transfer

/-- No flush is due: the transfer goes on, and not at a multiple of 64. -/
theorem Stored.quiet (h : Stored L m off n k p d) (hq : d.ucp.flushDue = false) :
    k < n ∧ Transfer L m off n k p d := by
  have hs := h.small
  have hdue : ¬((off + k) % 64 = 0 ∨ off + n ≤ off + k) := by
    rw [← h.offset, ← h.readEnd, ← flushDue_iff, hq]
    exact Bool.false_ne_true
  exact ⟨by omega, h, by omega⟩

/-- The loop of `UCP_WriteTask` stores the bytes it is given; when they reach the end of
the transfer it is closed, with all of it in flash. -/
theorem Transfer.loop {bs : List UInt8} (h : Transfer L m off n k p d) (hk : k < n)
    (hb : ∀ i (hi : i < bs.length), bs[i] = p (k + i)) :
    (k + bs.length < n ∧ ∃ d' : Device, ucpWriteLoop L bs d = .ret d' ∧
      Transfer L m off n (k + bs.length) p d' ∧ d'.ucp.ucpState = d.ucp.ucpState) ∨
    (n ≤ k + bs.length ∧ ∃ d' : Device, ucpWriteLoop L bs d =
        crdInit L (d'.setUcp { d'.ucp with ucpState := .idle }) ∧
      d'.flash.mem = m.write (L.credentials + UInt16.ofNat off) n p) := by
  induction bs generalizing d k with
  | nil => exact .inl ⟨hk, d, rfl, h, rfl⟩
  | cons b bs ih =>
    have hb0 : b = p k := hb 0 (Nat.succ_pos _)
    have hbs (i : ℕ) (hi : i < bs.length) : bs[i] = p (k + 1 + i) := by
      rw [Nat.add_assoc, Nat.add_comm 1]
      exact hb (i + 1) (Nat.succ_lt_succ hi)
    have hs := h.store hk
    rw [← hb0] at hs
    rw [List.length_cons, ← Nat.add_assoc, Nat.add_right_comm]
    cases hdue : (storeByte b d.ucp).flushDue with
    | false =>
      obtain ⟨hk1, ht⟩ := hs.quiet hdue
      rw [writeLoop_quiet_cons L b bs d hdue]
      exact ih ht hk1 hbs
    | true =>
      obtain ⟨d1, hf, ht, hm, hst⟩ := hs.flush
      rw [writeLoop_due_cons L b bs d hdue, hf, Outcome.bind_ret]
      by_cases he : d1.ucp.readEnd ≤ d1.ucp.readOffset
      · have hend : n = k + 1 := by
          rw [UInt16.le_iff_toNat_le, ht.offset, ht.readEnd] at he
          omega
        rw [if_pos he]
        exact .inr ⟨by omega, d1, rfl, by rw [hm, hend]⟩
      · rw [if_neg he]
        have hk1 : k + 1 < n := ht.readOffset_lt.mp (UInt16.not_le.mp he)
        rcases ih ht hk1 hbs with ⟨hlt, d', hr, ht', hst'⟩ | hend
        · exact .inl ⟨hlt, d', hr, ht', hst'.trans hst⟩
        · exact .inr hend

/-- `UCP_WriteTask` of the packet that comes next. -/
theorem Transfer.writeTask (h : Transfer L m off n k p d) (hk : k < n) (hw : d.ucp.usbWrite = true)
    (hp : ∀ i : Fin 8, d.ucp.customReport i = p (k + i)) :
    (k + 8 < n ∧ ∃ d', ucpWriteTask L d = .ret d' ∧ Transfer L m off n (k + 8) p d' ∧
      d'.ucp.ucpState = d.ucp.ucpState) ∨
    (n ≤ k + 8 ∧ ∃ d' : Device, ucpWriteTask L d =
        (crdInit L (d'.setUcp { d'.ucp with ucpState := .idle })).bind
          (fun d => .ret (d.setUcp { d.ucp with usbWrite := false })) ∧
      d'.flash.mem = m.write (L.credentials + UInt16.ofNat off) n p) := by
  rw [writeTask_pending L d hw]
  have hc : Transfer L m off n k p (d.call (.copy d.ucp.ucpState d.ucp.customReport)) :=
    h.of_eq rfl rfl rfl rfl rfl rfl
  have hb (i : ℕ) (hi : i < (List.ofFn d.ucp.customReport).length) :
      (List.ofFn d.ucp.customReport)[i] = p (k + i) := by
    rw [List.getElem_ofFn]
    exact hp _
  rcases hc.loop hk hb with ⟨hlt, d', hr, ht, hst⟩ | ⟨hle, d', hr, hm⟩
  · rw [List.length_ofFn] at hlt ht
    rw [hr]
    exact .inl ⟨hlt, _, rfl, ht.of_eq rfl rfl rfl rfl rfl rfl, hst⟩
  · rw [List.length_ofFn] at hle
    rw [hr]
    exact .inr ⟨hle, d', rfl, hm⟩

end

end Memtype
