import Memtype.Proofs.Protocol

/-! How long a read transfer lasts. Each poll moves the offset by 8 and the last one is
recognised by an offset at or past the end. Near the top of the address space the offset comes
round to 0 before it gets there, and the transfer goes on. -/

namespace Memtype

open Lib

def readPolls (data : Bytes 8) (k : ℕ) : List Event :=
  .write data 8 :: List.replicate k (.getReport 2)

def reportsOf (size : UInt16) : ℕ := (size.toNat + 7) / 8

theorem step_getReport (L : Layout) (d : Device) : step L d (.getReport 2) =
    .ret ((ucpTask L d).call (.reply 2 (List.ofFn (ucpTask L d).ucp.customReport))) :=
  congrArg Outcome.ret (setup_report L (by decide))

/-- The transfer has been acknowledged and still has its range to read. -/
structure ReadingFrom (o e : ℕ) (d : Device) : Prop where
  state : d.ucp.ucpState = .reading
  offset : d.ucp.readOffset.toNat = o
  readEnd : d.ucp.readEnd.toNat = e

section

variable {L : Layout} {o e : ℕ} {d : Device}

theorem readingFrom_ack {data : Bytes 8} (h0 : d.ucp.ucpState = .idle) (hc : data 0 = ucpCmdRead) :
    ∃ d', run (step L) (.ret d) (readPolls data 1) = .ret d' ∧
      ReadingFrom (word data 1 2).toNat (word data 1 2 + word data 3 4).toNat d' := by
  have hs : step L d (.write data 8) = .ret _ := congrArg Outcome.ret (decode_openRead L h0 hc)
  rw [readPolls, run_cons, Outcome.bind_ret, hs, List.replicate_one, run_cons, Outcome.bind_ret,
    step_getReport, task_readingCmd L rfl, run_nil]
  exact ⟨_, rfl, rfl, rfl, rfl⟩

/-- A poll of a refused transfer ends it. -/
theorem ReadingFrom.refused (h : ReadingFrom o e d) (hoe : e ≤ o) :
    ∃ d', step L d (.getReport 2) = .ret d' ∧ d'.ucp.ucpState = .idle := by
  have hlt : ¬d.ucp.readOffset < d.ucp.readEnd := by
    rw [UInt16.lt_iff_toNat_lt, h.offset, h.readEnd]
    omega
  refine ⟨_, step_getReport L d, ?_⟩
  rw [task_reading L h.state, if_neg hlt]
  rfl

/-- Any other poll reads a report, and ends the transfer if the offset is past its end. -/
theorem ReadingFrom.poll (h : ReadingFrom o e d) (hoe : o < e) :
    ∃ d', step L d (.getReport 2) = .ret d' ∧
      (if e ≤ (o + 8) % 65536 then d'.ucp.ucpState = .idle
        else ReadingFrom ((o + 8) % 65536) e d') := by
  have hlt : d.ucp.readOffset < d.ucp.readEnd := by
    rw [UInt16.lt_iff_toNat_lt, h.offset, h.readEnd]
    exact hoe
  have hnext : (d.ucp.readOffset + 8).toNat = (o + 8) % 65536 := by
    rw [UInt16.toNat_add, h.offset]
    rfl
  have hend : d.ucp.readEnd ≤ d.ucp.readOffset + 8 ↔ e ≤ (o + 8) % 65536 := by
    rw [UInt16.le_iff_toNat_le, h.readEnd, hnext]
  refine ⟨_, step_getReport L d, ?_⟩
  rw [task_reading L h.state, if_pos hlt]
  by_cases he : e ≤ (o + 8) % 65536
  · rw [if_pos he, if_pos (hend.mpr he)]
    rfl
  · rw [if_neg he, if_neg fun hle => he (hend.mp hle)]
    exact ⟨rfl, hnext, h.readEnd⟩

/-- Short of the end the transfer goes on, report by report. -/
theorem ReadingFrom.polls (h : ReadingFrom o e d) (k : ℕ) (hk : o + 8 * k < e) :
    ∃ d', run (step L) (.ret d) (List.replicate k (.getReport 2)) = .ret d' ∧
      ReadingFrom (o + 8 * k) e d' := by
  induction k generalizing o d with
  | zero => exact ⟨d, rfl, h⟩
  | succ k ih =>
    have he : e < 65536 := h.readEnd ▸ d.ucp.readEnd.toNat_lt
    obtain ⟨d1, hs, h1⟩ := h.poll (L := L) (by omega)
    rw [Nat.mod_eq_of_lt (by omega), if_neg (by omega)] at h1
    obtain ⟨d', hr, h'⟩ := ih h1 (by omega)
    refine ⟨d', ?_, ?_⟩
    · rw [List.replicate_succ, run_cons, Outcome.bind_ret, hs, hr]
    · rwa [show o + 8 * (k + 1) = o + 8 + 8 * k by omega]

/-- At the last report the transfer ends, unless the offset has come round. -/
theorem ReadingFrom.last (h : ReadingFrom o e d) {c : ℕ} (hc : o + 8 * c < e)
    (he : e ≤ o + 8 * (c + 1)) :
    ∃ d', run (step L) (.ret d) (List.replicate (c + 1) (.getReport 2)) = .ret d' ∧
      (d'.ucp.ucpState = .idle ↔ o + 8 * (c + 1) < 65536) := by
  have htop : e < 65536 := h.readEnd ▸ d.ucp.readEnd.toNat_lt
  obtain ⟨d1, hr, h1⟩ := h.polls (L := L) c hc
  obtain ⟨d', hs, h'⟩ := h1.poll (L := L) hc
  refine ⟨d', ?_, ?_⟩
  · rw [List.replicate_succ', run_append, hr, run_cons, Outcome.bind_ret, hs, run_nil]
  · rw [show o + 8 * c + 8 = o + 8 * (c + 1) by omega] at h'
    by_cases hw : o + 8 * (c + 1) < 65536
    · rw [Nat.mod_eq_of_lt hw, if_pos he] at h'
      exact iff_of_true h' hw
    · rw [if_neg (by omega)] at h'
      exact iff_of_false (by rw [h'.state]; exact nofun) hw

end

/-- A READ is over after its acknowledgement and as many polls as it has reports, or one when it is
refused, exactly when it asks for nothing, wraps its end, or leaves the offset of the last report
plus 8 below the top of the address space. -/
theorem readEnds_iff (L : Layout) {d : Device} {data : Bytes 8} (h0 : d.ucp.ucpState = .idle)
    (hc : data 0 = ucpCmdRead) :
    (∃ k ≤ max 1 (reportsOf (word data 3 4)),
        (run (step L) (.ret d) (readPolls data (k + 1))).state.ucp.ucpState = .idle) ↔
      word data 3 4 = 0 ∨ 65536 ≤ (word data 1 2).toNat + (word data 3 4).toNat ∨
        (word data 1 2).toNat + 8 * reportsOf (word data 3 4) < 65536 := by
  obtain ⟨d1, hr, h⟩ := readingFrom_ack (L := L) h0 hc
  have hsplit (k : ℕ) : run (step L) (.ret d) (readPolls data (k + 1)) =
      run (step L) (.ret d1) (List.replicate k (.getReport 2)) := by
    rw [← hr, readPolls, readPolls, Nat.add_comm, List.replicate_add, ← List.cons_append, run_append]
  simp only [hsplit]
  have ho := (word data 1 2).toNat_lt
  have hz := (word data 3 4).toNat_lt
  have hsum : (word data 1 2 + word data 3 4).toNat =
      ((word data 1 2).toNat + (word data 3 4).toNat) % 65536 := UInt16.toNat_add _ _
  rw [hsum] at h
  have hzero : word data 3 4 = 0 ↔ (word data 3 4).toNat = 0 := UInt16.toNat_inj.symm
  rw [hzero]
  unfold reportsOf
  generalize (word data 1 2).toNat = o at *
  generalize (word data 3 4).toNat = n at *
  by_cases hn : n = 0 ∨ 65536 ≤ o + n
  · -- the end does not lie behind the offset
    refine iff_of_true ⟨1, le_max_left _ _, ?_⟩ (hn.imp_right .inl)
    obtain ⟨d', hs, hi⟩ := h.refused (L := L) (by omega)
    rw [List.replicate_one, run_cons, Outcome.bind_ret, hs]
    exact hi
  · rw [not_or] at hn
    rw [Nat.mod_eq_of_lt (by omega)] at h
    have hcount : max 1 ((n + 7) / 8) = (n - 1) / 8 + 1 := by omega
    obtain ⟨d', hs, hi⟩ := h.last (L := L) (c := (n - 1) / 8) (by omega) (by omega)
    constructor
    · rintro ⟨k, hk, hidle⟩
      rw [hcount] at hk
      rcases Nat.lt_or_eq_of_le hk with hk | rfl
      · obtain ⟨d2, hs2, h2⟩ := h.polls (L := L) k (by omega)
        rw [hs2, Outcome.state_ret, h2.state] at hidle
        exact absurd hidle nofun
      · rw [hs, Outcome.state_ret] at hidle
        have := hi.mp hidle
        omega
    · intro hlt
      refine ⟨(n - 1) / 8 + 1, hcount.ge, ?_⟩
      rw [hs, Outcome.state_ret]
      exact hi.mpr (by omega)

/-- READ of `size` bytes at `offset`, in two bytes each, of flash. -/
def readCmd (offset size : UInt16) : Bytes 8 :=
  ![ucpCmdRead, offset.toUInt8, (offset / 256).toUInt8, size.toUInt8, (size / 256).toUInt8, 0, 0, 0]

theorem readEnds_store : ∃ k ≤ 256, (run (step sampleLayout) (.ret (idleDevice fun _ => 0))
    (readPolls (readCmd 0 2048) (k + 1))).state.ucp.ucpState = .idle := by
  have hidle : (idleDevice fun _ => 0).ucp.ucpState = .idle := rfl
  have hcmd : readCmd 0 2048 0 = ucpCmdRead := rfl
  have h := (readEnds_iff sampleLayout hidle hcmd).mpr (.inr (.inr (by decide)))
  rwa [show max 1 (reportsOf (word (readCmd 0 2048) 3 4)) = 256 by decide] at h

/-- The one report of a byte at 65528 moves the offset to 0. -/
theorem not_readEnds_top :
    ¬∃ k ≤ max 1 (reportsOf (word (readCmd 65528 1) 3 4)), (run (step sampleLayout)
      (.ret (idleDevice fun _ => 0)) (readPolls (readCmd 65528 1) (k + 1))).state.ucp.ucpState = .idle := by
  rintro ⟨k, hk, h⟩
  rw [show max 1 (reportsOf (word (readCmd 65528 1) 3 4)) = 1 by decide] at hk
  obtain rfl | rfl : k = 0 ∨ k = 1 := by omega
  · revert h
    decide +kernel
  · revert h
    decide +kernel

end Memtype
