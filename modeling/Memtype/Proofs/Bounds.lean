import Memtype.Proofs.Locked

/-! The stores of `UCP_WriteTask` into `tempBuff`: they stay inside it unless a report that
was accepted for one transfer is copied at the offset of another. -/

namespace Memtype

open Lib

/-- Every store of the loop is inside `tempBuff`, and every `FLS_write` of it has 1 to 64 bytes. -/
def loopInBounds : List UInt8 → Device → Prop
  | [], _ => True
  | b :: bs, d =>
    d.ucp.buffIndex.toNat < spmPagesize ∧
      let d := d.setUcp (storeByte b d.ucp)
      if d.ucp.flushDue then
        (1 ≤ d.ucp.buffIndex.toNat ∧ d.ucp.buffIndex.toNat ≤ spmPagesize) ∧
          ∀ d', flush d = .ret d' → ¬d'.ucp.readEnd ≤ d'.ucp.readOffset → loopInBounds bs d'
      else loopInBounds bs d

def Event.inBounds (d : Device) : Event → Prop
  | .writeTask => d.ucp.usbWrite = true → loopInBounds (List.ofFn d.ucp.customReport)
      (d.call (.copy d.ucp.ucpState d.ucp.customReport))
  | _ => True

/-- `UCP_WriteTask` has a report to copy although the transfer it belongs to was left, and the
offset is now so far from a multiple of 64 and from the end that the buffer fills up first. -/
def Event.overruns (d : Device) (e : Event) : Prop :=
  e.isWriteTask = true ∧ d.ucp.usbWrite = true ∧ d.ucp.ucpState ≠ .writting ∧
    spmPagesize < d.ucp.buffIndex.toNat + 8 ∧
      ∀ k < spmPagesize - d.ucp.buffIndex.toNat, d.ucp.dueAfter (k + 1) = false

instance (d : Device) (e : Event) : Decidable (e.overruns d) :=
  inferInstanceAs (Decidable (_ ∧ _ ∧ _ ∧ _ ∧ ∀ k < _, _))

theorem loopInBounds_nil (d : Device) : loopInBounds [] d := by
  unfold loopInBounds
  trivial

theorem loopInBounds_cons (b : UInt8) (bs : List UInt8) (d : Device) :
    loopInBounds (b :: bs) d ↔ d.ucp.buffIndex.toNat < 64 ∧
      if (storeByte b d.ucp).flushDue then
        (1 ≤ (storeByte b d.ucp).buffIndex.toNat ∧ (storeByte b d.ucp).buffIndex.toNat ≤ 64) ∧
          ∀ d', flush (d.setUcp (storeByte b d.ucp)) = .ret d' →
            ¬d'.ucp.readEnd ≤ d'.ucp.readOffset → loopInBounds bs d'
      else loopInBounds bs (d.setUcp (storeByte b d.ucp)) := by
  rw [loopInBounds]
  rfl

/-- With the buffer part full, the stores are inside it exactly if all the bytes fit, or a
flush comes while they do. -/
theorem loopInBounds_iff {bs : List UInt8} {d : Device} (hb : d.ucp.buffIndex.toNat ≤ 64)
    (hl : bs.length ≤ 64) : loopInBounds bs d ↔ d.ucp.buffIndex.toNat + bs.length ≤ 64 ∨
      ∃ k < bs.length, d.ucp.buffIndex.toNat + (k + 1) ≤ 64 ∧ d.ucp.dueAfter (k + 1) = true := by
  induction bs generalizing d with
  | nil =>
    refine iff_of_true (loopInBounds_nil d) (.inl ?_)
    simpa using hb
  | cons b bs ih =>
    rw [List.length_cons] at hl ⊢
    rw [loopInBounds_cons]
    by_cases hfull : d.ucp.buffIndex.toNat = 64
    · refine iff_of_false (fun h => by omega) ?_
      rintro (h | ⟨k, -, h, -⟩) <;> omega
    have hi : (storeByte b d.ucp).buffIndex.toNat = d.ucp.buffIndex.toNat + 1 :=
      toNat_succ8 (by omega)
    rw [hi]
    cases hnow : (storeByte b d.ucp).flushDue with
    | true =>
      -- the buffer is empty afterwards, and the rest fits
      refine iff_of_true ⟨by omega, ?_⟩ (.inr ⟨0, Nat.succ_pos _, by omega, hnow⟩)
      rw [if_pos rfl]
      refine ⟨by omega, fun d' hf _ => ?_⟩
      obtain ⟨f, rfl⟩ := flush_ret hf
      have h0 : bs.length ≤ 64 := by omega
      refine (ih ?_ h0).mpr (.inl ?_)
      · exact Nat.zero_le 64
      · simpa using h0
    | false =>
      rw [if_neg (by simp), ih (by rw [setUcp_ucp, hi]; omega) (by omega), setUcp_ucp, hi]
      constructor
      · rintro ⟨-, h | ⟨k, hk, h, hdue⟩⟩
        · exact .inl (by omega)
        · rw [storeByte_dueAfter] at hdue
          exact .inr ⟨k + 1, by omega, by omega, hdue⟩
      · rintro (h | ⟨k, hk, h, hdue⟩)
        · exact ⟨by omega, .inl (by omega)⟩
        · cases k with
          | zero =>
            rw [← storeByte_flushDue b, hnow] at hdue
            exact absurd hdue nofun
          | succ k =>
            refine ⟨by omega, .inr ⟨k, by omega, by omega, ?_⟩⟩
            rw [storeByte_dueAfter]
            exact hdue

/-- During a WRITE the offset reaches a multiple of 64 before the buffer is full. -/
theorem due_writting {u : Ucp} (hf : FillInv u) (h0 : u.ucpState = .writting)
    (hw : 64 < u.buffIndex.toNat + 8) :
    ∃ k < 8, u.buffIndex.toNat + (k + 1) ≤ 64 ∧ u.dueAfter (k + 1) = true := by
  have hle := hf.writting h0
  refine ⟨63 - u.readOffset.toNat % 64, by omega, by omega, ?_⟩
  refine (flushDue_iff _).mpr (.inl ?_)
  dsimp only
  rw [UInt16.toNat_add, UInt16.toNat_ofNat']
  omega

theorem inBounds_iff {d : Device} (hf : FillInv d.ucp) (e : Event) :
    e.inBounds d ↔ ¬e.overruns d := by
  by_cases he : e = .writeTask
  · subst he
    by_cases hw : d.ucp.usbWrite = true
    · have hb := hf.pending hw
      unfold Event.inBounds Event.overruns spmPagesize
      dsimp only
      rw [loopInBounds_iff (d := d.call _) hb.le (by simp), List.length_ofFn, call_ucp]
      constructor
      · rintro h ⟨-, -, -, hfull, hno⟩
        rcases h hw with h | ⟨k, hk, h, hdue⟩
        · omega
        · rw [hno k (by omega)] at hdue
          exact absurd hdue nofun
      · intro h _
        by_contra hn
        rw [not_or] at hn
        refine h ⟨rfl, hw, fun h0 => ?_, by omega, fun k hk => ?_⟩
        · exact hn.2 (due_writting hf h0 (by omega))
        · exact eq_false_of_ne_true fun hdue => hn.2 ⟨k, by omega, by omega, hdue⟩
    · exact iff_of_true (fun h => absurd h hw) fun h => hw h.2.1
  · refine iff_of_true ?_ fun h => ?_
    · unfold Event.inBounds
      split
      · exact absurd rfl he
      · trivial
    · have hn := h.1
      cases e with
      | writeTask => exact he rfl
      | _ => exact absurd hn nofun

/-- Along a run from power-on `UCP_WriteTask` keeps to its buffer if and only if it never copies
a report at an offset that another transfer has set, too far from the next flush. -/
theorem inBounds_run_iff (L : Layout) (flash eeprom ram : Mem) (evs : List Event) :
    EachStep (step L) (fun d e => e.inBounds d) (powerOn L flash eeprom ram) evs ↔
      EachStep (step L) (fun d e => ¬e.overruns d) (powerOn L flash eeprom ram) evs := by
  refine eachStep_iff (I := fun d => FillInv d.ucp) (fun _ e hd => inBounds_iff hd e)
    (fun _ _ _ hd _ h => fillInv_step hd h) (fun d h => ?_) evs
  obtain ⟨c, v, rfl⟩ := powerOn_ret h
  exact ⟨nofun, nofun⟩

/-- A WRITE that starts 7 bytes into a page: after 15 packets 63 bytes are in the buffer, and
the next is accepted. -/
def offsetWrite : List Event :=
  enterFactoryPin ++ [.write ![3, 7, 0, 0, 4, 0, 0, 0] 8] ++
    (List.replicate 15 [.write ![1, 2, 3, 4, 5, 6, 7, 8] 8, .getReport 2, .writeTask]).flatten ++
    [.write ![1, 2, 3, 4, 5, 6, 7, 8] 8, .getReport 2]

/-- A look into OPTIONS leaves the transfer, and READ sets the offset to 0. -/
theorem not_inBounds_read : ¬∀ L flash eeprom ram evs,
    EachStep (step L) (fun d e => e.inBounds d) (powerOn L flash eeprom ram) evs := by
  intro h
  have hr : run (step sampleLayout) sampleBoot (offsetWrite ++ [.button .left, .button .right,
      .write ![2, 0, 0, 0, 4, 0, 0, 0] 8]) = .ret _ := Outcome.eq_ret_of_returns (by decide +kernel)
  refine (inBounds_iff (reachable_fillInv ⟨_, hr⟩) .writeTask).mp ?_ (by decide +kernel)
  exact eachStep_last (h _ _ _ _ _) hr

end Memtype
