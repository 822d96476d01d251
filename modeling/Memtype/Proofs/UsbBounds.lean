import Memtype.Proofs.UsbReceive

/-! The receiver on any samples: it ends, and keeps to its buffer. -/

namespace Memtype

namespace UsbLine

open Lib

namespace Core

variable {c : Core}

theorem quiet_trans {c c' c'' : Core} (h : Quiet c c') (h' : Quiet c' c'') : Quiet c c'' :=
  ⟨h'.ram.trans h.ram, h'.y.trans h.y, h'.cnt.trans h.cnt⟩

theorem quiet_ite {p : Prop} [Decidable p] {f g : Core} (hf : Quiet c f) (hg : Quiet c g) :
    Quiet c (if p then f else g) := by
  split_ifs
  · exact hf
  · exact hg

theorem quiet_didUnstuff0 (c : Core) : Quiet c c.didUnstuff0 := quiet_ite ⟨rfl, rfl, rfl⟩ ⟨rfl, rfl, rfl⟩
theorem quiet_bit2 (c : Core) : Quiet c c.bit2 := quiet_ite ⟨rfl, rfl, rfl⟩ ⟨rfl, rfl, rfl⟩
theorem quiet_bit3 (c : Core) : Quiet c c.bit3 := quiet_ite ⟨rfl, rfl, rfl⟩ ⟨rfl, rfl, rfl⟩
theorem quiet_bit4 (c : Core) : Quiet c c.bit4 := quiet_ite ⟨rfl, rfl, rfl⟩ ⟨rfl, rfl, rfl⟩
theorem quiet_bit6 (c : Core) : Quiet c c.bit6 := quiet_ite ⟨rfl, rfl, rfl⟩ ⟨rfl, rfl, rfl⟩
theorem quiet_bit7 (c : Core) : Quiet c c.bit7 := quiet_ite ⟨rfl, rfl, rfl⟩ ⟨rfl, rfl, rfl⟩

theorem quiet_continueWithBit5 (c : Core) : Quiet c c.continueWithBit5 := by
  have h6 := quiet_bit6 ((c.inX2.takeX1 5).andiShift 0x3f).inX1
  exact quiet_ite ⟨rfl, rfl, rfl⟩ ⟨h6.ram, h6.y, h6.cnt⟩

theorem checkSe0_quiet (c : Core) :
    (∃ c', c.checkSe0 = .ok c' ∧ Quiet c c') ∨ ∃ c', c.checkSe0 = .error (.se0, c') ∧ Quiet c c' := by
  unfold checkSe0
  dsimp only
  split_ifs
  · exact .inr ⟨_, rfl, rfl, rfl, rfl⟩
  · exact .inl ⟨_, rfl, rfl, rfl, rfl⟩

theorem rxbit1_quiet (z : Bool) (c : Core) :
    (∃ c', c.rxbit1 z = .ok c' ∧ Quiet c c') ∨ ∃ c', c.rxbit1 z = .error (.se0, c') ∧ Quiet c c' := by
  have hin : Quiet c c.inX2 := ⟨rfl, rfl, rfl⟩
  unfold rxbit1
  rcases checkSe0_quiet c.inX2 with ⟨c', hret, hquiet⟩ | ⟨c', hret, hquiet⟩
  · rw [hret]
    left
    cases z with
    | false => exact ⟨c', rfl, quiet_trans hin hquiet⟩
    | true => exact ⟨_, rfl, quiet_trans (quiet_trans hin hquiet) ⟨rfl, rfl, rfl⟩⟩
  · rw [hret]
    exact .inr ⟨c', by cases z <;> rfl, quiet_trans hin hquiet⟩

/-- What becomes of a byte. -/
theorem rxByte_quiet (z : Bool) (c : Core) :
    (∃ c', c.rxByte z = .ok c' ∧ c.cnt ≠ 0 ∧ c'.ram = c.ram ∧ c'.y = c.y ∧ c'.cnt = c.cnt - 1) ∨
      (∃ c', c.rxByte z = .error (.se0, c') ∧ Quiet c c') ∨
      ∃ c', c.rxByte z = .error (.overflow, c') ∧ c.cnt = 0 ∧ c'.ram = c.ram ∧ c'.y = c.y := by
  unfold rxByte
  rcases rxbit1_quiet z c with ⟨c₁, hret, hq₁⟩ | ⟨c₁, hret, hq₁⟩
  · have hq₂ := quiet_trans hq₁ (quiet_didUnstuff0 c₁)
    rw [hret]
    change (∃ c', (c₁.didUnstuff0.checkOverflow >>= _) = _ ∧ _) ∨
      (∃ c', (c₁.didUnstuff0.checkOverflow >>= _) = _ ∧ _) ∨
      ∃ c', (c₁.didUnstuff0.checkOverflow >>= _) = _ ∧ _
    by_cases hcnt : c.cnt = 0
    · have hcheck : c₁.didUnstuff0.checkOverflow = .error (.overflow,
          { c₁.didUnstuff0 with cnt := c₁.didUnstuff0.cnt - 1, carry := true }) := by
        unfold checkOverflow
        rw [hq₂.cnt, hcnt]
        rfl
      rw [hcheck]
      exact .inr (.inr ⟨_, rfl, hcnt, hq₂.ram, hq₂.y⟩)
    · have hcheck : c₁.didUnstuff0.checkOverflow = .ok
          { c₁.didUnstuff0 with cnt := c₁.didUnstuff0.cnt - 1, carry := false } := by
        have hge : decide (c₁.didUnstuff0.cnt < 1) = false := by
          rw [hq₂.cnt, decide_eq_false_iff_not, UInt8.lt_one_iff]
          exact hcnt
        unfold checkOverflow
        dsimp only
        rw [hge]
        rfl
      rw [hcheck]
      generalize hc₂ : ({ c₁.didUnstuff0 with cnt := c₁.didUnstuff0.cnt - 1, carry := false } : Core) = c₂
      have hq₃ : Quiet c₂ c₂.bit2.bit3.bit4.continueWithBit5.bit7 :=
        quiet_trans (quiet_trans (quiet_trans (quiet_trans (quiet_bit2 _) (quiet_bit3 _)) (quiet_bit4 _))
          (quiet_continueWithBit5 _)) (quiet_bit7 _)
      subst hc₂
      refine .inl ⟨_, rfl, hcnt, hq₃.ram.trans hq₂.ram, hq₃.y.trans hq₂.y, hq₃.cnt.trans ?_⟩
      exact congrArg (· - 1) hq₂.cnt
  · rw [hret]
    exact .inr (.inl ⟨c₁, rfl, hq₁⟩)

theorem receive_ends {fuel m : ℕ} {z : Bool} (hm : m < 256) (hfuel : m < fuel)
    (hcnt : c.cnt = UInt8.ofNat m) : ∃ e c' n f, receive fuel z c = .error (e, c') ∧
      c'.ram = c.ram.write c.y n f ∧ n ≤ m ∧
      match e with
      | .se0 => c'.cnt = UInt8.ofNat (m - n)
      | .overflow => n = m := by
  induction fuel generalizing m z c with
  | zero => exact absurd hfuel (Nat.not_lt_zero m)
  | succ fuel ih =>
    rcases rxByte_quiet z c with ⟨c₁, hret, hne, hram, hy, hcnt'⟩ | ⟨c₁, hret, hquiet⟩ |
      ⟨c₁, hret, h0, hram, -⟩
    · obtain ⟨k, rfl⟩ : ∃ k, m = k + 1 := Nat.exists_eq_succ_of_ne_zero fun h0 =>
        hne (hcnt.trans (congrArg UInt8.ofNat h0))
      have hcnt'' : c₁.rxLoop.2.cnt = UInt8.ofNat k := by
        refine hcnt'.trans ?_
        rw [hcnt]
        apply UInt8.toNat_inj.mp
        rw [UInt8.toNat_sub, UInt8.toNat_ofNat', UInt8.toNat_ofNat', UInt8.toNat_one]
        omega
      obtain ⟨e, c', n, f, hrec, hram', hn, hend⟩ := ih (z := c₁.rxLoop.1) (by omega) (by omega) hcnt''
      refine ⟨e, c', 1 + n, fun i => if i < 1 then c₁.x3 ^^^ c₁.shift else f (i - 1), ?_, ?_, by omega, ?_⟩
      · rw [receive, hret]
        exact hrec
      · have hstore : c₁.rxLoop.2.ram = Function.update c.ram c.y (c₁.x3 ^^^ c₁.shift) := by
          rw [← hram, ← hy]
          rfl
        have hstep : c₁.rxLoop.2.y = c.y + 1 := congrArg (· + 1) hy
        rw [hram', hstore, hstep]
        exact update_then_write _ _ _ f (by omega)
      · cases e with
        | se0 =>
          refine hend.trans ?_
          congr 1
          omega
        | overflow =>
          have hall : n = k := hend
          exact (Nat.add_comm 1 n).trans (congrArg (· + 1) hall)
    · refine ⟨.se0, c₁, 0, fun _ => 0, ?_, ?_, Nat.zero_le m, hquiet.cnt.trans hcnt⟩
      · rw [receive, hret]
        rfl
      · rw [Mem.write_zero, hquiet.ram]
    · have hm0 : 0 = m := by
        have := congrArg UInt8.toNat (h0.symm.trans hcnt)
        rw [UInt8.toNat_zero, UInt8.toNat_ofNat'] at this
        omega
      refine ⟨.overflow, c₁, 0, fun _ => 0, ?_, ?_, Nat.zero_le m, hm0⟩
      · rw [receive, hret]
        rfl
      · rw [Mem.write_zero, hram]

end Core

/-- Whatever is on the lines, the receiver comes to an end, and does not write outside its buffer;
where it ends at SE0 its count is of the bytes it has written. -/
theorem received_bounded (c : Core) : ∃ e c' n f, c.received = .error (e, c') ∧
    c'.ram = c.ram.write c.y n f ∧ n ≤ 11 ∧
    match e with
    | .se0 => 11 - c'.cnt = UInt8.ofNat n
    | .overflow => n = 11 := by
  obtain ⟨e, c', n, f, hret, hram, hn, hend⟩ := Core.receive_ends (c := c.haveTwoBitsK) (z := false)
    (by decide) (by decide : 11 < 13) rfl
  refine ⟨e, c', n, f, hret, hram, hn, ?_⟩
  cases e with
  | se0 =>
    have hcount : ∀ n ≤ 11, 11 - UInt8.ofNat (11 - n) = UInt8.ofNat n := by decide
    exact (congrArg (11 - ·) hend).trans (hcount n hn)
  | overflow => exact hend

end UsbLine

end Memtype
