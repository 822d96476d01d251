import Memtype.Lib.Fields
import Memtype.Proofs.Cipher
import Memtype.Proofs.Frames

/-! Typing a credential: `CRD_apply` queues a stretch of a decrypted block, `printUpdate`
types it and calls `CRD_apply` again, until the fields asked for are typed. -/

namespace Memtype

open Lib

inductive Keystroke where
  | key (ascii : UInt8)
  | pause
  deriving DecidableEq

def stroke (c : UInt8) : Keystroke := if c = synchronousIdleKey then .pause else .key c

def strokes (l : List UInt8) : List Keystroke := (l.filter (· ≠ 0)).map stroke

def Call.keystroke : Call → Option Keystroke
  | .press _ c => if c = 0 then none else some (.key c)
  | .pause => some .pause
  | _ => none

/-- The keystrokes so far; a report for character 0 is none. -/
def Device.keystrokes (d : Device) : List Keystroke := d.calls.filterMap Call.keystroke

theorem keystrokes_snoc {d d' : Device} {c : Call} (h : d'.calls = d.calls ++ [c]) :
    d'.keystrokes = d.keystrokes ++ c.keystroke.toList := by
  unfold Device.keystrokes
  rw [h, List.filterMap_append]
  cases hc : c.keystroke <;> simp [hc]

theorem strokes_append (l m : List UInt8) : strokes (l ++ m) = strokes l ++ strokes m := by
  simp [strokes]

theorem strokes_press {c : UInt8} (h : c ≠ synchronousIdleKey) (src : KeySource) :
    (Call.press src c).keystroke.toList = strokes [c] := by
  by_cases h0 : c = 0
  · simp [Call.keystroke, strokes, h0]
  · simp [Call.keystroke, strokes, stroke, h, h0]

theorem strokes_pause : Call.pause.keystroke.toList = strokes [synchronousIdleKey] := by
  decide

theorem setAct_slot (p : Print) (s : StrPtr) : (p.setAct s).slot = s := Function.update_self ..

theorem slot_of_setAct {p q : Print} {s : StrPtr} (hb : q.strBuf = (p.setAct s).strBuf)
    (ha : q.actString = p.actString) : q.slot = s := by
  unfold Print.slot
  rw [hb, ha]
  exact setAct_slot p s

section

variable {L : Layout} {d d' : Device}

theorem update_pressed (h : d.prn.kbdStatus = .pressed) : printUpdate L d =
    { d with prn := { d.prn.releaseKey with kbdStatus := .released }.decLen } := by
  unfold printUpdate
  rw [h]

theorem update_released (h : d.prn.kbdStatus = .released) :
    printUpdate L d = printReleased L d := by
  unfold printUpdate
  rw [h]

theorem update_idle (h : d.prn.kbdStatus = .idle) : printUpdate L d =
    if d.prn.debounceCount < idleTimeout then
      { d with prn := { d.prn.releaseKey with debounceCount := d.prn.debounceCount + 1 } }
    else { d with prn := { d.prn with kbdStatus := .released, debounceCount := 0 }.decLen } := by
  unfold printUpdate
  rw [h]

theorem update_delete (h : d.prn.kbdStatus = .delete) : printUpdate L d = printDelete L d := by
  unfold printUpdate
  rw [h]

theorem update_deletePressed (h : d.prn.kbdStatus = .deletePressed) : printUpdate L d =
    { d with prn := { d.prn.releaseKey with kbdStatus := .delete } } := by
  unfold printUpdate
  rw [h]

/-- A byte of RAM does not depend on the queue. -/
theorem ramByte_congr (h : PrintStep d d') (hc : d'.crd = d.crd) (a : UInt16) :
    d'.ramByte L a = d.ramByte L a := by
  have hram : d'.ram = d.ram := (congrArg Device.ram h.core :)
  unfold Device.ramByte
  rw [hc, h.usi, hram]

/-- `n` characters from `a` on are left of a stretch of a detail. -/
structure Typing (d : Device) (st : KbdStatus) (a : UInt16) (n : ℕ) : Prop where
  status : d.prn.kbdStatus = st
  ptr : d.prn.slot.strPtr = a
  len : d.prn.slot.len.toNat = n
  callback : d.prn.slot.callback = true
  info : n ≠ 0 → d.prn.slot.info = .ram

def Reaches (L : Layout) (d d' : Device) : Prop := ∃ k, (printUpdate L)^[k] d = d'

theorem Reaches.refl (d : Device) : Reaches L d d := ⟨0, rfl⟩

theorem Reaches.update (d : Device) : Reaches L d (printUpdate L d) := ⟨1, rfl⟩

theorem Reaches.trans {a b c : Device} (h1 : Reaches L a b) (h2 : Reaches L b c) :
    Reaches L a c := by
  obtain ⟨j, rfl⟩ := h1
  obtain ⟨k, rfl⟩ := h2
  exact ⟨k + j, Function.iterate_add_apply ..⟩

theorem Reaches.printStep (h : Reaches L d d') : PrintStep d d' := by
  obtain ⟨k, rfl⟩ := h
  induction k with
  | zero => exact .refl d
  | succ k ih =>
    rw [Function.iterate_succ_apply']
    exact ih.trans (printStep_update L _)

/-- What typing a character or a stretch of a detail comes to. -/
structure Types (L : Layout) (d : Device) (l : List UInt8) (d' : Device) : Prop where
  reaches : Reaches L d d'
  crd : d'.crd = d.crd
  keystrokes : d'.keystrokes = d.keystrokes ++ strokes l

theorem Types.trans {a b c : Device} {l m : List UInt8} (h1 : Types L a l b) (h2 : Types L b m c) :
    Types L a (l ++ m) c where
  reaches := h1.reaches.trans h2.reaches
  crd := h2.crd.trans h1.crd
  keystrokes := by rw [h2.keystrokes, h1.keystrokes, strokes_append, List.append_assoc]

/-- Releasing the key, or the end of a pause, takes the character off the stretch. -/
theorem typing_decLen {p : Print} {a : UInt16} {n : ℕ} (hd : d.prn = p.decLen)
    (hs : p.kbdStatus = .released) (ha : p.slot.strPtr = a) (hn : p.slot.len.toNat = n + 1)
    (hc : p.slot.callback = true) (hi : p.slot.info = .ram) : Typing d .released a n := by
  have hpos : p.slot.len > 0 := by
    rw [gt_iff_lt, UInt8.lt_iff_toNat_lt, hn]
    exact Nat.succ_pos n
  have hdec : (p.slot.len - 1).toNat = n := by
    rw [UInt8.toNat_sub_of_le _ _ (by rw [UInt8.le_iff_toNat_le, hn]; exact Nat.succ_pos n), hn]
    rfl
  unfold Print.decLen at hd
  rw [if_pos hpos] at hd
  refine ⟨by rw [hd]; exact hs, ?_, ?_, ?_, fun _ => ?_⟩
  all_goals rw [hd, setAct_slot]
  · exact ha
  · exact hdec
  · exact hc
  · exact hi

/-- The pause ends once `IDLE_TIMEOUT` is reached. -/
theorem typing_idle {a : UInt16} {n : ℕ} (h : Typing d .idle a (n + 1)) :
    ∃ d', Types L d [] d' ∧ Typing d' .released a n := by
  induction hk : 50 - d.prn.debounceCount.toNat generalizing d with
  | zero =>
    have hdone : ¬d.prn.debounceCount < idleTimeout := by
      rw [UInt8.lt_iff_toNat_lt, show idleTimeout.toNat = 50 from rfl]
      omega
    have hu := update_idle (L := L) h.status
    rw [if_neg hdone] at hu
    refine ⟨printUpdate L d, ⟨.update d, by rw [hu], ?_⟩, ?_⟩
    · rw [hu]
      exact (List.append_nil _).symm
    · exact typing_decLen (p := { d.prn with kbdStatus := .released, debounceCount := 0 })
        (by rw [hu]) rfl h.ptr h.len h.callback (h.info (Nat.succ_ne_zero n))
  | succ k ih =>
    have hmore : d.prn.debounceCount < idleTimeout := by
      rw [UInt8.lt_iff_toNat_lt, show idleTimeout.toNat = 50 from rfl]
      omega
    have hu := update_idle (L := L) h.status
    rw [if_pos hmore] at hu
    have h1 : Typing (printUpdate L d) .idle a (n + 1) := by
      rw [hu]
      exact ⟨h.status, h.ptr, h.len, h.callback, h.info⟩
    have hcount : (d.prn.debounceCount + 1).toNat = d.prn.debounceCount.toNat + 1 :=
      toNat_succ8 (by omega)
    obtain ⟨d', ht, hd'⟩ := ih h1 (by rw [hu]; dsimp only; omega)
    refine ⟨d', Types.trans (l := []) ⟨.update d, by rw [hu], ?_⟩ ht, hd'⟩
    rw [hu]
    exact (List.append_nil _).symm

/-- The pointer moves to the next character. -/
theorem Typing.next {st : KbdStatus} {a : UInt16} {n : ℕ} (h : Typing d .released a (n + 1))
    (hs : d'.prn.kbdStatus = st)
    (hslot : d'.prn.slot = { d.prn.slot with strPtr := d.prn.slot.strPtr + 1 }) :
    Typing d' st (a + 1) (n + 1) where
  status := hs
  ptr := by rw [hslot, h.ptr]
  len := by rw [hslot, h.len]
  callback := by rw [hslot, h.callback]
  info _ := by rw [hslot, h.info (Nat.succ_ne_zero n)]

/-- One character: pressed and released, or a pause. -/
theorem typing_char {a : UInt16} {n : ℕ} (h : Typing d .released a (n + 1)) :
    ∃ d', Types L d [d.ramByte L a] d' ∧ Typing d' .released (a + 1) n := by
  have hinfo := h.info (Nat.succ_ne_zero n)
  have hread : readChar L d = d.ramByte L a := by
    unfold readChar
    rw [hinfo, h.ptr]
  have hlen : d.prn.slot.len ≠ 0 := by
    intro h0
    have hn := h.len
    rw [h0] at hn
    exact absurd hn.symm (Nat.succ_ne_zero n)
  have hu := update_released (L := L) h.status
  unfold printReleased at hu
  dsimp only at hu
  rw [hread, if_neg (by simp [h.callback]), if_neg (by simp [hlen])] at hu
  by_cases hc : d.ramByte L a = synchronousIdleKey
  · rw [if_pos hc] at hu
    have h1 : Typing (printUpdate L d) .idle (a + 1) (n + 1) :=
      h.next (by rw [hu]; rfl) (by rw [hu]; exact slot_of_setAct (p := d.prn) rfl rfl)
    obtain ⟨d', ht, hd'⟩ := typing_idle (L := L) h1
    refine ⟨d', Types.trans (l := [d.ramByte L a]) (m := []) ⟨.update d, by rw [hu]; rfl, ?_⟩ ht, hd'⟩
    rw [hc, ← strokes_pause]
    exact keystrokes_snoc (by rw [hu]; rfl)
  · rw [if_neg hc, if_pos h.callback] at hu
    have hslot : (printUpdate L d).prn.slot =
        { d.prn.slot with strPtr := d.prn.slot.strPtr + 1 } := by
      rw [hu]
      split_ifs <;> exact slot_of_setAct (p := d.prn) rfl rfl
    have h1 : Typing (printUpdate L d) .pressed (a + 1) (n + 1) := h.next (by rw [hu]) hslot
    have hu' := update_pressed (L := L) h1.status
    refine ⟨printUpdate L (printUpdate L d), Types.trans (l := [d.ramByte L a]) (m := [])
      ⟨.update d, by rw [hu]; rfl, ?_⟩ ⟨.update _, by rw [hu'], ?_⟩, ?_⟩
    · rw [← strokes_press hc .detail]
      exact keystrokes_snoc (by rw [hu]; rfl)
    · rw [hu']
      exact (List.append_nil _).symm
    · exact typing_decLen (p := { (printUpdate L d).prn.releaseKey with kbdStatus := .released })
        (by rw [hu']) rfl h1.ptr h1.len h1.callback (h1.info (Nat.succ_ne_zero n))

/-- A whole stretch of `n` characters. -/
theorem typing_stretch {a : UInt16} {n : ℕ} (h : Typing d .released a n) :
    ∃ d', Types L d ((List.range n).map fun j => d.ramByte L (a + UInt16.ofNat j)) d' ∧
      Typing d' .released (a + UInt16.ofNat n) 0 := by
  induction n generalizing d a with
  | zero => exact ⟨d, ⟨.refl d, rfl, (List.append_nil _).symm⟩, by rwa [show
      a + UInt16.ofNat 0 = a from UInt16.add_zero a]⟩
  | succ n ih =>
    have hadd (j : ℕ) : a + 1 + UInt16.ofNat j = a + UInt16.ofNat (j + 1) := by
      rw [UInt16.add_assoc, UInt16.add_comm 1, UInt16.ofNat_add]
      rfl
    obtain ⟨d1, ht1, h1⟩ := typing_char (L := L) h
    obtain ⟨d2, ht2, h2⟩ := ih h1
    refine ⟨d2, ?_, by rwa [← hadd]⟩
    have hbytes : (List.range n).map (fun j => d1.ramByte L (a + 1 + UInt16.ofNat j)) =
        (List.range n).map fun j => d.ramByte L (a + UInt16.ofNat (j + 1)) := by
      refine List.map_congr_left fun j _ => ?_
      rw [ramByte_congr ht1.reaches.printStep ht1.crd, hadd]
    rw [hbytes] at ht2
    have h0 : d.ramByte L (a + UInt16.ofNat 0) = d.ramByte L a :=
      congrArg (d.ramByte L) (UInt16.add_zero a)
    rw [List.range_succ_eq_map, List.map_cons, List.map_map, h0]
    exact ht1.trans ht2

end

end Memtype
