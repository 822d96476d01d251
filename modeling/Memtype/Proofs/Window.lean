import Mathlib.Data.Nat.Count
import Memtype.Proofs.Mixing

/-! The blob as `CRD_apply` reads it, by an offset of 8 bits: of a blob longer than 256 bytes it
reads the first 256, over and over. -/

namespace Memtype

open Lib

/-- The blocks of the selected credential decrypt to `blob` under the key. -/
structure Sealed (blob : List UInt8) (d : Device) : Prop where
  whole : 16 ∣ blob.length
  block : ∀ i, 16 * i < blob.length → ∀ j : Fin 16,
    (noekeonDecrypt ⟨d.flash.mem.read (d.crd.credential.encrypt + UInt16.ofNat (16 * i)) 16,
      d.crd.cipher.key⟩).plain j = blob.getD (16 * i + j) 0

def windowByte (blob : List UInt8) (i : ℕ) : UInt8 := blob.getD (i % 256) 0

/-- How many fields end in the first `p` bytes. -/
def ended (blob : List UInt8) (p : ℕ) : ℕ := Nat.count (fun i => windowByte blob i = 0) p

def applyTaken (d : Device) : ℕ :=
  if d.crd.crdStop ≤ d.crd.counter then 0
  else if applySize (applyDecrypt d).crd < 16 - d.crd.buffpos then applySize (applyDecrypt d).crd + 1
  else applySize (applyDecrypt d).crd

structure Reading (blob : List UInt8) (stop : UInt8) (p : ℕ) (d : Device) : Prop where
  sealed : Sealed blob d
  fields : stop.toNat ≤ blob.count 0
  crdStop : d.crd.crdStop = stop
  position : d.crd.position.toNat = p % 256
  counter : d.crd.counter.toNat = ended blob p
  le : ended blob p ≤ stop.toNat
  block : ended blob p < stop.toNat → p % 16 ≠ 0 → ∀ j : Fin 16,
    d.crd.cipher.plain j = windowByte blob (p - p % 16 + j)

section

variable {L : Layout} {blob : List UInt8} {stop : UInt8} {p : ℕ} {d d' : Device}

theorem Sealed.of_printStep (h : Sealed blob d) (hp : PrintStep d d') : Sealed blob d' := by
  refine ⟨h.whole, fun i hi j => ?_⟩
  rw [hp.flash, hp.credential, hp.key]
  exact h.block i hi j

/-- Within the first 256 bytes the blob is read as it is. -/
theorem ended_take {q : ℕ} (hq : q ≤ 256) (hl : q ≤ blob.length) :
    ended blob q = (blob.take q).count 0 := by
  induction q with
  | zero => rfl
  | succ q ih =>
    have hb : windowByte blob q = blob[q] := by
      unfold windowByte
      rw [Nat.mod_eq_of_lt (by omega), List.getD_eq_getElem?_getD, List.getElem?_eq_getElem (by omega),
        Option.getD_some]
    have hs := ih (by omega) (by omega)
    unfold ended at hs ⊢
    rw [Nat.count_succ, hs, hb, List.take_succ_eq_append_getElem (by omega), List.count_append,
      List.count_singleton]
    simp only [beq_iff_eq]

/-- While a field is due there is a byte to read. -/
theorem Reading.inside (h : Reading blob stop p d) (hc : ended blob p < stop.toNat) :
    p % 256 < blob.length := by
  by_contra hlt
  have hle : blob.length ≤ p := (not_lt.mp hlt).trans (Nat.mod_le p 256)
  have h256 : blob.length ≤ 256 := (not_lt.mp hlt).trans (Nat.mod_lt p (by decide)).le
  have hall := ended_take h256 le_rfl
  rw [List.take_length] at hall
  have hmono : ended blob blob.length ≤ ended blob p := Nat.count_monotone _ hle
  have hfields := h.fields
  omega

theorem Reading.counter_lt (h : Reading blob stop p d) :
    d.crd.counter < d.crd.crdStop ↔ ended blob p < stop.toNat := by
  rw [UInt8.lt_iff_toNat_lt, h.counter, h.crdStop]

theorem Reading.buffpos (h : Reading blob stop p d) : d.crd.buffpos = p % 16 := by
  rw [buffpos_eq, h.position]
  omega

/-- After step 1 the plain buffer is the block that is read. -/
theorem Reading.plain (h : Reading blob stop p d) (hc : ended blob p < stop.toNat) (j : Fin 16) :
    (applyDecrypt d).crd.cipher.plain j = windowByte blob (p - p % 16 + j) := by
  unfold applyDecrypt
  rw [h.buffpos]
  split_ifs with h0
  · have hin := h.inside hc
    have hpos : 16 * (p % 256 / 16) = p % 256 := by omega
    have hb := h.sealed.block (p % 256 / 16) (by omega) j
    rw [hpos, ← h.position, UInt16.ofNat_uInt8ToNat] at hb
    have hj : (p - p % 16 + j) % 256 = d.crd.position.toNat + j := by
      rw [h.position]
      omega
    unfold windowByte
    rw [hj, ← hb]
    rfl
  · exact h.block hc h0 j

/-- Step 2 finds the bytes up to the NUL or the end of the block. -/
theorem Reading.size (h : Reading blob stop p d) (hc : ended blob p < stop.toNat) :
    applySize (applyDecrypt d).crd ≤ 16 - p % 16 ∧
    (∀ i < applySize (applyDecrypt d).crd, windowByte blob (p + i) ≠ 0) ∧
    (applySize (applyDecrypt d).crd < 16 - p % 16 →
      windowByte blob (p + applySize (applyDecrypt d).crd) = 0) := by
  have hbyte (i : ℕ) (hi : i < 16 - p % 16) :
      (applyDecrypt d).crd.cipher.plain (Fin.ofNat 16 (p % 16 + i)) = windowByte blob (p + i) := by
    rw [h.plain hc, Fin.val_ofNat]
    congr 1
    omega
  have hbuff : (applyDecrypt d).crd.buffpos = p % 16 := by
    rw [applyDecrypt_buffpos, ← buffpos_eq, h.buffpos]
  unfold applySize
  rw [hbuff]
  obtain ⟨h1, h2, h3⟩ := crdFind_spec (fun i => (applyDecrypt d).crd.cipher.plain
    (Fin.ofNat 16 (p % 16 + i))) (16 - p % 16)
  refine ⟨h1, fun i hi => ?_, fun hlt => ?_⟩
  · rw [← hbyte i (by omega)]
    exact h2 i hi
  · rw [← hbyte _ hlt]
    exact h3 hlt

/-- No field ends in a stretch. -/
theorem ended_stretch {n : ℕ} (h : ∀ i < n, windowByte blob (p + i) ≠ 0) :
    ended blob (p + n) = ended blob p := by
  unfold ended
  rw [Nat.count_add, Nat.count_iff_forall_not.mpr h, Nat.add_zero]

theorem ended_succ (blob : List UInt8) (p : ℕ) :
    ended blob (p + 1) = ended blob p + if windowByte blob p = 0 then 1 else 0 :=
  Nat.count_succ _ p

/-- What a call consumes of the text, up to the NUL of a field or the end of a block. -/
structure Stretch (blob : List UInt8) (p n t : ℕ) : Prop where
  size : n ≤ 16 - p % 16
  chars : ∀ i < n, windowByte blob (p + i) ≠ 0
  ends : t = n ∧ n = 16 - p % 16 ∧ ended blob (p + t) = ended blob p ∨
    t = n + 1 ∧ n < 16 - p % 16 ∧ windowByte blob (p + n) = 0 ∧ ended blob (p + t) = ended blob p + 1

theorem Stretch.pos {n t : ℕ} (h : Stretch blob p n t) : 1 ≤ t ∧ t ≤ 16 - p % 16 := by
  rcases h.ends with ⟨ht, hn, -⟩ | ⟨ht, hn, -⟩ <;> omega

theorem Reading.stretch (h : Reading blob stop p d) (hc : ended blob p < stop.toNat) :
    Stretch blob p (applySize (applyDecrypt d).crd) (applyTaken d) := by
  obtain ⟨hsize, hchars, hz⟩ := h.size hc
  have hsame := ended_stretch hchars
  refine ⟨hsize, hchars, ?_⟩
  unfold applyTaken
  rw [if_neg (UInt8.not_le.mpr (h.counter_lt.mpr hc)), h.buffpos]
  split_ifs with hn
  · refine .inr ⟨rfl, hn, hz hn, ?_⟩
    rw [← Nat.add_assoc, ended_succ, hsame, if_pos (hz hn)]
  · exact .inl ⟨rfl, by omega, hsame⟩

/-- A call of `CRD_apply` consumes one stretch. -/
theorem Reading.apply (h : Reading blob stop p d) (L : Layout) :
    Reading blob stop (p + applyTaken d) (crdApply L d) := by
  by_cases hc : ended blob p < stop.toNat
  · have hs := h.stretch hc
    have hstep := printStep_apply L d
    have hcrd := apply_crd (L := L) (h.counter_lt.mpr hc)
    obtain ⟨-, hdec, -⟩ := applyDecrypt_frame d
    have hplain := h.plain hc
    have hbuff : (applyDecrypt d).crd.buffpos = p % 16 := by
      rw [applyDecrypt_buffpos, ← buffpos_eq, h.buffpos]
    have hposition : (applyDecrypt d).crd.position.toNat = p % 256 := by
      rw [hdec]
      exact h.position
    have hcounter : (applyDecrypt d).crd.counter.toNat = ended blob p := by
      rw [hdec]
      exact h.counter
    have hstop : (applyDecrypt d).crd.crdStop = stop := by
      rw [hdec]
      exact h.crdStop
    have hsize := hs.size
    generalize applySize (applyDecrypt d).crd = n at hs hcrd hsize
    have hn : (UInt8.ofNat n).toNat = n := by
      rw [UInt8.toNat_ofNat']
      omega
    rcases hs.ends with ⟨ht, hfull, hend⟩ | ⟨ht, hshort, hz, hend⟩
    · rw [advance_full (by omega)] at hcrd
      refine ⟨h.sealed.of_printStep hstep, h.fields, ?_, ?_, ?_, ?_, ?_⟩
      · rw [hcrd]
        exact hstop
      · rw [hcrd, UInt8.toNat_add, hposition, hn, ht]
        omega
      · rw [hcrd, hend]
        exact hcounter
      · rw [hend]
        exact h.le
      · intro _ h16
        exact absurd (by omega) h16
    · rw [advance_short (by omega)] at hcrd
      refine ⟨h.sealed.of_printStep hstep, h.fields, ?_, ?_, ?_, ?_, ?_⟩
      · rw [hcrd]
        exact hstop
      · rw [hcrd, UInt8.toNat_add, UInt8.toNat_add, hposition, hn, ht,
          UInt8.toNat_one]
        omega
      · have hlt := stop.toNat_lt
        rw [hcrd, hend, ← hcounter]
        exact toNat_succ8 (by omega)
      · rw [hend]
        exact hc
      · intro _ _ j
        rw [hcrd]
        refine (hplain j).trans (congrArg (windowByte blob) ?_)
        omega
  · have hle : d.crd.crdStop ≤ d.crd.counter := UInt8.not_lt.mp fun hlt => hc (h.counter_lt.mp hlt)
    have happly : crdApply L d = d := if_pos hle
    have htaken : applyTaken d = 0 := if_pos hle
    rw [happly, htaken, Nat.add_zero]
    exact h

end

end Memtype
