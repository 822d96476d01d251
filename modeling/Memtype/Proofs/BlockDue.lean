import Memtype.Proofs.Cancel

/-! Which blob a detail is typed from. `CRD_apply` takes each block from the credential that is
selected by then, which a button or the end of a WRITE may have replaced. Here is what one call of
it does when it is at a block of a blob. -/

namespace Memtype

open Lib

def Call.block : Call → Option UInt16
  | .decrypt a => some a
  | _ => none

def Call.isPrintDetail : Call → Bool
  | .printDetail .. => true
  | _ => false

@[simp] theorem Call.block_decrypt (a : UInt16) : (Call.decrypt a).block = some a := rfl

@[simp] theorem Call.isPrintDetail_decrypt (a : UInt16) : (Call.decrypt a).isPrintDetail = false := rfl

namespace Device

def callsTo (d d' : Device) : List Call := d'.calls.drop d.calls.length

def blocksTo (d d' : Device) : List UInt16 := (d.callsTo d').filterMap Call.block

def beginsTo (d d' : Device) : Bool := (d.callsTo d').any Call.isPrintDetail

end Device

/-- What is decrypted are the blocks from number `k` on of the blob at `enc`, as it is in `m`. -/
structure TakesBlocks (enc : UInt16) (m : Mem) (k : ℕ) (d d' : Device) : Prop where
  blocks : d.blocksTo d' =
    (List.range (d.blocksTo d').length).map fun i => enc + UInt16.ofNat (16 * (k + i))
  content : ∀ a ∈ d.blocksTo d', d.flash.mem.read a 16 = m.read a 16

/-- The same along a run, up to the next `CRD_printDetail`. -/
def OneBlob (L : Layout) (enc : UInt16) (m : Mem) : ℕ → Outcome Device → List Event → Prop
  | _, _, [] => True
  | _, .spin _, _ :: _ => True
  | k, .ret d, e :: evs =>
    d.beginsTo (step L d e).state = true ∨ TakesBlocks enc m k d (step L d e).state ∧
      OneBlob L enc m (k + (d.blocksTo (step L d e).state).length) (step L d e) evs

/-- Every detail of the run is taken from the credential that `CRD_printDetail` found selected. -/
def OneCredential (L : Layout) (o : Outcome Device) (evs : List Event) : Prop :=
  ∀ pre e post d, evs = pre ++ e :: post → run (step L) o pre = .ret d →
    d.beginsTo (step L d e).state = true →
      TakesBlocks d.crd.credential.encrypt d.flash.mem 0 d (step L d e).state ∧
        OneBlob L d.crd.credential.encrypt d.flash.mem
          (d.blocksTo (step L d e).state).length (step L d e) post

/-- How many NULs there are from `position` to the end of its block. -/
def Crd.nulsLeft (c : Crd) : ℕ :=
  (Finset.univ.filter fun i : Fin 16 => c.buffpos ≤ i ∧ c.cipher.plain i = 0).card

/-- How many blocks `CRD_apply` has decrypted. -/
def Crd.blocksTaken (c : Crd) : ℕ := (c.position.toNat + 15) / 16

/-- The fields that `CRD_apply` is still to go through do not end in the block it is in. -/
def Crd.blockDue (c : Crd) : Prop :=
  c.counter < c.crdStop ∧ (c.buffpos = 0 ∨ c.counter.toNat + c.nulsLeft < c.crdStop.toNat)

namespace Device

/-- `CRD_apply` will decrypt another block, unless another detail begins before. -/
def blockDue (d : Device) : Prop := ¬d.applyDone ∧ d.crd.blockDue

def appliesNext (d : Device) : Prop :=
  d.prn.kbdStatus = .released ∧ d.prn.slot.callback = true ∧ d.prn.slot.len = 0

end Device

/-- The step selects another blob, or rewrites the one that is selected where `CRD_apply` has not
been. How far it will go is not known before: a PIN that is checked meanwhile changes the key. -/
def Event.replacesBlob (L : Layout) (d : Device) (e : Event) : Prop :=
  (step L d e).state.crd.credential.encrypt ≠ d.crd.credential.encrypt ∨
    ∃ i < 256, 16 * d.crd.blocksTaken ≤ i ∧
      (step L d e).state.flash.mem (d.crd.credential.encrypt + UInt16.ofNat i) ≠
        d.flash.mem (d.crd.credential.encrypt + UInt16.ofNat i)

def Event.isPrintUpdate : Event → Bool
  | .printUpdate => true
  | _ => false

/-- The blob is replaced while `CRD_apply` needs another block of it; or a PIN is checked over
the block that `CRD_apply` is in, its last; or `position`, an 8-bit counter, has come round to 0
when a block is due. -/
def Event.mixes (L : Layout) (d : Device) (e : Event) : Prop :=
  d.blockDue ∧ e.replacesBlob L d ∨ e.checksPin d ∧ ¬d.applyDone ∧ ¬d.blockDue ∨
    e.isPrintUpdate = true ∧ d.appliesNext ∧ d.blockDue ∧ d.crd.position = 0

instance (enc : UInt16) (m : Mem) (k : ℕ) (d d' : Device) : Decidable (TakesBlocks enc m k d d') :=
  -- over the list, not over all addresses
  haveI : Decidable (∀ a ∈ d.blocksTo d', d.flash.mem.read a 16 = m.read a 16) :=
    List.decidableBAll _ _
  decidable_of_iff (_ ∧ ∀ a ∈ d.blocksTo d', d.flash.mem.read a 16 = m.read a 16)
    ⟨fun h => ⟨h.1, h.2⟩, fun h => ⟨h.blocks, h.content⟩⟩

instance decidableOneBlob (L : Layout) (enc : UInt16) (m : Mem) : (k : ℕ) → (o : Outcome Device) →
    (evs : List Event) → Decidable (OneBlob L enc m k o evs)
  | _, _, [] => .isTrue trivial
  | _, .spin _, _ :: _ => .isTrue trivial
  | k, .ret d, e :: evs =>
    haveI := decidableOneBlob L enc m (k + (d.blocksTo (step L d e).state).length) (step L d e) evs
    inferInstanceAs (Decidable (_ ∨ _ ∧ _))

instance (c : Crd) : Decidable c.blockDue := inferInstanceAs (Decidable (_ ∧ (_ ∨ _)))

instance (d : Device) : Decidable d.blockDue := inferInstanceAs (Decidable (_ ∧ _))

instance (d : Device) : Decidable d.appliesNext := inferInstanceAs (Decidable (_ ∧ _ ∧ _))

instance (L : Layout) (d : Device) (e : Event) : Decidable (e.replacesBlob L d) :=
  inferInstanceAs (Decidable (_ ∨ ∃ i < 256, _ ∧ _))

instance (L : Layout) (d : Device) (e : Event) : Decidable (e.mixes L d) :=
  inferInstanceAs (Decidable (_ ∧ _ ∨ _ ∧ _ ∧ _ ∨ _ ∧ _ ∧ _ ∧ _))

theorem applySize_le (c : Crd) : applySize c ≤ 16 - c.buffpos := (crdFind_spec _ _).1

theorem buffpos_lt (c : Crd) : c.buffpos < 16 := by
  rw [show c.buffpos = c.position.toNat % 16 from UInt8.toNat_mod ..]
  exact Nat.mod_lt _ (by decide)

/-- `position` moves into the block that it is at, and to its end at most. -/
theorem advance_position {n : ℕ} {c : Crd} (hn : n ≤ 16 - c.buffpos) :
    (applyAdvance n c).position = 0 ∨
      ((applyAdvance n c).position.toNat + 15) / 16 = c.position.toNat / 16 + 1 := by
  have hb : c.buffpos = c.position.toNat % 16 := UInt8.toNat_mod ..
  have hlt := c.position.toNat_lt
  have hpos (m : ℕ) (h1 : 1 ≤ m) (h2 : m ≤ 16 - c.buffpos)
      (hp : (applyAdvance n c).position = c.position + UInt8.ofNat m) :
      (applyAdvance n c).position = 0 ∨
        ((applyAdvance n c).position.toNat + 15) / 16 = c.position.toNat / 16 + 1 := by
    have ht : (applyAdvance n c).position.toNat = (c.position.toNat + m) % 256 := by
      rw [hp, UInt8.toNat_add, UInt8.toNat_ofNat']
      omega
    by_cases hw : c.position.toNat + m = 256
    · refine .inl (UInt8.toNat_inj.mp ?_)
      rw [ht, hw]
      rfl
    · refine .inr ?_
      rw [ht]
      omega
  have hbl := buffpos_lt c
  by_cases h : n < 16 - c.buffpos
  · refine hpos (n + 1) (by omega) h ?_
    rw [advance_short h]
    dsimp only
    rw [UInt8.ofNat_add, UInt8.add_assoc, UInt8.add_comm 1]
    rfl
  · refine hpos n (by omega) hn ?_
    rw [advance_full h]

theorem plain_before {c : Crd} {i : Fin 16} (h1 : c.buffpos ≤ i) (h2 : i < c.buffpos + applySize c) :
    c.cipher.plain i ≠ 0 := by
  have h := (crdFind_spec (fun j => c.cipher.plain (Fin.ofNat 16 (c.buffpos + j)))
    (16 - c.buffpos)).2.1 (i - c.buffpos) (by unfold applySize at h2; omega)
  rw [show c.buffpos + (i - c.buffpos) = i by omega, Fin.ofNat_val_eq_self] at h
  exact h

theorem plain_at {c : Crd} {i : Fin 16} (hi : i.val = c.buffpos + applySize c)
    (h : applySize c < 16 - c.buffpos) : c.cipher.plain i = 0 := by
  have h0 := (crdFind_spec (fun j => c.cipher.plain (Fin.ofNat 16 (c.buffpos + j)))
    (16 - c.buffpos)).2.2 h
  rw [show c.buffpos + crdFind _ _ = i from hi.symm, Fin.ofNat_val_eq_self] at h0
  exact h0

/-- The NUL found is the first of those left. -/
theorem nulsLeft_find {c c' : Crd} (h : applySize c < 16 - c.buffpos) (hc : c'.cipher = c.cipher)
    (hb : c'.buffpos = c.buffpos + applySize c + 1) : c.nulsLeft = c'.nulsLeft + 1 := by
  have hlt : c.buffpos + applySize c < 16 := by omega
  unfold Crd.nulsLeft
  rw [hc, hb, ← Finset.card_insert_of_notMem (a := ⟨c.buffpos + applySize c, hlt⟩) (by simp)]
  congr 1
  ext i
  simp only [Finset.mem_filter, Finset.mem_univ, true_and, Finset.mem_insert, Fin.ext_iff]
  constructor
  · rintro ⟨h1, h2⟩
    by_cases hi : i.val = c.buffpos + applySize c
    · exact .inl hi
    · refine .inr ⟨?_, h2⟩
      by_contra hlt
      exact plain_before h1 (by omega) h2
  · rintro (hi | ⟨h1, h2⟩)
    · exact ⟨by omega, plain_at hi h⟩
    · exact ⟨by omega, h2⟩

theorem nulsLeft_none {c : Crd} (h : ¬applySize c < 16 - c.buffpos) : c.nulsLeft = 0 := by
  refine Finset.card_eq_zero.mpr (Finset.filter_eq_empty_iff.mpr ?_)
  rintro i - ⟨h1, h2⟩
  exact plain_before h1 (by omega) h2

/-- None is left behind one that is the last byte of the block. -/
theorem nulsLeft_last {c : Crd} (h : c.buffpos + applySize c = 15) : c.nulsLeft ≤ 1 := by
  refine Finset.card_le_one.mpr ?_
  have hlast (i : Fin 16) (hi : i ∈ Finset.univ.filter fun i : Fin 16 =>
      c.buffpos ≤ i ∧ c.cipher.plain i = 0) : i.val = 15 := by
    obtain ⟨-, h1, h2⟩ := Finset.mem_filter.mp hi
    by_contra hne
    exact plain_before h1 (by omega) h2
  intro i hi j hj
  exact Fin.ext ((hlast i hi).trans (hlast j hj).symm)

/-- When the fields that are left end in the block, no other is needed. -/
theorem advance_notDue {c : Crd} (hc : c.counter < c.crdStop) (hn : ¬c.blockDue) :
    ¬(applyAdvance (applySize c) c).blockDue := by
  obtain ⟨hb, hn⟩ := not_or.mp fun h => hn ⟨hc, h⟩
  have hlt : applySize c < 16 - c.buffpos := by
    by_contra h
    have hc := UInt8.lt_iff_toNat_lt.mp hc
    rw [nulsLeft_none h] at hn
    omega
  have hcount : (applyAdvance (applySize c) c).counter.toNat = c.counter.toNat + 1 := by
    rw [advance_short hlt]
    dsimp only
    have h1 := UInt8.lt_iff_toNat_lt.mp hc
    have h2 := c.crdStop.toNat_lt
    rw [UInt8.toNat_add]
    simp only [UInt8.reduceToNat]
    omega
  have hpos : (applyAdvance (applySize c) c).buffpos = (c.buffpos + applySize c + 1) % 16 := by
    rw [advance_short hlt]
    unfold Crd.buffpos
    dsimp only
    rw [UInt8.toNat_mod, UInt8.toNat_mod, UInt8.toNat_add, UInt8.toNat_add, UInt8.toNat_ofNat']
    simp only [UInt8.reduceToNat]
    omega
  rintro ⟨hc', hdue⟩
  replace hc' := UInt8.lt_iff_toNat_lt.mp hc'
  rw [show (applyAdvance (applySize c) c).crdStop = c.crdStop by rw [advance_short hlt]] at hc' hdue
  by_cases hz : c.buffpos + applySize c = 15
  · have h1 := nulsLeft_last hz
    omega
  · rw [Nat.mod_eq_of_lt (by omega)] at hpos
    have h1 := nulsLeft_find hlt (applyAdvance_cipher (applySize c) c) hpos
    omega

section

variable {L : Layout} {d d' : Device} {enc : UInt16} {m : Mem} {k : ℕ}

theorem callsTo_eq {l : List Call} (h : d'.calls = d.calls ++ l) : d.callsTo d' = l := by
  unfold Device.callsTo
  rw [h, List.drop_left]

theorem apply_crd (hc : d.crd.counter < d.crd.crdStop) : (crdApply L d).crd =
    applyAdvance (applySize (applyDecrypt d).crd) (applyDecrypt d).crd := by
  unfold crdApply applyQueue
  rw [if_neg (UInt8.not_le.mpr hc)]
  dsimp only
  split_ifs <;> rfl

theorem queue_calls (L : Layout) (n : ℕ) (d : Device) : ∃ c : Call,
    c.block = none ∧ c.isPrintDetail = false ∧ (applyQueue L n d).calls = d.calls ++ [c] := by
  unfold applyQueue
  split_ifs
  · exact ⟨.segment (UInt8.ofNat n), rfl, rfl, rfl⟩
  · exact ⟨.placeholder, rfl, rfl, rfl⟩

/-- The calls of `CRD_apply`: a block that it starts, and what it queues. -/
theorem apply_calls (hc : d.crd.counter < d.crd.crdStop) : ∃ c : Call,
    c.block = none ∧ c.isPrintDetail = false ∧ (crdApply L d).calls = d.calls ++
      ((if d.crd.buffpos = 0 then [.decrypt (d.crd.credential.encrypt + d.crd.position.toUInt16)]
        else []) ++ [c]) := by
  have hdec : (applyDecrypt d).calls = d.calls ++ if d.crd.buffpos = 0 then
      [.decrypt (d.crd.credential.encrypt + d.crd.position.toUInt16)] else [] := by
    unfold applyDecrypt
    split_ifs
    · rfl
    · exact (List.append_nil _).symm
  obtain ⟨c, hb, hp, hq⟩ := queue_calls L (applySize (applyDecrypt d).crd) (applyDecrypt d)
  refine ⟨c, hb, hp, ?_⟩
  rw [← List.append_assoc, ← hdec, ← hq]
  unfold crdApply
  rw [if_neg (UInt8.not_le.mpr hc)]

theorem blocksTo_apply (hc : d.crd.counter < d.crd.crdStop) : d.blocksTo (crdApply L d) =
    (if d.crd.buffpos = 0 then [d.crd.credential.encrypt + d.crd.position.toUInt16] else []) ∧
      d.beginsTo (crdApply L d) = false := by
  obtain ⟨c, hb, hp, hcalls⟩ := apply_calls (L := L) hc
  unfold Device.blocksTo Device.beginsTo
  rw [callsTo_eq hcalls]
  split_ifs <;> simp [hb, hp]

theorem begins_apply (L : Layout) (d : Device) : d.beginsTo (crdApply L d) = false := by
  by_cases hc : d.crd.counter < d.crd.crdStop
  · exact (blocksTo_apply hc).2
  · have hl : d.callsTo d = [] := callsTo_eq (List.append_nil _).symm
    unfold crdApply Device.beginsTo
    rw [if_pos (UInt8.not_lt.mp hc), hl]
    rfl

/-- The next block is number `k` of the blob at `enc`, which is as in `m` from there on. -/
structure AtBlock (enc : UInt16) (m : Mem) (k : ℕ) (d : Device) : Prop where
  encrypt : d.crd.credential.encrypt = enc
  mem : ∀ i < 256, 16 * k ≤ i → d.flash.mem (enc + UInt16.ofNat i) = m (enc + UInt16.ofNat i)
  position : d.crd.position = 0 ∨ d.crd.blocksTaken = k

theorem apply_takes (hdue : d.crd.blockDue) (h : AtBlock enc m k d)
    (hk : d.crd.blocksTaken = k) : TakesBlocks enc m k d (crdApply L d) ∧
      AtBlock enc m (k + (d.blocksTo (crdApply L d)).length) (crdApply L d) := by
  obtain ⟨hc, -⟩ := hdue
  unfold Crd.blocksTaken at hk
  obtain ⟨hb, -⟩ := blocksTo_apply (L := L) hc
  have hpos : d.crd.buffpos = d.crd.position.toNat % 16 := UInt8.toNat_mod ..
  have hlt := d.crd.position.toNat_lt
  have hadv := advance_position (c := (applyDecrypt d).crd) (applySize_le (applyDecrypt d).crd)
  rw [← apply_crd hc (L := L)] at hadv
  have hdec : (applyDecrypt d).crd.position = d.crd.position := by
    rw [(applyDecrypt_frame d).2.1]
  have hps := printStep_apply L d
  have hnext : AtBlock enc m (d.crd.position.toNat / 16 + 1) (crdApply L d) := by
    refine ⟨hps.credential ▸ h.encrypt, ?_, by rwa [hdec] at hadv⟩
    rw [hps.flash]
    exact fun i hi hle => h.mem i hi (by omega)
  by_cases h0 : d.crd.buffpos = 0
  · rw [if_pos h0, h.encrypt, show d.crd.position.toUInt16 = UInt16.ofNat (16 * k) by
      rw [← UInt16.ofNat_uInt8ToNat]; congr 1; omega] at hb
    refine ⟨⟨?_, fun a ha => ?_⟩, ?_⟩
    · rw [hb]
      rfl
    · rw [hb, List.mem_singleton] at ha
      subst ha
      funext i
      have hi : 16 * k + i.val < 256 := by omega
      rw [Mem.read_apply, Mem.read_apply, UInt16.add_assoc, ← UInt16.ofNat_add]
      exact h.mem _ hi (Nat.le_add_right _ _)
    · rwa [hb, List.length_singleton, show k + 1 = d.crd.position.toNat / 16 + 1 by omega]
  · rw [if_neg h0] at hb
    refine ⟨⟨?_, fun a ha => ?_⟩, ?_⟩
    · rw [hb]
      rfl
    · rw [hb] at ha
      exact absurd ha List.not_mem_nil
    · rwa [hb, List.length_nil, show k + 0 = d.crd.position.toNat / 16 + 1 by omega]

/-- In its last block, `CRD_apply` decrypts nothing. -/
theorem apply_last (hc : d.crd.counter < d.crd.crdStop) (hn : ¬d.crd.blockDue) :
    d.blocksTo (crdApply L d) = [] ∧ ¬(crdApply L d).crd.blockDue := by
  have h0 : d.crd.buffpos ≠ 0 := fun h => hn ⟨hc, .inl h⟩
  have hdec : applyDecrypt d = d := if_neg h0
  refine ⟨(blocksTo_apply hc).1.trans (if_neg h0), ?_⟩
  rw [apply_crd hc, hdec]
  exact advance_notDue hc hn

end

end Memtype
