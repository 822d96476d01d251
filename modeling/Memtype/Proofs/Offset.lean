import Memtype.Proofs.Window

/-! The offset into a credential, along the calls of `CRD_apply` that a `CRD_printDetail` starts.
It has 8 bits, so it holds as long as fewer than 256 bytes are consumed. -/

namespace Memtype

open Lib

/-- `CRD_printDetail` before its call of `CRD_apply`. -/
def detailBegin (start stop : UInt8) (d : Device) : Device :=
  { d with crd := { d.crd with position := 0, counter := 0, crdStart := start, crdStop := stop } }.call
    (.printDetail start stop)

def consumed (L : Layout) (d : Device) (k : ℕ) : ℕ :=
  ∑ i ∈ Finset.range k, applyTaken ((crdApply L)^[i] d)

/-- The bytes of the first `stop` fields, with their NULs. -/
def fieldBytes (fs : List (List UInt8)) (stop : UInt8) : ℕ := (joinFields 0 (fs.take stop.toNat)).length

/-- Along the calls `position` is what they have consumed, and `counter` reaches `crdStop` when the
blocks up to the end of field `stop - 1` have been decrypted, each once. -/
structure Tracks (L : Layout) (fs : List (List UInt8)) (start stop : UInt8) (d : Device) : Prop where
  position : ∀ k, ((crdApply L)^[k] (detailBegin start stop d)).crd.position.toNat =
    consumed L (detailBegin start stop d) k
  ends : ∃ k, ((crdApply L)^[k] (detailBegin start stop d)).crd.counter = stop ∧
    d.blocksTo ((crdApply L)^[k] (detailBegin start stop d)) =
      (List.range ((fieldBytes fs stop + 15) / 16)).map fun i =>
        d.crd.credential.encrypt + UInt16.ofNat (16 * i)

section

variable {L : Layout} {blob : List UInt8} {start stop : UInt8} {p : ℕ} {d d' : Device}

theorem consumed_succ (L : Layout) (d : Device) (k : ℕ) :
    consumed L d (k + 1) = consumed L d k + applyTaken ((crdApply L)^[k] d) :=
  Finset.sum_range_succ ..

theorem reading_begin (h : Sealed blob d) (hf : stop.toNat ≤ blob.count 0) :
    Reading blob stop 0 (detailBegin start stop d) where
  sealed := ⟨h.whole, h.block⟩
  fields := hf
  crdStop := rfl
  position := rfl
  counter := rfl
  le := Nat.zero_le _
  block _ h0 := absurd rfl h0

theorem Reading.iterate (h : Reading blob stop 0 d) (L : Layout) (k : ℕ) :
    Reading blob stop (consumed L d k) ((crdApply L)^[k] d) := by
  induction k with
  | zero => exact h
  | succ k ih =>
    rw [consumed_succ, Function.iterate_succ_apply']
    exact ih.apply L

/-- As long as the fields do not end, each call consumes something. -/
theorem Reading.ends (h : Reading blob stop 0 d) (L : Layout) {n : ℕ}
    (hn : ∀ k, consumed L d k ≤ n) : ∃ k, ended blob (consumed L d k) = stop.toNat := by
  by_contra hnone
  have hgrows (k : ℕ) : k ≤ consumed L d k := by
    induction k with
    | zero => exact Nat.zero_le _
    | succ k ih =>
      have hr := h.iterate L k
      have hc := lt_of_le_of_ne hr.le fun he => hnone ⟨k, he⟩
      have := (hr.stretch hc).pos
      rw [consumed_succ]
      omega
  have := hgrows (n + 1)
  have := hn (n + 1)
  omega

theorem Reading.taken_done (h : Reading blob stop p d) (hc : ¬ended blob p < stop.toNat) :
    applyTaken d = 0 :=
  if_pos (UInt8.not_lt.mp fun hlt => hc (h.counter_lt.mp hlt))

theorem blocksTo_trans {d'' : Device} (h : d.calls <+: d'.calls) (h' : d'.calls <+: d''.calls) :
    d.blocksTo d'' = d.blocksTo d' ++ d'.blocksTo d'' := by
  obtain ⟨l, hl⟩ := h
  obtain ⟨m, hm⟩ := h'
  unfold Device.blocksTo
  rw [callsTo_eq hl.symm, callsTo_eq hm.symm, callsTo_eq (l := l ++ m) (by rw [← hm, ← hl,
    List.append_assoc]), List.filterMap_append]

theorem PrintStep.grows (h : PrintStep d d') : d.calls <+: d'.calls := by
  obtain ⟨l, hl, -⟩ := h.calls
  exact ⟨l, hl.symm⟩

theorem blocksTo_self (d : Device) : d.blocksTo d = [] := by
  unfold Device.blocksTo
  rw [callsTo_eq (List.append_nil _).symm]
  rfl

/-- A call decrypts the block that it starts. -/
theorem Reading.block_apply (h : Reading blob stop p d) (hp : p < 256) (L : Layout) :
    (List.range ((p + 15) / 16)).map (fun i => d.crd.credential.encrypt + UInt16.ofNat (16 * i)) ++
      d.blocksTo (crdApply L d) = (List.range ((p + applyTaken d + 15) / 16)).map fun i =>
        d.crd.credential.encrypt + UInt16.ofNat (16 * i) := by
  by_cases hc : ended blob p < stop.toNat
  · have hs := (h.stretch hc).pos
    rw [(blocksTo_apply (h.counter_lt.mpr hc)).1, h.buffpos]
    split_ifs with h0
    · have haddr : d.crd.position.toUInt16 = UInt16.ofNat (16 * ((p + 15) / 16)) := by
        rw [← UInt16.ofNat_uInt8ToNat, h.position]
        congr 1
        omega
      rw [haddr, show (p + applyTaken d + 15) / 16 = (p + 15) / 16 + 1 by omega, List.range_succ,
        List.map_append, List.map_singleton]
    · rw [List.append_nil, show (p + applyTaken d + 15) / 16 = (p + 15) / 16 by omega]
  · have hle : d.crd.crdStop ≤ d.crd.counter := UInt8.not_lt.mp fun hlt => hc (h.counter_lt.mp hlt)
    rw [show crdApply L d = d from if_pos hle, blocksTo_self, h.taken_done hc, List.append_nil,
      Nat.add_zero]

theorem Reading.blocks (h : Reading blob stop 0 d) (hp : ∀ k, consumed L d k < 256) (k : ℕ) :
    d.blocksTo ((crdApply L)^[k] d) = (List.range ((consumed L d k + 15) / 16)).map fun i =>
      d.crd.credential.encrypt + UInt16.ofNat (16 * i) := by
  induction k with
  | zero =>
    have h0 : consumed L d 0 = 0 := rfl
    rw [Function.iterate_zero_apply, blocksTo_self, h0]
    rfl
  | succ k ih =>
    have hk := printStep_iterate L d k
    have hnext := printStep_apply L ((crdApply L)^[k] d)
    have hb := (h.iterate L k).block_apply (hp k) L
    rw [hk.credential] at hb
    rw [Function.iterate_succ_apply', blocksTo_trans hk.grows hnext.grows, ih,
      consumed_succ, hb]

/-- A blob of fields, each with its NUL, and then zeros. -/
def fieldBlob (fs : List (List UInt8)) (pad : ℕ) : List UInt8 := joinFields 0 fs ++ List.replicate pad 0

variable {fs : List (List UInt8)} {pad : ℕ}

theorem fieldBlob_split (fs : List (List UInt8)) (pad : ℕ) (stop : UInt8) : fieldBlob fs pad =
    joinFields 0 (fs.take stop.toNat) ++
      (joinFields 0 (fs.drop stop.toNat) ++ List.replicate pad 0) := by
  unfold fieldBlob joinFields
  rw [← List.append_assoc, ← List.flatMap_append, List.take_append_drop]

theorem fieldBytes_le (fs : List (List UInt8)) (pad : ℕ) (stop : UInt8) :
    fieldBytes fs stop ≤ (fieldBlob fs pad).length := by
  rw [fieldBlob_split fs pad stop, List.length_append]
  exact Nat.le_add_right _ _

/-- Within the first 256 bytes the fields end where `fieldBytes` says. -/
theorem ended_lt (hf : ∀ f ∈ fs, 0 ∉ f) (hl : stop.toNat ≤ fs.length) {q : ℕ} (hq : q ≤ 256)
    (hb : q ≤ (fieldBlob fs pad).length) :
    ended (fieldBlob fs pad) q < stop.toNat ↔ q < fieldBytes fs stop := by
  rw [ended_take hq hb]
  exact count_take_joinFields hf hl _ q

theorem count_fieldBlob (fs : List (List UInt8)) (pad : ℕ) :
    fs.length ≤ (fieldBlob fs pad).count 0 := by
  unfold fieldBlob
  rw [List.count_append]
  exact (count_joinFields fs).trans (Nat.le_add_right _ _)

/-- Short enough, no call goes beyond the end of the fields. -/
theorem Reading.consumed_le (hf : ∀ f ∈ fs, 0 ∉ f) (hl : stop.toNat ≤ fs.length)
    (h : Reading (fieldBlob fs pad) stop 0 d) (hshort : fieldBytes fs stop ≤ 255) (k : ℕ) :
    consumed L d k ≤ fieldBytes fs stop := by
  have hle := fieldBytes_le fs pad stop
  have hwhole := h.sealed.whole
  induction k with
  | zero => exact Nat.zero_le _
  | succ k ih =>
    have hr := h.iterate L k
    rw [consumed_succ]
    by_cases hc : ended (fieldBlob fs pad) (consumed L d k) < stop.toNat
    · have hs := hr.stretch hc
      have hlt := (ended_lt hf hl (by omega) (by omega)).mp hc
      -- the stretch itself does not reach the end
      have hchars : consumed L d k + applySize (applyDecrypt ((crdApply L)^[k] d)).crd <
          fieldBytes fs stop := by
        have hsize := hs.size
        rw [← ended_stretch hs.chars] at hc
        exact (ended_lt hf hl (by omega) (by omega)).mp hc
      rcases hs.ends with ⟨ht, -⟩ | ⟨ht, -⟩ <;> omega
    · rw [hr.taken_done hc]
      exact ih

theorem reading_fields (start : UInt8) (hl : stop.toNat ≤ fs.length) (hd : Sealed (fieldBlob fs pad) d) :
    Reading (fieldBlob fs pad) stop 0 (detailBegin start stop d) :=
  reading_begin hd (hl.trans (count_fieldBlob fs pad))

/-- The offset comes round before longer fields end. -/
theorem Tracks.short (ht : Tracks L fs start stop d) (hf : ∀ f ∈ fs, 0 ∉ f)
    (hl : stop.toNat ≤ fs.length) (hd : Sealed (fieldBlob fs pad) d) : fieldBytes fs stop ≤ 255 := by
  have h0 := reading_fields start hl hd
  have hle := fieldBytes_le fs pad stop
  have hsmall (k : ℕ) : consumed L (detailBegin start stop d) k ≤ 255 := by
    rw [← ht.position k]
    exact Nat.le_of_lt_succ (UInt8.toNat_lt _)
  obtain ⟨k, hk⟩ := h0.ends L hsmall
  have hk255 := hsmall k
  by_contra hlong
  have hdue : ended (fieldBlob fs pad) (consumed L (detailBegin start stop d) k) < stop.toNat :=
    (ended_lt hf hl (by omega) (by omega)).mpr (by omega)
  exact absurd hk hdue.ne

/-- Shorter fields are read to their end. -/
theorem tracks_short (hf : ∀ f ∈ fs, 0 ∉ f) (hl : stop.toNat ≤ fs.length)
    (hd : Sealed (fieldBlob fs pad) d) (hshort : fieldBytes fs stop ≤ 255) :
    Tracks L fs start stop d := by
  have h0 := reading_fields start hl hd
  have hcons := h0.consumed_le (L := L) hf hl hshort
  have hp (k : ℕ) : consumed L (detailBegin start stop d) k < 256 :=
    (hcons k).trans_lt (Nat.lt_succ_of_le hshort)
  obtain ⟨k, hk⟩ := h0.ends L hcons
  refine ⟨fun k => ?_, k, UInt8.toNat_inj.mp ?_, ?_⟩
  · rw [(h0.iterate L k).position, Nat.mod_eq_of_lt (hp k)]
  · rw [(h0.iterate L k).counter, hk]
  · have hend : consumed L (detailBegin start stop d) k = fieldBytes fs stop := by
      refine le_antisymm (hcons k) ?_
      by_contra hlt
      have hdue := (ended_lt hf hl (hp k).le ((hcons k).trans (fieldBytes_le fs pad stop))).mpr
        (not_le.mp hlt)
      exact absurd hk hdue.ne
    have hbegin : d.calls <+: (detailBegin start stop d).calls := List.prefix_append _ _
    have hnone : d.blocksTo (detailBegin start stop d) = [] := by
      unfold Device.blocksTo
      rw [callsTo_eq (l := [.printDetail start stop]) rfl]
      rfl
    rw [blocksTo_trans hbegin (printStep_iterate L _ k).grows, hnone, h0.blocks hp k, hend]
    rfl

end

/-- The offset is right, and the chain ends, exactly for fields of at most 255 bytes together. -/
theorem tracks_iff (L : Layout) (fs : List (List UInt8)) (hfs : fs.length = 4)
    (hf : ∀ f ∈ fs, 0 ∉ f) (pad : ℕ) (start stop : UInt8) (hstop : stop ≤ crdEnd) (d : Device)
    (hd : Sealed (fieldBlob fs pad) d) : Tracks L fs start stop d ↔ fieldBytes fs stop ≤ 255 := by
  have hl : stop.toNat ≤ fs.length := by
    rw [hfs]
    exact UInt8.le_iff_toNat_le.mp hstop
  exact ⟨fun h => h.short hf hl hd, tracks_short hf hl hd⟩

def sealedAt (enc : UInt16) (key : Bytes 16) (blob : List UInt8) : Mem := fun a =>
  (noekeonEncrypt ⟨fun j => blob.getD (16 * ((a - enc).toNat / 16) + j) 0, key⟩).plain
    (Fin.ofNat 16 (a - enc).toNat)

def sealedDevice (key : Bytes 16) (blob : List UInt8) : Device where
  flash := { mem := sealedAt 0x1010 key blob }
  eeprom := fun _ => 0
  ram := fun _ => 0
  prn := { kbdStatus := .released, eos := true }
  crd := { cipher := { key := key }, credential := { encrypt := 0x1010 } }

theorem sealed_sealedDevice (key : Bytes 16) {blob : List UInt8} (h16 : 16 ∣ blob.length)
    (hlen : blob.length ≤ 65536) : Sealed blob (sealedDevice key blob) := by
  refine ⟨h16, fun i hi j => ?_⟩
  have hread : (sealedDevice key blob).flash.mem.read (0x1010 + UInt16.ofNat (16 * i)) 16 =
      (noekeonEncrypt ⟨fun j => blob.getD (16 * i + j) 0, key⟩).plain := by
    funext j
    have hoff : (0x1010 + UInt16.ofNat (16 * i) + UInt16.ofNat j - 0x1010 : UInt16).toNat =
        16 * i + j := by
      rw [UInt16.add_assoc, ← UInt16.ofNat_add]
      exact Mem.toNat_add_ofNat_sub 0x1010 (by omega)
    have hblock : (16 * i + j.val) / 16 = i := by omega
    have hbyte : Fin.ofNat 16 (16 * i + j.val) = j := Fin.ext (by rw [Fin.val_ofNat]; omega)
    rw [Mem.read_apply]
    change sealedAt 0x1010 key blob (0x1010 + UInt16.ofNat (16 * i) + UInt16.ofNat j) = _
    unfold sealedAt
    rw [hoff, hblock, hbyte]
  have hdec := noekeonDecrypt_noekeonEncrypt ⟨fun j => blob.getD (16 * i + j) 0, key⟩
  change (noekeonDecrypt ⟨(sealedDevice key blob).flash.mem.read (0x1010 + UInt16.ofNat (16 * i)) 16,
    key⟩).plain j = _
  rw [hread]
  exact congrFun (congrArg Cipher.plain hdec) j

theorem tracks_sample : Tracks sampleLayout sampleFields.fields 2 3
    (sealedDevice (fun _ => 0x30) (fieldBlob sampleFields.fields 7)) :=
  (tracks_iff sampleLayout sampleFields.fields (by decide) (by decide) 7 2 3 (by decide) _
    (sealed_sealedDevice _ (by decide) (by decide))).mpr (by decide)

def longUser : List (List UInt8) := [List.replicate 300 97, [], [], []]

theorem not_tracks_longUser : ¬∀ L fs pad start stop d, fs.length = 4 → (∀ f ∈ fs, 0 ∉ f) →
    (fieldBlob fs pad).length ≤ 2048 → start < stop → stop ≤ crdEnd → Sealed (fieldBlob fs pad) d →
      Tracks L fs start stop d := by
  intro h
  have hf : ∀ f ∈ longUser, 0 ∉ f := by decide +kernel
  have hd : Sealed (fieldBlob longUser 0) (sealedDevice (fun _ => 0x30) (fieldBlob longUser 0)) :=
    sealed_sealedDevice _ (by decide +kernel) (by decide +kernel)
  have ht := h sampleLayout longUser 0 0 1 _ rfl hf (by decide +kernel) (by decide +kernel)
    (by decide +kernel) hd
  exact absurd (ht.short hf (by decide +kernel) hd) (by decide +kernel)

end Memtype
