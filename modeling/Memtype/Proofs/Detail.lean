import Memtype.Proofs.Typing

/-! The blob of a credential: `CRD_apply` decrypts it block by block and walks over its
fields. Where a field ends and where a block ends are independent of each other. -/

namespace Memtype

open Lib

/-- The blocks of the selected credential decrypt to `blob` under the key. -/
structure Encrypted (blob : List UInt8) (d : Device) : Prop where
  small : blob.length ≤ 256
  whole : 16 ∣ blob.length
  block : ∀ i, 16 * i < blob.length → ∀ j : Fin 16,
    (noekeonDecrypt ⟨d.flash.mem.read (d.crd.credential.encrypt + UInt16.ofNat (16 * i)) 16,
      d.crd.cipher.key⟩).plain j = blob.getD (16 * i + j) 0

theorem Encrypted.of_printStep {blob : List UInt8} {d d' : Device} (h : Encrypted blob d)
    (hp : PrintStep d d') : Encrypted blob d' := by
  refine ⟨h.small, h.whole, fun i hi j => ?_⟩
  rw [hp.flash, hp.credential, hp.key]
  exact h.block i hi j

/-- What `CRD_apply` goes by when it is called with `counter` at `c` and the text `rest` still
to be read. -/
structure Due (blob : List UInt8) (start stop : UInt8) (c : ℕ) (rest : List UInt8) (d : Device) :
    Prop where
  encrypted : Encrypted blob d
  crdStart : d.crd.crdStart = start
  crdStop : d.crd.crdStop = stop
  counter : d.crd.counter.toNat = c
  le : c ≤ stop.toNat
  position : c < stop.toNat → blob.drop d.crd.position.toNat = rest
  block : c < stop.toNat → d.crd.position.toNat % 16 ≠ 0 → ∀ j : Fin 16,
    d.crd.cipher.plain j = blob.getD (d.crd.position.toNat - d.crd.position.toNat % 16 + j) 0
  fields : stop.toNat ≤ c + rest.count 0

section

variable {L : Layout} {blob rest : List UInt8} {start stop : UInt8} {c : ℕ} {d d' : Device}

theorem Due.of_printStep (h : Due blob start stop c rest d) (hp : PrintStep d d')
    (hc : d'.crd = d.crd) : Due blob start stop c rest d' where
  encrypted := h.encrypted.of_printStep hp
  crdStart := by rw [hc, h.crdStart]
  crdStop := by rw [hc, h.crdStop]
  counter := by rw [hc, h.counter]
  le := h.le
  position := by rw [hc]; exact h.position
  block := by rw [hc]; exact h.block
  fields := h.fields

theorem crdFind_spec (f : ℕ → UInt8) (n : ℕ) : crdFind f n ≤ n ∧ (∀ i < crdFind f n, f i ≠ 0) ∧
    (crdFind f n < n → f (crdFind f n) = 0) := by
  unfold crdFind
  cases h : (List.range n).find? fun i => f i = 0 with
  | none =>
    rw [List.find?_eq_none] at h
    refine ⟨le_refl n, fun i hi => ?_, fun hn => absurd hn (lt_irrefl n)⟩
    simpa using h i (List.mem_range.mpr hi)
  | some k =>
    rw [List.find?_range_eq_some] at h
    obtain ⟨h0, hk, hlt⟩ := h
    refine ⟨(List.mem_range.mp hk).le, fun i hi => ?_, fun _ => by simpa using h0⟩
    simpa using hlt i hi

/-- A request goes into the current slot when that is empty. -/
theorem print_act {p : Print} (h : p.slot.info = .empty) (str : UInt16) (info : Info)
    (len : UInt8) : p.print str info len =
      p.setAct { strPtr := str, info := info, len := len, callback := len ≠ 0 } := by
  have hf : p.firstEmpty = some p.actString := by
    have h0 : (p.strBuf (p.actString + 0)).info = .empty := by rwa [add_zero]
    unfold Print.firstEmpty
    rw [List.map_cons, List.find?_cons_of_pos (by simpa using h0), add_zero]
  unfold Print.print
  rw [hf]
  rfl

theorem buffpos_eq (d : Device) : d.crd.buffpos = d.crd.position.toNat % 16 :=
  UInt8.toNat_mod ..

theorem applyDecrypt_frame (d : Device) : (applyDecrypt d).prn = d.prn ∧
    (applyDecrypt d).crd = { d.crd with cipher := (applyDecrypt d).crd.cipher } ∧
    (applyDecrypt d).keystrokes = d.keystrokes := by
  unfold applyDecrypt
  split_ifs
  · exact ⟨rfl, rfl, (keystrokes_snoc (c := .decrypt _) rfl).trans (List.append_nil _)⟩
  · exact ⟨rfl, rfl, rfl⟩

/-- After step 1 the plain buffer is the block that `position` is in. -/
theorem applyDecrypt_plain (h : Due blob start stop c rest d) (hc : c < stop.toNat)
    (hlt : d.crd.position.toNat < blob.length) (j : Fin 16) :
    (applyDecrypt d).crd.cipher.plain j =
      blob.getD (d.crd.position.toNat - d.crd.position.toNat % 16 + j) 0 := by
  unfold applyDecrypt
  rw [buffpos_eq]
  split_ifs with h0
  · have hpos : 16 * (d.crd.position.toNat / 16) = d.crd.position.toNat := by omega
    have hb := h.encrypted.block (d.crd.position.toNat / 16) (by omega) j
    rw [hpos, UInt16.ofNat_uInt8ToNat] at hb
    rw [h0, Nat.sub_zero, ← hb]
    rfl
  · exact h.block hc h0 j

theorem ramByte_plain (L : Layout) (d : Device) {i : ℕ} (hi : i < 16) :
    d.ramByte L (L.cipher + UInt16.ofNat i) = d.crd.cipher.plain ⟨i, hi⟩ := by
  have h := Mem.toNat_add_ofNat_sub L.cipher (i := i) (by omega)
  unfold Device.ramByte
  rw [dif_pos (by rwa [h])]
  congr 1
  exact Fin.ext h

/-- The empty string is neither in `cipher` nor in `userText`. -/
theorem ramByte_emptyStr (L : Layout) (d : Device) : d.ramByte L L.emptyStr = 0 := by
  have hc := L.cipher_fit
  have hu := L.userText_fit
  have h1 : 32 ≤ (L.emptyStr - L.cipher).toNat := by
    have h := L.cipher_emptyStr
    have he := L.emptyStr.toNat_lt
    rw [Mem.toNat_sub]
    omega
  have h2 : 16 ≤ (L.emptyStr - L.userText).toNat := by
    have h := L.userText_emptyStr
    have he := L.emptyStr.toNat_lt
    rw [Mem.toNat_sub]
    omega
  unfold Device.ramByte
  rw [dif_neg (by omega), dif_neg (by omega), if_neg (by omega), if_pos rfl]

/-- While a field is due there is text to read, and `position` is in it. -/
theorem Due.position_lt (h : Due blob start stop c rest d) (hc : c < stop.toNat) :
    d.crd.position.toNat < blob.length ∧ d.crd.position.toNat + rest.length = blob.length := by
  have hp := h.position hc
  have hf := h.fields
  have hlen : rest.length = blob.length - d.crd.position.toNat := by
    rw [← hp, List.length_drop]
  have hpos : 0 < rest.length := by
    have := List.count_le_length (a := (0 : UInt8)) (l := rest)
    omega
  omega

theorem Due.rest_getD (h : Due blob start stop c rest d) (hc : c < stop.toNat) (i : ℕ) :
    blob.getD (d.crd.position.toNat + i) 0 = rest.getD i 0 := by
  rw [← h.position hc]
  simp [List.getD_eq_getElem?_getD]

theorem applyDecrypt_buffpos (d : Device) :
    (applyDecrypt d).crd.buffpos = d.crd.position.toNat % 16 := by
  obtain ⟨-, hcrd, -⟩ := applyDecrypt_frame d
  rw [← buffpos_eq d, hcrd]
  rfl

/-- Step 2 finds the stretch of the text up to the NUL or the end of the block. -/
theorem applySize_spec (h : Due blob start stop c rest d) (hc : c < stop.toNat) :
    applySize (applyDecrypt d).crd ≤ 16 - d.crd.position.toNat % 16 ∧
    (∀ i < applySize (applyDecrypt d).crd, rest.getD i 0 ≠ 0) ∧
    (applySize (applyDecrypt d).crd < 16 - d.crd.position.toNat % 16 →
      rest.getD (applySize (applyDecrypt d).crd) 0 = 0) := by
  have hlt := (h.position_lt hc).1
  have hbyte (i : ℕ) (hi : i < 16 - d.crd.position.toNat % 16) :
      (applyDecrypt d).crd.cipher.plain (Fin.ofNat 16 (d.crd.position.toNat % 16 + i)) =
        rest.getD i 0 := by
    have hval : (Fin.ofNat 16 (d.crd.position.toNat % 16 + i)).val =
        d.crd.position.toNat % 16 + i := by
      rw [Fin.val_ofNat]
      omega
    rw [applyDecrypt_plain h hc hlt, hval, ← h.rest_getD hc]
    congr 1
    have := Nat.mod_le d.crd.position.toNat 16
    omega
  unfold applySize
  rw [applyDecrypt_buffpos]
  obtain ⟨h1, h2, h3⟩ := crdFind_spec (fun i => (applyDecrypt d).crd.cipher.plain
    (Fin.ofNat 16 (d.crd.position.toNat % 16 + i))) (16 - d.crd.position.toNat % 16)
  refine ⟨h1, fun i hi => ?_, fun hlt => ?_⟩
  · rw [← hbyte i (by omega)]
    exact h2 i hi
  · rw [← hbyte _ hlt]
    exact h3 hlt

/-- Step 3 queues the stretch, or the character 0. -/
theorem applyQueue_spec {n : ℕ} (hi : d.prn.slot.info = .empty)
    (hs : d.prn.kbdStatus = .released) (hn : n ≤ 16) : ∃ a k,
    Typing (applyQueue L n d) .released a k ∧ (applyQueue L n d).crd = d.crd ∧
      (applyQueue L n d).keystrokes = d.keystrokes ∧
      ((d.crd.crdStart ≤ d.crd.counter ∧ n ≠ 0) ∧ a = L.cipher + UInt16.ofNat d.crd.buffpos ∧ k = n ∨
        ¬(d.crd.crdStart ≤ d.crd.counter ∧ n ≠ 0) ∧ a = L.emptyStr ∧ k = 1) := by
  have htyping {s : Device} {a : UInt16} {k : UInt8} (hk : k ≠ 0)
      (hd : s.prn = d.prn.print a .ram k) : Typing s .released a k.toNat := by
    rw [print_act hi] at hd
    have hslot : s.prn.slot = { strPtr := a, info := .ram, len := k, callback := k ≠ 0 } := by
      rw [hd]
      exact setAct_slot _ _
    refine ⟨by rw [hd]; exact hs, ?_, ?_, ?_, fun _ => ?_⟩
    all_goals rw [hslot]
    simpa using hk
  have hlen : (UInt8.ofNat n).toNat = n := by
    rw [UInt8.toNat_ofNat']
    omega
  unfold applyQueue
  split_ifs with hq
  · refine ⟨_, n, ?_, rfl, (keystrokes_snoc (c := .segment _) rfl).trans (List.append_nil _),
      .inl ⟨hq, rfl, rfl⟩⟩
    have h0 : UInt8.ofNat n ≠ 0 := by
      intro h0
      rw [h0] at hlen
      exact hq.2 hlen.symm
    have ht := htyping h0 (s := (printNStr (L.cipher + UInt16.ofNat d.crd.buffpos) (UInt8.ofNat n)
      d).call (.segment (UInt8.ofNat n))) rfl
    rwa [hlen] at ht
  · refine ⟨_, 1, htyping (k := 1) (by decide) rfl, rfl,
      (keystrokes_snoc (c := .placeholder) rfl).trans (List.append_nil _), .inr ⟨hq, rfl, rfl⟩⟩

theorem advance_short {n : ℕ} {k : Crd} (h : n < 16 - k.buffpos) : applyAdvance n k =
    { k with counter := k.counter + 1, position := k.position + 1 + UInt8.ofNat n } := by
  unfold applyAdvance
  rw [if_pos h]

theorem advance_full {n : ℕ} {k : Crd} (h : ¬n < 16 - k.buffpos) :
    applyAdvance n k = { k with position := k.position + UInt8.ofNat n } := by
  unfold applyAdvance
  rw [if_neg h]

/-- The text starts with the stretch, and a NUL follows unless the block ends first. -/
theorem Due.stretch (h : Due blob start stop c rest d) (hc : c < stop.toNat) :
    0 ∉ rest.take (applySize (applyDecrypt d).crd) ∧
    applySize (applyDecrypt d).crd ≤ rest.length ∧
    (applySize (applyDecrypt d).crd < 16 - d.crd.position.toNat % 16 →
      rest = rest.take (applySize (applyDecrypt d).crd) ++
        0 :: rest.drop (applySize (applyDecrypt d).crd + 1)) := by
  obtain ⟨hlt, hlen⟩ := h.position_lt hc
  obtain ⟨hsize, hnz, hz⟩ := applySize_spec h hc
  have hwhole := h.encrypted.whole
  generalize applySize (applyDecrypt d).crd = n at hsize hnz hz
  have hget (i : ℕ) (hi : i < rest.length) : rest.getD i 0 = rest[i] := by
    rw [List.getD_eq_getElem?_getD, List.getElem?_eq_getElem hi, Option.getD_some]
  refine ⟨fun hmem => ?_, by omega, fun hn => ?_⟩
  · obtain ⟨i, hi, h0⟩ := List.mem_iff_getElem.mp hmem
    rw [List.length_take] at hi
    rw [List.getElem_take] at h0
    refine hnz i (by omega) ?_
    rw [hget i (by omega), h0]
  · have hz' := hz hn
    rw [hget n (by omega)] at hz'
    rw [← hz', ← List.drop_eq_getElem_cons, List.take_append_drop]

/-- What is queued of a field asked for is the stretch. -/
theorem Due.segment_bytes (h : Due blob start stop c rest d) (hc : c < stop.toNat)
    (hd : d'.crd.cipher = (applyDecrypt d).crd.cipher) :
    (List.range (applySize (applyDecrypt d).crd)).map (fun j => d'.ramByte L
      (L.cipher + UInt16.ofNat (applyDecrypt d).crd.buffpos + UInt16.ofNat j)) =
      rest.take (applySize (applyDecrypt d).crd) := by
  obtain ⟨hlt, -⟩ := h.position_lt hc
  obtain ⟨hsize, -, -⟩ := applySize_spec h hc
  obtain ⟨-, hle, -⟩ := h.stretch hc
  apply List.ext_getElem
  · simp [hle]
  · intro j hj hj'
    have hjn : j < applySize (applyDecrypt d).crd := by simpa using hj
    rw [List.getElem_map, List.getElem_range, List.getElem_take, UInt16.add_assoc,
      ← UInt16.ofNat_add, applyDecrypt_buffpos, ramByte_plain L _ (by omega), hd,
      applyDecrypt_plain h hc hlt]
    dsimp only
    rw [← Nat.add_assoc, Nat.sub_add_cancel (Nat.mod_le _ _), h.rest_getD hc,
      List.getD_eq_getElem?_getD, List.getElem?_eq_getElem (by omega), Option.getD_some]

/-- The field goes on in the next block. -/
theorem Due.full (h : Due blob start stop c rest d) (hc : c < stop.toNat) (hp : PrintStep d d')
    (hn : applySize (applyDecrypt d).crd = 16 - d.crd.position.toNat % 16)
    (hd : d'.crd = { (applyDecrypt d).crd with
      position := d.crd.position + UInt8.ofNat (applySize (applyDecrypt d).crd) }) :
    Due blob start stop c (rest.drop (applySize (applyDecrypt d).crd)) d' := by
  obtain ⟨hlt, hlen⟩ := h.position_lt hc
  obtain ⟨h0, -, -⟩ := h.stretch hc
  obtain ⟨-, hcrd, -⟩ := applyDecrypt_frame d
  have hwhole := h.encrypted.whole
  have hsmall := h.encrypted.small
  have hfields := h.fields
  have hcount : rest.count 0 = (rest.drop (applySize (applyDecrypt d).crd)).count 0 := by
    rw [← List.take_append_drop (applySize (applyDecrypt d).crd) rest, List.count_append,
      List.count_eq_zero_of_not_mem h0, List.take_append_drop, Nat.zero_add]
  have hmore := List.count_le_length (a := (0 : UInt8))
    (l := rest.drop (applySize (applyDecrypt d).crd))
  rw [List.length_drop] at hmore
  have hpos : d'.crd.position.toNat =
      d.crd.position.toNat + applySize (applyDecrypt d).crd := by
    rw [hd, UInt8.toNat_add, UInt8.toNat_ofNat']
    omega
  refine ⟨h.encrypted.of_printStep hp, ?_, ?_, ?_, h.le, fun _ => ?_, fun _ hb => ?_, by omega⟩
  · rw [hd, hcrd, ← h.crdStart]
  · rw [hd, hcrd, ← h.crdStop]
  · rw [hd, hcrd, ← h.counter]
  · rw [hpos, ← List.drop_drop, h.position hc]
  · rw [hpos, hn] at hb
    omega

/-- The field ends in this block. -/
theorem Due.short (h : Due blob start stop c rest d) (hc : c < stop.toNat) (hp : PrintStep d d')
    (hn : applySize (applyDecrypt d).crd < 16 - d.crd.position.toNat % 16)
    (hd : d'.crd = { (applyDecrypt d).crd with
      counter := d.crd.counter + 1,
      position := d.crd.position + 1 + UInt8.ofNat (applySize (applyDecrypt d).crd) }) :
    Due blob start stop (c + 1) (rest.drop (applySize (applyDecrypt d).crd + 1)) d' := by
  obtain ⟨hlt, hlen⟩ := h.position_lt hc
  obtain ⟨h0, -, hrest⟩ := h.stretch hc
  obtain ⟨-, hcrd, -⟩ := applyDecrypt_frame d
  have hwhole := h.encrypted.whole
  have hsmall := h.encrypted.small
  have hfields := h.fields
  have hstop := stop.toNat_lt
  have hcount : rest.count 0 = (rest.drop (applySize (applyDecrypt d).crd + 1)).count 0 + 1 := by
    conv_lhs => rw [hrest hn]
    rw [List.count_append, List.count_eq_zero_of_not_mem h0, List.count_cons_self, Nat.zero_add]
  have hmore := List.count_le_length (a := (0 : UInt8))
    (l := rest.drop (applySize (applyDecrypt d).crd + 1))
  rw [List.length_drop] at hmore
  have hpos (hc' : c + 1 < stop.toNat) : d'.crd.position.toNat =
      d.crd.position.toNat + (applySize (applyDecrypt d).crd + 1) := by
    rw [hd, UInt8.toNat_add, UInt8.toNat_add, UInt8.toNat_ofNat',
      UInt8.toNat_one]
    omega
  refine ⟨h.encrypted.of_printStep hp, ?_, ?_, ?_, hc, fun hc' => ?_, fun hc' hb j => ?_, by omega⟩
  · rw [hd, hcrd, ← h.crdStart]
  · rw [hd, hcrd, ← h.crdStop]
  · have hcount := h.counter
    rw [hd, toNat_succ8 (by omega), hcount]
  · rw [hpos hc', ← List.drop_drop, h.position hc]
  · rw [hpos hc'] at hb ⊢
    rw [hd, applyDecrypt_plain h hc hlt]
    congr 1
    omega

/-- `CRD_apply` queues a stretch of the fields that are asked for, and an empty string for
one before them. -/
theorem apply_queued (h : Due blob start stop c rest d) (hc : c < stop.toNat)
    (hi : d.prn.slot.info = .empty) (hs : d.prn.kbdStatus = .released) : ∃ a n,
    Typing (crdApply L d) .released a n ∧ n ≠ 0 ∧ (crdApply L d).keystrokes = d.keystrokes ∧
    strokes ((List.range n).map fun j => (crdApply L d).ramByte L (a + UInt16.ofNat j)) =
      strokes (if start.toNat ≤ c then rest.take (applySize (applyDecrypt d).crd) else []) ∧
    (crdApply L d).crd = applyAdvance (applySize (applyDecrypt d).crd) (applyDecrypt d).crd := by
  obtain ⟨hprn, hcrd, hkeys⟩ := applyDecrypt_frame d
  obtain ⟨hsize, -, -⟩ := applySize_spec h hc
  obtain ⟨a, k, ht, hqcrd, hqkeys, hq⟩ := applyQueue_spec (L := L) (d := applyDecrypt d)
    (n := applySize (applyDecrypt d).crd) (by rw [hprn, hi]) (by rw [hprn, hs]) (by omega)
  have happly : crdApply L d = { applyQueue L (applySize (applyDecrypt d).crd) (applyDecrypt d) with
      crd := applyAdvance (applySize (applyDecrypt d).crd) (applyDecrypt d).crd } := by
    unfold crdApply
    rw [if_neg (by rw [UInt8.le_iff_toNat_le, h.crdStop, h.counter]; omega)]
    dsimp only
    rw [hqcrd]
  have hcrd' : (crdApply L d).crd = applyAdvance (applySize (applyDecrypt d).crd)
      (applyDecrypt d).crd := by rw [happly]
  have hstart : (applyDecrypt d).crd.crdStart ≤ (applyDecrypt d).crd.counter ↔
      start.toNat ≤ c := by
    rw [hcrd, UInt8.le_iff_toNat_le, h.crdStart, h.counter]
  refine ⟨a, k, ?_, ?_, ?_, ?_, hcrd'⟩
  · rw [happly]
    exact ⟨ht.status, ht.ptr, ht.len, ht.callback, ht.info⟩
  · rcases hq with ⟨⟨-, hn⟩, -, rfl⟩ | ⟨-, -, rfl⟩
    · exact hn
    · exact one_ne_zero
  · rw [happly]
    exact hqkeys.trans hkeys
  · rcases hq with ⟨⟨hsc, -⟩, rfl, rfl⟩ | ⟨hn, rfl, rfl⟩
    · have hcipher : (crdApply L d).crd.cipher = (applyDecrypt d).crd.cipher := by
        rw [hcrd', applyAdvance_cipher]
      rw [if_pos (hstart.mp hsc), h.segment_bytes hc hcipher]
    · have haddr : L.emptyStr + UInt16.ofNat 0 = L.emptyStr := UInt16.add_zero _
      have hzero : (crdApply L d).ramByte L (L.emptyStr + UInt16.ofNat 0) = 0 := by
        rw [haddr]
        exact ramByte_emptyStr L _
      rw [List.range_one, List.map_singleton, hzero]
      split_ifs with hsc
      · have hn0 : applySize (applyDecrypt d).crd = 0 := by
          by_contra hne
          exact hn ⟨hstart.mpr hsc, hne⟩
        rw [hn0]
        rfl
      · rfl

/-- `CRD_apply` queues the next stretch of the text, and what it leaves for later is due next. -/
theorem apply_due (h : Due blob start stop c rest d) (hc : c < stop.toNat)
    (hi : d.prn.slot.info = .empty) (hs : d.prn.kbdStatus = .released) : ∃ a n x c' rest',
    Typing (crdApply L d) .released a n ∧ n ≠ 0 ∧ (crdApply L d).keystrokes = d.keystrokes ∧
    strokes ((List.range n).map fun j => (crdApply L d).ramByte L (a + UInt16.ofNat j)) = strokes x ∧
    spell 0 start.toNat stop.toNat c rest = x ++ spell 0 start.toNat stop.toNat c' rest' ∧
    rest'.length < rest.length ∧ Due blob start stop c' rest' (crdApply L d) := by
  obtain ⟨-, hcrd, -⟩ := applyDecrypt_frame d
  obtain ⟨hsize, -, -⟩ := applySize_spec h hc
  obtain ⟨a, k, ht, hk, hkeys, hbytes, hcrd'⟩ := apply_queued (L := L) h hc hi hs
  obtain ⟨hlt, hpos⟩ := h.position_lt hc
  obtain ⟨h0, hle, hrest⟩ := h.stretch hc
  have hpstep := printStep_apply L d
  have hcounter : (applyDecrypt d).crd.counter = d.crd.counter := by rw [hcrd]
  have hposition : (applyDecrypt d).crd.position = d.crd.position := by rw [hcrd]
  by_cases hn : applySize (applyDecrypt d).crd < 16 - d.crd.position.toNat % 16
  · refine ⟨a, k, _, c + 1, _, ht, hk, hkeys, hbytes, ?_, ?_, h.short hc hpstep hn ?_⟩
    · conv_lhs => rw [hrest hn]
      rw [spell_append h0 hc, spell_sep hc]
    · rw [List.length_drop]
      omega
    · rw [hcrd', advance_short (by rwa [applyDecrypt_buffpos]), hcounter, hposition]
  · refine ⟨a, k, _, c, _, ht, hk, hkeys, hbytes, ?_, ?_, h.full hc hpstep (by omega) ?_⟩
    · conv_lhs => rw [← List.take_append_drop (applySize (applyDecrypt d).crd) rest]
      rw [spell_append h0 hc]
    · rw [List.length_drop]
      omega
    · rw [hcrd', advance_full (by rwa [applyDecrypt_buffpos]), hposition]

/-- The detail is typed and `CRD_apply` has nothing more to queue. -/
structure Typed (d : Device) : Prop where
  status : d.prn.kbdStatus = .released
  callback : d.prn.slot.callback = true
  len : d.prn.slot.len = 0
  counter : d.crd.crdStop ≤ d.crd.counter

/-- What `printUpdate` does at the end of a stretch. -/
theorem update_ended (hs : d.prn.kbdStatus = .released) (hc : d.prn.slot.callback = true)
    (hl : d.prn.slot.len = 0) : printUpdate L d =
      let d := crdApply L { d with prn := d.prn.freeAct }
      if d.prn.slot.info = .empty then { d with prn := { d.prn with eos := true } } else d := by
  rw [update_released hs]
  unfold printReleased
  dsimp only
  rw [if_neg (by simp [hc]), if_pos ⟨hc, hl⟩]

/-- A detail that is typed stays so for ever, and no key is touched again. -/
theorem Typed.update (h : Typed d) : Typed (printUpdate L d) ∧
    (printUpdate L d).calls = d.calls ∧ (printUpdate L d).crd = d.crd := by
  have happly : crdApply L { d with prn := d.prn.freeAct } = { d with prn := d.prn.freeAct } := by
    unfold crdApply
    rw [if_pos (by exact h.counter)]
  have hslot : d.prn.freeAct.slot = { d.prn.slot with info := .empty } := setAct_slot _ _
  have hu := update_ended (L := L) h.status h.callback h.len
  dsimp only at hu
  rw [happly, if_pos (by rw [hslot])] at hu
  rw [hu]
  refine ⟨⟨h.status, ?_, ?_, h.counter⟩, rfl, rfl⟩
  · exact (congrArg StrPtr.callback hslot).trans h.callback
  · exact (congrArg StrPtr.len hslot).trans h.len

theorem Typed.iterate (h : Typed d) (k : ℕ) : Typed ((printUpdate L)^[k] d) ∧
    ((printUpdate L)^[k] d).calls = d.calls ∧ ((printUpdate L)^[k] d).crd = d.crd := by
  induction k with
  | zero => exact ⟨h, rfl, rfl⟩
  | succ k ih =>
    obtain ⟨h1, h2, h3⟩ := ih
    obtain ⟨h4, h5, h6⟩ := h1.update (L := L)
    rw [Function.iterate_succ_apply']
    exact ⟨h4, h5.trans h2, h6.trans h3⟩

/-- From a queued stretch on, the rest of the text is typed to its end. -/
theorem typing_rest {a : UInt16} {n : ℕ} (ht : Typing d .released a n)
    (h : Due blob start stop c rest d) : ∃ d', Reaches L d d' ∧ Typed d' ∧
      d'.crd.counter = stop ∧ d'.keystrokes = d.keystrokes ++
        strokes ((List.range n).map fun j => d.ramByte L (a + UInt16.ofNat j)) ++
        strokes (spell 0 start.toNat stop.toNat c rest) := by
  induction hm : rest.length using Nat.strong_induction_on generalizing d a n c rest with
  | _ m ih =>
    obtain ⟨d1, ht1, h1⟩ := typing_stretch (L := L) ht
    have hlen1 : d1.prn.slot.len = 0 := UInt8.toNat_inj.mp h1.len
    have hu := update_ended (L := L) h1.status h1.callback hlen1
    have hslot : d1.prn.freeAct.slot = { d1.prn.slot with info := .empty } := setAct_slot _ _
    have hdue1 : Due blob start stop c rest { d1 with prn := d1.prn.freeAct } :=
      (h.of_printStep ht1.reaches.printStep ht1.crd).of_printStep (.prn d1 _) rfl
    dsimp only at hu
    by_cases hc : c < stop.toNat
    · obtain ⟨a2, n2, x, c2, rest2, ht2, hn2, hkeys, hx, hspell, hlt, hdue2⟩ :=
        apply_due (L := L) hdue1 hc (by rw [hslot]) h1.status
      rw [if_neg (by rw [ht2.info hn2]; exact nofun)] at hu
      rw [← hu] at ht2 hkeys hx hdue2
      obtain ⟨d', hr, hd', hcount, hk⟩ := ih rest2.length (by omega) ht2 hdue2 rfl
      refine ⟨d', (ht1.reaches.trans (.update d1)).trans hr, hd', hcount, ?_⟩
      rw [hk, hx, hkeys, hspell, strokes_append, ← List.append_assoc]
      exact congrArg (· ++ _ ++ _) ht1.keystrokes
    · -- the last field was typed: `CRD_apply` queues nothing
      have hle := h.le
      have hcs : d1.crd.counter = stop := by
        apply UInt8.toNat_inj.mp
        rw [ht1.crd, h.counter]
        omega
      have hstop : d1.crd.crdStop ≤ d1.crd.counter := by
        rw [hcs, ht1.crd, h.crdStop]
        exact UInt8.le_refl stop
      have hend : Typed d1 := ⟨h1.status, h1.callback, hlen1, hstop⟩
      refine ⟨d1, ht1.reaches, hend, hcs, ?_⟩
      rw [ht1.keystrokes, spell_done (not_lt.mp hc)]
      exact (List.append_nil _).symm

end

/-- The fields of a credential, in the order of `CRD_USER` to `CRD_SUBMIT`. -/
structure DetailFields where
  user : List UInt8
  hop : List UInt8
  pass : List UInt8
  submit : List UInt8
  chars : ∀ f ∈ [user, hop, pass, submit], ∀ c ∈ f, 1 ≤ c ∧ c ≤ 127

namespace DetailFields

def fields (f : DetailFields) : List (List UInt8) := [f.user, f.hop, f.pass, f.submit]

def blob (f : DetailFields) (pad : ℕ) : List UInt8 :=
  joinFields 0 f.fields ++ List.replicate pad 0

def text (f : DetailFields) (start stop : UInt8) : List UInt8 :=
  ((f.fields.take stop.toNat).drop start.toNat).flatten

theorem not_mem_field (f : DetailFields) {l : List UInt8} (hl : l ∈ f.fields) : 0 ∉ l := by
  intro h0
  exact absurd (f.chars l hl 0 h0).1 (by decide)

theorem spell_blob (f : DetailFields) (pad : ℕ) {start stop : UInt8} (hs : stop ≤ crdEnd) :
    spell 0 start.toNat stop.toNat 0 (f.blob pad) = f.text start stop := by
  have h4 : stop.toNat ≤ 4 := UInt8.le_iff_toNat_le.mp hs
  unfold blob
  rw [spell_joinFields (fun l hl => f.not_mem_field hl) (by simpa [fields] using h4)]
  rfl

theorem strokes_text (f : DetailFields) (start stop : UInt8) :
    strokes (f.text start stop) = (f.text start stop).map stroke := by
  unfold strokes
  rw [List.filter_eq_self.mpr fun c hc => ?_]
  obtain ⟨l, hl, hcl⟩ := List.mem_flatten.mp hc
  have h0 := f.not_mem_field (List.mem_of_mem_take (List.mem_of_mem_drop hl))
  simp only [ne_eq, decide_not, Bool.not_eq_true', decide_eq_false_iff_not]
  rintro rfl
  exact h0 hcl

end DetailFields

/-- From an empty queue, `CRD_printDetail` types the characters of the fields asked for, each
once and in their order, a pause for each 0x16, and then never touches the keyboard again. -/
theorem printDetail_types (L : Layout) (f : DetailFields) (pad : ℕ) (start stop : UInt8)
    (hss : start < stop) (hstop : stop ≤ crdEnd) (d : Device) (henc : Encrypted (f.blob pad) d)
    (hq : ∀ i, (d.prn.strBuf i).info = .empty) (hs : d.prn.kbdStatus = .released) :
    ∃ n, ∀ k, n ≤ k →
      ((printUpdate L)^[k] (crdPrintDetail L start stop d)).keystrokes =
        d.keystrokes ++ (f.text start stop).map stroke ∧
      ((printUpdate L)^[k] (crdPrintDetail L start stop d)).calls =
        ((printUpdate L)^[n] (crdPrintDetail L start stop d)).calls ∧
      ((printUpdate L)^[k] (crdPrintDetail L start stop d)).crd.counter = stop := by
  obtain ⟨d0, hd0⟩ : ∃ d0 : Device, d0 = Device.call { d with crd := { d.crd with
    position := 0, counter := 0, crdStart := start, crdStop := stop } } (.printDetail start stop) :=
    ⟨_, rfl⟩
  have hstep : PrintStep d d0 := by
    rw [hd0]
    exact PrintStep.call ⟨rfl, rfl, rfl, .same rfl⟩ rfl
  have h4 : stop.toNat ≤ 4 := UInt8.le_iff_toNat_le.mp hstop
  have hpos : 0 < stop.toNat := (Nat.zero_le _).trans_lt (UInt8.lt_iff_toNat_lt.mp hss)
  have hcount : 4 ≤ (f.blob pad).count 0 := by
    have h := count_joinFields (z := (0 : UInt8)) f.fields
    unfold DetailFields.blob
    rw [List.count_append]
    exact h.trans (Nat.le_add_right _ _)
  have hdue : Due (f.blob pad) start stop 0 (f.blob pad) d0 := by
    refine ⟨henc.of_printStep hstep, ?_, ?_, ?_, Nat.zero_le _, fun _ => ?_, fun _ h0 => ?_, by omega⟩
    · rw [hd0]; rfl
    · rw [hd0]; rfl
    · rw [hd0]; rfl
    · rw [hd0]; rfl
    · rw [hd0] at h0
      exact absurd rfl h0
  have hkeys : d0.keystrokes = d.keystrokes := by
    rw [hd0]
    exact (keystrokes_snoc (c := .printDetail start stop) rfl).trans (List.append_nil _)
  have hprn : d0.prn = d.prn := by rw [hd0]; rfl
  have happly : crdPrintDetail L start stop d = crdApply L d0 := by rw [hd0]; rfl
  obtain ⟨a, n, x, c, rest, ht, hn, hk, hx, hspell, -, hnext⟩ :=
    apply_due (L := L) hdue hpos (by rw [hprn]; exact hq _) (by rw [hprn]; exact hs)
  obtain ⟨d', ⟨m, hr⟩, hend, hcounter, hkey⟩ := typing_rest (L := L) ht hnext
  refine ⟨m, fun k hm => ?_⟩
  rw [happly, ← Nat.sub_add_cancel hm, Function.iterate_add_apply, hr]
  obtain ⟨-, hcalls, hcrd⟩ := hend.iterate (L := L) (k - m)
  refine ⟨?_, hcalls, by rw [hcrd, hcounter]⟩
  have hsame : ((printUpdate L)^[k - m] d').keystrokes = d'.keystrokes :=
    congrArg (List.filterMap Call.keystroke) hcalls
  rw [hsame, hkey, hx, hk, hkeys, List.append_assoc, ← strokes_append, ← hspell,
    f.spell_blob pad hstop, f.strokes_text]

/-- Flash that holds the blob encrypted under the key. -/
theorem encrypted_of_encrypt {blob : List UInt8} {d : Device} (hs : blob.length ≤ 256)
    (hw : 16 ∣ blob.length) (h : ∀ i, 16 * i < blob.length →
      d.flash.mem.read (d.crd.credential.encrypt + UInt16.ofNat (16 * i)) 16 =
        (noekeonEncrypt ⟨fun j => blob.getD (16 * i + j) 0, d.crd.cipher.key⟩).plain) :
    Encrypted blob d := by
  refine ⟨hs, hw, fun i hi j => ?_⟩
  have hc := noekeonDecrypt_noekeonEncrypt ⟨fun j => blob.getD (16 * i + j) 0, d.crd.cipher.key⟩
  rw [h i hi]
  exact congrFun (congrArg Cipher.plain hc) j

/-- User "ab" and a tab, password "p" and a pause. -/
def sampleFields : DetailFields where
  user := [97, 98]
  hop := [9]
  pass := [112]
  submit := [0x16]
  chars := by simp

def sampleBlock : Bytes 16 :=
  (noekeonEncrypt ⟨fun j => (sampleFields.blob 7).getD j 0, fun _ => 0x30⟩).plain

def sampleVault : Device where
  flash := { mem := Mem.write (fun _ => 0) 0x1010 16 fun i => sampleBlock (Fin.ofNat 16 i) }
  eeprom := fun _ => 0
  ram := fun _ => 0
  prn := { kbdStatus := .released }
  crd := { cipher := { key := fun _ => 0x30 }, credential := { encrypt := 0x1010 } }

theorem encrypted_sampleVault : Encrypted (sampleFields.blob 7) sampleVault := by
  have hlen : (sampleFields.blob 7).length = 16 := by decide
  refine encrypted_of_encrypt (by rw [hlen]; decide) (by rw [hlen]) fun i hi => ?_
  have hi0 : i = 0 := by omega
  subst hi0
  have haddr : sampleVault.crd.credential.encrypt + UInt16.ofNat (16 * 0) = 0x1010 := by decide
  have hread : sampleVault.flash.mem.read 0x1010 16 = sampleBlock := by
    refine (Mem.read_write_self (fun _ => 0) 0x1010 (fun i => sampleBlock (Fin.ofNat 16 i))
      (by decide)).trans ?_
    funext j
    rw [Fin.ofNat_val_eq_self]
  rw [haddr, hread]
  simp only [Nat.mul_zero, Nat.zero_add]
  rfl

theorem printDetail_types_sampleVault : ∃ n,
    ((printUpdate sampleLayout)^[n] (crdPrintDetail sampleLayout 0 4 sampleVault)).keystrokes =
      [.key 97, .key 98, .key 9, .key 112, .pause] := by
  obtain ⟨n, hn⟩ := printDetail_types sampleLayout sampleFields 7 0 4 (by decide) (by decide)
    sampleVault encrypted_sampleVault (fun _ => rfl) rfl
  exact ⟨n, (hn n (le_refl n)).1⟩

end Memtype
