import Memtype.Proofs.Offset

/-! The key reports that a detail makes: one for each character that is no pause, and one for each
stretch that `CRD_apply` replaces by the character 0. -/

namespace Memtype

open Lib

section

variable (blob : List UInt8) (start : UInt8)

/-- A stretch begins at byte `i`: with a block, or behind the NUL of a field. -/
def beginsStretch (i : ℕ) : Prop := i % 16 = 0 ∨ windowByte blob (i - 1) = 0

def charAt (i : ℕ) : Prop :=
  start.toNat ≤ ended blob i ∧ windowByte blob i ≠ 0 ∧ windowByte blob i ≠ synchronousIdleKey

/-- The stretch that begins at byte `i` is skipped, or is a NUL alone. -/
def placeholderAt (i : ℕ) : Prop :=
  beginsStretch blob i ∧ (ended blob i < start.toNat ∨ windowByte blob i = 0)

instance : DecidablePred (beginsStretch blob) := fun _ => inferInstanceAs (Decidable (_ ∨ _))

instance : DecidablePred (charAt blob start) := fun _ => inferInstanceAs (Decidable (_ ∧ _ ∧ _))

instance : DecidablePred (placeholderAt blob start) := fun _ =>
  inferInstanceAs (Decidable (_ ∧ (_ ∨ _)))

def charReports (p : ℕ) : ℕ := Nat.count (charAt blob start) p

def placeholders (p : ℕ) : ℕ := Nat.count (placeholderAt blob start) p

def keyReports (p : ℕ) : ℕ := charReports blob start p + placeholders blob start p

end

section

variable {blob : List UInt8} {start stop : UInt8} {p n t : ℕ}

theorem Stretch.ended_at (h : Stretch blob p n t) {j : ℕ} (hj : j < t) :
    ended blob (p + j) = ended blob p := by
  have hle : j ≤ n := by
    rcases h.ends with ⟨ht, -⟩ | ⟨ht, -⟩ <;> omega
  exact ended_stretch fun i hi => h.chars i (hi.trans_le hle)

/-- Within a stretch no other begins. -/
theorem Stretch.begins_at (h : Stretch blob p n t) (hp : beginsStretch blob p) {j : ℕ} (hj : j < t) :
    beginsStretch blob (p + j) ↔ j = 0 := by
  constructor
  · intro hb
    by_contra h0
    have hle : j ≤ n := by
      rcases h.ends with ⟨ht, -⟩ | ⟨ht, -⟩ <;> omega
    have ht := h.pos.2
    rcases hb with hb | hb
    · omega
    · rw [show p + j - 1 = p + (j - 1) by omega] at hb
      exact h.chars (j - 1) (by omega) hb
  · rintro rfl
    exact hp

/-- The next stretch begins behind this one. -/
theorem Stretch.next (h : Stretch blob p n t) : beginsStretch blob (p + t) := by
  rcases h.ends with ⟨ht, hn, -⟩ | ⟨ht, -, hz, -⟩
  · exact .inl (by omega)
  · refine .inr ?_
    rw [ht, show p + (n + 1) - 1 = p + n by omega]
    exact hz

/-- A skipped stretch, or a NUL alone, makes one report. -/
theorem Stretch.reports_placeholder (h : Stretch blob p n t) (hp : beginsStretch blob p)
    (hs : ended blob p < start.toNat ∨ n = 0) :
    keyReports blob start (p + t) = keyReports blob start p + 1 := by
  have hpos := h.pos.1
  have hchars : Nat.count (fun j => charAt blob start (p + j)) t = 0 := by
    rw [Nat.count_iff_forall_not]
    rintro j hj ⟨hstart, hnz, -⟩
    rw [h.ended_at hj] at hstart
    rcases hs with hs | rfl
    · omega
    · obtain ⟨ht, hz⟩ : t = 1 ∧ windowByte blob p = 0 := by
        rcases h.ends with ⟨-, hn, -⟩ | ⟨ht, -, hz, -⟩
        · omega
        · exact ⟨ht, hz⟩
      rw [show j = 0 by omega] at hnz
      exact hnz hz
  have hplace : Nat.count (fun j => placeholderAt blob start (p + j)) t = 1 := by
    obtain ⟨m, rfl⟩ : ∃ m, t = m + 1 := ⟨t - 1, by omega⟩
    have hrest : Nat.count (fun j => placeholderAt blob start (p + (j + 1))) m = 0 := by
      rw [Nat.count_iff_forall_not]
      rintro j hj ⟨hb, -⟩
      exact absurd ((h.begins_at hp (by omega)).mp hb) (Nat.succ_ne_zero j)
    have hfirst : placeholderAt blob start (p + 0) := by
      refine ⟨hp, hs.imp_right fun h0 => ?_⟩
      rcases h.ends with ⟨-, hn, -⟩ | ⟨-, -, hz, -⟩
      · omega
      · rwa [h0] at hz
    rw [Nat.count_succ', hrest, if_pos hfirst]
  unfold keyReports charReports placeholders
  rw [Nat.count_add, Nat.count_add, hchars, hplace]
  omega

/-- Any other makes one for each character that is no pause. -/
theorem Stretch.reports_chars (h : Stretch blob p n t) (hp : beginsStretch blob p)
    (hs : start.toNat ≤ ended blob p) (h0 : n ≠ 0) :
    keyReports blob start (p + t) = keyReports blob start p +
      ((List.range n).map fun j => windowByte blob (p + j)).countP (· ≠ synchronousIdleKey) := by
  have hplace : Nat.count (fun j => placeholderAt blob start (p + j)) t = 0 := by
    rw [Nat.count_iff_forall_not]
    rintro j hj ⟨hb, hskip⟩
    rw [h.begins_at hp hj] at hb
    subst hb
    rw [h.ended_at hj] at hskip
    rcases hskip with hskip | hz
    · omega
    · exact h.chars 0 (Nat.pos_of_ne_zero h0) hz
  have hchars : Nat.count (fun j => charAt blob start (p + j)) t =
      Nat.count (fun j => windowByte blob (p + j) ≠ synchronousIdleKey) n := by
    have hsame : Nat.count (fun j => charAt blob start (p + j)) n =
        Nat.count (fun j => windowByte blob (p + j) ≠ synchronousIdleKey) n := by
      have hn : n ≤ t := by
        rcases h.ends with ⟨ht, -⟩ | ⟨ht, -⟩ <;> omega
      have hiff (j : ℕ) (hj : j < n) :
          charAt blob start (p + j) ↔ windowByte blob (p + j) ≠ synchronousIdleKey := by
        refine ⟨fun hc => hc.2.2, fun hc => ⟨?_, h.chars j hj, hc⟩⟩
        rw [h.ended_at (hj.trans_le hn)]
        exact hs
      exact le_antisymm (Nat.count_mono_left fun j hj => (hiff j hj).mp)
        (Nat.count_mono_left fun j hj => (hiff j hj).mpr)
    rcases h.ends with ⟨ht, -⟩ | ⟨ht, -, hz, -⟩
    · rw [ht, hsame]
    · rw [ht, Nat.count_succ, hsame, if_neg fun hc => hc.2.1 hz, Nat.add_zero]
  have hlist : ((List.range n).map fun j => windowByte blob (p + j)).countP
      (· ≠ synchronousIdleKey) = Nat.count (fun j => windowByte blob (p + j) ≠ synchronousIdleKey) n := by
    rw [List.countP_map]
    rfl
  unfold keyReports charReports placeholders
  rw [hlist, Nat.count_add, Nat.count_add, hchars, hplace]
  omega

end

/-- The text is read to the end of field `stop - 1` when `e` bytes are consumed. -/
def EndsAt (blob : List UInt8) (stop : UInt8) (e : ℕ) : Prop :=
  ended blob e = stop.toNat ∧ ∀ q < e, ended blob q < stop.toNat

/-- No field of the first `stop` is empty, and none of their NULs lies at the start of a block. -/
def Unbroken (blob : List UInt8) (e : ℕ) : Prop :=
  ∀ i < e, windowByte blob i = 0 → ¬beginsStretch blob i

instance (blob : List UInt8) (e : ℕ) : Decidable (Unbroken blob e) :=
  inferInstanceAs (Decidable (∀ _ < _, _))

/-- The characters of the fields `start`, …, `stop - 1` that are no pauses. -/
def typedChars (fs : List (List UInt8)) (start stop : UInt8) : ℕ :=
  ((fs.take stop.toNat).drop start.toNat).flatten.countP (· ≠ synchronousIdleKey)

section

variable {blob : List UInt8} {fs : List (List UInt8)} {start stop : UInt8} {pad e : ℕ}

theorem EndsAt.unique {e' : ℕ} (h : EndsAt blob stop e) (h' : EndsAt blob stop e') : e = e' := by
  rcases Nat.lt_trichotomy e e' with hlt | heq | hlt
  · exact absurd h.1 (h'.2 e hlt).ne
  · exact heq
  · exact absurd h'.1 (h.2 e' hlt).ne

theorem endsAt_fieldBytes (hf : ∀ f ∈ fs, 0 ∉ f) (hl : stop.toNat ≤ fs.length)
    (hshort : fieldBytes fs stop ≤ 256) : EndsAt (fieldBlob fs pad) stop (fieldBytes fs stop) := by
  have hle := fieldBytes_le fs pad stop
  refine ⟨le_antisymm ?_ ?_, fun q hq => (ended_lt hf hl (by omega) (by omega)).mpr hq⟩
  · -- one byte before the end a field is due
    cases hb : fieldBytes fs stop with
    | zero => exact Nat.zero_le _
    | succ q =>
      have hq : ended (fieldBlob fs pad) q < stop.toNat :=
        (ended_lt hf hl (by omega) (by omega)).mpr (by omega)
      rw [ended_succ]
      split_ifs <;> omega
  · exact not_lt.mp fun h => absurd ((ended_lt hf hl hshort hle).mp h) (lt_irrefl _)

/-- The characters reported of what is read are those of the fields asked for. -/
theorem charReports_spell {q : ℕ} (hq : q ≤ 256) (hb : q ≤ blob.length)
    (hs : ∀ i < q, ended blob i < stop.toNat) : charReports blob start q =
      (spell 0 start.toNat stop.toNat 0 (blob.take q)).countP (· ≠ synchronousIdleKey) := by
  induction q with
  | zero => rfl
  | succ q ih =>
    have hbyte : windowByte blob q = blob[q] := by
      unfold windowByte
      rw [Nat.mod_eq_of_lt (by omega), List.getD_eq_getElem?_getD, List.getElem?_eq_getElem (by omega),
        Option.getD_some]
    have hcount : ended blob q = (blob.take q).count 0 := ended_take (by omega) (by omega)
    have hlt := hs q (by omega)
    have hprev := ih (by omega) (by omega) fun i hi => hs i (by omega)
    unfold charReports at hprev ⊢
    rw [Nat.count_succ, hprev, List.take_succ_eq_append_getElem (by omega), spell_snoc,
      List.countP_append, Nat.zero_add, ← hcount, ← hbyte]
    congr 1
    by_cases hc : start.toNat ≤ ended blob q ∧ ended blob q < stop.toNat ∧ windowByte blob q ≠ 0
    · rw [if_pos hc, List.countP_singleton]
      refine if_congr ?_ rfl rfl
      rw [decide_eq_true_iff]
      exact ⟨fun h => h.2.2, fun h => ⟨hc.1, hc.2.2, h⟩⟩
    · rw [if_neg hc, if_neg fun h : charAt blob start q => hc ⟨h.1, hlt, h.2.1⟩]
      rfl

theorem charReports_fieldBytes (hf : ∀ f ∈ fs, 0 ∉ f) (hl : stop.toNat ≤ fs.length)
    (hshort : fieldBytes fs stop ≤ 256) :
    charReports (fieldBlob fs pad) start (fieldBytes fs stop) = typedChars fs start stop := by
  have htake : (fieldBlob fs pad).take (fieldBytes fs stop) = joinFields 0 (fs.take stop.toNat) := by
    rw [fieldBlob_split fs pad stop]
    exact List.take_left
  have hf' : ∀ f ∈ fs.take stop.toNat, 0 ∉ f := fun f hm => hf f (List.mem_of_mem_take hm)
  have hspell : spell 0 start.toNat stop.toNat 0 (joinFields 0 (fs.take stop.toNat) ++ []) =
      (((fs.take stop.toNat).take (stop.toNat - 0)).drop (start.toNat - 0)).flatten :=
    spell_joinFields hf' (by rw [List.length_take]; omega) []
  rw [List.append_nil, Nat.sub_zero, Nat.sub_zero, List.take_take, Nat.min_self] at hspell
  rw [charReports_spell hshort (fieldBytes_le fs pad stop) (endsAt_fieldBytes hf hl hshort).2, htake,
    hspell]
  rfl

theorem placeholders_eq_zero (hpos : 0 < e) :
    placeholders blob start e = 0 ↔ start = 0 ∧ Unbroken blob e := by
  unfold placeholders
  rw [Nat.count_iff_forall_not]
  constructor
  · intro h
    have hstart : start = 0 := by
      by_contra hne
      refine h 0 hpos ⟨.inl rfl, .inl ?_⟩
      exact Nat.pos_of_ne_zero fun h0 => hne (UInt8.toNat_inj.mp h0)
    exact ⟨hstart, fun i hi hz hb => h i hi ⟨hb, .inr hz⟩⟩
  · rintro ⟨rfl, hu⟩ i hi ⟨hb, hs | hz⟩
    · exact absurd hs (Nat.not_lt_zero _)
    · exact hu i hi hz hb

/-- Not every byte begins a stretch. -/
theorem placeholders_lt (h : EndsAt blob stop e) (hstop : stop.toNat ≤ 4) (he : e ≤ 256) :
    placeholders blob start e < 256 := by
  have hle : placeholders blob start e ≤ e := Nat.count_le _
  refine lt_of_le_of_ne (hle.trans he) fun hall => ?_
  have h256 : e = 256 := by omega
  unfold placeholders at hall
  rw [h256, Nat.count_iff_forall] at hall
  have hz (i : ℕ) (hi : i < 5) : windowByte blob i = 0 := by
    have hb := (hall (i + 1) (by omega)).1
    rcases hb with hb | hb
    · omega
    · exact hb
  have h5 : ended blob 5 = 5 := Nat.count_iff_forall.mpr hz
  have hmono : ended blob 5 ≤ ended blob e := Nat.count_monotone _ (by omega)
  have := h.1
  omega

/-- The last byte is the NUL of a field. -/
theorem charReports_lt (h : EndsAt blob stop e) (hpos : 0 < e) : charReports blob start e < e := by
  obtain ⟨q, rfl⟩ := Nat.exists_eq_succ_of_ne_zero hpos.ne'
  have hlast : windowByte blob q = 0 := by
    by_contra hne
    have hq := h.2 q (Nat.lt_succ_self q)
    have he := h.1
    rw [ended_succ, if_neg hne] at he
    omega
  unfold charReports
  rw [Nat.count_succ, if_neg fun hc : charAt blob start q => hc.2.1 hlast]
  exact Nat.lt_succ_of_le (Nat.count_le _)

end

end Memtype
