import Memtype.Proofs.Desk

/-! A `printUpdate` brings the text nearer to the string that was asked for last. -/

namespace Memtype

open Lib

variable {L : Layout} {key : UInt8 → UInt8 × UInt8} {used : List UInt8}

variable {text last own : List UInt8} {rs : List (List UInt8)} {x : Desk}

theorem toDrain_released {p : Print} (h : p.kbdStatus = .released) (rs : List (List UInt8)) :
    p.toDrain rs = (rs.map fun r => 2 * r.length + 1).sum := by
  unfold Print.toDrain
  rw [h]
  rfl

theorem toDrain_pressed {p : Print} (h : p.kbdStatus = .pressed) (rs : List (List UInt8)) :
    p.toDrain rs = (rs.map fun r => 2 * r.length + 1).sum + 1 := by
  unfold Print.toDrain
  rw [h]

theorem Shown.keys_update (h : Shown L key used text own rs x) :
    (printUpdate L x.device).keyOf L = key := by
  have hcore : (printUpdate L x.device).eeprom = x.device.eeprom :=
    (congrArg Device.eeprom (printStep_update L x.device).core :)
  rw [← h.keys]
  unfold Device.keyOf
  rw [hcore]

/-- The text is still on its way after the step, with fewer updates left. -/
def Goes (L : Layout) (key : UInt8 → UInt8 × UInt8) (used text last : List UInt8)
    (rs : List (List UInt8)) (x : Desk) : Prop :=
  ∃ own' rs', Replaced L key used text last own' rs' (x.update L key used) ∧
    (rs ≠ [] → (printUpdate L x.device).prn.toDrain rs' < x.device.prn.toDrain rs)

/-- The report of no key leaves the text. -/
theorem Shown.release (hk : distinctKeys key used) (h : Shown L key used text own rs x)
    {rs' : List (List UInt8)} (hp : Pending L (printUpdate L x.device) rs')
    (hsub : rs'.flatten ⊆ rs.flatten) (hr : (printUpdate L x.device).prn.report = (0, 0))
    (hc : (printUpdate L x.device).prn.cCount = x.device.prn.cCount) :
    Shown L key used text own rs' (x.update L key used) where
  keys := h.keys_update
  pending := hp
  chars c hc := h.chars c (hsub hc)
  text := by
    unfold Desk.update
    rw [hr, receive_none hk, h.text]
  seen := rfl
  count := by
    unfold Desk.update
    rw [hc]
    exact h.count

/-- The report of a key edits it. -/
theorem Shown.press (hk : distinctKeys key used) (h : Shown L key used text own rs x)
    {rs' : List (List UInt8)} {own' : List UInt8} {c : UInt8} (hc : c ∈ used)
    (hp : Pending L (printUpdate L x.device) rs') (hsub : rs'.flatten ⊆ rs.flatten)
    (hr : (printUpdate L x.device).prn.report = key c) (hne : x.device.prn.report ≠ key c)
    (hedit : edit (text ++ own) (some c) = text ++ own')
    (hcount : (printUpdate L x.device).prn.cCount.toNat = own'.length) :
    Shown L key used text own' rs' (x.update L key used) where
  keys := h.keys_update
  pending := hp
  chars c hc := h.chars c (hsub hc)
  text := by
    unfold Desk.update
    rw [hr, receive_key hk hc (by rwa [h.seen]), h.text, hedit]
  seen := rfl
  count := hcount

/-- An update that leaves the slots and presses no key. -/
theorem Shown.quiet (hk : distinctKeys key used) (h : Shown L key used text own rs x) {q : Print}
    (hupd : printUpdate L x.device = { x.device with prn := q }) (hb : q.strBuf = x.device.prn.strBuf)
    (ha : q.actString = x.device.prn.actString) (hr : q.report = (0, 0))
    (hc : q.cCount = x.device.prn.cCount) : Shown L key used text own rs (x.update L key used) := by
  have hp := printStep_update L x.device
  refine h.release hk ?_ (List.Subset.refl _) ?_ ?_
  all_goals rw [hupd] at *
  · exact pending_congr h.pending hp rfl hb ha
  · exact hr
  · exact hc

/-- An update that frees the current slot. -/
theorem Shown.free (hk : distinctKeys key used) (h : Shown L key used text own rs x) {q : Print}
    (hupd : printUpdate L x.device = { x.device with prn := { q.freeAct.nextString with eos := true } })
    (hb : q.strBuf = x.device.prn.strBuf) (ha : q.actString = x.device.prn.actString)
    (hr : q.report = (0, 0)) (hc : q.cCount = x.device.prn.cCount) :
    Shown L key used text own rs.tail (x.update L key used) := by
  have hpend : Pending L { x.device with prn := q } rs :=
    pending_congr h.pending (.prn x.device q) rfl hb ha
  have hsub : rs.tail.flatten ⊆ rs.flatten := by
    cases rs with
    | nil => exact List.Subset.refl _
    | cons r rs => exact List.subset_append_right r _
  refine h.release hk ?_ hsub ?_ ?_
  all_goals rw [hupd]
  · exact pending_freeAct hpend (.prn { x.device with prn := q } _) rfl rfl
  · exact hr
  · exact hc

theorem Shown.goes {own' : List UInt8} {rs' : List (List UInt8)} {q : Print}
    (h : Shown L key used text own' rs' (x.update L key used))
    (hupd : (printUpdate L x.device).prn = q)
    (hphase : Writing key last own' rs' q ∨ Erasing key last rs' q)
    (hlt : rs ≠ [] → q.toDrain rs' < x.device.prn.toDrain rs) : Goes L key used text last rs x := by
  subst hupd
  exact ⟨own', rs', ⟨h, hphase⟩, hlt⟩

/-- Between two keys nothing changes for the strings. -/
theorem Writing.between {p q : Print} (h : Writing key last own rs p) (he : q.eos = p.eos)
    (hs : q.kbdStatus = .init ∨ q.kbdStatus = .released) (hr : q.report = (0, 0)) :
    Writing key last own rs q :=
  ⟨h.spelled, h.alone, by rw [he]; exact h.fresh, by rw [he]; exact h.begun, .inl ⟨hs, hr⟩⟩

theorem Shown.goes_init (hk : distinctKeys key used) (h : Shown L key used text own rs x)
    (hw : Writing key last own rs x.device.prn) (hs : x.device.prn.kbdStatus = .init)
    (hr : x.device.prn.report = (0, 0)) : Goes L key used text last rs x := by
  have hlt := x.device.prn.debounceCount.toNat_lt
  by_cases hb : x.device.prn.debounceCount < initDebounce
  · have hupd : printUpdate L x.device = { x.device with prn := { x.device.prn.releaseKey with
        debounceCount := x.device.prn.debounceCount + 1 } } := by
      unfold printUpdate
      rw [hs]
      exact if_pos hb
    refine (h.quiet hk hupd rfl rfl rfl rfl).goes (congrArg Device.prn hupd)
      (.inl (hw.between rfl (.inl hs) rfl)) fun _ => ?_
    have hsmall : x.device.prn.debounceCount.toNat < 50 := hb
    have hinc : (x.device.prn.debounceCount + 1).toNat = x.device.prn.debounceCount.toNat + 1 :=
      toNat_succ8 (by omega)
    unfold Print.toDrain
    dsimp only [Print.releaseKey]
    rw [hs, hinc]
    dsimp only
    omega
  · have hupd : printUpdate L x.device =
        { x.device with prn := { x.device.prn with kbdStatus := .released, debounceCount := 0 } } := by
      unfold printUpdate
      rw [hs]
      exact if_neg hb
    refine (h.quiet hk hupd rfl rfl hr rfl).goes (congrArg Device.prn hupd)
      (.inl (hw.between rfl (.inr rfl) hr)) fun _ => ?_
    unfold Print.toDrain
    rw [hs]
    dsimp only
    omega

theorem Shown.goes_pressed (hk : distinctKeys key used) (h : Shown L key used text own rs x)
    (hw : Writing key last own rs x.device.prn) (hs : x.device.prn.kbdStatus = .pressed) :
    Goes L key used text last rs x := by
  have hupd : printUpdate L x.device =
      { x.device with prn := { x.device.prn.releaseKey with kbdStatus := .released } } := by
    have hdec : ({ x.device.prn.releaseKey with kbdStatus := .released } : Print).decLen =
      { x.device.prn.releaseKey with kbdStatus := .released } := decLen_plain (slot_plain h.pending).2
    rw [update_pressed hs, hdec]
  refine (h.quiet hk hupd rfl rfl rfl rfl).goes (congrArg Device.prn hupd)
    (.inl (hw.between rfl (.inr rfl) rfl)) fun _ => ?_
  rw [toDrain_released rfl, toDrain_pressed hs]
  exact Nat.lt_succ_self _

/-- The end of a string, or an empty slot. -/
theorem Shown.goes_done (hk : distinctKeys key used) (h : Shown L key used text own rs x)
    (hw : Writing key last own rs x.device.prn) (hs : x.device.prn.kbdStatus = .released)
    (hr : x.device.prn.report = (0, 0)) (hhead : rs.headD [] = []) :
    Goes L key used text last rs x := by
  have hread : readChar L x.device = 0 := by
    rw [readChar_pending h.pending, hhead]
    rfl
  have hupd : printUpdate L x.device =
      { x.device with prn := { x.device.prn.freeAct.nextString with eos := true } } := by
    rw [update_released hs]
    exact if_pos ⟨(slot_plain h.pending).1, hread⟩
  have hflat : rs.tail.flatten = rs.flatten := by
    cases rs with
    | nil => rfl
    | cons r rs =>
      rw [show r = [] from hhead]
      rfl
  have hrest : own = [] ∨ rs.tail.flatten = [] := by
    cases he : x.device.prn.eos with
    | true =>
      rw [hflat]
      exact hw.fresh he
    | false => exact .inr (hw.begun he)
  refine (h.free hk hupd rfl rfl hr rfl).goes (congrArg Device.prn hupd) (.inl ?_) fun hne => ?_
  · exact ⟨by rw [hflat]; exact hw.spelled, hw.alone.tail, fun _ => hrest, nofun, .inl ⟨.inr hs, hr⟩⟩
  · obtain ⟨r, rs, rfl⟩ := List.exists_cons_of_ne_nil hne
    rw [toDrain_released (by exact hs), toDrain_released hs, List.map_cons, List.sum_cons,
      List.tail_cons]
    omega

/-- The key of the next character. -/
theorem released_report {d : Device} (h1 : ¬(d.prn.slot.callback = false ∧ readChar L d = 0))
    (h2 : ¬(d.prn.slot.callback = true ∧ d.prn.slot.len = 0))
    (h3 : ¬readChar L d = synchronousIdleKey) :
    (printReleased L d).prn.report = d.keyOf L (readChar L d) := by
  unfold printReleased
  dsimp only
  rw [if_neg h1, if_neg h2, if_neg h3]
  split_ifs <;> rfl

/-- When a string has begun, the ones after it are empty. -/
theorem Writing.rest_nil {c : UInt8} {r : List UInt8} {p : Print}
    (hw : Writing key last own ((c :: r) :: rs) p) : rs.flatten = [] := by
  rw [List.flatten_eq_nil_iff]
  intro r' hr'
  exact ((List.pairwise_cons.mp hw.alone).1 r' hr').resolve_left nofun

/-- The first character of a string is counted from 1, and nothing is typed before it. -/
theorem Writing.count_char {c : UInt8} {r : List UInt8} {p q : Print}
    (hw : Writing key last own ((c :: r) :: rs) p) (hlen : last.length ≤ 255)
    (hcount : p.cCount.toNat = own.length)
    (hq : q.cCount = if p.eos = false then p.cCount + 1 else 1) :
    q.cCount.toNat = (own ++ [c]).length := by
  have hle : own.length < 255 := by
    have := congrArg List.length hw.spelled
    rw [List.length_append, List.flatten_cons, List.length_append, List.length_cons] at this
    omega
  rw [hq, List.length_append, List.length_singleton]
  split_ifs with he
  · rw [toNat_succ8 (by rwa [hcount]), hcount]
  · rcases hw.fresh (eq_true_of_ne_false he) with ho | hz
    · rw [ho]
      rfl
    · exact absurd hz nofun

/-- The next character. -/
theorem Shown.goes_char (hk : distinctKeys key used) (hback : 0x08 ∈ used) {c : UInt8}
    {r : List UInt8} (h : Shown L key used text own ((c :: r) :: rs) x)
    (hw : Writing key last own ((c :: r) :: rs) x.device.prn) (hlen : last.length ≤ 255)
    (hs : x.device.prn.kbdStatus = .released) (hr : x.device.prn.report = (0, 0)) :
    Goes L key used text last ((c :: r) :: rs) x := by
  have hp := printStep_update L x.device
  obtain ⟨hused, hne, hpause⟩ := h.chars c List.mem_cons_self
  have hread : readChar L x.device = c := readChar_pending h.pending
  have hc0 : c ≠ 0 := h.pending.head_full.2.2.2.1 c List.mem_cons_self
  have h1 : ¬(x.device.prn.slot.callback = false ∧ readChar L x.device = 0) := by
    rw [hread]
    exact fun hz => hc0 hz.2
  have h2 : ¬(x.device.prn.slot.callback = true ∧ x.device.prn.slot.len = 0) := by
    rw [(slot_plain h.pending).1]
    exact fun hz => absurd hz.1 nofun
  have h3 : ¬readChar L x.device = synchronousIdleKey := by rwa [hread]
  obtain ⟨q, hq, hbuf, hact, hst, heos, hcnt⟩ := released_press h1 h2 h3
  have hrep := released_report h1 h2 h3
  rw [← update_released hs] at hq hrep
  rw [hread, h.keys] at hrep
  have hcount : q.cCount.toNat = (own ++ [c]).length := hw.count_char hlen h.count hcnt
  have hrest : rs.flatten = [] := hw.rest_nil
  have hprn : (printUpdate L x.device).prn = q := congrArg Device.prn hq
  have hpend : Pending L (printUpdate L x.device) (r :: rs) := by
    rw [hq] at hp ⊢
    exact pending_typeChar h.pending hp rfl hbuf hact
  have hnz : x.device.prn.report ≠ key c := by
    rw [hr]
    exact (hk.1 c hused).symm
  have hedit : edit (text ++ own) (some c) = text ++ (own ++ [c]) := by
    rw [← List.append_assoc]
    exact if_neg hne
  rw [hprn] at hrep
  refine (h.press hk hused hpend (List.subset_cons_self c _) (hprn ▸ hrep) hnz hedit
    (hprn ▸ hcount)).goes hprn (.inl ⟨?_, ?_, ?_, fun _ => hrest, .inr ⟨hst, ?_, nofun⟩⟩) fun _ => ?_
  · rw [← hw.spelled, List.append_assoc]
    rfl
  · rw [List.pairwise_cons]
    refine ⟨fun r' hr' => .inr (List.flatten_eq_nil_iff.mp hrest r' hr'), ?_⟩
    exact (List.pairwise_cons.mp hw.alone).2
  · exact fun he => absurd (heos.symm.trans he) nofun
  · rw [hrep]
    exact fun hb => hne (hk.2 c hused 0x08 hback hb)
  · rw [toDrain_pressed hst, toDrain_released hs]
    simp only [List.map_cons, List.sum_cons, List.length_cons]
    omega

/-- A character of the old text is erased. -/
theorem Shown.goes_erase (hk : distinctKeys key used) (hback : 0x08 ∈ used)
    (h : Shown L key used text own rs x) (he : Erasing key last rs x.device.prn)
    (hs : x.device.prn.kbdStatus = .delete) (hc : x.device.prn.cCount > 0)
    (hr : x.device.prn.report ≠ key 0x08) : Goes L key used text last rs x := by
  have hp := printStep_update L x.device
  have hprn : (printUpdate L x.device).prn = { x.device.prn with
      modifier := (key 0x08).1, keycode := (key 0x08).2, cCount := x.device.prn.cCount - 1,
      kbdStatus := .deletePressed } := by
    rw [update_delete hs, ← h.keys]
    unfold printDelete
    rw [if_pos hc]
    rfl
  have hcrd : (printUpdate L x.device).crd = x.device.crd := by
    rw [update_delete hs]
    unfold printDelete
    rw [if_pos hc]
    rfl
  have hpos : 0 < x.device.prn.cCount.toNat := hc
  have hdec : (x.device.prn.cCount - 1).toNat = x.device.prn.cCount.toNat - 1 :=
    UInt8.toNat_sub_of_le _ _ (UInt8.le_iff_toNat_le.mpr hpos)
  have hpend : Pending L (printUpdate L x.device) rs :=
    pending_congr h.pending hp hcrd (by rw [hprn]) (by rw [hprn])
  have hown : own ≠ [] := by
    rintro rfl
    rw [h.count] at hpos
    exact absurd hpos (Nat.lt_irrefl 0)
  have hedit : edit (text ++ own) (some 0x08) = text ++ own.dropLast :=
    List.dropLast_append_of_ne_nil hown
  refine (h.press hk hback hpend (List.Subset.refl _) (by rw [hprn]; rfl) hr hedit ?_).goes hprn
    (.inr ⟨he.asked, he.spelled, he.alone, .inr rfl⟩) fun _ => ?_
  · rw [hprn, List.length_dropLast, ← h.count]
    exact hdec
  · unfold Print.toDrain
    dsimp only
    rw [hs, hdec]
    dsimp only
    omega

/-- The old text is erased, and the string that had begun is given up. -/
theorem Shown.goes_erased (hk : distinctKeys key used) (h : Shown L key used text own rs x)
    (he : Erasing key last rs x.device.prn) (hs : x.device.prn.kbdStatus = .delete)
    (hc : ¬x.device.prn.cCount > 0) : Goes L key used text last rs x := by
  have hown : own = [] := by
    rw [← List.length_eq_zero_iff, ← h.count]
    exact Nat.le_zero.mp (not_lt.mp hc)
  subst hown
  have hdrain {q : Print} {rs' : List (List UInt8)} (hq : q.kbdStatus = .released)
      (hle : (rs'.map fun r => 2 * r.length + 1).sum ≤ (rs.map fun r => 2 * r.length + 1).sum) :
      q.toDrain rs' < x.device.prn.toDrain rs := by
    rw [toDrain_released hq]
    unfold Print.toDrain
    rw [hs]
    dsimp only
    omega
  have hspelled := he.spelled
  have halone := he.alone
  cases heos : x.device.prn.eos with
  | true =>
    rw [waiting_eos heos] at hspelled halone
    have hupd : printUpdate L x.device =
        { x.device with prn := { x.device.prn.releaseKey with kbdStatus := .released } } := by
      rw [update_delete hs]
      unfold printDelete
      rw [if_neg hc]
      exact if_neg (by rw [heos]; nofun)
    refine (h.quiet hk hupd rfl rfl rfl rfl).goes (congrArg Device.prn hupd) (.inl ?_)
      fun _ => hdrain rfl le_rfl
    exact ⟨hspelled, halone, fun _ => .inl rfl, fun hf => absurd (heos.symm.trans hf) nofun,
      .inl ⟨.inr rfl, rfl⟩⟩
  | false =>
    rw [waiting_begun heos] at hspelled halone
    have hupd : printUpdate L x.device = { x.device with prn :=
        { ({ x.device.prn.releaseKey with kbdStatus := .released } : Print).freeAct.nextString with
          eos := true } } := by
      rw [update_delete hs]
      unfold printDelete
      rw [if_neg hc]
      exact if_pos heos
    refine (h.free hk hupd rfl rfl rfl rfl).goes (congrArg Device.prn hupd) (.inl ?_)
      fun _ => hdrain rfl ?_
    · exact ⟨hspelled, halone, fun _ => .inl rfl, nofun, .inl ⟨.inr rfl, rfl⟩⟩
    · cases rs with
      | nil => exact le_rfl
      | cons r rs =>
        rw [List.map_cons, List.sum_cons, List.tail_cons]
        exact Nat.le_add_left ..

theorem Shown.goes_deletePressed (hk : distinctKeys key used) (h : Shown L key used text own rs x)
    (he : Erasing key last rs x.device.prn) (hback : 0x08 ∈ used)
    (hs : x.device.prn.kbdStatus = .deletePressed) : Goes L key used text last rs x := by
  have hupd := update_deletePressed (L := L) hs
  refine (h.quiet hk hupd rfl rfl rfl rfl).goes (congrArg Device.prn hupd) (.inr ?_) fun _ => ?_
  · exact ⟨he.asked, he.spelled, he.alone, .inl ⟨rfl, fun _ => (hk.1 0x08 hback).symm⟩⟩
  · unfold Print.toDrain
    rw [hs]
    exact Nat.lt_succ_self _

theorem Replaced.update (hk : distinctKeys key used) (hback : 0x08 ∈ used) (hlen : last.length ≤ 255)
    (h : Replaced L key used text last own rs x) : Goes L key used text last rs x := by
  obtain ⟨h, hw | he⟩ := h
  · rcases hw.report with ⟨hs | hs, hr⟩ | ⟨hs, -⟩
    · exact h.goes_init hk hw hs hr
    · match rs, h, hw with
      | [], h, hw => exact h.goes_done hk hw hs hr rfl
      | [] :: rs, h, hw => exact h.goes_done hk hw hs hr rfl
      | (c :: r) :: rs, h, hw => exact h.goes_char hk hback hw hlen hs hr
    · exact h.goes_pressed hk hw hs
  · rcases he.report with ⟨hs, hr⟩ | hs
    · by_cases hc : x.device.prn.cCount > 0
      · exact h.goes_erase hk hback he hs hc (hr hc)
      · exact h.goes_erased hk he hs hc
    · exact h.goes_deletePressed hk he hback hs

end Memtype
