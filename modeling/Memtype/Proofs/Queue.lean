import Memtype.Proofs.Detail

/-! What is left of a detail in the queue of `print`, and what keeps it from being typed. -/

namespace Memtype

open Lib

/-- A character of a detail, pressed or queued. The placeholder's character 0 is none. -/
def Call.isDetail : Call → Bool
  | .press .detail c => c ≠ 0
  | .segment _ => true
  | _ => false

def Call.isMark : Call → Bool
  | .deleteStr | .printDetail .. => true
  | _ => false

def Call.isAside : Call → Bool
  | .deleteStr | .printDetail .. | .segment _ | .press .. => false
  | _ => true

theorem Call.isAside_detail (c : Call) (h : c.isAside = true) : (!c.isDetail) = true := by
  cases c <;> simp_all [Call.isAside, Call.isDetail]

theorem Call.isAside_mark (c : Call) (h : c.isAside = true) : (!c.isMark) = true := by
  cases c <;> simp_all [Call.isAside, Call.isMark]

abbrev NoDetail (d d' : Device) : Prop := Adds (fun c => !c.isDetail) d d'

abbrev NoMark (d d' : Device) : Prop := Adds (fun c => !c.isMark) d d'

/-- The calls that `CRD_apply` makes. -/
theorem adds_apply {p : Call → Bool} (hdec : ∀ a, p (.decrypt a) = true)
    (hseg : ∀ n, p (.segment n) = true) (hplace : p .placeholder = true) (L : Layout) (d : Device) :
    Adds p d (crdApply L d) := by
  have hdec : Adds p d (applyDecrypt d) := by
    unfold applyDecrypt
    split_ifs
    · exact (Adds.same rfl).call (hdec _)
    · exact .refl d
  have hqueue (n : ℕ) (d : Device) : Adds p d (applyQueue L n d) := by
    unfold applyQueue
    split_ifs
    · exact (Adds.same rfl).call (hseg _)
    · exact (Adds.same rfl).call hplace
  unfold crdApply
  split_ifs
  · exact .refl d
  · exact (hdec.trans (hqueue _ _)).trans (.same rfl)

theorem noMark_apply (L : Layout) (d : Device) : NoMark d (crdApply L d) :=
  adds_apply (fun _ => rfl) (fun _ => rfl) rfl L d

/-- `CRD_apply` asks for a string, or does nothing. -/
theorem apply_prn (L : Layout) (d : Device) : (crdApply L d).prn = d.prn ∨
    ∃ str len, (crdApply L d).prn = d.prn.print str .ram len := by
  have hdec : (applyDecrypt d).prn = d.prn := by
    unfold applyDecrypt
    split_ifs <;> rfl
  have hqueue (n : ℕ) : ∃ str len, (applyQueue L n (applyDecrypt d)).prn =
      d.prn.print str .ram len := by
    rw [← hdec]
    unfold applyQueue
    split_ifs
    · exact ⟨_, _, rfl⟩
    · exact ⟨_, _, rfl⟩
  unfold crdApply
  split_ifs
  · exact .inl rfl
  · exact .inr (hqueue _)

theorem noMark_update (L : Layout) (d : Device) : NoMark d (printUpdate L d) := by
  have hpress (src : KeySource) (c : UInt8) (d' : Device) (h : d'.calls = d.calls) :
      NoMark d (printPressKey L src c d') := (Adds.same (p := fun c => !c.isMark) h).call rfl
  have happly : NoMark d (crdApply L { d with prn := d.prn.freeAct }) :=
    Adds.trans (b := { d with prn := d.prn.freeAct }) (.same rfl) (noMark_apply L _)
  unfold printUpdate
  split
  · split_ifs <;> exact .same rfl
  · exact .same rfl
  · unfold printReleased
    dsimp only
    split_ifs
    · exact .same rfl
    · exact happly.trans (.same rfl)
    · exact happly
    · exact Adds.call (.same rfl) rfl
    all_goals exact (hpress _ _ _ rfl).trans (.same rfl)
  · split_ifs <;> exact .same rfl
  · unfold printDelete
    split_ifs
    · exact (hpress _ _ _ rfl).trans (.same rfl)
    · exact .same rfl
    · exact .same rfl
  · exact .same rfl

/-- Characters of a detail are due from the slot. From the placeholder a 0 is due. -/
def StrPtr.live (L : Layout) (s : StrPtr) : Prop :=
  s.info ≠ .empty ∧ s.callback = true ∧ s.len ≠ 0 ∧
    ¬(s.info = .ram ∧ s.strPtr = L.emptyStr ∧ s.len = 1)

instance (L : Layout) (s : StrPtr) : Decidable (s.live L) :=
  inferInstanceAs (Decidable (_ ∧ _ ∧ _ ∧ _))

namespace Print

/-- Nothing of a detail is left to type: at most a string that is being given up, or one whose
last character has been dealt with. -/
def spent (L : Layout) (p : Print) : Prop :=
  ∀ i, (p.strBuf i).live L → i = p.actString ∧
    (p.eos = false ∧ (p.kbdStatus = .delete ∨ p.kbdStatus = .deletePressed) ∨
      (p.strBuf i).len = 1 ∧ (p.kbdStatus = .pressed ∨ p.kbdStatus = .idle))

instance (L : Layout) (p : Print) : Decidable (p.spent L) :=
  inferInstanceAs (Decidable (∀ _, _ → _))

variable {L : Layout} {p q : Print}

theorem spent_of_none (h : ∀ i, ¬(p.strBuf i).live L) : p.spent L := fun i hi => absurd hi (h i)

theorem setAct_apply (s : StrPtr) (i : Fin 5) :
    (p.setAct s).strBuf i = if i = p.actString then s else p.strBuf i :=
  Function.update_apply ..

theorem live_setAct {s : StrPtr} {i : Fin 5} (h : ((p.setAct s).strBuf i).live L) :
    i = p.actString ∧ s.live L ∨ i ≠ p.actString ∧ (p.strBuf i).live L := by
  rw [setAct_apply] at h
  split_ifs at h with hi
  · exact .inl ⟨hi, h⟩
  · exact .inr ⟨hi, h⟩

theorem callback_setAct {s : StrPtr} (hs : s.callback = p.slot.callback) (i : Fin 5) :
    ((p.setAct s).strBuf i).callback = (p.strBuf i).callback := by
  rw [setAct_apply]
  split_ifs with hi
  · rw [hs, hi, slot]
  · rfl

theorem live_freeAct {i : Fin 5} (h : (p.freeAct.strBuf i).live L) :
    i ≠ p.actString ∧ (p.strBuf i).live L := by
  rcases live_setAct h with ⟨-, hs⟩ | h
  · exact absurd rfl hs.1
  · exact h

theorem callback_freeAct (i : Fin 5) : (p.freeAct.strBuf i).callback = (p.strBuf i).callback :=
  callback_setAct (s := { p.slot with info := .empty }) rfl i

/-- After `len--` a slot is no more live than before, and dead if that was the last character. -/
theorem live_decLen {i : Fin 5} (h : (p.decLen.strBuf i).live L) :
    (p.strBuf i).live L ∧ (i = p.actString → (p.strBuf i).len ≠ 1) := by
  unfold decLen at h
  split_ifs at h with hlen
  · rcases live_setAct h with ⟨hi, hs⟩ | ⟨hi, hs⟩
    · obtain ⟨h1, h2, h3, -⟩ := hs
      have hne : p.slot.len ≠ 1 := by
        intro h1
        rw [h1] at h3
        exact h3 rfl
      subst hi
      refine ⟨⟨h1, h2, ?_, fun hp => hne hp.2.2⟩, fun _ => hne⟩
      intro h0
      rw [show p.slot.len = 0 from h0] at hlen
      exact absurd hlen (by decide)
    · exact ⟨hs, fun h => absurd h hi⟩
  · refine ⟨h, fun hi h1 => hlen ?_⟩
    rw [slot, ← hi, h1]
    decide

theorem callback_decLen (i : Fin 5) : (p.decLen.strBuf i).callback = (p.strBuf i).callback := by
  unfold decLen
  split_ifs
  · exact callback_setAct (s := { p.slot with len := p.slot.len - 1 }) rfl i
  · rfl

/-- `len--` changes the slots only. -/
theorem decLen_slots (p : Print) : ∃ b, p.decLen = { p with strBuf := b } := by
  unfold decLen
  split_ifs
  · exact ⟨_, rfl⟩
  · exact ⟨p.strBuf, rfl⟩

/-- `print` fills an empty slot, or does nothing. -/
theorem print_cases (p : Print) (str : UInt16) (info : Info) (len : UInt8) :
    p.print str info len = p ∨ ∃ i, p.print str info len =
      p.setSlot i { strPtr := str, info := info, len := len, callback := len ≠ 0 } := by
  unfold print
  split
  · next i hi => exact .inr ⟨i, rfl⟩
  · exact .inl rfl

/-- A plain string makes no slot live. -/
theorem live_print {str : UInt16} {info : Info} {i : Fin 5}
    (h : ((p.print str info 0).strBuf i).live L) :
    (p.print str info 0).strBuf i = p.strBuf i := by
  rcases print_cases p str info 0 with hp | ⟨j, hp⟩
  · rw [hp]
  · rw [hp] at h ⊢
    by_cases hij : i = j
    · subst hij
      have hu : (p.setSlot i ⟨str, info, 0, (0 : UInt8) ≠ 0⟩).strBuf i = ⟨str, info, 0, _⟩ :=
        Function.update_self ..
      rw [hu] at h
      exact absurd rfl h.2.2.1
    · exact Function.update_of_ne hij ..

theorem print_frame (p : Print) (str : UInt16) (info : Info) (len : UInt8) :
    (p.print str info len).actString = p.actString ∧ (p.print str info len).eos = p.eos ∧
      (p.print str info len).kbdStatus = p.kbdStatus := by
  rcases print_cases p str info len with hp | ⟨i, hp⟩
  · rw [hp]
    exact ⟨rfl, rfl, rfl⟩
  · rw [hp]
    exact ⟨rfl, rfl, rfl⟩

theorem spent_print (h : p.spent L) (str : UInt16) (info : Info) :
    (p.print str info 0).spent L := by
  intro i hi
  have hs := live_print hi
  obtain ⟨ha, he, hk⟩ := print_frame p str info 0
  rw [ha, he, hk, hs]
  rw [hs] at hi
  exact h i hi

theorem callback_print {str : UInt16} {info : Info} (h : ∀ i, (p.strBuf i).callback = false)
    (i : Fin 5) : ((p.print str info 0).strBuf i).callback = false := by
  rcases print_cases p str info 0 with hp | ⟨j, hp⟩
  · rw [hp]
    exact h i
  · rw [hp]
    by_cases hij : i = j
    · subst hij
      have hu : (p.setSlot i ⟨str, info, 0, (0 : UInt8) ≠ 0⟩).strBuf i = ⟨str, info, 0, _⟩ :=
        Function.update_self ..
      rw [hu]
      rfl
    · exact (congrArg StrPtr.callback (Function.update_of_ne hij ..)).trans (h i)

end Print

namespace Device

/-- How many fields `CRD_apply` has been through, and where it stops. -/
def applied (d : Device) : UInt8 × UInt8 := (d.crd.counter, d.crd.crdStop)

/-- `CRD_apply` has nothing more to queue, or will not be called. -/
def applyDone (d : Device) : Prop :=
  d.applied.2 ≤ d.applied.1 ∨ ∀ i, (d.prn.strBuf i).callback = false

instance (d : Device) : Decidable d.applyDone := inferInstanceAs (Decidable (_ ∨ _))

/-- Nothing of a detail is left, to type or to queue. -/
def spent (L : Layout) (d : Device) : Prop := d.prn.spent L ∧ d.applyDone

instance (L : Layout) (d : Device) : Decidable (d.spent L) := inferInstanceAs (Decidable (_ ∧ _))

end Device

section

variable {L : Layout} {d d' : Device}

theorem applyDone_congr (h : d.applyDone) (hc : d'.applied = d.applied)
    (hs : ∀ i, (d'.prn.strBuf i).callback = (d.prn.strBuf i).callback) : d'.applyDone := by
  refine h.imp (fun h => ?_) fun h i => (hs i).trans (h i)
  rw [hc]
  exact h

theorem readChar_spent (h : ¬d.prn.slot.live L) (hc : d.prn.slot.callback = true)
    (hl : d.prn.slot.len ≠ 0) : readChar L d = 0 := by
  unfold readChar
  split
  · rfl
  · next hi =>
    have hp : d.prn.slot.strPtr = L.emptyStr := by
      by_contra hp
      exact h ⟨by rw [hi]; nofun, hc, hl, fun hr => hp hr.2.1⟩
    rw [hp]
    exact ramByte_emptyStr L d
  · next hi =>
    refine absurd ⟨by rw [hi]; nofun, hc, hl, fun hr => ?_⟩ h
    rw [hi] at hr
    exact absurd hr.1 nofun

/-- The next character of a slot that is not live: what is left is at most the placeholder. -/
theorem spent_typed {q : Print} {st : KbdStatus} (hn : ∀ i, ¬(d.prn.strBuf i).live L)
    (hb : q.strBuf = (d.prn.setAct { d.prn.slot with strPtr := d.prn.slot.strPtr + 1 }).strBuf)
    (ha : q.actString = d.prn.actString) (hk : q.kbdStatus = st)
    (hst : st = .pressed ∨ st = .idle) : q.spent L := by
  intro i hi
  rw [hb] at hi
  rcases Print.live_setAct hi with ⟨rfl, h1, h2, h3, -⟩ | ⟨-, h⟩
  · refine ⟨ha.symm, .inr ⟨?_, by rw [hk]; exact hst⟩⟩
    rw [hb, Print.setAct_apply, if_pos rfl]
    by_contra hne
    exact hn _ ⟨h1, h2, h3, fun hp => hne hp.2.2⟩
  · exact absurd h (hn i)

/-- `printReleased` at a character that is not a pause. -/
theorem released_press (h1 : ¬(d.prn.slot.callback = false ∧ readChar L d = 0))
    (h2 : ¬(d.prn.slot.callback = true ∧ d.prn.slot.len = 0))
    (h3 : ¬readChar L d = synchronousIdleKey) : ∃ q : Print,
      printReleased L d = { d with prn := q }.call
        (.press (if d.prn.slot.callback then .detail else .string) (readChar L d)) ∧
      q.strBuf = (d.prn.setAct { d.prn.slot with strPtr := d.prn.slot.strPtr + 1 }).strBuf ∧
      q.actString = d.prn.actString ∧ q.kbdStatus = .pressed ∧ q.eos = false ∧
      q.cCount = if d.prn.eos = false then d.prn.cCount + 1 else 1 := by
  unfold printReleased
  dsimp only
  rw [if_neg h1, if_neg h2, if_neg h3]
  refine ⟨_, rfl, ?_⟩
  cases he : d.prn.eos
  all_goals simp [printPressKey, Device.call, Print.setAct, Print.setSlot, he]

/-- At a pause it types nothing. -/
theorem released_pause (h1 : ¬(d.prn.slot.callback = false ∧ readChar L d = 0))
    (h2 : ¬(d.prn.slot.callback = true ∧ d.prn.slot.len = 0))
    (h3 : readChar L d = synchronousIdleKey) : printReleased L d = { d with prn := { d.prn.setAct
      { d.prn.slot with strPtr := d.prn.slot.strPtr + 1 } with kbdStatus := .idle } }.call .pause := by
  unfold printReleased
  dsimp only
  rw [if_neg h1, if_neg h2, if_pos h3]

theorem released_spent (hn : ∀ i, ¬(d.prn.strBuf i).live L) (hd : d.applyDone) :
    (printReleased L d).spent L ∧ NoDetail d (printReleased L d) := by
  have hfree : ∀ i, ¬(d.prn.freeAct.strBuf i).live L := fun i hi => hn i (Print.live_freeAct hi).2
  have hcb := Print.callback_setAct (p := d.prn) (s := { d.prn.slot with
    strPtr := d.prn.slot.strPtr + 1 }) rfl
  by_cases h1 : d.prn.slot.callback = false ∧ readChar L d = 0
  · unfold printReleased
    dsimp only
    rw [if_pos h1]
    exact ⟨⟨Print.spent_of_none hfree, applyDone_congr hd rfl Print.callback_freeAct⟩, .same rfl⟩
  by_cases h2 : d.prn.slot.callback = true ∧ d.prn.slot.len = 0
  · -- `CRD_apply` is called, and has nothing to queue
    have hstop : d.crd.crdStop ≤ d.crd.counter := by
      refine hd.resolve_right fun hd => ?_
      have hc : d.prn.slot.callback = false := hd _
      rw [h2.1] at hc
      exact absurd hc nofun
    have happly : crdApply L { d with prn := d.prn.freeAct } = { d with prn := d.prn.freeAct } :=
      if_pos hstop
    unfold printReleased
    dsimp only
    rw [if_neg h1, if_pos h2, happly]
    split_ifs
    all_goals exact ⟨⟨Print.spent_of_none hfree, .inl hstop⟩, .same rfl⟩
  by_cases h3 : readChar L d = synchronousIdleKey
  · rw [released_pause h1 h2 h3]
    exact ⟨⟨spent_typed hn rfl rfl rfl (.inr rfl), applyDone_congr hd rfl hcb⟩,
      Adds.call (.same rfl) rfl⟩
  obtain ⟨q, hq, hb, ha, hk, -⟩ := released_press h1 h2 h3
  rw [hq]
  refine ⟨⟨spent_typed hn hb ha hk (.inl rfl), applyDone_congr hd rfl ?_⟩,
    Adds.call (.same rfl) ?_⟩
  · intro i
    rw [call_prn, hb]
    exact hcb i
  · -- only the placeholder's 0 is typed from a slot with a callback
    cases hc : d.prn.slot.callback with
    | false => rfl
    | true =>
      rw [readChar_spent (hn _) hc fun hl => h2 ⟨hc, hl⟩]
      rfl

theorem delete_spent (h : d.spent L) (hk : d.prn.kbdStatus = .delete) :
    (printDelete L d).spent L ∧ NoDetail d (printDelete L d) := by
  obtain ⟨hs, hd⟩ := h
  have hlive (i : Fin 5) (hi : (d.prn.strBuf i).live L) :
      i = d.prn.actString ∧ d.prn.eos = false := by
    obtain ⟨ha, ⟨he, -⟩ | ⟨-, hp⟩⟩ := hs i hi
    · exact ⟨ha, he⟩
    · rw [hk] at hp
      rcases hp with hp | hp <;> exact absurd hp nofun
  unfold printDelete
  dsimp only
  split_ifs with hc he
  · refine ⟨⟨fun i hi => ?_, hd⟩, Adds.trans (b := printPressKey L _ _ _)
      (Adds.call (.same rfl) rfl) (.same rfl)⟩
    exact ⟨(hlive i hi).1, .inl ⟨(hlive i hi).2, .inr rfl⟩⟩
  · refine ⟨⟨Print.spent_of_none fun i hi => ?_, applyDone_congr hd rfl Print.callback_freeAct⟩,
      .same rfl⟩
    obtain ⟨hne, hi⟩ := Print.live_freeAct hi
    exact hne (hlive i hi).1
  · refine ⟨⟨Print.spent_of_none fun i hi => ?_, hd⟩, .same rfl⟩
    exact he (hlive i hi).2

/-- `printUpdate` types nothing of a detail that is spent. -/
theorem update_spent (h : d.spent L) :
    (printUpdate L d).spent L ∧ NoDetail d (printUpdate L d) := by
  obtain ⟨hs, hd⟩ := h
  -- in the states that free no slot and end no character, no slot is live
  have hnone (h1 : d.prn.kbdStatus ≠ .delete) (h2 : d.prn.kbdStatus ≠ .deletePressed)
      (h3 : d.prn.kbdStatus ≠ .pressed) (h4 : d.prn.kbdStatus ≠ .idle) (i : Fin 5) :
      ¬(d.prn.strBuf i).live L := by
    intro hi
    rcases (hs i hi).2 with ⟨-, hk | hk⟩ | ⟨-, hk | hk⟩
    · exact h1 hk
    · exact h2 hk
    · exact h3 hk
    · exact h4 hk
  have hlast (h1 : d.prn.kbdStatus ≠ .delete) (h2 : d.prn.kbdStatus ≠ .deletePressed) (q : Print)
      (hb : q.strBuf = d.prn.strBuf) (ha : q.actString = d.prn.actString) :
      { d with prn := q.decLen }.spent L := by
    refine ⟨Print.spent_of_none fun i hi => ?_, applyDone_congr hd rfl fun i => ?_⟩
    · obtain ⟨hi, hne⟩ := Print.live_decLen hi
      rw [hb] at hi hne
      rcases hs i hi with ⟨hact, ⟨-, hk | hk⟩ | ⟨hl, -⟩⟩
      · exact h1 hk
      · exact h2 hk
      · exact hne (by rw [ha, hact]) hl
    · rw [← hb]
      exact Print.callback_decLen i
  unfold printUpdate
  split
  · next hk =>
    have hn := hnone (by rw [hk]; nofun) (by rw [hk]; nofun) (by rw [hk]; nofun) (by rw [hk]; nofun)
    split_ifs <;> exact ⟨⟨Print.spent_of_none hn, hd⟩, .same rfl⟩
  · next hk =>
    exact ⟨hlast (by rw [hk]; nofun) (by rw [hk]; nofun) _ rfl rfl, .same rfl⟩
  · next hk =>
    exact released_spent
      (hnone (by rw [hk]; nofun) (by rw [hk]; nofun) (by rw [hk]; nofun) (by rw [hk]; nofun)) hd
  · next hk =>
    split_ifs
    · refine ⟨⟨fun i hi => ?_, hd⟩, .same rfl⟩
      exact hs i hi
    · exact ⟨hlast (by rw [hk]; nofun) (by rw [hk]; nofun) _ rfl rfl, .same rfl⟩
  · next hk => exact delete_spent ⟨hs, hd⟩ hk
  · next hk =>
    refine ⟨⟨fun i hi => ?_, hd⟩, .same rfl⟩
    rcases hs i hi with ⟨hact, ⟨he, -⟩ | ⟨-, hp⟩⟩
    · exact ⟨hact, .inl ⟨he, .inl rfl⟩⟩
    · rw [hk] at hp
      rcases hp with hp | hp <;> exact absurd hp nofun

end

end Memtype
