import Memtype.Proofs.Rests

/-! Every detail is typed from one credential, in runs in which no blob is replaced while another
block of it is needed. -/

namespace Memtype

open Lib

section

variable {L : Layout} {d d' : Device} {e : Event} {enc : UInt16} {m : Mem} {k : ℕ}

/-- If `CRD_apply` needs another block, it is at block `k` of the blob. -/
def OnBlob (enc : UInt16) (m : Mem) (k : ℕ) (d : Device) : Prop := d.blockDue → AtBlock enc m k d

theorem takes_none (h : d.blocksTo d' = []) : TakesBlocks enc m k d d' := by
  constructor
  · rw [h]
    rfl
  · rw [h]
    exact fun a ha => absurd ha List.not_mem_nil

theorem onBlob_rests (h : Rests (e.checksPin d) d (step L d e).state) (hd : OnBlob enc m k d)
    (hg : ¬e.mixes L d) : OnBlob enc m k (step L d e).state := by
  obtain ⟨c, k', hc, hk⟩ := h.crd
  rintro ⟨hn', hdue'⟩
  have hn : ¬d.applyDone := fun hd => hn' (h.applyDone hd)
  have hdue : d.blockDue := by
    rcases hk with rfl | hpin
    · refine ⟨hn, ?_⟩
      rwa [hc] at hdue'
    · by_contra hdue
      exact hg (.inr (.inl ⟨hpin, hn, hdue⟩))
  have hr : ¬e.replacesBlob L d := fun hr => hg (.inl ⟨hdue, hr⟩)
  have hat := hd hdue
  simp only [Event.replacesBlob, not_or, not_exists, not_and, not_not] at hr
  obtain ⟨he, hf⟩ := hr
  have hnext : d.crd.blocksTaken ≤ k := by
    rcases hat.position with h0 | hk
    · rw [Crd.blocksTaken, h0]
      exact Nat.zero_le k
    · exact hk.le
  refine ⟨he.trans hat.encrypt, fun i hi hle => ?_, ?_⟩
  · rw [← hat.mem i hi hle, ← hat.encrypt]
    exact hf i hi (by omega)
  · rw [hc]
    exact hat.position

theorem step_rests (h : Rests (e.checksPin d) d (step L d e).state) (hd : OnBlob enc m k d)
    (hg : ¬e.mixes L d) : TakesBlocks enc m k d (step L d e).state ∧
      OnBlob enc m (k + (d.blocksTo (step L d e).state).length) (step L d e).state := by
  have hn := h.nothing.1
  refine ⟨takes_none hn, ?_⟩
  rw [hn]
  exact onBlob_rests h hd hg

theorem step_applies (ha : d.appliesNext) (hd : OnBlob enc m k d)
    (hg : ¬Event.mixes L d .printUpdate) : TakesBlocks enc m k d (printUpdate L d) ∧
      OnBlob enc m (k + (d.blocksTo (printUpdate L d)).length) (printUpdate L d) := by
  obtain ⟨q, hq⟩ := update_applies L ha
  rw [hq]
  by_cases hc : d.crd.counter < d.crd.crdStop
  · have hn : ¬d.applyDone := by
      rintro (h | h)
      · exact absurd hc (UInt8.not_lt.mpr h)
      · exact absurd (ha.2.1.symm.trans (h d.prn.actString)) nofun
    by_cases hdue : d.crd.blockDue
    · have hat := hd ⟨hn, hdue⟩
      have hp := hat.position.resolve_left fun h0 => hg (.inr (.inr ⟨rfl, ha, ⟨hn, hdue⟩, h0⟩))
      obtain ⟨ht, hn'⟩ := apply_takes (L := L) (d := { d with prn := d.prn.freeAct }) hdue
        ⟨hat.encrypt, hat.mem, hat.position⟩ hp
      exact ⟨⟨ht.blocks, ht.content⟩, fun _ => ⟨hn'.encrypt, hn'.mem, hn'.position⟩⟩
    · obtain ⟨hb, hl⟩ := apply_last (L := L) (d := { d with prn := d.prn.freeAct }) hc hdue
      exact ⟨takes_none hb, fun h => absurd h.2 hl⟩
  · have hsame : crdApply L { d with prn := d.prn.freeAct } = { d with prn := d.prn.freeAct } :=
      if_pos (UInt8.not_lt.mp hc)
    rw [hsame]
    have hl : d.callsTo { d with prn := q } = [] := callsTo_eq (List.append_nil _).symm
    have hb : d.blocksTo { d with prn := q } = [] := by
      unfold Device.blocksTo
      rw [hl]
      rfl
    exact ⟨takes_none hb, fun h => absurd h.2.1 hc⟩

/-- A detail begins, with the first block of the blob that is selected. -/
structure BeginsBlob (d d' : Device) : Prop where
  begins : d.beginsTo d' = true
  takes : TakesBlocks d.crd.credential.encrypt d.flash.mem 0 d d'
  next : AtBlock d.crd.credential.encrypt d.flash.mem (d.blocksTo d').length d'

theorem beginsBlob_printDetail (L : Layout) {start stop : UInt8} (d1 : Device) {l : List Call}
    (hs : 0 < stop) (hc : d1.crd = d.crd) (hf : d1.flash = d.flash) (hl : d1.calls = d.calls ++ l)
    (ho : ∀ c ∈ l, c.isOther = true) : BeginsBlob d (crdPrintDetail L start stop d1) := by
  unfold crdPrintDetail
  generalize hd2 : Device.call _ (.printDetail start stop) = d2
  have hcrd : d2.crd = { d.crd with position := 0, counter := 0, crdStart := start, crdStop := stop } := by
    rw [← hd2, ← hc]
    rfl
  have hflash : d2.flash = d.flash := by
    rw [← hd2, ← hf]
    rfl
  have hcalls : d2.calls = d.calls ++ (l ++ [.printDetail start stop]) := by
    rw [← hd2, ← List.append_assoc, ← hl]
    rfl
  have hpos : d2.crd.position = 0 := by rw [hcrd]
  have hdue : d2.crd.blockDue := by
    rw [hcrd]
    exact ⟨hs, .inl rfl⟩
  have hat : AtBlock d.crd.credential.encrypt d.flash.mem 0 d2 := by
    refine ⟨by rw [hcrd], fun i _ _ => by rw [hflash], .inl hpos⟩
  obtain ⟨ht, hn⟩ := apply_takes (L := L) hdue hat (by rw [Crd.blocksTaken, hpos]; rfl)
  obtain ⟨c, -, -, hx⟩ := apply_calls (L := L) hdue.1
  have hall : (crdApply L d2).calls =
      d.calls ++ (l ++ [.printDetail start stop] ++ d2.callsTo (crdApply L d2)) := by
    rw [callsTo_eq hx, ← List.append_assoc, ← hcalls]
    exact hx
  have hsame : d.blocksTo (crdApply L d2) = d2.blocksTo (crdApply L d2) := by
    have hnone : l.filterMap Call.block = [] :=
      List.filterMap_eq_nil_iff.mpr fun c hc => (isOther_eq (ho c hc)).1
    unfold Device.blocksTo
    rw [callsTo_eq hall, List.filterMap_append, List.filterMap_append, hnone]
    rfl
  refine ⟨?_, ⟨?_, ?_⟩, ?_⟩
  · unfold Device.beginsTo
    rw [callsTo_eq hall, List.any_append, List.any_append]
    simp [Call.isPrintDetail]
  · rw [hsame]
    exact ht.blocks
  · exact fun _ _ => rfl
  · rw [hsame]
    rwa [Nat.zero_add] at hn

/-- Every step that prints a detail begins with the first block of the selected blob. -/
theorem step_begins (hr : ∃ b ∈ e.handled d, d.reprints b) : BeginsBlob d (step L d e).state := by
  obtain ⟨b, hb, hr⟩ := hr
  obtain ⟨u, s, a, hc, rfl, hn, hs⟩ := step_handled L hb
  rw [hs]
  unfold uifTask
  rw [if_pos ⟨hc, hn⟩]
  dsimp only
  generalize u.buttonPressed = b at hr
  have hled {d' : Device} {l : Led} (h : BeginsBlob d d') : BeginsBlob d { d' with led := l } :=
    ⟨h.begins, ⟨h.takes.blocks, h.takes.content⟩, ⟨h.next.encrypt, h.next.mem, h.next.position⟩⟩
  have hopt {d1 : Device} {l : List Call} (hc : d1.crd = d.crd) (hf : d1.flash = d.flash)
      (hl : (printDeleteStr d1).calls = d.calls ++ l) (ho : ∀ c ∈ l, c.isOther = true) :
      BeginsBlob d (optApply L d1) := by
    unfold optApply
    split_ifs
    · exact hled (beginsBlob_printDetail L (printDeleteStr d1) (by decide) hc hf hl ho)
    · exact hled (beginsBlob_printDetail L (printDeleteStr d1) (by decide) hc hf hl ho)
  rcases hr with ⟨h0, rfl⟩ | ⟨h0, rfl | rfl⟩
  · rw [h0]
    exact beginsBlob_printDetail (l := [.deleteStr]) L (printDeleteStr _) (by decide) rfl rfl rfl
      (by simp [Call.isOther])
  · rw [h0]
    exact hopt (l := [.deleteStr, .deleteStr]) rfl rfl (List.append_assoc ..) (by simp [Call.isOther])
  · rw [h0]
    exact hopt (l := [.deleteStr]) rfl rfl rfl (by simp [Call.isOther])

theorem step_blocks (hd : OnBlob enc m k d) (hg : ¬e.mixes L d) :
    d.beginsTo (step L d e).state = true ∨ TakesBlocks enc m k d (step L d e).state ∧
      OnBlob enc m (k + (d.blocksTo (step L d e).state).length) (step L d e).state := by
  by_cases hr : ∃ b ∈ e.handled d, d.reprints b
  · exact .inl (step_begins hr).begins
  · refine .inr ?_
    cases hp : e.isPrintUpdate with
    | false => exact step_rests (rests_step L hp hr) hd hg
    | true =>
      cases e with
      | printUpdate =>
        by_cases ha : d.appliesNext
        · exact step_applies ha hd hg
        · exact step_rests (rests_update L ha) hd hg
      | _ => exact absurd hp nofun

/-- `CRD_printDetail` is called by no other step. -/
theorem begins_reprints (h : d.beginsTo (step L d e).state = true) :
    ∃ b ∈ e.handled d, d.reprints b := by
  by_contra hr
  suffices hn : d.beginsTo (step L d e).state = false from absurd (h.symm.trans hn) nofun
  cases hp : e.isPrintUpdate with
  | false => exact (rests_step L hp hr).nothing.2
  | true =>
    cases e with
    | printUpdate =>
      by_cases ha : d.appliesNext
      · obtain ⟨q, hq⟩ := update_applies L ha
        rw [show step L d .printUpdate = .ret (printUpdate L d) from rfl, Outcome.state_ret, hq]
        exact begins_apply L { d with prn := d.prn.freeAct }
      · exact (@rests_update False L d ha).nothing.2
    | _ => exact absurd hp nofun

theorem oneBlob_run (L : Layout) (enc : UInt16) (m : Mem) (evs : List Event) {o : Outcome Device}
    (ho : ∀ d, o = .ret d → OnBlob enc m k d)
    (h : EachStep (step L) (fun d e => ¬e.mixes L d) o evs) : OneBlob L enc m k o evs := by
  induction evs generalizing o k with
  | nil => exact trivial
  | cons e evs ih =>
    cases o with
    | spin d => exact trivial
    | ret d =>
      obtain ⟨hg, hrest⟩ := h
      refine (step_blocks (ho d rfl) hg).imp_right fun ⟨ht, hd⟩ => ⟨ht, ih (fun d' hd' => ?_) hrest⟩
      have hs : (step L d e).state = d' := by rw [hd', Outcome.state_ret]
      rw [hs] at hd ⊢
      exact hd

end

/-- Runs in which no blob is replaced while `CRD_apply` needs another block of it. -/
theorem oneCredential_run (L : Layout) (o : Outcome Device) (evs : List Event)
    (h : EachStep (step L) (fun d e => ¬e.mixes L d) o evs) : OneCredential L o evs := by
  intro pre e post d hevs hpre hb
  obtain ⟨-, ht, hat⟩ := step_begins (begins_reprints hb)
  refine ⟨ht, oneBlob_run L _ _ post (fun d' hd' _ => ?_) ?_⟩
  · have hs : (step L d e).state = d' := by rw [hd', Outcome.state_ret]
    rw [hs] at hat ⊢
    exact hat
  · rw [hevs, eachStep_append, hpre] at h
    exact h.2.2

/-- A user of one character, and a second field that goes on in the next block. -/
def splitBlock : Bytes 16 := (noekeonEncrypt ⟨fun i => if i = 1 then 0 else 97, fun _ => 0x30⟩).plain

def twoCredentials : Mem := Function.update
  (Mem.write (fun _ => 0) 0x1003 16 fun i => splitBlock (Fin.ofNat 16 i)) 0x1001 0x40

def printUser : List Event :=
  enterFactoryPin ++ List.replicate 77 .printUpdate ++ [.button .left, .button .up] ++
    List.replicate 24 .printUpdate

/-- The user is printed from OPTIONS, and then the password. -/
theorem oneCredential_printUser : OneCredential sampleLayout
    (powerOn sampleLayout twoCredentials (factoryEeprom sampleLayout) fun _ => 0)
    (printUser ++ .button .up :: List.replicate 24 .printUpdate) :=
  oneCredential_run sampleLayout _ _ (by decide +kernel)

def userPrinted : Outcome Device :=
  run (step sampleLayout)
    (powerOn sampleLayout twoCredentials (factoryEeprom sampleLayout) fun _ => 0) printUser

/-- The password is asked for, and the next credential before it is typed: its second block is
taken after the first of the other. -/
theorem not_oneCredential_next : ¬∀ L flash eeprom ram evs,
    OneCredential L (powerOn L flash eeprom ram) evs := by
  intro h
  have hone : OneCredential sampleLayout
      (powerOn sampleLayout twoCredentials (factoryEeprom sampleLayout) fun _ => 0)
      (printUser ++ .button .up :: .button .right :: .button .down :: List.replicate 9 .printUpdate) :=
    h _ _ _ _ _
  have hr : userPrinted = .ret userPrinted.state := Outcome.eq_ret_of_returns (by decide +kernel)
  have hb : userPrinted.state.beginsTo
      (step sampleLayout userPrinted.state (.button .up)).state = true := by decide +kernel
  unfold OneCredential at hone
  have hdetail := hone printUser (.button .up)
    (.button .right :: .button .down :: List.replicate 9 .printUpdate) userPrinted.state rfl
  exact absurd (hdetail hr hb) (not_and_of_not_right _ (by decide +kernel))

end Memtype
