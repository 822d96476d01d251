import Memtype.Proofs.Retype

/-! An action calls `print_deleteStr` and asks for a string; the text it leaves is that string in the
place of the last action's, as long as no action comes when a string that has not begun is still to be
typed. -/

namespace Memtype

open Lib

section

variable {L : Layout} {key : UInt8 → UInt8 × UInt8} {used : List UInt8}

variable {text last own : List UInt8} {rs : List (List UInt8)} {x : Desk}

theorem pending_deleteStr {d : Device} (h : Pending L d rs) : Pending L (printDeleteStr d) rs :=
  pending_congr h (printStep_deleteStr d) rfl rfl rfl

/-- The strings in the ring after one more is asked for. -/
theorem pending_print {d : Device} (h : Pending L d rs) {a : UInt16} {info : Info} {s : List UInt8}
    (hs : d.holds L info a s) :
    Pending L (printStr a info d) (if rs.length < 5 then rs ++ [s] else rs) := by
  split_ifs with hlt
  · exact pending_request h hs hlt
  · have hfull : rs.length = 5 := le_antisymm h.fits (not_lt.mp hlt)
    have hprn : (printStr a info d).prn = d.prn := by
      unfold printStr Print.print
      rw [firstEmpty_full h hfull]
    exact pending_congr h (printStep_printStr a info d) rfl (by rw [hprn]) (by rw [hprn])

theorem alone_empty {l : List (List UInt8)} (h : l.flatten = []) :
    l.Pairwise fun r r' => r = [] ∨ r' = [] :=
  List.pairwise_of_forall_mem_list fun r hr _ _ => .inl (List.flatten_eq_nil_iff.mp h r hr)

theorem alone_snoc {l : List (List UInt8)} (h : l.flatten = []) (s : List UInt8) :
    (l ++ [s]).Pairwise fun r r' => r = [] ∨ r' = [] := by
  rw [List.pairwise_append]
  refine ⟨alone_empty h, List.pairwise_singleton .., fun r hr _ _ => .inl ?_⟩
  exact List.flatten_eq_nil_iff.mp h r hr

/-- The strings that wait when one more is asked for and none waited. -/
theorem waiting_print {p q : Print} (he : q.eos = p.eos) {s : List UInt8}
    (hw : (p.waiting rs).flatten = []) (hs : s = [] ∨ rs.length < 5 ∧ (p.eos = true ∨ rs ≠ [])) :
    (q.waiting (if rs.length < 5 then rs ++ [s] else rs)).flatten = s ∧
      (q.waiting (if rs.length < 5 then rs ++ [s] else rs)).Pairwise
        fun r r' => r = [] ∨ r' = [] := by
  by_cases hlt : rs.length < 5
  · rw [if_pos hlt]
    cases hp : p.eos with
    | true =>
      rw [waiting_eos hp] at hw
      rw [waiting_eos (he.trans hp), List.flatten_append, hw, List.flatten_singleton]
      exact ⟨rfl, alone_snoc hw s⟩
    | false =>
      rw [waiting_begun hp] at hw
      rw [waiting_begun (he.trans hp)]
      cases rs with
      | nil =>
        have hnil : s = [] := by
          rcases hs with hs | ⟨-, hs | hs⟩
          · exact hs
          · exact absurd (hp.symm.trans hs) nofun
          · exact absurd rfl hs
        exact ⟨hnil.symm, List.Pairwise.nil⟩
      | cons r rs =>
        rw [List.tail_cons] at hw
        rw [List.cons_append, List.tail_cons, List.flatten_append, hw, List.flatten_singleton]
        exact ⟨rfl, alone_snoc hw s⟩
  · have hnil : s = [] := hs.resolve_right fun hs => hlt hs.1
    have hsame : q.waiting rs = p.waiting rs := by
      unfold Print.waiting
      rw [he]
    rw [if_neg hlt, hsame, hw]
    exact ⟨hnil.symm, alone_empty hw⟩

/-- The backspace key is not down when erasing begins. -/
theorem Replaced.not_down (hk : distinctKeys key used) (hback : 0x08 ∈ used)
    (h : Replaced L key used text last own rs x)
    (hdown : ¬(x.device.prn.kbdStatus = .deletePressed ∧ x.device.prn.cCount > 0))
    (hc : x.device.prn.cCount > 0) : x.device.prn.report ≠ key 0x08 := by
  rcases h.phase with hw | he
  · rcases hw.report with ⟨-, hr⟩ | ⟨-, hr, -⟩
    · rw [hr]
      exact (hk.1 0x08 hback).symm
    · exact hr
  · rcases he.report with ⟨-, hr⟩ | hs
    · exact hr hc
    · exact absurd ⟨hs, hc⟩ hdown

/-- An action in the place of the last one. -/
theorem Replaced.action (hk : distinctKeys key used) (hback : 0x08 ∈ used)
    (h : Replaced L key used text last own rs x) {a : UInt16} {info : Info} {s : List UInt8}
    (hs : x.device.holds L info a s) (hplain : plainString s) (hused : ∀ c ∈ s, c ∈ used)
    (hg : (Act.action a info s).replaces L x.device) :
    ∃ rs', Replaced L key used text s own rs'
      { x with device := printStr a info (printDeleteStr x.device) } := by
  obtain ⟨hnone, hdown, hslot⟩ := hg
  rw [pending_length h.pending] at hslot
  have hslot : s = [] ∨ rs.length < 5 ∧ (x.device.prn.eos = true ∨ rs ≠ []) :=
    hslot.imp_right fun hs => ⟨hs.1, hs.2.imp_right fun h0 hn => h0 (List.length_eq_zero_iff.mpr hn)⟩
  have hdel := printStep_deleteStr x.device
  have hs' : (printDeleteStr x.device).holds L info a s := by
    unfold Device.holds at hs ⊢
    simp only [readAt_congr hdel rfl]
    exact hs
  have hpend := pending_print (pending_deleteStr h.pending) hs'
  obtain ⟨-, heos, -⟩ := Print.print_frame (printDeleteStr x.device).prn a info 0
  obtain ⟨hst, hrep, hcnt⟩ := print_keys (printDeleteStr x.device).prn a info 0
  obtain ⟨hspelled, halone⟩ :=
    waiting_print (p := x.device.prn) heos (waiting_empty h.pending hnone) hslot
  refine ⟨_, ⟨?_, hpend, ?_, h.text, h.seen.trans hrep.symm, ?_⟩,
    .inr ⟨?_, hspelled, halone, .inl ⟨hst, ?_⟩⟩⟩
  · exact h.keys
  · intro c hc
    have hor : c ∈ rs.flatten ∨ c ∈ s := by
      split_ifs at hc
      · rwa [List.flatten_append, List.flatten_singleton, List.mem_append] at hc
      · exact .inl hc
    rcases hor with hc | hc
    · exact h.chars c hc
    · exact ⟨hused c hc, (hplain.2 c hc).2.2⟩
  · exact (congrArg UInt8.toNat hcnt).trans h.count
  · split_ifs with hlt
    · exact List.append_ne_nil_of_right_ne_nil _ (List.cons_ne_nil s [])
    · rintro rfl
      exact hlt (Nat.succ_pos 4)
  · intro hc
    have hcnt : x.device.prn.cCount > 0 := lt_of_lt_of_eq hc hcnt
    exact fun he => h.not_down hk hback hdown hcnt (hrep.symm.trans he)

/-- The queue drains. -/
theorem Replaced.drains (hk : distinctKeys key used) (hback : 0x08 ∈ used) (hlen : last.length ≤ 255)
    (h : Replaced L key used text last own rs x) :
    ∃ n own', Replaced L key used text last own' [] ((Desk.update L key used)^[n] x) := by
  induction hn : x.device.prn.toDrain rs using Nat.strong_induction_on generalizing x own rs with
  | _ n ih =>
    by_cases hrs : rs = []
    · subst hrs
      exact ⟨0, own, h⟩
    · obtain ⟨own', rs', h', hlt⟩ := h.update hk hback hlen
      obtain ⟨m, own'', h''⟩ := ih _ (hn ▸ hlt hrs) h' rfl
      refine ⟨m + 1, own'', ?_⟩
      rw [Function.iterate_succ_apply]
      exact h''

/-- Once the queue has drained, all of the string is on the host. -/
theorem Replaced.drained (h : Replaced L key used text last own rs x)
    (hp : x.device.prn.pending = 0) : x.host.text = text ++ last := by
  rw [pending_length h.pending, List.length_eq_zero_iff] at hp
  subst hp
  rcases h.phase with hw | he
  · have hspelled := hw.spelled
    rw [List.flatten_nil, List.append_nil] at hspelled
    rw [h.text, hspelled]
  · exact absurd rfl he.asked

theorem Replaced.run (hk : distinctKeys key used) (hback : 0x08 ∈ used) (hlen : last.length ≤ 255)
    (h : Replaced L key used text last own rs x) {acts : List Act}
    (hused : ∀ e ∈ acts, ∀ c ∈ e.string, c ∈ used)
    (hs : EachStep (act L key used) (fun x e => e.given L x.device) (.ret x) acts)
    (hg : EachStep (act L key used) (fun x e => e.replaces L x.device) (.ret x) acts) :
    ∃ x' own' rs', Lib.run (act L key used) (.ret x) acts = .ret x' ∧
      (lastString last acts).length ≤ 255 ∧
      Replaced L key used text (lastString last acts) own' rs' x' := by
  induction acts generalizing x last own rs with
  | nil => exact ⟨x, own, rs, rfl, hlen, h⟩
  | cons e acts ih =>
    have hused' : ∀ e ∈ acts, ∀ c ∈ e.string, c ∈ used :=
      fun e' he' => hused e' (List.mem_cons_of_mem e he')
    cases e with
    | action a info s =>
      obtain ⟨rs', h'⟩ := h.action hk hback hs.1.1 hs.1.2 (hused _ List.mem_cons_self) hg.1
      exact ih hs.1.2.1 h' hused' hs.2 hg.2
    | update =>
      obtain ⟨own', rs', h', -⟩ := h.update hk hback hlen
      exact ih hlen h' hused' hs.2 hg.2

theorem pending_reset {d : Device} (h : d.prn = {}) : Pending L d [] := by
  unfold Pending
  rw [h]
  exact Fifo.nil fun _ => ⟨rfl, rfl, rfl⟩

theorem replaced_opening {d : Device} {s : List UInt8} (hd : d.opening L s) (hs : plainString s)
    (hused : ∀ c ∈ s, c ∈ used) (text : List UInt8) :
    ∃ rs, Replaced L (d.keyOf L) used text s [] rs ⟨d, text, (0, 0)⟩ := by
  have hchars (c : UInt8) (hc : c ∈ s) : c ∈ used ∧ c ≠ 0x08 ∧ c ≠ synchronousIdleKey :=
    ⟨hused c hc, (hs.2 c hc).2.2⟩
  obtain ⟨hprn, rfl⟩ | ⟨a, info, hprn, hthere⟩ := hd
  · refine ⟨[], ⟨rfl, pending_reset hprn, nofun, (List.append_nil text).symm, ?_, ?_⟩, .inl ?_⟩
    all_goals
      dsimp only
      rw [hprn]
    · rfl
    · rfl
    · exact ⟨rfl, List.Pairwise.nil, fun _ => .inl rfl, fun _ => rfl, .inl ⟨.inl rfl, rfl⟩⟩
  · have hpend : Pending L (printStr a info { d with prn := {} }) [s] := by
      refine pending_request (pending_reset rfl) ?_ (Nat.succ_pos 4)
      unfold Device.holds at hthere ⊢
      simp only [readAt_congr (.prn d {}) rfl]
      exact hthere
    have hsame : printStr a info { d with prn := {} } = d := by
      unfold printStr
      dsimp only
      rw [← hprn]
    rw [hsame] at hpend
    obtain ⟨hst, hrep, hcnt⟩ := print_keys {} a info 0
    rw [← hprn] at hst hrep hcnt
    refine ⟨[s], ⟨rfl, hpend, ?_, (List.append_nil text).symm, hrep.symm, ?_⟩, .inl ?_⟩
    · rwa [List.flatten_singleton]
    · exact congrArg UInt8.toNat hcnt
    · exact ⟨List.flatten_singleton, List.pairwise_singleton .., fun _ => .inl rfl, fun _ => rfl,
        .inl ⟨.inl hst, hrep⟩⟩

end

/-- The text on the host is the text before, then the last action's string, once the queue has
drained, which it does; the text before is there all the time. -/
theorem replaced_run (L : Layout) (d : Device) (s : List UInt8) (hd : d.opening L s)
    (hs : plainString s) (text : List UInt8) (acts : List Act)
    (hk : distinctKeys (d.keyOf L) (usedChars s acts))
    (ha : EachStep (act L (d.keyOf L) (usedChars s acts)) (fun x e => e.given L x.device)
      (.ret ⟨d, text, (0, 0)⟩) acts)
    (hg : EachStep (act L (d.keyOf L) (usedChars s acts)) (fun x e => e.replaces L x.device)
      (.ret ⟨d, text, (0, 0)⟩) acts) :
    ∃ x, run (act L (d.keyOf L) (usedChars s acts)) (.ret ⟨d, text, (0, 0)⟩) acts = .ret x ∧
      text <+: x.host.text ∧
      (x.device.prn.pending = 0 → x.host.text = text ++ lastString s acts) ∧
      ∃ n, ((Desk.update L (d.keyOf L) (usedChars s acts))^[n] x).device.prn.pending = 0 ∧
        ((Desk.update L (d.keyOf L) (usedChars s acts))^[n] x).host.text =
          text ++ lastString s acts := by
  have hback : 0x08 ∈ usedChars s acts := List.mem_cons_self
  have hused (c : UInt8) (hc : c ∈ s) : c ∈ usedChars s acts :=
    List.mem_cons_of_mem _ (List.mem_append_left _ hc)
  have husedAll (e : Act) (he : e ∈ acts) (c : UInt8) (hc : c ∈ e.string) : c ∈ usedChars s acts :=
    List.mem_cons_of_mem _ (List.mem_append_right _ (List.mem_flatMap.mpr ⟨e, he, hc⟩))
  obtain ⟨rs, h⟩ := replaced_opening hd hs hused text
  obtain ⟨x, own, rs', hrun, hlen, h⟩ := h.run hk hback hs.1 husedAll ha hg
  refine ⟨x, hrun, ⟨own, h.text.symm⟩, h.drained, ?_⟩
  obtain ⟨n, own', h'⟩ := h.drains hk hback hlen
  have hp := pending_length h'.pending
  exact ⟨n, hp, h'.drained hp⟩

def updates (n : ℕ) : List Act := List.replicate n .update

/-- `ab` is asked for when nothing is, and `b` when `a` has been typed. -/
def sampleActs : List Act :=
  updates 52 ++ [Act.action 0x200 .ram [97, 98]] ++ updates 3 ++ [Act.action 0x201 .ram [98]] ++
    updates 10

/-- `ab` is typed; when half of it is erased for `b`, the next action comes. -/
def interruptedActs : List Act :=
  updates 52 ++ [Act.action 0x200 .ram [97, 98]] ++ updates 8 ++ [Act.action 0x201 .ram [98]] ++
    updates 2 ++ [Act.action 0x200 .ram [97, 98]] ++ updates 12

def sampleDesk : Desk := ⟨keyedDevice, [120], (0, 0)⟩

theorem replaced_sampleActs : ∃ x, run (act sampleLayout (keyedDevice.keyOf sampleLayout)
    (usedChars [] sampleActs)) (.ret sampleDesk) sampleActs = .ret x ∧ x.host.text = [120, 98] := by
  obtain ⟨x, hr, -, htext, -⟩ := replaced_run sampleLayout keyedDevice [] (.inl ⟨rfl, rfl⟩)
    (by decide +kernel) [120] sampleActs (by decide +kernel) (by decide +kernel) (by decide +kernel)
  have hdone : (run (act sampleLayout (keyedDevice.keyOf sampleLayout) (usedChars [] sampleActs))
      (.ret sampleDesk) sampleActs).state.device.prn.pending = 0 := by decide +kernel
  rw [show run _ (.ret sampleDesk) sampleActs = .ret x from hr] at hdone
  exact ⟨x, hr, htext hdone⟩

theorem not_replaced_interruptedActs : ¬∀ L d s text acts, d.opening L s → plainString s →
    distinctKeys (d.keyOf L) (usedChars s acts) →
    EachStep (act L (d.keyOf L) (usedChars s acts)) (fun x e => e.given L x.device)
      (.ret ⟨d, text, (0, 0)⟩) acts →
    ∀ x, run (act L (d.keyOf L) (usedChars s acts)) (.ret ⟨d, text, (0, 0)⟩) acts = .ret x →
      x.device.prn.pending = 0 → x.host.text = text ++ lastString s acts := by
  intro h
  have hrun := Outcome.eq_ret_of_returns (o := run (act sampleLayout
    (keyedDevice.keyOf sampleLayout) (usedChars [] interruptedActs)) (.ret sampleDesk) interruptedActs)
    (by decide +kernel)
  have htext := h sampleLayout keyedDevice [] [120] interruptedActs (.inl ⟨rfl, rfl⟩)
    (by decide +kernel) (by decide +kernel) (by decide +kernel) _ hrun (by decide +kernel)
  -- the `b` is typed, and stays
  exact absurd htext (by decide +kernel)

end Memtype
