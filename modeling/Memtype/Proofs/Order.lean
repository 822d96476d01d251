import Memtype.Lib.Fifo
import Memtype.Proofs.Protocol
import Memtype.Proofs.Queue

/-! First in, first out: strings that are requested one by one, with `printUpdate`s in between, are
typed in the order of the requests, each character once, as long as no more of them are pending
than there are slots. -/

namespace Memtype

open Lib

def Device.readAt (L : Layout) (d : Device) (info : Info) (a : UInt16) : UInt8 :=
  match info with
  | .empty => 0
  | .ram => d.ramByte L a
  | .flash => d.flash.mem a

def Device.holds (L : Layout) (d : Device) (info : Info) (a : UInt16) (s : List UInt8) : Prop :=
  info ≠ .empty ∧ (∀ c ∈ s, c ≠ 0) ∧
    ∀ i ≤ s.length, d.readAt L info (a + UInt16.ofNat i) = s.getD i 0

instance (L : Layout) (d : Device) (info : Info) (a : UInt16) (s : List UInt8) :
    Decidable (d.holds L info a s) := inferInstanceAs (Decidable (_ ∧ _ ∧ _))

def Print.pending (p : Print) : ℕ := (List.finRange 5).countP fun i => (p.strBuf i).info ≠ .empty

/-- What is typed with a call: each key pressed, and each pause. -/
def Call.typed : Call → Option Keystroke
  | .press _ c => some (.key c)
  | .pause => some .pause
  | _ => none

def Device.typed (d : Device) : List Keystroke := d.calls.filterMap Call.typed

/-- A request for a string, whose characters are given with it, or a `printUpdate`. -/
inductive Job where
  | request (a : UInt16) (info : Info) (s : List UInt8)
  | update

def job (L : Layout) (d : Device) : Job → Outcome Device
  | .request a info _ => .ret (printStr a info d)
  | .update => .ret (printUpdate L d)

def Job.admitted (L : Layout) (d : Device) : Job → Prop
  | .request a info s => d.holds L info a s ∧ d.prn.pending < 5
  | .update => True

instance decidableAdmitted (L : Layout) (d : Device) : (j : Job) → Decidable (j.admitted L d)
  | .request .. => inferInstanceAs (Decidable (_ ∧ _))
  | .update => inferInstanceAs (Decidable True)

def Job.string : Job → List UInt8
  | .request _ _ s => s
  | .update => []

/-- The non-empty slots lie behind each other from `actString` on. -/
def Print.contiguous (p : Print) : Prop :=
  ∃ n ≤ 5, ∀ j : Fin 5, (p.strBuf (p.actString + j)).info ≠ .empty ↔ j.val < n

section

variable {L : Layout} {d d' : Device}

/-- The rest `r` of a string is in the slot. -/
def StrPtr.rest (L : Layout) (d : Device) (s : StrPtr) (r : List UInt8) : Prop :=
  s.callback = false ∧ s.len = 0 ∧ d.holds L s.info s.strPtr r

def StrPtr.free (s : StrPtr) : Prop := s.info = .empty ∧ s.callback = false ∧ s.len = 0

/-- The rests of the pending strings, in the ring of slots. -/
def Pending (L : Layout) (d : Device) (rs : List (List UInt8)) : Prop :=
  Fifo (StrPtr.rest L d) StrPtr.free d.prn.strBuf d.prn.actString rs

theorem readAt_congr (h : PrintStep d d') (hc : d'.crd = d.crd) (info : Info) (a : UInt16) :
    d'.readAt L info a = d.readAt L info a := by
  cases info with
  | empty => rfl
  | ram => exact ramByte_congr h hc a
  | flash => exact congrArg (fun f => f.mem a) h.flash

theorem rest_congr (h : PrintStep d d') (hc : d'.crd = d.crd) : StrPtr.rest L d' = StrPtr.rest L d := by
  funext s r
  unfold StrPtr.rest Device.holds
  simp only [readAt_congr h hc]

theorem holds_tail {info : Info} {a : UInt16} {c : UInt8} {s : List UInt8}
    (h : d.holds L info a (c :: s)) : d.holds L info (a + 1) s := by
  refine ⟨h.1, fun x hx => h.2.1 x (List.mem_cons_of_mem c hx), fun i hi => ?_⟩
  have ha : a + 1 + UInt16.ofNat i = a + UInt16.ofNat (i + 1) := by
    rw [UInt16.add_assoc, UInt16.add_comm 1, UInt16.ofNat_add]
    rfl
  rw [ha]
  exact h.2.2 (i + 1) (Nat.succ_le_succ hi)

theorem holds_head {info : Info} {a : UInt16} {s : List UInt8} (h : d.holds L info a s) :
    d.readAt L info a = s.headD 0 := by
  have h0 := h.2.2 0 (Nat.zero_le _)
  rw [show a + UInt16.ofNat 0 = a from UInt16.add_zero a] at h0
  rw [h0]
  cases s <;> rfl

theorem readChar_eq (L : Layout) (d : Device) :
    readChar L d = d.readAt L d.prn.slot.info d.prn.slot.strPtr := by
  unfold readChar Device.readAt
  cases d.prn.slot.info <;> rfl

theorem empty_iff {rs : List (List UInt8)} (h : Pending L d rs) (i : Fin 5) :
    (d.prn.strBuf i).info = .empty ↔ rs.length ≤ (i - d.prn.actString).val := by
  constructor
  · intro hi
    by_contra hlt
    have hf := h.filled i _ (List.getElem?_eq_getElem (not_le.mp hlt))
    exact hf.2.2.1 hi
  · exact fun hle => (h.free i hle).1

/-- The slot that `print` takes is the first free one. -/
theorem firstEmpty_pending {rs : List (List UInt8)} (h : Pending L d rs) (hlt : rs.length < 5) :
    ∃ i, d.prn.firstEmpty = some i ∧ (i - d.prn.actString).val = rs.length := by
  have hfind : ∀ n < 5, ([0, 1, 2, 3, 4] : List (Fin 5)).find? (fun j => n ≤ j.val) =
    some (Fin.ofNat 5 n) := by decide
  refine ⟨d.prn.actString + Fin.ofNat 5 rs.length, ?_, ?_⟩
  · unfold Print.firstEmpty
    rw [List.find?_map]
    have hp : ((fun i => decide ((d.prn.strBuf i).info = .empty)) ∘ (d.prn.actString + ·)) =
        fun j => decide (rs.length ≤ j.val) := by
      funext j
      refine decide_eq_decide.mpr ((empty_iff h _).trans ?_)
      rw [add_sub_cancel_left]
    rw [hp, hfind _ hlt]
    rfl
  · rw [add_sub_cancel_left]
    exact Nat.mod_eq_of_lt hlt

theorem pending_length {rs : List (List UInt8)} (h : Pending L d rs) : d.prn.pending = rs.length := by
  have hcount : ∀ n ≤ 5, ∀ a : Fin 5,
      (List.finRange 5).countP (fun i => decide ((i - a).val < n)) = n := by decide
  rw [← hcount rs.length h.fits d.prn.actString]
  unfold Print.pending
  refine congrArg (fun p => (List.finRange 5).countP p) (funext fun i => ?_)
  exact decide_eq_decide.mpr ((not_congr (empty_iff h i)).trans not_le)

theorem contiguous_pending {rs : List (List UInt8)} (h : Pending L d rs) : d.prn.contiguous := by
  refine ⟨rs.length, h.fits, fun j => (not_congr (empty_iff h _)).trans ?_⟩
  rw [add_sub_cancel_left]
  exact not_le

theorem slot_plain {rs : List (List UInt8)} (h : Pending L d rs) :
    d.prn.slot.callback = false ∧ d.prn.slot.len = 0 := by
  cases rs with
  | nil => exact (h.free d.prn.actString (Nat.zero_le _)).2
  | cons r rs => exact ⟨h.head_full.1, h.head_full.2.1⟩

/-- The next character is the first of the first rest. -/
theorem readChar_pending {rs : List (List UInt8)} (h : Pending L d rs) :
    readChar L d = (rs.headD []).headD 0 := by
  rw [readChar_eq]
  cases rs with
  | nil =>
    have hi : d.prn.slot.info = .empty := (h.free d.prn.actString (Nat.zero_le _)).1
    rw [hi]
    rfl
  | cons r rs => exact holds_head h.head_full.2.2

theorem decLen_plain {p : Print} (h : p.slot.len = 0) : p.decLen = p := by
  unfold Print.decLen
  rw [h]
  rfl

/-- The slots as they are, in a device that reads the same. -/
theorem pending_congr {rs : List (List UInt8)} (h : Pending L d rs) (hp : PrintStep d d')
    (hc : d'.crd = d.crd) (hb : d'.prn.strBuf = d.prn.strBuf)
    (ha : d'.prn.actString = d.prn.actString) : Pending L d' rs := by
  unfold Pending
  rw [rest_congr hp hc, hb, ha]
  exact h

/-- A request for one more string takes the next slot. -/
theorem pending_request {rs : List (List UInt8)} (h : Pending L d rs) {a : UInt16} {info : Info}
    {s : List UInt8} (hs : d.holds L info a s) (hlt : rs.length < 5) :
    Pending L (printStr a info d) (rs ++ [s]) := by
  obtain ⟨i, hi, hpos⟩ := firstEmpty_pending h hlt
  have hprn : (printStr a info d).prn =
      d.prn.setSlot i { strPtr := a, info := info, len := 0, callback := false } := by
    unfold printStr Print.print
    rw [hi]
    rfl
  unfold Pending
  rw [hprn, rest_congr (printStep_printStr a info d) rfl]
  exact h.push hpos ⟨rfl, rfl, hs⟩

/-- The current slot is freed, be there a string or not. -/
theorem pending_freeAct {rs : List (List UInt8)} (h : Pending L d rs) (hp : PrintStep d d')
    (hc : d'.crd = d.crd) (hprn : d'.prn = { d.prn.freeAct.nextString with eos := true }) :
    Pending L d' rs.tail := by
  obtain ⟨hcb, hlen⟩ := slot_plain h
  have hfree : StrPtr.free { d.prn.slot with info := .empty } := ⟨rfl, hcb, hlen⟩
  unfold Pending
  rw [rest_congr hp hc, hprn]
  cases rs with
  | nil =>
    refine Fifo.nil fun i => ?_
    change StrPtr.free (d.prn.freeAct.strBuf i)
    unfold Print.freeAct
    rw [Print.setAct_apply]
    split_ifs
    · exact hfree
    · exact h.free i (Nat.zero_le _)
  | cons r rs => exact h.pop hfree

/-- At a character the pointer moves on. -/
theorem pending_typeChar {rs : List (List UInt8)} {c : UInt8} {r : List UInt8}
    (h : Pending L d ((c :: r) :: rs)) (hp : PrintStep d d') (hc : d'.crd = d.crd)
    (hb : d'.prn.strBuf = (d.prn.setAct { d.prn.slot with strPtr := d.prn.slot.strPtr + 1 }).strBuf)
    (ha : d'.prn.actString = d.prn.actString) : Pending L d' (r :: rs) := by
  obtain ⟨hcb, hlen, hr⟩ := h.head_full
  unfold Pending
  rw [rest_congr hp hc, hb, ha]
  exact h.top ⟨hcb, hlen, holds_tail hr⟩

/-- The strings pending in the ring, the state that `printUpdate` is in, and what has been typed and
is still to be typed: together the requests so far. -/
structure InOrder (L : Layout) (text : List UInt8) (rs : List (List UInt8)) (d : Device) : Prop where
  pending : Pending L d rs
  status : d.prn.kbdStatus ≠ .delete ∧ d.prn.kbdStatus ≠ .deletePressed
  typed : d.typed ++ rs.flatten.map stroke = text.map stroke

variable {text : List UInt8} {rs : List (List UInt8)}

theorem InOrder.request (h : InOrder L text rs d) {a : UInt16} {info : Info} {s : List UInt8}
    (hs : d.holds L info a s) (hlt : d.prn.pending < 5) :
    InOrder L (text ++ s) (rs ++ [s]) (printStr a info d) := by
  rw [pending_length h.pending] at hlt
  refine ⟨pending_request h.pending hs hlt, ?_, ?_⟩
  · rw [show (printStr a info d).prn.kbdStatus = d.prn.kbdStatus from
      (Print.print_frame d.prn a info 0).2.2]
    exact h.status
  · have hk : (printStr a info d).typed = d.typed := rfl
    rw [hk, List.flatten_append, List.map_append, List.map_append, ← List.append_assoc, h.typed,
      List.flatten_singleton]

/-- At a character the pointer moves on, and the character is typed. -/
theorem InOrder.typeChar {c : UInt8} {r : List UInt8} (h : InOrder L text ((c :: r) :: rs) d)
    (hp : PrintStep d d') (hc : d'.crd = d.crd) {call : Call} (hcalls : d'.calls = d.calls ++ [call])
    (hstroke : call.typed = some (stroke c))
    (hb : d'.prn.strBuf =
      (d.prn.setAct { d.prn.slot with strPtr := d.prn.slot.strPtr + 1 }).strBuf)
    (ha : d'.prn.actString = d.prn.actString)
    (hk : d'.prn.kbdStatus = .pressed ∨ d'.prn.kbdStatus = .idle) :
    InOrder L text (r :: rs) d' := by
  refine ⟨pending_typeChar h.pending hp hc hb ha, ?_, ?_⟩
  · rcases hk with hk | hk
    all_goals rw [hk]
    all_goals exact ⟨nofun, nofun⟩
  · have hcall : d'.typed = d.typed ++ [stroke c] := by
      unfold Device.typed
      rw [hcalls, List.filterMap_append, List.filterMap_cons_some hstroke]
      rfl
    rw [hcall, List.append_assoc]
    exact h.typed

theorem InOrder.released (h : InOrder L text rs d) : ∃ rs', InOrder L text rs' (printReleased L d) := by
  have hp := printStep_released L d
  obtain ⟨hcb, hlen⟩ := slot_plain h.pending
  have hread := readChar_pending h.pending
  match rs, h, hread with
  | [], h, hread =>
    rw [show printReleased L d = _ from if_pos ⟨hcb, hread⟩] at hp ⊢
    exact ⟨[], pending_freeAct h.pending hp rfl rfl, h.status, h.typed⟩
  | [] :: rs, h, hread =>
    -- the end of the current string
    rw [show printReleased L d = _ from if_pos ⟨hcb, hread⟩] at hp ⊢
    exact ⟨rs, pending_freeAct h.pending hp rfl rfl, h.status, h.typed⟩
  | (c :: r) :: rs, h, hread =>
    have h0 : readChar L d ≠ 0 := by
      rw [hread]
      exact h.pending.head_full.2.2.2.1 c List.mem_cons_self
    have h1 : ¬(d.prn.slot.callback = false ∧ readChar L d = 0) := fun h => h0 h.2
    have h2 : ¬(d.prn.slot.callback = true ∧ d.prn.slot.len = 0) := by
      rw [hcb]
      exact fun h => absurd h.1 nofun
    refine ⟨r :: rs, ?_⟩
    by_cases h3 : readChar L d = synchronousIdleKey
    · rw [released_pause h1 h2 h3] at hp ⊢
      refine h.typeChar hp rfl rfl ?_ rfl rfl (.inr rfl)
      rw [show c = synchronousIdleKey from hread.symm.trans h3]
      rfl
    · obtain ⟨q, heq, hb, ha, hk, -⟩ := released_press h1 h2 h3
      rw [heq] at hp ⊢
      refine h.typeChar hp rfl rfl ?_ hb ha (.inl hk)
      rw [hread] at h3 ⊢
      exact congrArg some (if_neg h3).symm

theorem InOrder.update (h : InOrder L text rs d) : ∃ rs', InOrder L text rs' (printUpdate L d) := by
  obtain ⟨-, hlen⟩ := slot_plain h.pending
  cases hk : d.prn.kbdStatus with
  | init =>
    refine ⟨rs, ?_⟩
    unfold printUpdate
    rw [hk]
    dsimp only
    split_ifs
    · exact ⟨pending_congr h.pending (.prn d _) rfl rfl rfl, h.status, h.typed⟩
    · exact ⟨pending_congr h.pending (.prn d _) rfl rfl rfl, ⟨nofun, nofun⟩, h.typed⟩
  | pressed =>
    have hdec : ({ d.prn.releaseKey with kbdStatus := .released } : Print).decLen =
      { d.prn.releaseKey with kbdStatus := .released } := decLen_plain hlen
    rw [update_pressed hk, hdec]
    exact ⟨rs, pending_congr h.pending (.prn d _) rfl rfl rfl, ⟨nofun, nofun⟩, h.typed⟩
  | released =>
    rw [update_released hk]
    exact h.released
  | idle =>
    have hdec : ({ d.prn with kbdStatus := .released, debounceCount := 0 } : Print).decLen =
      { d.prn with kbdStatus := .released, debounceCount := 0 } := decLen_plain hlen
    rw [update_idle hk, hdec]
    refine ⟨rs, ?_⟩
    split_ifs
    · exact ⟨pending_congr h.pending (.prn d _) rfl rfl rfl, h.status, h.typed⟩
    · exact ⟨pending_congr h.pending (.prn d _) rfl rfl rfl, ⟨nofun, nofun⟩, h.typed⟩
  | delete => exact absurd hk h.status.1
  | deletePressed => exact absurd hk h.status.2

theorem InOrder.run (h : InOrder L text rs d) {jobs : List Job}
    (hg : EachStep (job L) (Job.admitted L) (.ret d) jobs) :
    ∃ d' rs', Lib.run (job L) (.ret d) jobs = .ret d' ∧
      InOrder L (text ++ (jobs.map Job.string).flatten) rs' d' := by
  induction jobs generalizing d text rs with
  | nil =>
    refine ⟨d, rs, rfl, ?_⟩
    rw [List.map_nil, List.flatten_nil, List.append_nil]
    exact h
  | cons j jobs ih =>
    have hstep : ∃ d' rs', job L d j = .ret d' ∧ InOrder L (text ++ j.string) rs' d' := by
      cases j with
      | request a info s => exact ⟨_, _, rfl, h.request hg.1.1 hg.1.2⟩
      | update =>
        obtain ⟨rs', h'⟩ := h.update
        refine ⟨_, rs', rfl, ?_⟩
        rw [show text ++ Job.update.string = text from List.append_nil text]
        exact h'
    obtain ⟨d', rs', hj, h'⟩ := hstep
    have hrun := hg.2
    rw [hj] at hrun
    obtain ⟨d'', rs'', hd, hin⟩ := ih h' hrun
    refine ⟨d'', rs'', ?_, ?_⟩
    · rw [run_cons, Outcome.bind_ret, hj]
      exact hd
    · rw [List.map_cons, List.flatten_cons, ← List.append_assoc]
      exact hin

theorem inOrder_powerOn {flash eeprom ram : Mem} (h : powerOn L flash eeprom ram = .ret d)
    {s : List UInt8} (hs : d.holds L .flash L.uifInitStr s) : InOrder L s [s] d := by
  have hprn : d.prn = ({} : Print).setSlot 0
      { strPtr := L.uifInitStr, info := .flash, len := 0, callback := false } := by
    obtain ⟨c, v, rfl⟩ := powerOn_ret h
    rfl
  have htyped : d.typed = [] := by
    obtain ⟨c, v, rfl⟩ := powerOn_ret h
    rfl
  have hnil : Fifo (StrPtr.rest L d) StrPtr.free ({} : Print).strBuf 0 [] :=
    Fifo.nil fun _ => ⟨rfl, rfl, rfl⟩
  refine ⟨?_, ?_, ?_⟩
  · unfold Pending
    rw [hprn]
    exact hnil.push rfl ⟨rfl, rfl, hs⟩
  · rw [hprn]
    exact ⟨nofun, nofun⟩
  · rw [htyped, List.flatten_singleton]
    rfl

end

/-- The version string, which `main` asks for itself, and the strings asked for after it are typed
in their order, each character once; the slots in use are one cyclic run. -/
theorem inOrder_run (L : Layout) (flash eeprom ram : Mem) (d : Device)
    (hd : powerOn L flash eeprom ram = .ret d) (version : List UInt8)
    (hv : d.holds L .flash L.uifInitStr version) (jobs : List Job)
    (hg : EachStep (job L) (Job.admitted L) (.ret d) jobs) :
    ∃ d', run (job L) (.ret d) jobs = .ret d' ∧
      d'.typed <+: (version ++ (jobs.map Job.string).flatten).map stroke ∧
      (d'.prn.pending = 0 →
        d'.typed = (version ++ (jobs.map Job.string).flatten).map stroke) ∧
      d'.prn.contiguous := by
  obtain ⟨d', rs, hrun, h⟩ := (inOrder_powerOn hd hv).run hg
  refine ⟨d', hrun, ⟨_, h.typed⟩, fun h0 => ?_, contiguous_pending h.pending⟩
  rw [pending_length h.pending, List.length_eq_zero_iff] at h0
  have ht := h.typed
  rw [h0, List.flatten_nil, List.map_nil, List.append_nil] at ht
  exact ht

def sampleTexts : Mem :=
  Mem.write (fun _ => 0) 0x100 7 fun i => [86, 49, 0, 97, synchronousIdleKey, 98, 0].getD i 0

/-- Two strings in flash and an empty one in RAM, typed to the end. -/
def sampleJobs : List Job :=
  [.request 0x103 .flash [97, synchronousIdleKey, 98], .request 0x200 .ram []] ++
    List.replicate 120 .update

theorem inOrder_sampleJobs : ∃ d, run (job sampleLayout)
    (powerOn sampleLayout sampleTexts (fun _ => 0) fun _ => 0) sampleJobs = .ret d ∧
      d.typed = [.key 86, .key 49, .key 97, .pause, .key 98] := by
  have hd : powerOn sampleLayout sampleTexts (fun _ => 0) (fun _ => 0) = .ret _ :=
    Outcome.eq_ret_of_returns (by decide +kernel)
  obtain ⟨d, hr, -, hall, -⟩ := inOrder_run sampleLayout sampleTexts (fun _ => 0) (fun _ => 0) _ hd
    [86, 49] (by decide +kernel) sampleJobs (by decide +kernel)
  rw [← hd] at hr
  have hdone : (run (job sampleLayout) (powerOn sampleLayout sampleTexts (fun _ => 0) fun _ => 0)
      sampleJobs).state.prn.pending = 0 := by decide +kernel
  rw [hr] at hdone
  exact ⟨d, hr, (hall hdone).trans (by decide)⟩

end Memtype
