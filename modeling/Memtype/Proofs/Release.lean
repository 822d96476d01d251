import Memtype.Lib.Apart
import Memtype.Proofs.Queue

/-! Between two presses of the same key there is a release, unless `print_deleteStr` is called
while the backspace key is down. -/

namespace Memtype

open Lib

inductive PrintCall where
  | update
  | deleteStr
  | print (str : UInt16) (isRam : Info) (len : UInt8)
  deriving DecidableEq

def printCall (L : Layout) (d : Device) : PrintCall → Outcome Device
  | .update => .ret (printUpdate L d)
  | .deleteStr => .ret (printDeleteStr d)
  | .print str isRam len => .ret { d with prn := d.prn.print str isRam len }

def KbdStatus.isDown : KbdStatus → Bool
  | .pressed | .deletePressed => true
  | _ => false

def Print.report (p : Print) : UInt8 × UInt8 := (p.modifier, p.keycode)

def Call.isPress : Call → Bool
  | .press .. => true
  | _ => false

/-- What a step of `printUpdate` shows: whether it called `print_pressKey`, and the report it left. -/
structure Poll where
  pressed : Bool
  report : UInt8 × UInt8
  deriving DecidableEq

def poll (L : Layout) (d : Device) : Poll where
  pressed := ((printUpdate L d).calls.drop d.calls.length).any Call.isPress
  report := (printUpdate L d).prn.report

def polls (L : Layout) (o : Outcome Device) (evs : List PrintCall) : List Poll :=
  collect (printCall L) (fun d e => if e = .update then [poll L d] else []) o evs

namespace Poll

def key (z : Poll) : Option (UInt8 × UInt8) :=
  if z.pressed = true ∧ z.report ≠ (0, 0) then some z.report else none

/-- The key is no longer down: nothing is, or another key was pressed. -/
def ends (k : UInt8 × UInt8) (z : Poll) : Prop :=
  z.report = (0, 0) ∨ z.pressed = true ∧ z.report ≠ k

end Poll

/-- Between two presses of the same key is a release, or the press of another one. -/
def Released (l : List Poll) : Prop := Apart Poll.key Poll.ends l

namespace Device

def backspace (L : Layout) (d : Device) : UInt8 × UInt8 :=
  keyReport (d.eeprom (L.keyboardLut + (0x08 : UInt8).toUInt16))

/-- The backspace key is down and not released yet, and there is more to erase. -/
def backspaceDown (L : Layout) (d : Device) : Prop :=
  d.prn.kbdStatus.isDown = true ∧ d.prn.report = d.backspace L ∧ d.backspace L ≠ (0, 0) ∧ d.prn.cCount > 0

instance (L : Layout) (d : Device) : Decidable (d.backspaceDown L) :=
  inferInstanceAs (Decidable (_ ∧ _ ∧ _ ∧ _))

end Device

section

variable {L : Layout} {d d' : Device}

inductive KeyStep (L : Layout) (d d' : Device) : Prop
  | char (src : KeySource) (c : UInt8) (at_ : d.prn.kbdStatus = .released)
      (calls : d'.calls = d.calls ++ [.press src c]) (status : d'.prn.kbdStatus = .pressed)
  | erase (at_ : d.prn.kbdStatus = .delete) (count : d.prn.cCount > 0)
      (calls : d'.calls = d.calls ++ [.press .erase 0x08]) (report : d'.prn.report = d.backspace L)
      (status : d'.prn.kbdStatus = .deletePressed)
  | release (done : d.prn.kbdStatus = .delete → ¬d.prn.cCount > 0)
      (calls : Adds (fun c => !c.isPress) d d') (report : d'.prn.report = (0, 0))
      (status : d'.prn.kbdStatus.isDown = false)
  | keep (at_ : d.prn.kbdStatus = .init ∨ d.prn.kbdStatus = .released ∨ d.prn.kbdStatus = .idle)
      (calls : Adds (fun c => !c.isPress) d d')
      (status : d'.prn.kbdStatus.isDown = false)

theorem apply_status (L : Layout) (d : Device) :
    (crdApply L d).prn.kbdStatus = d.prn.kbdStatus := by
  rcases apply_prn L d with h | ⟨str, len, h⟩
  · rw [h]
  · rw [h]
    exact (Print.print_frame d.prn str .ram len).2.2

theorem keyStep_released (L : Layout) (hk : d.prn.kbdStatus = .released) :
    KeyStep L d (printReleased L d) := by
  have hat : d.prn.kbdStatus = .init ∨ d.prn.kbdStatus = .released ∨ d.prn.kbdStatus = .idle :=
    .inr (.inl hk)
  have happly : Adds (fun c => !c.isPress) d (crdApply L { d with prn := d.prn.freeAct }) :=
    Adds.trans (b := { d with prn := d.prn.freeAct }) (.same rfl)
      (adds_apply (fun _ => rfl) (fun _ => rfl) rfl L _)
  have hstatus : (crdApply L { d with prn := d.prn.freeAct }).prn.kbdStatus = .released :=
    (apply_status L _).trans hk
  unfold printReleased
  dsimp only
  split_ifs
  · exact .keep hat (.same rfl) (congrArg KbdStatus.isDown hk)
  · exact .keep hat (happly.trans (.same rfl)) (congrArg KbdStatus.isDown hstatus)
  · exact .keep hat happly (congrArg KbdStatus.isDown hstatus)
  · exact .keep hat (Adds.call (.same rfl) rfl) rfl
  all_goals exact .char _ _ hk rfl rfl

theorem keyStep_update (L : Layout) (d : Device) : KeyStep L d (printUpdate L d) := by
  unfold printUpdate
  split
  · next hk =>
    split_ifs
    · exact .keep (.inl hk) (.same rfl) (congrArg KbdStatus.isDown hk)
    · exact .keep (.inl hk) (.same rfl) rfl
  · next hk =>
    obtain ⟨b, hb⟩ := Print.decLen_slots { d.prn.releaseKey with kbdStatus := .released }
    rw [hb]
    exact .release (by rw [hk]; nofun) (.same rfl) rfl rfl
  · next hk => exact keyStep_released L hk
  · next hk =>
    split_ifs
    · exact .keep (.inr (.inr hk)) (.same rfl)
        (congrArg KbdStatus.isDown hk)
    · obtain ⟨b, hb⟩ := Print.decLen_slots { d.prn with kbdStatus := .released, debounceCount := 0 }
      rw [hb]
      exact .keep (.inr (.inr hk)) (.same rfl) rfl
  · next hk =>
    unfold printDelete
    dsimp only
    split_ifs with hc
    · exact .erase hk hc rfl rfl rfl
    · exact .release (fun _ => hc) (.same rfl) rfl rfl
    · exact .release (fun _ => hc) (.same rfl) rfl rfl
  · next hk => exact .release (by rw [hk]; nofun) (.same rfl) rfl rfl

theorem poll_press {src : KeySource} {c : UInt8}
    (h : (printUpdate L d).calls = d.calls ++ [.press src c]) : (poll L d).pressed = true := by
  unfold poll
  rw [h, List.drop_left]
  rfl

theorem poll_quiet (h : Adds (fun c => !c.isPress) d (printUpdate L d)) :
    (poll L d).pressed = false := by
  obtain ⟨l, hl, hp⟩ := h
  unfold poll
  rw [hl, List.drop_left]
  refine List.any_eq_false.mpr fun c hc => ?_
  rw [Bool.not_eq_true, ← Bool.not_eq_true']
  exact hp c hc

/-- The key in the report is the only one that can be down, and it is while it waits for its release.
-/
structure KeysDown (d : Device) (h : UInt8 × UInt8 → Prop) : Prop where
  report : ∀ k, h k → d.prn.report = k ∧
    (d.prn.kbdStatus.isDown = true ∨ d.prn.kbdStatus = .delete)
  down : d.prn.kbdStatus.isDown = true → d.prn.report ≠ (0, 0) →
    h d.prn.report

/-- The backspace key is about to be pressed while it is down. -/
def strikesAgain (L : Layout) (d : Device) (h : UInt8 × UInt8 → Prop) : Prop :=
  d.prn.kbdStatus = .delete ∧ d.prn.cCount > 0 ∧ d.backspace L ≠ (0, 0) ∧ h (d.backspace L)

variable {h : UInt8 × UInt8 → Prop}

theorem key_iff {z : Poll} {k : UInt8 × UInt8} :
    z.key = some k ↔ z.pressed = true ∧ z.report ≠ (0, 0) ∧ z.report = k := by
  unfold Poll.key
  rw [Option.ite_none_right_eq_some, Option.some_inj, and_assoc]

theorem KeysDown.none (hs : d.prn.kbdStatus.isDown = false) (hn : ∀ k, ¬h k) : KeysDown d h :=
  ⟨fun k hk => absurd hk (hn k), fun ht => absurd (hs.symm.trans ht) nofun⟩

/-- Only in the three states is a key down. -/
theorem KeysDown.empty (hd : KeysDown d h) (hs : d.prn.kbdStatus.isDown = false)
    (hne : d.prn.kbdStatus ≠ .delete) (k : UInt8 × UInt8) : ¬h k := by
  intro hk
  rcases (hd.report k hk).2 with h' | h'
  · exact absurd (hs.symm.trans h') nofun
  · exact hne h'

/-- After a press nothing else is down. -/
theorem keysDown_press {z : Poll} (hz : z.pressed = true) (hr : d'.prn.report = z.report)
    (hs : d'.prn.kbdStatus.isDown = true) : KeysDown d' (inEffect Poll.key Poll.ends h z) where
  report k hk := by
    refine ⟨?_, .inl hs⟩
    rw [hr]
    rcases hk with hk | ⟨-, hk⟩
    · exact (key_iff.mp hk).2.2
    · by_contra hne
      exact hk (.inr ⟨hz, hne⟩)
  down _ h0 := by
    rw [hr] at h0 ⊢
    exact .inl (key_iff.mpr ⟨hz, h0, rfl⟩)

/-- The keys down after a step; it presses a key that is down only when it erases once more. -/
theorem KeysDown.update (hd : KeysDown d h) (L : Layout) :
    KeysDown (printUpdate L d) (inEffect Poll.key Poll.ends h (poll L d)) ∧
      ¬strikesAgain L (printUpdate L d) (inEffect Poll.key Poll.ends h (poll L d)) ∧
      ((∀ k, (poll L d).key = some k → ¬h k) ↔ ¬strikesAgain L d h) := by
  have hquiet (hp : (poll L d).pressed = false) (k : UInt8 × UInt8) : (poll L d).key ≠ some k :=
    fun hk => absurd (hp.symm.trans (key_iff.mp hk).1) nofun
  -- when nothing is down before or after
  have hnone (hp : (poll L d).pressed = false) (hn : ∀ k, h k → (poll L d).ends k)
      (hs : (printUpdate L d).prn.kbdStatus.isDown = false) :
      KeysDown (printUpdate L d) (inEffect Poll.key Poll.ends h (poll L d)) ∧
        ¬strikesAgain L (printUpdate L d) (inEffect Poll.key Poll.ends h (poll L d)) := by
    have hempty (k : UInt8 × UInt8) : ¬inEffect Poll.key Poll.ends h (poll L d) k := by
      rintro (hk | ⟨hk, hne⟩)
      · exact hquiet hp k hk
      · exact hne (hn k hk)
    exact ⟨.none hs hempty, fun hs => hempty _ hs.2.2.2⟩
  cases keyStep_update L d with
  | char src c hat hcalls hs =>
    have hn := hd.empty (congrArg KbdStatus.isDown hat) (by rw [hat]; nofun)
    refine ⟨keysDown_press (poll_press hcalls) rfl (congrArg KbdStatus.isDown hs), ?_, ?_⟩
    · rintro ⟨hdel, -⟩
      exact absurd (hs.symm.trans hdel) nofun
    · exact iff_of_true (fun k _ => hn k) fun hst => absurd (hat.symm.trans hst.1) nofun
  | erase hat hc hcalls hr hs =>
    refine ⟨keysDown_press (poll_press hcalls) rfl (congrArg KbdStatus.isDown hs), ?_, ?_⟩
    · rintro ⟨hdel, -⟩
      exact absurd (hs.symm.trans hdel) nofun
    · have hrep : (poll L d).report = d.backspace L := hr
      constructor
      · rintro hk ⟨-, -, h0, hb⟩
        exact hk _ (key_iff.mpr ⟨poll_press hcalls, by rwa [hrep], hrep⟩) hb
      · intro hst k hk hh
        obtain ⟨-, h0, rfl⟩ := key_iff.mp hk
        rw [hrep] at h0 hh
        exact hst ⟨hat, hc, h0, hh⟩
  | release hdone hcalls hr hs =>
    have hp := poll_quiet hcalls
    obtain ⟨h1, h2⟩ := hnone hp (fun k _ => .inl hr) hs
    exact ⟨h1, h2, iff_of_true (fun k hk => absurd hk (hquiet hp k)) fun hst => hdone hst.1 hst.2.1⟩
  | keep hat hcalls hs =>
    have hp := poll_quiet hcalls
    have hdown : d.prn.kbdStatus.isDown = false ∧ d.prn.kbdStatus ≠ .delete := by
      rcases hat with hat | hat | hat
      all_goals rw [hat]
      all_goals exact ⟨rfl, nofun⟩
    obtain ⟨h1, h2⟩ := hnone hp (fun k hk => absurd hk (hd.empty hdown.1 hdown.2 k)) hs
    exact ⟨h1, h2, iff_of_true (fun k hk => absurd hk (hquiet hp k)) fun hst => hdown.2 hst.1⟩

theorem KeysDown.deleteStr (hd : KeysDown d h) : KeysDown (printDeleteStr d) h :=
  ⟨fun k hk => ⟨(hd.report k hk).1, .inr rfl⟩, nofun⟩

/-- `print_deleteStr` leads to a second press exactly when the key of backspace is down. -/
theorem KeysDown.deleteStr_strikes (hd : KeysDown d h) (hs : ¬strikesAgain L d h) :
    strikesAgain L (printDeleteStr d) h ↔ d.backspaceDown L := by
  constructor
  · rintro ⟨-, hc, h0, hb⟩
    obtain ⟨hr, ht | ht⟩ := hd.report _ hb
    · exact ⟨ht, hr, h0, hc⟩
    · exact absurd ⟨ht, hc, h0, hb⟩ hs
  · rintro ⟨ht, hr, h0, hc⟩
    refine ⟨rfl, hc, h0, ?_⟩
    have hdown := hd.down ht (by rwa [hr])
    rwa [hr] at hdown

theorem print_keys (p : Print) (str : UInt16) (info : Info) (len : UInt8) :
    (p.print str info len).kbdStatus = p.kbdStatus ∧ (p.print str info len).report = p.report ∧
      (p.print str info len).cCount = p.cCount := by
  rcases Print.print_cases p str info len with hp | ⟨i, hp⟩
  · rw [hp]
    exact ⟨rfl, rfl, rfl⟩
  · rw [hp]
    exact ⟨rfl, rfl, rfl⟩

theorem KeysDown.print (hd : KeysDown d h) (str : UInt16) (info : Info) (len : UInt8) :
    KeysDown { d with prn := d.prn.print str info len } h := by
  obtain ⟨hk, hr, -⟩ := print_keys d.prn str info len
  refine ⟨fun k hh => ?_, fun ht h0 => ?_⟩
  · rw [hk, hr]
    exact hd.report k hh
  · rw [hk] at ht
    rw [hr] at h0 ⊢
    exact hd.down ht h0

theorem print_strikes (str : UInt16) (info : Info) (len : UInt8) :
    strikesAgain L { d with prn := d.prn.print str info len } h ↔ strikesAgain L d h := by
  obtain ⟨hk, -, hc⟩ := print_keys d.prn str info len
  unfold strikesAgain
  rw [hk, hc]
  rfl

/-- `print_deleteStr` is not called while the backspace key is down. -/
def PrintCall.waits (L : Layout) (d : Device) (e : PrintCall) : Prop :=
  e = .deleteStr → ¬d.backspaceDown L

instance (L : Layout) (d : Device) (e : PrintCall) : Decidable (e.waits L d) :=
  inferInstanceAs (Decidable (_ → _))

theorem fresh_run (hd : KeysDown d h) (hs : ¬strikesAgain L d h) {evs : List PrintCall}
    (hg : EachStep (printCall L) (fun d e => e.waits L d) (.ret d) evs) :
    Fresh Poll.key Poll.ends h (polls L (.ret d) evs) := by
  induction evs generalizing d h with
  | nil => trivial
  | cons e evs ih =>
    cases e with
    | update =>
      obtain ⟨hd', hs', hiff⟩ := hd.update L
      exact ⟨hiff.mpr hs, ih hd' hs' hg.2⟩
    | deleteStr =>
      have hs' : ¬strikesAgain L (printDeleteStr d) h := by
        rw [hd.deleteStr_strikes hs]
        exact hg.1 rfl
      exact ih hd.deleteStr hs' hg.2
    | print str info len =>
      refine ih (hd.print str info len) ?_ hg.2
      rwa [print_strikes]

/-- What is about to strike again does so at the next step. -/
theorem not_fresh_strikes (hs : strikesAgain L d h) (hd : KeysDown d h) (evs : List PrintCall) :
    ¬Fresh Poll.key Poll.ends h (polls L (.ret d) (evs ++ [.update])) := by
  induction evs generalizing d with
  | nil => exact fun hf => ((hd.update L).2.2.mp hf.1) hs
  | cons e evs ih =>
    cases e with
    | update => exact fun hf => ((hd.update L).2.2.mp hf.1) hs
    | deleteStr => exact ih ⟨rfl, hs.2⟩ hd.deleteStr
    | print str info len => exact ih ((print_strikes str info len).mpr hs) (hd.print str info len)

theorem not_fresh_run (hd : KeysDown d h) (hs : ¬strikesAgain L d h) {evs : List PrintCall}
    (hg : ¬EachStep (printCall L) (fun d e => e.waits L d) (.ret d) evs) :
    ¬Fresh Poll.key Poll.ends h (polls L (.ret d) (evs ++ [.update])) := by
  induction evs generalizing d h with
  | nil => exact absurd trivial hg
  | cons e evs ih =>
    rw [eachStep_ret_cons, not_and] at hg
    cases e with
    | update =>
      obtain ⟨hd', hs', -⟩ := hd.update L
      exact fun hf => ih hd' hs' (hg nofun) hf.2
    | deleteStr =>
      have hiff := hd.deleteStr_strikes hs
      by_cases hb : d.backspaceDown L
      · exact not_fresh_strikes (hiff.mpr hb) hd.deleteStr evs
      · exact ih hd.deleteStr (mt hiff.mp hb) (hg fun _ => hb)
    | print str info len =>
      refine ih (hd.print str info len) ?_ (hg nofun)
      rwa [print_strikes]

end

/-- The presses of a run are all released, as long as `print_deleteStr` is not called while the
backspace key is down; once it is, the next step presses that key again. -/
theorem released_iff (L : Layout) (d : Device) (h0 : d.prn = {}) (evs : List PrintCall) :
    (EachStep (printCall L) (fun d e => e.waits L d) (.ret d) evs →
      Released (polls L (.ret d) evs)) ∧
    (Released (polls L (.ret d) (evs ++ [.update])) →
      EachStep (printCall L) (fun d e => e.waits L d) (.ret d) evs) := by
  have hd : KeysDown d fun _ => False := .none (by rw [h0]; rfl) fun _ => id
  have hs : ¬strikesAgain L d fun _ => False := fun hs => hs.2.2.2
  unfold Released
  rw [apart_iff, apart_iff]
  refine ⟨fresh_run hd hs, fun hf => ?_⟩
  by_contra hg
  exact not_fresh_run hd hs hg hf

def sampleKeys : Mem := fun a =>
  if a = 0x28 then 0x2A else if a = 0x81 then 0x04 else if a = 0x82 then 0x05 else 0

def keyedDevice : Device where
  flash := { mem := fun _ => 0 }
  eeprom := sampleKeys
  ram := Mem.write (fun _ => 0) 0x200 2 fun i => [97, 98].getD i 0

/-- `ab` is typed and erased; the second `print_deleteStr` comes when the first backspace is down. -/
def eraseTwice : List PrintCall :=
  .print 0x200 .ram 0 :: List.replicate 56 .update ++ [.deleteStr, .update, .deleteStr]

theorem released_iff_erase : Released (polls sampleLayout (.ret keyedDevice)
    (.print 0x200 .ram 0 :: List.replicate 56 .update ++ .deleteStr :: List.replicate 5 .update)) :=
  (released_iff sampleLayout keyedDevice rfl _).1 (by decide +kernel)

theorem not_released_eraseTwice : ¬∀ L d evs, d.prn = {} → Released (polls L (.ret d) evs) := by
  intro h
  have htrace : polls sampleLayout (.ret keyedDevice) (eraseTwice ++ [.update]) =
      (polls sampleLayout (.ret keyedDevice) eraseTwice).dropLast ++
        ⟨true, (0, 0x2A)⟩ :: ([] ++ ⟨true, (0, 0x2A)⟩ :: []) := by decide +kernel
  obtain ⟨z, hz, -⟩ := h _ _ _ rfl _ _ [] _ [] (0, 0x2A) htrace (by decide) (by decide)
  exact absurd hz List.not_mem_nil

end Memtype
