import Memtype.Proofs.Retries

/-! The entry of the PIN. Its variables form a small machine of their own, which every press in
USER_INPUT moves and nothing else does: the digits follow from the presses since the entry was
begun, and the text shows none of those that have been accepted. -/

namespace Memtype

open Lib

def Button.turn : Button → ℤ
  | .up => 1
  | .down => -1
  | .notPressed | .right | .left => 0

/-- The UPs less the DOWNs before RIGHT number `k`, where the first is number 0; all of them if
there are not so many RIGHTs. -/
def turned : List Button → ℕ → ℤ
  | [], _ => 0
  | .right :: _, 0 => 0
  | .right :: l, k + 1 => turned l k
  | b :: l, k => b.turn + turned l k

def digit (z : ℤ) : UInt8 := usiKeys (UInt8.ofNat (z % 10).toNat)

/-- The step begins an entry: USI_Init, or a check that fails. -/
def Event.restarts (L : Layout) (d : Device) (e : Event) : Prop :=
  e.handled d ≠ none ∧ d.uif.uifState = .start ∨
    e.handled d = some .left ∧ d.uif.uifState = .userInput ∨ e.pinRefused L d

instance (L : Layout) (d : Device) (e : Event) : Decidable (e.restarts L d) :=
  inferInstanceAs (Decidable (_ ∨ _ ∨ _ ∧ _ ∧ _))

def Event.enters (L : Layout) (d : Device) (e : Event) (l : List Button) : List Button :=
  if e.restarts L d then []
  else if d.uif.uifState = .userInput then l ++ (e.handled d).toList
  else l

/-- The presses since the entry was begun. -/
def entered (L : Layout) (o : Outcome Device) (evs : List Event) : List Button :=
  accumulate (step L) (fun d e => e.enters L d) o evs []

theorem turned_cons {b : Button} (hb : b ≠ .right) (l : List Button) (k : ℕ) :
    turned (b :: l) k = b.turn + turned l k := by
  cases b with
  | right => exact absurd rfl hb
  | _ => rfl

theorem turned_snoc (l : List Button) (b : Button) (k : ℕ) :
    turned (l ++ [b]) k = turned l k + if l.count .right ≤ k then b.turn else 0 := by
  induction l generalizing k with
  | nil => cases b <;> cases k <;> rfl
  | cons c l ih =>
    by_cases hc : c = .right
    · subst hc
      rw [List.count_cons_self]
      cases k with
      | zero => simp [turned]
      | succ k =>
        rw [List.cons_append, turned, turned, ih]
        simp only [Nat.succ_le_succ_iff]
    · rw [List.cons_append, turned_cons hc, turned_cons hc, ih, List.count_cons_of_ne hc]
      omega

/-- Past the last RIGHT there is nothing more to count. -/
theorem turned_succ {l : List Button} {k : ℕ} (h : l.count .right ≤ k) :
    turned l (k + 1) = turned l k := by
  induction l generalizing k with
  | nil => rfl
  | cons b l ih =>
    by_cases hb : b = .right
    · subst hb
      rw [List.count_cons_self] at h
      obtain ⟨k, rfl⟩ : ∃ j, k = j + 1 := ⟨k - 1, by omega⟩
      exact ih (Nat.succ_le_succ_iff.mp h)
    · rw [List.count_cons_of_ne hb] at h
      rw [turned_cons hb, turned_cons hb, ih h]

structure Entry where
  text : ℕ → UInt8
  pin : ℕ → UInt8
  index : UInt8
  sel : UInt8

def Device.entry (d : Device) : Entry :=
  { text := d.usi.userText, pin := d.usi.userPin, index := d.usi.userTextIndex,
    sel := d.uif.userInputIndex }

namespace Entry

def print (n : Entry) : Entry :=
  { n with
    pin := Function.update n.pin n.index.toNat (usiKeys n.sel),
    text := Function.update (Function.update n.text (5 + n.index.toNat) (usiKeys n.sel))
      (5 + n.index.toNat + 1) 0 }

def init (n : Entry) : Entry := print { n with index := 0, sel := 0, text := copyPinStr n.text }

def select (sel : UInt8) (n : Entry) : Entry := print { n with sel := sel }

/-- RIGHT before the last digit. -/
def accept (n : Entry) : Entry :=
  print { n with text := Function.update n.text (5 + n.index.toNat) 0x2A, index := n.index + 1 }

/-- The end of a failed check. -/
def failed (n : Entry) : Entry :=
  { text := copyPinStr n.text, pin := Function.update n.pin 0 0x30, index := 0, sel := 0 }

/-- The digits up to the selected one are those that the presses lead to. -/
structure Typed (l : List Button) (n : Entry) : Prop where
  index : n.index.toNat = l.count .right
  sel : n.sel.toNat = (turned l n.index.toNat % 10).toNat
  pin : ∀ k ≤ n.index.toNat, n.pin k = digit (turned l k)

/-- The text is the prompt, a star for each digit before the selected one, and at most that one. -/
structure Shown (n : Entry) : Prop where
  index : n.index.toNat ≤ 3
  sel : n.sel.toNat ≤ 9
  prompt : ∀ i < 5, n.text i = pinStr.getD i 0
  stars : ∀ j < n.index.toNat, n.text (5 + j) = 0x2A
  rest : n.text (5 + n.index.toNat) = 0 ∨ (∃ v : UInt8, v.toNat ≤ 9 ∧
    n.text (5 + n.index.toNat) = usiKeys v) ∧ n.text (5 + n.index.toNat + 1) = 0

theorem print_text (n : Entry) : n.print.text =
    Function.update (Function.update n.text (5 + n.index.toNat) (usiKeys n.sel))
      (5 + n.index.toNat + 1) 0 := rfl

theorem print_pin (n : Entry) : n.print.pin =
    Function.update n.pin n.index.toNat (usiKeys n.sel) := rfl

theorem digit_eq {sel : UInt8} {z : ℤ} (h : sel.toNat = (z % 10).toNat) : usiKeys sel = digit z := by
  rw [digit, ← h, UInt8.ofNat_toNat]

theorem shown_print {n : Entry} (hi : n.index.toNat ≤ 3) (hs : n.sel.toNat ≤ 9)
    (hp : ∀ i < 5, n.text i = pinStr.getD i 0) (ht : ∀ j < n.index.toNat, n.text (5 + j) = 0x2A) :
    n.print.Shown := by
  refine ⟨hi, hs, fun i h => ?_, fun j hj => ?_, .inr ⟨⟨n.sel, hs, ?_⟩, Function.update_self ..⟩⟩
  · rw [print_text, Function.update_of_ne (by omega), Function.update_of_ne (by omega)]
    exact hp i h
  · have hj : j < n.index.toNat := hj
    rw [print_text, Function.update_of_ne (by omega), Function.update_of_ne (by omega)]
    exact ht j hj
  · change n.print.text (5 + n.index.toNat) = usiKeys n.sel
    rw [print_text, Function.update_of_ne (by omega), Function.update_self]

theorem copyPinStr_prompt (text : ℕ → UInt8) {i : ℕ} (h : i < 6) :
    copyPinStr text i = pinStr.getD i 0 := by
  have hl : i < pinStr.length := h
  rw [copyPinStr, dif_pos hl, List.getD_eq_getElem _ _ hl]

theorem shown_init (n : Entry) : n.init.Shown :=
  shown_print (Nat.zero_le 3) (Nat.zero_le 9) (fun _ h => copyPinStr_prompt _ (Nat.lt_succ_of_lt h))
    fun _ h => absurd h (Nat.not_lt_zero _)

theorem shown_failed (n : Entry) : n.failed.Shown :=
  ⟨Nat.zero_le 3, Nat.zero_le 9, fun _ h => copyPinStr_prompt _ (Nat.lt_succ_of_lt h),
    fun _ h => absurd h (Nat.not_lt_zero _), .inl (copyPinStr_prompt n.text (i := 5) (by decide))⟩

theorem Shown.select {n : Entry} (h : n.Shown) {sel : UInt8} (hs : sel.toNat ≤ 9) :
    (n.select sel).Shown := shown_print h.index hs h.prompt h.stars

theorem Shown.accept {n : Entry} (h : n.Shown) (hi : n.index ≠ 3) : n.accept.Shown := by
  have hle := h.index
  have hne : n.index.toNat ≠ 3 := fun he => hi (UInt8.toNat_inj.mp he)
  have hsucc : (n.index + 1).toNat = n.index.toNat + 1 := toNat_succ8 (by omega)
  refine shown_print ?_ h.sel (fun i hi => ?_) fun j hj => ?_
  · change (n.index + 1).toNat ≤ 3
    omega
  · dsimp only
    rw [Function.update_of_ne (by omega)]
    exact h.prompt i hi
  · have hj : j < (n.index + 1).toNat := hj
    dsimp only
    rw [Function.update_apply]
    split_ifs with he
    · rfl
    · exact h.stars j (by omega)

/-- The digit shown is the selected one, and the digits before it stay. -/
theorem typed_print {l : List Button} {n : Entry} (hi : n.index.toNat = l.count .right)
    (hs : n.sel.toNat = (turned l n.index.toNat % 10).toNat)
    (hp : ∀ k < n.index.toNat, n.pin k = digit (turned l k)) : n.print.Typed l := by
  refine ⟨hi, hs, fun k hk => ?_⟩
  have hk : k ≤ n.index.toNat := hk
  rw [print_pin, Function.update_apply]
  split_ifs with he
  · rw [he]
    exact digit_eq hs
  · exact hp k (by omega)

theorem typed_init (n : Entry) : n.init.Typed [] :=
  typed_print rfl rfl fun _ h => absurd h (Nat.not_lt_zero _)

theorem typed_failed (n : Entry) : n.failed.Typed [] := by
  refine ⟨rfl, rfl, fun k hk => ?_⟩
  have hk : k = 0 := Nat.le_zero.mp hk
  subst hk
  exact Function.update_self 0 0x30 n.pin

theorem Typed.select {l : List Button} {n : Entry} (h : n.Typed l) {b : Button} {sel : UInt8}
    (hb : b ≠ .right) (hs : (sel.toNat : ℤ) = (n.sel.toNat + b.turn) % 10) :
    (n.select sel).Typed (l ++ [b]) := by
  have hc : (l ++ [b]).count .right = l.count .right := by
    have h0 : [b].count .right = 0 :=
      List.count_eq_zero.mpr fun h => hb (List.mem_singleton.mp h).symm
    rw [List.count_append, h0, Nat.add_zero]
  have hi := h.index
  have hsel := h.sel
  refine typed_print (by rw [hc]; exact hi) ?_ fun k hk => ?_
  · change sel.toNat = (turned (l ++ [b]) n.index.toNat % 10).toNat
    rw [turned_snoc, if_pos hi.ge]
    omega
  · have hk : k < n.index.toNat := hk
    rw [turned_snoc, if_neg (by omega), Int.add_zero]
    exact h.pin k hk.le

theorem Typed.accept {l : List Button} {n : Entry} (h : n.Typed l) (hlt : n.index.toNat < 255) :
    n.accept.Typed (l ++ [Button.right]) := by
  have hsucc : (n.index + 1).toNat = n.index.toNat + 1 := toNat_succ8 hlt
  have hi := h.index
  have hturn (k : ℕ) : turned (l ++ [Button.right]) k = turned l k := by
    rw [turned_snoc]
    split_ifs <;> exact Int.add_zero _
  refine typed_print ?_ ?_ fun k hk => ?_
  · change (n.index + 1).toNat = (l ++ [Button.right]).count .right
    rw [hsucc, hi, List.count_append, List.count_singleton_self]
  · change n.sel.toNat = (turned (l ++ [Button.right]) (n.index + 1).toNat % 10).toNat
    rw [hturn, hsucc, turned_succ hi.ge]
    exact h.sel
  · have hk : k < (n.index + 1).toNat := hk
    rw [hturn]
    exact h.pin k (by omega)

structure Behind (n n' : Entry) : Prop where
  pin : ∀ i, 4 ≤ i → n'.pin i = n.pin i
  text : ∀ i, 16 ≤ i → n'.text i = n.text i

theorem Behind.refl (n : Entry) : n.Behind n := ⟨fun _ _ => rfl, fun _ _ => rfl⟩

theorem Behind.print {n m : Entry} (h : n.Behind m) (hi : m.index.toNat ≤ 3) :
    n.Behind m.print := by
  refine ⟨fun i h4 => ?_, fun i h16 => ?_⟩
  · rw [print_pin, Function.update_of_ne (by omega)]
    exact h.pin i h4
  · rw [print_text, Function.update_of_ne (by omega), Function.update_of_ne (by omega)]
    exact h.text i h16

theorem copyPinStr_behind (text : ℕ → UInt8) {i : ℕ} (h : 16 ≤ i) : copyPinStr text i = text i :=
  dif_neg (not_lt.mpr ((by decide : pinStr.length ≤ 16).trans h))

theorem Behind.init (n : Entry) : n.Behind n.init :=
  Behind.print (m := { n with index := 0, sel := 0, text := copyPinStr n.text })
    ⟨fun _ _ => rfl, fun _ h => copyPinStr_behind n.text h⟩ (Nat.zero_le 3)

theorem Behind.select {n : Entry} (hi : n.index.toNat ≤ 3) {sel : UInt8} : n.Behind (n.select sel) :=
  Behind.print (m := { n with sel := sel }) ⟨fun _ _ => rfl, fun _ _ => rfl⟩ hi

theorem Behind.accept {n : Entry} (hi : n.index.toNat ≤ 3) (hne : n.index ≠ 3) :
    n.Behind n.accept := by
  have hne : n.index.toNat ≠ 3 := fun he => hne (UInt8.toNat_inj.mp he)
  refine Behind.print ⟨fun _ _ => rfl, fun i h => Function.update_of_ne (by omega) _ _⟩ ?_
  change (n.index + 1).toNat ≤ 3
  rw [toNat_succ8 (by omega)]
  omega

theorem Behind.failed (n : Entry) : n.Behind n.failed :=
  ⟨fun _ h => Function.update_of_ne (by omega) _ _, fun _ h => copyPinStr_behind n.text h⟩

end Entry

inductive EntryStep (L : Layout) (d : Device) (e : Event) (d' : Device) : Prop
  | kept (h : d'.entry = d.entry)
      (hs : d'.uif.uifState = .userInput → d.uif.uifState = .userInput ∧ e.handled d = none ∨
        e.pinErased d)
  | init (h : d'.entry = d.entry.init) (hr : e.restarts L d)
  | select (b : Button) (h0 : d.uif.uifState = .userInput) (hb : e.handled d = some b)
      (hn : b = .up ∨ b = .down) (h : d'.entry = d.entry.select
        (if b = .up then uifIncrement d.entry.sel 10 else uifDecrement d.entry.sel 10))
  | accept (h0 : d.uif.uifState = .userInput) (hb : e.handled d = some .right)
      (hi : d.usi.userTextIndex ≠ 3) (h : d'.entry = d.entry.accept)
  | failed (h : d'.entry = d.entry.failed) (hr : e.restarts L d)

section

variable {L : Layout} {d d' : Device} {e : Event}

theorem usiFailed_entry (L : Layout) (d : Device) : (usiFailed L d).entry = d.entry.failed := by
  unfold usiFailed
  split_ifs <;> rfl

theorem optApply_entry (L : Layout) (d : Device) :
    (optApply L d).entry = d.entry ∧ (optApply L d).uif.uifState = d.uif.uifState := by
  obtain ⟨d1, h, l, he⟩ := optApply_print L d
  rw [he]
  constructor
  · unfold Device.entry
    rw [← h.usi, ← h.uif]
  · exact congrArg Uif.uifState h.uif

theorem optFsm_entry (L : Layout) (b : Button) (d : Device) (h0 : d.uif.uifState = .options) :
    (optFsm L b d).entry = d.entry ∧ (optFsm L b d).uif.uifState ≠ .userInput := by
  have ho {d' : Device} (h : d'.entry = d.entry ∧ d'.uif.uifState = d.uif.uifState) :
      d'.entry = d.entry ∧ d'.uif.uifState ≠ .userInput := by
    rw [h.2, h0]
    exact ⟨h.1, nofun⟩
  cases b with
  | left => exact ⟨rfl, nofun⟩
  | right => exact ⟨rfl, nofun⟩
  | up => exact ho (optApply_entry L { printDeleteStr d with uif :=
      { d.uif with optionsIndex := uifIncrement d.uif.optionsIndex maxOptSize } })
  | down => exact ho (optApply_entry L { d with uif :=
      { d.uif with optionsIndex := uifDecrement d.uif.optionsIndex maxOptSize } })
  | notPressed => exact ho ⟨rfl, rfl⟩

theorem crdFsm_entry (L : Layout) (b : Button) (d : Device) (h0 : d.uif.uifState = .credentials) :
    (crdFsm L b d).state.entry = d.entry ∧ (crdFsm L b d).state.uif.uifState ≠ .userInput := by
  have hq {d' : Device} (h : Still (printDeleteStr d) d') :
      d'.entry = d.entry ∧ d'.uif.uifState ≠ .userInput := by
    refine ⟨?_, ?_⟩
    · unfold Device.entry
      rw [h.usi, h.uif]
      rfl
    · rw [h.uif]
      exact fun hu => absurd (h0.symm.trans hu) nofun
  cases b with
  | left => exact ⟨rfl, nofun⟩
  | up => exact hq (browses_previous L _).still
  | right => exact hq (printStep_printDetail L _ _ _).still
  | down => exact hq (browses_next L _).still
  | notPressed => exact hq (.refl _)

theorem entryStep_handled {b : Button} (hb : e.handled d = some b) :
    EntryStep L d e (step L d e).state := by
  obtain ⟨u, s, a, hc, rfl, hn, hs⟩ := step_handled L hb
  rw [hs]
  unfold uifTask
  rw [if_pos ⟨hc, hn⟩]
  generalize u.buttonPressed = b at hb hn
  dsimp only
  split
  · next h0 => exact .init rfl (.inl ⟨by rw [hb]; exact nofun, h0⟩)
  · next h0 =>
    obtain ⟨h, hu⟩ := optFsm_entry L b { d with uib := u, sch := s, adcValue := a } h0
    exact .kept h fun h => absurd h hu
  · next h0 =>
    cases b with
    | left => exact .init rfl (.inr (.inl ⟨hb, h0⟩))
    | up => exact .select .up h0 hb (.inl rfl) rfl
    | down => exact .select .down h0 hb (.inr rfl) rfl
    | notPressed => exact absurd rfl hn
    | right =>
      by_cases hi : d.usi.userTextIndex = 3
      · have hk : e.checksPin d := ⟨hb, h0, hi⟩
        rw [usiFsm_checks L (d := { d with uib := u, sch := s, adcValue := a }) hi]
        split_ifs with hp hm
        · exact .kept rfl fun _ => .inr ⟨hk, hp⟩
        · exact .kept rfl fun h => absurd h nofun
        · exact .failed (usiFailed_entry L _) (.inr (.inr ⟨hk, hp, eq_false_of_ne_true hm⟩))
      · unfold usiFsm
        dsimp only
        split_ifs with hi'
        · exact absurd hi' hi
        · exact .accept h0 hb hi rfl
  · next h0 =>
    obtain ⟨h, hu⟩ := crdFsm_entry L b { d with uib := u, sch := s, adcValue := a } h0
    exact .kept h fun h => absurd h hu

theorem entryStep_cases (L : Layout) (d : Device) (e : Event) : EntryStep L d e (step L d e).state := by
  cases hh : e.handled d with
  | some b => exact entryStep_handled hh
  | none =>
    have h := step_cases L d e
    generalize (step L d e).state = d' at h
    have hkept (hi : d'.usi = d.usi) (hu : d'.uif = d.uif ∨ d'.uif = { d.uif with uifState := .start }) :
        EntryStep L d e d' := by
      refine .kept ?_ fun h => .inl ⟨?_, hh⟩
      · unfold Device.entry
        rw [hi]
        rcases hu with hu | hu <;> rw [hu]
      · rcases hu with hu | hu
        · rwa [hu] at h
        · rw [hu] at h
          exact absurd h nofun
    cases h with
    | still h => exact hkept h.usi (.inl h.uif)
    | poll rq =>
      obtain ⟨u, hu⟩ := task_core L d
      rw [hu] at hkept ⊢
      exact hkept rfl (.inl rfl)
    | decode data len =>
      have h := decode_cases L data len d
      generalize ucpDecode L data len d = d' at h hkept ⊢
      cases h with
      | pinDone => exact hkept rfl (.inr rfl)
      | _ => exact hkept rfl (.inl rfl)
    | write =>
      have hs := writeTask_step L d
      generalize (ucpWriteTask L d).state = d' at hs hkept ⊢
      cases hs with
      | idle hw => exact hkept rfl (.inl rfl)
      | wrote hw d1 h w => exact hkept h.usi (.inl h.uif)
    | button b he => exact absurd (hh.symm.trans he) nofun
    | calibrate meas hf hk hc hu hs hi he => exact hkept hi (.inl hs)

/-- Only cells of the arrays are written. -/
theorem step_behind (hi : d.usi.userTextIndex.toNat ≤ 3) (L : Layout) (e : Event) :
    d.entry.Behind (step L d e).state.entry := by
  cases entryStep_cases L d e with
  | kept h => exact h ▸ .refl d.entry
  | init h => exact h ▸ .init d.entry
  | select b h0 hb hn h => exact h ▸ .select hi
  | accept h0 hb hne h => exact h ▸ .accept hi hne
  | failed h => exact h ▸ .failed d.entry

theorem select_sel {sel : UInt8} (hs : sel.toNat ≤ 9) {b : Button} (hb : b = .up ∨ b = .down) :
    (((if b = .up then uifIncrement sel 10 else uifDecrement sel 10).toNat : ℕ) : ℤ) =
      (sel.toNat + b.turn) % 10 := by
  rcases hb with rfl | rfl
  · rw [if_pos rfl, uifIncrement, show (10 : UInt8).toNat = 10 from rfl,
      UInt8.toNat_ofNat_of_lt' (by change _ < 256; omega), Button.turn]
    omega
  · rw [if_neg nofun, uifDecrement, Button.turn]
    split_ifs with h
    · rw [h]
      rfl
    · have h0 : sel.toNat ≠ 0 := fun he => h (UInt8.toNat_inj.mp he)
      rw [UInt8.toNat_sub_of_le _ _ (by rw [UInt8.le_iff_toNat_le]; change 1 ≤ _; omega),
        UInt8.toNat_one]
      omega

/-- The text of an entry, or that of a device that has not been asked for a PIN yet. -/
def Device.entryShown (d : Device) : Prop :=
  d.entry.Shown ∨ d.usi.userTextIndex = 0 ∧ d.uif.userInputIndex = 0 ∧ d.uif.uifState ≠ .userInput ∧
    ∀ i, d.usi.userText i = 0

/-- Once there is a text it stays. -/
theorem shown_kept (h : d.entry.Shown) (L : Layout) (e : Event) : (step L d e).state.entry.Shown := by
  cases entryStep_cases L d e with
  | kept hs hu => exact hs ▸ h
  | init hs => exact hs ▸ Entry.shown_init d.entry
  | failed hs => exact hs ▸ Entry.shown_failed d.entry
  | select b h0 hb hn hs =>
    have hsel := select_sel h.sel hn
    exact hs ▸ h.select (by omega)
  | accept h0 hb hi hs => exact hs ▸ h.accept hi

theorem shown_step (h : d.entryShown) (L : Layout) (e : Event) : (step L d e).state.entryShown := by
  unfold Device.entryShown at h ⊢
  rcases h with h | ⟨hi, hs', h0, ht⟩
  · exact .inl (shown_kept h L e)
  cases entryStep_cases L d e with
  | init hs => exact .inl (hs ▸ Entry.shown_init d.entry)
  | failed hs => exact .inl (hs ▸ Entry.shown_failed d.entry)
  | kept hs hu =>
    refine .inr ⟨?_, ?_, fun h => ?_, fun i => ?_⟩
    · exact (congrArg Entry.index hs).trans hi
    · exact (congrArg Entry.sel hs).trans hs'
    · rcases hu h with hu | hu
      · exact h0 hu.1
      · exact h0 hu.1.2.1
    · exact (congrArg (fun n => n.text i) hs).trans (ht i)
  | select b hopen hb hn hs => exact absurd hopen h0
  | accept hopen hb hi hs => exact absurd hopen h0

theorem erased_spins (L : Layout) (h : e.pinErased d) : (step L d e).returns = false := by
  cases checkStep_checks L h.1 with
  | none hn => exact absurd h.1 hn
  | accepted ha => exact absurd h.2 ha.2.1
  | refused hr => exact absurd h.2 hr.2.1
  | reset hr => exact absurd h.2 hr.2.1
  | erased _ hs => exact hs

/-- A press of USER_INPUT that goes on with the entry. -/
theorem not_restarts {L : Layout} (h0 : d.uif.uifState = .userInput) (hl : e.handled d ≠ some .left)
    (hi : e.handled d = some .right → d.usi.userTextIndex ≠ 3) : ¬e.restarts L d := by
  rintro (⟨-, hs⟩ | ⟨hb, -⟩ | ⟨hk, -⟩)
  · exact absurd (h0.symm.trans hs) nofun
  · exact hl hb
  · exact hi hk.1 hk.2.2

def EntryInv (d : Device) (l : List Button) : Prop :=
  d.entryShown ∧ (d.uif.uifState = .userInput → d.entry.Typed l)

theorem entryInv_step {l : List Button} (h : EntryInv d l) (hr : step L d e = .ret d') :
    EntryInv d' (e.enters L d l) := by
  have hshown := shown_step h.1 L e
  have hstep := entryStep_cases L d e
  rw [hr, Outcome.state_ret] at hshown hstep
  refine ⟨hshown, fun hu => ?_⟩
  have hopen (h0 : d.uif.uifState = .userInput) : d.entry.Shown :=
    h.1.resolve_right fun hs => hs.2.2.1 h0
  unfold Event.enters
  cases hstep with
  | init hs hrs =>
    rw [hs, if_pos hrs]
    exact Entry.typed_init d.entry
  | failed hs hrs =>
    rw [hs, if_pos hrs]
    exact Entry.typed_failed d.entry
  | kept hs hk =>
    rcases hk hu with ⟨h0, hn⟩ | he
    · rw [hs, if_neg (not_restarts h0 (by rw [hn]; nofun) (by rw [hn]; nofun)), if_pos h0, hn,
        Option.toList_none, List.append_nil]
      exact h.2 h0
    · have hspin := erased_spins L he
      rw [hr] at hspin
      exact absurd hspin nofun
  | select b h0 hb hn hs =>
    have hbr : b ≠ .right ∧ b ≠ .left := by rcases hn with rfl | rfl <;> exact ⟨nofun, nofun⟩
    have hne : ¬e.restarts L d := by
      refine not_restarts h0 ?_ ?_
      · rw [hb]
        exact fun h => hbr.2 (Option.some.inj h)
      · rw [hb]
        exact fun h => absurd (Option.some.inj h) hbr.1
    rw [hs, if_neg hne, if_pos h0, hb]
    exact (h.2 h0).select hbr.1 (select_sel (hopen h0).sel hn)
  | accept h0 hb hi hs =>
    rw [hs, if_neg (not_restarts h0 (by rw [hb]; nofun) fun _ => hi), if_pos h0, hb]
    have hle := (hopen h0).index
    exact (h.2 h0).accept (by omega)

end

theorem powerOn_entry {L : Layout} {flash eeprom ram : Mem} {d : Device}
    (h : powerOn L flash eeprom ram = .ret d) : EntryInv d [] := by
  obtain ⟨c, v, rfl⟩ := powerOn_ret h
  exact ⟨.inr ⟨rfl, rfl, nofun, fun _ => rfl⟩, nofun⟩

/-- In every run the digits checked are those that the presses since USI_Init or the last failed
check lead to. From the first USI_Init on there is a text, with a star for each digit but the last. -/
theorem pinEntry_run (L : Layout) (flash eeprom ram : Mem) (evs : List Event) :
    (∀ (d : Device) (e : Event), run (step L) (powerOn L flash eeprom ram) evs = .ret d →
      e.checksPin d →
      ∀ k : Fin 4, d.pin k = digit (turned (entered L (powerOn L flash eeprom ram) evs) k)) ∧
    Always (step L) (fun d => d.usi.userTextIndex.toNat ≤ 3 ∧ d.uif.userInputIndex.toNat ≤ 9 ∧
      d.entryShown) (powerOn L flash eeprom ram) evs ∧
    (∀ (d : Device) (e : Event), d.usi.userTextIndex.toNat ≤ 3 →
      d.entry.Behind (step L d e).state.entry) ∧
    ∀ (d : Device) (e : Event), d.entry.Shown → (step L d e).state.entry.Shown := by
  refine ⟨fun d e hr hk k => ?_, ?_, fun d e hi => step_behind hi L e, fun d e h => shown_kept h L e⟩
  · have hinv : EntryInv d (entered L (powerOn L flash eeprom ram) evs) := by
      unfold entered
      refine inv_accumulate (I := EntryInv) (fun s e l s' h hs => ?_) (fun s h => ?_) hr
      · exact entryInv_step h hs
      · exact powerOn_entry h
    have ht := hinv.2 hk.2.1
    refine ht.pin k ?_
    rw [show d.entry.index = 3 from hk.2.2]
    exact Nat.le_of_lt_succ k.isLt
  · have hbound (d : Device) (h : d.entryShown) :
        d.usi.userTextIndex.toNat ≤ 3 ∧ d.uif.userInputIndex.toNat ≤ 9 ∧ d.entryShown := by
      rcases h with h | ⟨hi, hs, h⟩
      · exact ⟨h.index, h.sel, .inl h⟩
      · rw [hi, hs]
        exact ⟨Nat.zero_le 3, Nat.zero_le 9, .inr ⟨hi, hs, h⟩⟩
    refine always_of_inv hbound (fun d e hd (_ : True) => ?_)
      (fun d h => (powerOn_entry h).1) (eachStep_true _ evs)
    have hs := shown_step hd L e
    refine ⟨hbound _ hs, fun d' hr => ?_⟩
    rwa [hr] at hs

def enterSomePin : List Event :=
  [.button .left, .button .up, .button .right, .button .down, .button .down, .button .right,
    .button .right]

theorem pinEntry_somePin : (run (step sampleLayout) sampleBoot enterSomePin).state.pin =
    ![0x31, 0x39, 0x39, 0x39] := by
  have h := (pinEntry_run sampleLayout (fun _ => 0) (factoryEeprom sampleLayout) (fun _ => 0)
    enterSomePin).1 _ (.button .right) (Outcome.eq_ret_of_returns (by decide +kernel))
    (by decide +kernel)
  funext k
  rw [show (run (step sampleLayout) sampleBoot enterSomePin).state.pin k = _ from h k]
  revert k
  decide +kernel

/-- Before the first USI_Init there is no text. -/
theorem not_pinEntry_start : ¬∀ L flash eeprom ram d, Reachable L flash eeprom ram d →
    d.entry.Shown := by
  intro h
  have hs := h sampleLayout (fun _ => 0) (factoryEeprom sampleLayout) (fun _ => 0) _
    ⟨[], Outcome.eq_ret_of_returns (by decide +kernel)⟩
  exact absurd (hs.prompt 0 (by decide)) (by decide +kernel)

end Memtype
