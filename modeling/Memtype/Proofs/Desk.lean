import Memtype.Proofs.Order
import Memtype.Proofs.Release

/-! The device's own text on the host: what the host makes of the reports, and where the text stands
while the device erases the last string and types the next. -/

namespace Memtype

open Lib

def Device.keyOf (L : Layout) (d : Device) (c : UInt8) : UInt8 × UInt8 :=
  keyReport (d.eeprom (L.keyboardLut + c.toUInt16))

structure Host where
  text : List UInt8
  report : UInt8 × UInt8

def edit (text : List UInt8) : Option UInt8 → List UInt8
  | some c => if c = 0x08 then text.dropLast else text ++ [c]
  | none => text

/-- A report that differs from the last one is a key, if a character in use has that key. -/
def Host.receive (key : UInt8 → UInt8 × UInt8) (used : List UInt8) (h : Host) (r : UInt8 × UInt8) :
    Host where
  text := if r = h.report then h.text else edit h.text (used.find? fun c => key c = r)
  report := r

structure Desk where
  device : Device
  host : Host

def Desk.update (L : Layout) (key : UInt8 → UInt8 × UInt8) (used : List UInt8) (x : Desk) : Desk where
  device := printUpdate L x.device
  host := x.host.receive key used (printUpdate L x.device).prn.report

/-- `print_deleteStr(); printStr(s)`, with the characters of `s`, or a `printUpdate`. -/
inductive Act where
  | action (a : UInt16) (info : Info) (s : List UInt8)
  | update

def act (L : Layout) (key : UInt8 → UInt8 × UInt8) (used : List UInt8) (x : Desk) :
    Act → Outcome Desk
  | .action a info _ => .ret { x with device := printStr a info (printDeleteStr x.device) }
  | .update => .ret (x.update L key used)

namespace Act

def string : Act → List UInt8
  | .action _ _ s => s
  | .update => []

def last (s : List UInt8) : Act → List UInt8
  | .action _ _ s' => s'
  | .update => s

end Act

def lastString (s : List UInt8) (acts : List Act) : List UInt8 := acts.foldl Act.last s

def usedChars (s : List UInt8) (acts : List Act) : List UInt8 := 0x08 :: (s ++ acts.flatMap Act.string)

def distinctKeys (key : UInt8 → UInt8 × UInt8) (used : List UInt8) : Prop :=
  (∀ c ∈ used, key c ≠ (0, 0)) ∧ ∀ c ∈ used, ∀ c' ∈ used, key c = key c' → c = c'

instance (key : UInt8 → UInt8 × UInt8) (used : List UInt8) : Decidable (distinctKeys key used) :=
  inferInstanceAs (Decidable (_ ∧ _))

/-- At most 255 characters, neither backspace nor the pause. -/
def plainString (s : List UInt8) : Prop :=
  s.length ≤ 255 ∧ ∀ c ∈ s, 1 ≤ c ∧ c ≤ 127 ∧ c ≠ 0x08 ∧ c ≠ synchronousIdleKey

instance (s : List UInt8) : Decidable (plainString s) := inferInstanceAs (Decidable (_ ∧ _))

/-- After reset nothing has been asked for, or the string `s` that `main` begins with. -/
def Device.opening (L : Layout) (d : Device) (s : List UInt8) : Prop :=
  d.prn = {} ∧ s = [] ∨ ∃ a info, d.prn = ({} : Print).print a info 0 ∧ d.holds L info a s

/-- No string is to be typed but the one that has begun. -/
def Device.noneWaits (L : Layout) (d : Device) : Prop :=
  ∀ i, (i = d.prn.actString ∧ d.prn.eos = false) ∨
    d.readAt L (d.prn.strBuf i).info (d.prn.strBuf i).strPtr = 0

instance (L : Layout) (d : Device) : Decidable (d.noneWaits L) :=
  inferInstanceAs (Decidable (∀ _, _ ∨ _))

namespace Act

variable (L : Layout) (d : Device)

def given : Act → Prop
  | .action a info s => d.holds L info a s ∧ plainString s
  | .update => True

/-- The action comes when no other string waits and the backspace key is not down for a further
press, and its own string gets a slot that is not given up with the current string. -/
def replaces : Act → Prop
  | .action _ _ s => d.noneWaits L ∧ ¬(d.prn.kbdStatus = .deletePressed ∧ d.prn.cCount > 0) ∧
      (s = [] ∨ d.prn.pending < 5 ∧ (d.prn.eos = true ∨ d.prn.pending ≠ 0))
  | .update => True

instance decidableGiven : (e : Act) → Decidable (e.given L d)
  | .action .. => inferInstanceAs (Decidable (_ ∧ _))
  | .update => inferInstanceAs (Decidable True)

instance decidableReplaces : (e : Act) → Decidable (e.replaces L d)
  | .action .. => inferInstanceAs (Decidable (_ ∧ _ ∧ _))
  | .update => inferInstanceAs (Decidable True)

end Act

section

variable {L : Layout} {key : UInt8 → UInt8 × UInt8} {used : List UInt8}

theorem receive_none (hk : distinctKeys key used) (h : Host) :
    (h.receive key used (0, 0)).text = h.text := by
  have hfind : used.find? (fun c => key c = (0, 0)) = none := by
    rw [List.find?_eq_none]
    intro c hc hz
    exact hk.1 c hc (of_decide_eq_true hz)
  unfold Host.receive
  rw [hfind]
  exact ite_self _

theorem receive_key (hk : distinctKeys key used) {c : UInt8} (hc : c ∈ used) {h : Host}
    (hne : h.report ≠ key c) : (h.receive key used (key c)).text = edit h.text (some c) := by
  have hfind : used.find? (fun c' => key c' = key c) = some c := by
    have hsome : (used.find? fun c' => key c' = key c).isSome :=
      List.find?_isSome.mpr ⟨c, hc, decide_eq_true rfl⟩
    obtain ⟨c', hc'⟩ := Option.isSome_iff_exists.mp hsome
    have hkey : key c' = key c := by simpa using List.find?_some hc'
    rw [hc', hk.2 c' (List.mem_of_find?_eq_some hc') c hc hkey]
  unfold Host.receive
  rw [hfind]
  exact if_neg hne.symm

def Print.waiting (p : Print) (rs : List (List UInt8)) : List (List UInt8) :=
  if p.eos then rs else rs.tail

theorem waiting_eos {p : Print} (h : p.eos = true) (rs : List (List UInt8)) : p.waiting rs = rs := by
  unfold Print.waiting
  rw [if_pos h]

theorem waiting_begun {p : Print} (h : p.eos = false) (rs : List (List UInt8)) :
    p.waiting rs = rs.tail := by
  unfold Print.waiting
  rw [h]
  rfl

theorem waiting_empty {d : Device} {rs : List (List UInt8)} (h : Pending L d rs)
    (hn : d.noneWaits L) : (d.prn.waiting rs).flatten = [] := by
  -- a slot that does not hold the string begun
  have hslot (j : ℕ) (r : List UInt8) (hj : rs[j]? = some r) (hb : d.prn.eos = false → j ≠ 0) :
      r = [] := by
    have hlt : j < 5 := (List.getElem?_eq_some_iff.mp hj).1.trans_le h.fits
    have hval : (d.prn.actString + Fin.ofNat 5 j - d.prn.actString).val = j := by
      rw [add_sub_cancel_left]
      exact Nat.mod_eq_of_lt hlt
    have hrest := h.filled (d.prn.actString + Fin.ofNat 5 j) r (by rw [hval]; exact hj)
    rcases hn (d.prn.actString + Fin.ofNat 5 j) with ⟨ha, he⟩ | hz
    · rw [ha, sub_self] at hval
      exact absurd hval.symm (hb he)
    · rw [holds_head hrest.2.2] at hz
      cases r with
      | nil => rfl
      | cons c r => exact absurd hz (hrest.2.2.2.1 c List.mem_cons_self)
  rw [List.flatten_eq_nil_iff]
  intro r hr
  cases he : d.prn.eos with
  | true =>
    rw [waiting_eos he] at hr
    obtain ⟨j, hj⟩ := List.mem_iff_getElem?.mp hr
    exact hslot j r hj fun hf => absurd (he.symm.trans hf) nofun
  | false =>
    rw [waiting_begun he] at hr
    obtain ⟨j, hj⟩ := List.mem_iff_getElem?.mp hr
    rw [List.getElem?_tail] at hj
    exact hslot (j + 1) r hj fun _ => Nat.succ_ne_zero j

/-- No slot is left for a sixth string. -/
theorem firstEmpty_full {d : Device} {rs : List (List UInt8)} (h : Pending L d rs)
    (hlen : rs.length = 5) : d.prn.firstEmpty = none := by
  unfold Print.firstEmpty
  rw [List.find?_eq_none]
  intro i _ hi
  have hle := (empty_iff h i).mp (of_decide_eq_true hi)
  have hlt := (i - d.prn.actString).isLt
  omega

/-- The host's text is `text`, then what the device has typed of its own and not erased. -/
structure Shown (L : Layout) (key : UInt8 → UInt8 × UInt8) (used text own : List UInt8)
    (rs : List (List UInt8)) (x : Desk) : Prop where
  keys : x.device.keyOf L = key
  pending : Pending L x.device rs
  chars : ∀ c ∈ rs.flatten, c ∈ used ∧ c ≠ 0x08 ∧ c ≠ synchronousIdleKey
  text : x.host.text = text ++ own
  seen : x.host.report = x.device.prn.report
  count : x.device.prn.cCount.toNat = own.length

/-- A string is being typed, or none: with what is left of it the text is `last`. -/
structure Writing (key : UInt8 → UInt8 × UInt8) (last own : List UInt8) (rs : List (List UInt8))
    (p : Print) : Prop where
  spelled : own ++ rs.flatten = last
  alone : rs.Pairwise fun r r' => r = [] ∨ r' = []
  fresh : p.eos = true → own = [] ∨ rs.flatten = []
  begun : p.eos = false → rs.tail.flatten = []
  report : (p.kbdStatus = .init ∨ p.kbdStatus = .released) ∧ p.report = (0, 0) ∨
    p.kbdStatus = .pressed ∧ p.report ≠ key 0x08 ∧ rs ≠ []

/-- The old text is being erased, and the strings that wait spell `last`. -/
structure Erasing (key : UInt8 → UInt8 × UInt8) (last : List UInt8) (rs : List (List UInt8))
    (p : Print) : Prop where
  asked : rs ≠ []
  spelled : (p.waiting rs).flatten = last
  alone : (p.waiting rs).Pairwise fun r r' => r = [] ∨ r' = []
  report : p.kbdStatus = .delete ∧ (p.cCount > 0 → p.report ≠ key 0x08) ∨ p.kbdStatus = .deletePressed

structure Replaced (L : Layout) (key : UInt8 → UInt8 × UInt8) (used text last own : List UInt8)
    (rs : List (List UInt8)) (x : Desk) : Prop extends Shown L key used text own rs x where
  phase : Writing key last own rs x.device.prn ∨ Erasing key last rs x.device.prn

/-- The updates that are left, at most. -/
def Print.toDrain (p : Print) (rs : List (List UInt8)) : ℕ :=
  (rs.map fun r => 2 * r.length + 1).sum + match p.kbdStatus with
    | .init => 256 - p.debounceCount.toNat
    | .pressed => 1
    | .released | .idle => 0
    | .delete => 2 * p.cCount.toNat + 1
    | .deletePressed => 2 * p.cCount.toNat + 2

end

end Memtype
