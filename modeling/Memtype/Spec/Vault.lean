import Memtype.Spec.Basic

/-! What the device is for who holds it: a ring of named credentials behind a PIN, and one button
press after the other. This is stated for itself and not taken from the source; how a PIN is
compared with what is stored, and what is stored after too many wrong ones, are parameters. -/

namespace Memtype

/-! Digits are literals. -/

instance neZero10 : NeZero (10 : ℕ) := ⟨by decide⟩

namespace Vault

inductive Notice where
  | wrong | reset
  deriving DecidableEq, Repr

inductive Item where
  | user | pass
  deriving DecidableEq, Repr

namespace Item

def after : Option Item → Item
  | some .user => .pass
  | some .pass | none => .user

def led : Item → LedStatus
  | .user => .blinkGreen
  | .pass => .blinkRed

end Item

inductive Screen where
  | version
  /-- the digits that have been taken, and the one that is shown unless there is a notice -/
  | entry (notice : Option Notice) (done : List (Fin 10)) (digit : Fin 10)
  | name
  /-- all details of the credential -/
  | record
  | menu (item : Option Item)
  deriving DecidableEq, Repr

def forgiven : ℕ := 2

def eraser : List (Fin 10) := [9, 9, 9, 9]

end Vault

/-- `n` credentials, and what is stored of the PIN. -/
structure Vault (n : ℕ) (H : Type) where
  screen : Vault.Screen := .version
  selected : Fin n
  retries : ℕ := Vault.forgiven
  stored : H
  led : LedStatus := .off

namespace Vault

variable {n : ℕ} {H : Type}

def begin (v : Vault n H) : Vault n H := { v with screen := .entry none [] 0, led := .red }

def opened (v : Vault n H) : Vault n H := { v with screen := .name, led := .green }

section

variable (opens : H → List (Fin 10) → Bool) (factory : H)

/-- A PIN is complete. There is nothing after the one that erases. -/
def check (pin : List (Fin 10)) (v : Vault n H) : Option (Vault n H) :=
  if pin = eraser then none
  else if opens v.stored pin then some v.opened
  else if 0 < v.retries then
    some { v with screen := .entry (some .wrong) [] 0, retries := v.retries - 1 }
  else some { v with
    screen := .entry (some .reset) [] 0, retries := forgiven, stored := factory }

def enter (b : Button) (done : List (Fin 10)) (digit : Fin 10) (v : Vault n H) : Option (Vault n H) :=
  match b with
  | .left => some v.begin
  | .up => some { v with screen := .entry none done (digit + 1) }
  | .down => some { v with screen := .entry none done (digit - 1) }
  | .right =>
    if done.length < 3 then some { v with screen := .entry none (done ++ [digit]) digit }
    else check opens factory (done ++ [digit]) v
  | .notPressed => some v

def browse [NeZero n] (b : Button) (v : Vault n H) : Vault n H :=
  match b with
  | .left => { v with screen := .menu none, led := .blinkBoth }
  | .up => { v with screen := .name, selected := v.selected - 1 }
  | .down => { v with screen := .name, selected := v.selected + 1 }
  | .right => { v with screen := .record }
  | .notPressed => v

def choose (b : Button) (item : Option Item) (v : Vault n H) : Vault n H :=
  match b with
  | .left => { v with screen := .version, led := .off }
  | .right => v.opened
  | .up | .down => { v with screen := .menu (some (Item.after item)), led := (Item.after item).led }
  | .notPressed => v

def press [NeZero n] (b : Button) (v : Vault n H) : Option (Vault n H) :=
  match v.screen with
  | .version => some v.begin
  | .entry _ done digit => v.enter opens factory b done digit
  | .name | .record => some (v.browse b)
  | .menu item => some (v.choose b item)

def presses [NeZero n] (v : Vault n H) (l : List Button) : Option (Vault n H) :=
  l.foldlM (fun v b => v.press opens factory b) v

end

end Vault

end Memtype
