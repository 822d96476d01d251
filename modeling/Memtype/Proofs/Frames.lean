import Memtype.Spec.Main

/-! What each function of the firmware leaves alone. The keyboard side (`print`,
`CRD_apply`, `printUpdate`) moves only its own variables, a button event does one of the
eight things that `ButtonStep` lists, and a step one of those that `StepCase` lists. -/

namespace Memtype

open Lib

section Simp

variable (d : Device) (u : Ucp) (c : Call)

@[simp] theorem setUcp_ucp : (d.setUcp u).ucp = u := rfl
@[simp] theorem setUcp_flash : (d.setUcp u).flash = d.flash := rfl
@[simp] theorem setUcp_eeprom : (d.setUcp u).eeprom = d.eeprom := rfl
@[simp] theorem setUcp_crd : (d.setUcp u).crd = d.crd := rfl
@[simp] theorem setUcp_prn : (d.setUcp u).prn = d.prn := rfl
@[simp] theorem setUcp_uif : (d.setUcp u).uif = d.uif := rfl
@[simp] theorem setUcp_usi : (d.setUcp u).usi = d.usi := rfl
@[simp] theorem setUcp_calls : (d.setUcp u).calls = d.calls := rfl
@[simp] theorem call_ucp : (d.call c).ucp = d.ucp := rfl
@[simp] theorem call_flash : (d.call c).flash = d.flash := rfl
@[simp] theorem call_eeprom : (d.call c).eeprom = d.eeprom := rfl
@[simp] theorem call_crd : (d.call c).crd = d.crd := rfl
@[simp] theorem call_prn : (d.call c).prn = d.prn := rfl
@[simp] theorem call_uif : (d.call c).uif = d.uif := rfl
@[simp] theorem call_usi : (d.call c).usi = d.usi := rfl
@[simp] theorem call_calls : (d.call c).calls = d.calls ++ [c] := rfl

end Simp

def Call.isPrint : Call → Bool
  | .deleteStr | .placeholder | .pause | .printDetail .. | .decrypt _ | .segment _ | .press .. => true
  | .reply id _ => id = 1
  | _ => false

def Call.isMenu : Call → Bool
  | .uifInit | .resetPin | .pinCheck .. => true
  | _ => false

namespace Device

/-- Everything but the keyboard side and the record. -/
def core (d : Device) : Device := { d with prn := {}, crd := {}, calls := [] }

end Device

def Adds (p : Call → Bool) (d d' : Device) : Prop := ∃ l, d'.calls = d.calls ++ l ∧ ∀ c ∈ l, p c = true

namespace Adds

variable {p q : Call → Bool}

theorem same {d d' : Device} (h : d'.calls = d.calls) : Adds p d d' := ⟨[], by simp [h], by simp⟩

theorem refl (d : Device) : Adds p d d := same rfl

theorem trans {a b c : Device} (h1 : Adds p a b) (h2 : Adds p b c) : Adds p a c := by
  obtain ⟨l, hl, hp⟩ := h1
  obtain ⟨m, hm, hq⟩ := h2
  refine ⟨l ++ m, by rw [hm, hl, List.append_assoc], fun c hc => ?_⟩
  rcases List.mem_append.mp hc with hc | hc
  · exact hp c hc
  · exact hq c hc

theorem call {d d' : Device} {c : Call} (h : Adds p d d') (hc : p c = true) :
    Adds p d (d'.call c) := by
  refine h.trans ⟨[c], rfl, ?_⟩
  simpa using hc

/-- The calls of a function, one after the other. -/
theorem calls {d d' : Device} (m : List Call)
    (h : d'.calls = m.foldl (fun l c => l ++ [c]) d.calls) (hm : m.all p = true) : Adds p d d' := by
  refine ⟨m, ?_, List.all_eq_true.mp hm⟩
  rw [h, List.foldl_append_eq_append, ← List.flatMap_def, List.flatMap_singleton']

theorem mono {d d' : Device} (h : Adds p d d') (hpq : ∀ c, p c = true → q c = true) :
    Adds q d d' := by
  obtain ⟨l, hl, hp⟩ := h
  exact ⟨l, hl, fun c hc => hpq c (hp c hc)⟩

end Adds

abbrev PrintCalls (d d' : Device) : Prop := Adds Call.isPrint d d'

structure PrintStep (d d' : Device) : Prop where
  core : d'.core = d.core
  credential : d'.crd.credential = d.crd.credential
  key : d'.crd.cipher.key = d.crd.cipher.key
  calls : PrintCalls d d'

namespace PrintStep

theorem refl (d : Device) : PrintStep d d := ⟨rfl, rfl, rfl, .refl d⟩

theorem trans {a b c : Device} (h1 : PrintStep a b) (h2 : PrintStep b c) : PrintStep a c :=
  ⟨h2.core.trans h1.core, h2.credential.trans h1.credential, h2.key.trans h1.key,
    h1.calls.trans h2.calls⟩

theorem call {a b : Device} {c : Call} (h : PrintStep a b) (hc : c.isPrint = true) :
    PrintStep a (b.call c) :=
  ⟨h.core, h.credential, h.key, h.calls.call hc⟩

/-- A change of `prn` alone. -/
theorem prn (d : Device) (p : Print) : PrintStep d { d with prn := p } :=
  ⟨rfl, rfl, rfl, .same rfl⟩

variable {d d' : Device} (h : PrintStep d d')
include h

theorem flash : d'.flash = d.flash := (congrArg Device.flash h.core :)
theorem eeprom : d'.eeprom = d.eeprom := (congrArg Device.eeprom h.core :)
theorem ucp : d'.ucp = d.ucp := (congrArg Device.ucp h.core :)
theorem uif : d'.uif = d.uif := (congrArg Device.uif h.core :)
theorem usi : d'.usi = d.usi := (congrArg Device.usi h.core :)

end PrintStep

theorem printStep_printStr (str : UInt16) (info : Info) (d : Device) :
    PrintStep d (printStr str info d) := .prn d _

theorem printStep_printNStr (str : UInt16) (len : UInt8) (d : Device) :
    PrintStep d (printNStr str len d) := .prn d _

theorem printStep_deleteStr (d : Device) : PrintStep d (printDeleteStr d) :=
  (PrintStep.prn d _).call rfl

theorem printStep_pressKey (L : Layout) (src : KeySource) (c : UInt8) (d : Device) :
    PrintStep d (printPressKey L src c d) := (PrintStep.prn d _).call rfl

theorem printStep_applyDecrypt (d : Device) : PrintStep d (applyDecrypt d) := by
  unfold applyDecrypt
  split_ifs
  · exact PrintStep.call ⟨rfl, rfl, rfl, .same rfl⟩ rfl
  · exact .refl d

theorem printStep_applyQueue (L : Layout) (n : ℕ) (d : Device) :
    PrintStep d (applyQueue L n d) := by
  unfold applyQueue
  split_ifs
  · exact (printStep_printNStr _ _ d).call rfl
  · exact (printStep_printNStr _ _ d).call rfl

@[simp] theorem applyAdvance_credential (n : ℕ) (c : Crd) :
    (applyAdvance n c).credential = c.credential := by
  unfold applyAdvance; split_ifs <;> rfl

@[simp] theorem applyAdvance_cipher (n : ℕ) (c : Crd) : (applyAdvance n c).cipher = c.cipher := by
  unfold applyAdvance; split_ifs <;> rfl

theorem printStep_apply (L : Layout) (d : Device) : PrintStep d (crdApply L d) := by
  unfold crdApply
  split_ifs
  · exact .refl d
  · have h := (printStep_applyDecrypt d).trans
      (printStep_applyQueue L (applySize (applyDecrypt d).crd) _)
    exact h.trans ⟨rfl, by simp, by simp, .same rfl⟩

theorem printStep_iterate (L : Layout) (d : Device) (n : ℕ) : PrintStep d ((crdApply L)^[n] d) := by
  induction n with
  | zero => exact .refl d
  | succ n ih =>
    rw [Function.iterate_succ_apply']
    exact ih.trans (printStep_apply L _)

theorem printStep_printDetail (L : Layout) (start stop : UInt8) (d : Device) :
    PrintStep d (crdPrintDetail L start stop d) := by
  unfold crdPrintDetail
  refine PrintStep.trans ?_ (printStep_apply L _)
  exact PrintStep.call ⟨rfl, rfl, rfl, .same rfl⟩ rfl

theorem printStep_crdPrint (d : Device) : PrintStep d (crdPrint d) := printStep_printStr _ _ d

theorem printStep_released (L : Layout) (d : Device) : PrintStep d (printReleased L d) := by
  unfold printReleased
  dsimp only
  split_ifs
  · exact .prn d _
  · exact ((PrintStep.prn d _).trans (printStep_apply L _)).trans (.prn _ _)
  · exact (PrintStep.prn d _).trans (printStep_apply L _)
  · exact ((PrintStep.prn d _).trans (.prn _ _)).call rfl
  all_goals exact ((PrintStep.prn d _).trans (printStep_pressKey L _ _ _)).trans (.prn _ _)

theorem printStep_delete (L : Layout) (d : Device) : PrintStep d (printDelete L d) := by
  unfold printDelete
  split_ifs
  · exact (printStep_pressKey L _ _ d).trans (.prn _ _)
  · exact .prn d _
  · exact .prn d _

theorem printStep_update (L : Layout) (d : Device) : PrintStep d (printUpdate L d) := by
  unfold printUpdate
  split
  · split_ifs <;> exact .prn d _
  · exact .prn d _
  · exact printStep_released L d
  · split_ifs <;> exact .prn d _
  · exact printStep_delete L d
  · exact .prn d _

theorem loadCredential_state (L : Layout) (cred : UInt16) (d : Device) :
    ∃ c, (crdLoadCredential L cred d).state = { d with crd := { d.crd with credential := c } } := by
  unfold crdLoadCredential
  dsimp only
  split <;> exact ⟨_, rfl⟩

/-- What the lock and the key depend on is as before. -/
structure Calm (d d' : Device) : Prop where
  flash : d'.flash = d.flash
  eeprom : d'.eeprom = d.eeprom
  key : d'.crd.cipher.key = d.crd.cipher.key
  calls : PrintCalls d d'

namespace Calm

theorem refl (d : Device) : Calm d d := ⟨rfl, rfl, rfl, .refl d⟩

theorem same {d d' : Device} (h1 : d'.flash = d.flash) (h2 : d'.eeprom = d.eeprom)
    (h3 : d'.crd.cipher.key = d.crd.cipher.key) (h4 : d'.calls = d.calls) : Calm d d' :=
  ⟨h1, h2, h3, .same h4⟩

theorem trans {a b c : Device} (h1 : Calm a b) (h2 : Calm b c) : Calm a c :=
  ⟨h2.flash.trans h1.flash, h2.eeprom.trans h1.eeprom, h2.key.trans h1.key,
    h1.calls.trans h2.calls⟩

end Calm

theorem PrintStep.calm {d d' : Device} (h : PrintStep d d') : Calm d d' :=
  ⟨h.flash, h.eeprom, h.key, h.calls⟩

/-- Calm, and neither the protocol nor the menus moved. -/
structure Still (d d' : Device) : Prop where
  calm : Calm d d'
  ucp : d'.ucp = d.ucp
  uif : d'.uif = d.uif
  usi : d'.usi = d.usi

namespace Device

/-- What a step that is still keeps, but for the record. -/
def settled (d : Device) : Flash × Mem × Bytes 16 × Ucp × Uif × Usi :=
  (d.flash, d.eeprom, d.crd.cipher.key, d.ucp, d.uif, d.usi)

end Device

theorem Still.same {d d' : Device} (h : d'.settled = d.settled) (hc : d'.calls = d.calls) :
    Still d d' := by
  simp only [Device.settled, Prod.mk.injEq] at h
  obtain ⟨hf, he, hk, hu, hm, hi⟩ := h
  exact ⟨.same hf he hk hc, hu, hm, hi⟩

theorem Still.refl (d : Device) : Still d d := .same rfl rfl

theorem Still.trans {a b c : Device} (h1 : Still a b) (h2 : Still b c) : Still a c :=
  ⟨h1.calm.trans h2.calm, h2.ucp.trans h1.ucp, h2.uif.trans h1.uif, h2.usi.trans h1.usi⟩

theorem PrintStep.still {d d' : Device} (h : PrintStep d d') : Still d d' :=
  ⟨h.calm, h.ucp, h.uif, h.usi⟩

theorem still_select (c : Credential) (d : Device) :
    Still d { d with crd := { d.crd with credential := c } } := .same rfl rfl

theorem previousLoop_state (L : Layout) (cur : UInt16) (fuel : ℕ) (last : UInt16) (d : Device) :
    ∃ c, (crdPreviousLoop L cur fuel last d).state.2 =
      { d with crd := { d.crd with credential := c } } := by
  induction fuel generalizing last d with
  | zero => exact ⟨d.crd.credential, rfl⟩
  | succ fuel ih =>
    unfold crdPreviousLoop
    split_ifs
    · exact ⟨d.crd.credential, rfl⟩
    · obtain ⟨c, hc⟩ := loadCredential_state L d.crd.credential.next d
      split
      · next d' hd =>
        rw [hd, Outcome.state_ret] at hc
        obtain ⟨c', hc'⟩ := ih d.crd.credential.next d'
        exact ⟨c', by rw [hc', hc]⟩
      · next d' hd =>
        rw [hd] at hc
        exact ⟨c, hc⟩

/-- Another credential is selected, and its name printed unless the search for it never ends. -/
def Browses (d d' : Device) : Prop :=
  ∃ c, d' = { d with crd := { d.crd with credential := c } } ∨
    d' = crdPrint { d with crd := { d.crd with credential := c } }

theorem browses_load (L : Layout) (cred : UInt16) (c : Credential) (d : Device) :
    Browses d ((crdLoadCredential L cred { d with crd := { d.crd with credential := c } }).bind
      fun d => .ret (crdPrint d)).state := by
  obtain ⟨c', hc⟩ := loadCredential_state L cred { d with crd := { d.crd with credential := c } }
  cases ho : crdLoadCredential L cred { d with crd := { d.crd with credential := c } } with
  | ret s =>
    rw [ho, Outcome.state_ret] at hc
    exact ⟨c', .inr (by rw [hc]; rfl)⟩
  | spin s =>
    rw [ho, Outcome.state_spin] at hc
    exact ⟨c', .inl (by rw [hc]; rfl)⟩

theorem browses_next (L : Layout) (d : Device) : Browses d (crdNext L d).state :=
  browses_load L d.crd.credential.next d.crd.credential d

theorem browses_previous (L : Layout) (d : Device) : Browses d (crdPrevious L d).state := by
  unfold crdPrevious
  obtain ⟨c, hc⟩ := previousLoop_state L (d.crd.credential.name - L.credentials) 65538 0 d
  split
  · next last d' hd =>
    rw [hd] at hc
    rw [show d' = _ from hc]
    exact browses_load L last c d
  · next last d' hd =>
    rw [hd] at hc
    exact ⟨c, .inl hc⟩

theorem Browses.still {d d' : Device} (h : Browses d d') : Still d d' := by
  obtain ⟨c, rfl | rfl⟩ := h
  · exact still_select c d
  · exact (still_select c d).trans (printStep_crdPrint _).still

end Memtype
