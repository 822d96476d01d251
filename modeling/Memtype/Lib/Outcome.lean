import Mathlib

/-! Calls that return or spin. A call on a state either gives control back
(`ret`) or stays for ever in a loop (`spin`), and in both cases leaves a memory
behind. Runs over a list of events stop at the first call that spins. The rules
below carry an invariant, or a relation between two runs, along a whole run. -/

namespace Lib

inductive Outcome (σ : Type*) where
  | ret (s : σ)
  | spin (s : σ)

namespace Outcome

variable {σ ε : Type*}

/-- The memory a call leaves, whether or not it gives control back. -/
def state : Outcome σ → σ
  | ret s => s
  | spin s => s

def bind : Outcome σ → (σ → Outcome σ) → Outcome σ
  | ret s, f => f s
  | spin s, _ => spin s

def map {τ : Type*} (g : σ → τ) : Outcome σ → Outcome τ
  | ret s => ret (g s)
  | spin s => spin (g s)

def returns : Outcome σ → Bool
  | ret _ => true
  | spin _ => false

@[simp] theorem state_ret (s : σ) : (ret s).state = s := rfl
@[simp] theorem state_spin (s : σ) : (spin s).state = s := rfl
@[simp] theorem bind_ret (s : σ) (f : σ → Outcome σ) : (ret s).bind f = f s := rfl
@[simp] theorem bind_spin (s : σ) (f : σ → Outcome σ) : (spin s).bind f = spin s := rfl
@[simp] theorem returns_ret (s : σ) : (ret s).returns = true := rfl
@[simp] theorem returns_spin (s : σ) : (spin s).returns = false := rfl

@[simp] theorem map_ret {τ : Type*} (g : σ → τ) (s : σ) : (ret s).map g = ret (g s) := rfl
@[simp] theorem map_spin {τ : Type*} (g : σ → τ) (s : σ) : (spin s).map g = spin (g s) := rfl

theorem state_map {τ : Type*} (g : σ → τ) (o : Outcome σ) : (o.map g).state = g o.state := by
  cases o <;> rfl

theorem returns_map {τ : Type*} (g : σ → τ) (o : Outcome σ) : (o.map g).returns = o.returns := by
  cases o <;> rfl

theorem eq_ret_of_returns {o : Outcome σ} (h : o.returns = true) : o = ret o.state := by
  cases o with
  | ret s => rfl
  | spin s => simp at h

/-- What holds of the memory before a second call and is kept by it holds after both. -/
theorem state_bind {P : σ → Prop} {o : Outcome σ} {f : σ → Outcome σ} (h : P o.state)
    (hf : ∀ s, P s → P (f s).state) : P (o.bind f).state := by
  cases o with
  | ret s => exact hf s h
  | spin s => exact h

/-- The call returns with `S`, or spins with `T`. -/
def Sat (S T : σ → Prop) : Outcome σ → Prop
  | ret s => S s
  | spin s => T s

@[simp] theorem sat_ret (S T : σ → Prop) (s : σ) : (ret s).Sat S T ↔ S s := Iff.rfl
@[simp] theorem sat_spin (S T : σ → Prop) (s : σ) : (spin s).Sat S T ↔ T s := Iff.rfl

theorem Sat.mono {S S' T : σ → Prop} {o : Outcome σ} (h : o.Sat S T) (hS : ∀ s, S s → S' s) :
    o.Sat S' T := by
  cases o with
  | ret s => exact hS s h
  | spin s => exact h

theorem Sat.bind {S S' T : σ → Prop} {o : Outcome σ} {f : σ → Outcome σ} (h : o.Sat S T)
    (hf : ∀ s, S s → (f s).Sat S' T) : (o.bind f).Sat S' T := by
  cases o with
  | ret s => exact hf s h
  | spin s => exact h

/-- What holds either way holds of the memory left. -/
theorem Sat.state {P S T : σ → Prop} {o : Outcome σ} (h : o.Sat S T) (hS : ∀ s, S s → P s)
    (hT : ∀ s, T s → P s) : P o.state := by
  cases o with
  | ret s => exact hS s h
  | spin s => exact hT s h

end Outcome

section Through

variable {σ α : Type*} {g : σ → σ}

/-- A function that sees its state only through `g` does the same, as far as `g` shows, to states
that look the same. -/
def Through (g : σ → σ) (f : σ → σ) : Prop := ∀ s, g (f s) = g (f (g s))

def CallThrough (g : σ → σ) (f : σ → Outcome σ) : Prop := ∀ s, (f s).map g = (f (g s)).map g

theorem Through.eq {f : σ → σ} (hf : Through g f) {s t : σ} (h : g s = g t) : g (f s) = g (f t) := by
  rw [hf s, hf t, h]

theorem CallThrough.eq {f : σ → Outcome σ} (hf : CallThrough g f) {s t : σ} (h : g s = g t) :
    (f s).map g = (f t).map g := by
  rw [hf s, hf t, h]

theorem Through.comp {f f' : σ → σ} (hf : Through g f) (hf' : Through g f') :
    Through g fun s => f' (f s) := by
  intro s
  rw [hf' (f s), hf s, ← hf' (f (g s))]

theorem Through.ite {c : σ → Prop} [DecidablePred c] {f f' : σ → σ} (hc : ∀ s, c s ↔ c (g s))
    (hf : Through g f) (hf' : Through g f') : Through g fun s => if c s then f s else f' s := by
  intro s
  by_cases h : c s
  · simp only [if_pos h, if_pos ((hc s).mp h)]
    exact hf s
  · simp only [if_neg h, if_neg (fun h' => h ((hc s).mpr h'))]
    exact hf' s

/-- What is read through `g` may be handed on. -/
theorem Through.read {v : σ → α} {f : α → σ → σ} (hv : ∀ s, v s = v (g s))
    (hf : ∀ a, Through g (f a)) : Through g fun s => f (v s) s := by
  intro s
  dsimp only
  rw [← hv s]
  exact hf (v s) s

theorem Through.call {f : σ → σ} (hf : Through g f) : CallThrough g fun s => .ret (f s) :=
  fun s => congrArg Outcome.ret (hf s)

theorem CallThrough.comp {f : σ → σ} {f' : σ → Outcome σ} (hf : Through g f) (hf' : CallThrough g f') :
    CallThrough g fun s => f' (f s) := by
  intro s
  rw [hf' (f s), hf s, ← hf' (f (g s))]

theorem CallThrough.bind {f f' : σ → Outcome σ} (hf : CallThrough g f) (hf' : CallThrough g f') :
    CallThrough g fun s => (f s).bind f' := by
  intro s
  have h := hf s
  cases ho : f s with
  | spin t =>
    cases hp : f (g s) with
    | spin t' =>
      rw [ho, hp] at h
      simpa only [ho, hp, Outcome.bind_spin] using h
    | ret t' =>
      rw [ho, hp] at h
      exact absurd h nofun
  | ret t =>
    cases hp : f (g s) with
    | spin t' =>
      rw [ho, hp] at h
      exact absurd h nofun
    | ret t' =>
      rw [ho, hp] at h
      simpa only [ho, hp, Outcome.bind_ret] using hf'.eq (Outcome.ret.inj h)

theorem CallThrough.ite {c : σ → Prop} [DecidablePred c] {f f' : σ → Outcome σ}
    (hc : ∀ s, c s ↔ c (g s)) (hf : CallThrough g f) (hf' : CallThrough g f') :
    CallThrough g fun s => if c s then f s else f' s := by
  intro s
  by_cases h : c s
  · simp only [if_pos h, if_pos ((hc s).mp h)]
    exact hf s
  · simp only [if_neg h, if_neg (fun h' => h ((hc s).mpr h'))]
    exact hf' s

end Through

variable {σ ε : Type*}

def run (step : σ → ε → Outcome σ) (o : Outcome σ) (evs : List ε) : Outcome σ :=
  evs.foldl (fun o e => o.bind fun s => step s e) o

section Run

variable {step : σ → ε → Outcome σ}

@[simp] theorem run_nil (o : Outcome σ) : run step o [] = o := rfl

@[simp] theorem run_cons (o : Outcome σ) (e : ε) (evs : List ε) :
    run step o (e :: evs) = run step (o.bind fun s => step s e) evs := rfl

theorem run_append (o : Outcome σ) (evs evs' : List ε) :
    run step o (evs ++ evs') = run step (run step o evs) evs' := List.foldl_append ..

@[simp] theorem run_spin (s : σ) (evs : List ε) : run step (.spin s) evs = .spin s := by
  induction evs with
  | nil => rfl
  | cons e evs ih => simpa using ih

/-- Every step of the run starts in a state that meets the condition with its event. -/
def EachStep (step : σ → ε → Outcome σ) (good : σ → ε → Prop) : Outcome σ → List ε → Prop
  | _, [] => True
  | .spin _, _ :: _ => True
  | .ret s, e :: evs => good s e ∧ EachStep step good (step s e) evs

@[simp] theorem eachStep_nil (good : σ → ε → Prop) (o : Outcome σ) :
    EachStep step good o [] := by cases o <;> trivial

@[simp] theorem eachStep_spin (good : σ → ε → Prop) (s : σ) (evs : List ε) :
    EachStep step good (.spin s) evs := by cases evs <;> trivial

@[simp] theorem eachStep_ret_cons (good : σ → ε → Prop) (s : σ) (e : ε) (evs : List ε) :
    EachStep step good (.ret s) (e :: evs) ↔ good s e ∧ EachStep step good (step s e) evs :=
  Iff.rfl

instance decidableEachStep {good : σ → ε → Prop} [∀ s e, Decidable (good s e)] :
    (o : Outcome σ) → (evs : List ε) → Decidable (EachStep step good o evs)
  | .ret _, [] => .isTrue trivial
  | .spin _, [] => .isTrue trivial
  | .spin _, _ :: _ => .isTrue trivial
  | .ret s, e :: evs =>
    haveI : Decidable (EachStep step good (step s e) evs) := decidableEachStep (step s e) evs
    inferInstanceAs (Decidable (good s e ∧ EachStep step good (step s e) evs))

theorem eachStep_append {good : σ → ε → Prop} {o : Outcome σ} {evs evs' : List ε} :
    EachStep step good o (evs ++ evs') ↔
      EachStep step good o evs ∧ EachStep step good (run step o evs) evs' := by
  induction evs generalizing o with
  | nil => simp
  | cons e evs ih =>
    cases o with
    | spin s => simp
    | ret s => simp [ih, and_assoc]

theorem EachStep.mono {good good' : σ → ε → Prop} (h : ∀ s e, good s e → good' s e)
    {o : Outcome σ} {evs : List ε} (hg : EachStep step good o evs) : EachStep step good' o evs := by
  induction evs generalizing o with
  | nil => exact eachStep_nil good' o
  | cons e evs ih =>
    cases o with
    | spin s => trivial
    | ret s => exact ⟨h s e hg.1, ih hg.2⟩

theorem EachStep.and {good good' : σ → ε → Prop} {o : Outcome σ} {evs : List ε}
    (hg : EachStep step good o evs) (hg' : EachStep step good' o evs) :
    EachStep step (fun s e => good s e ∧ good' s e) o evs := by
  induction evs generalizing o with
  | nil => exact eachStep_nil _ o
  | cons e evs ih =>
    cases o with
    | spin s => trivial
    | ret s => exact ⟨⟨hg.1, hg'.1⟩, ih hg.2 hg'.2⟩

/-- The invariant rule: what each good step keeps, every run of good steps keeps. -/
theorem inv_run_of {good : σ → ε → Prop} {P : σ → Prop}
    (hstep : ∀ s e, P s → good s e → P (step s e).state) {o : Outcome σ} (ho : P o.state)
    {evs : List ε} (hg : EachStep step good o evs) : P (run step o evs).state := by
  induction evs generalizing o with
  | nil => exact ho
  | cons e evs ih =>
    cases o with
    | spin s => simpa using ho
    | ret s => exact ih (hstep s e ho hg.1) hg.2

/-- Along a run of good steps an invariant gives a second condition on each of them. -/
theorem eachStep_of_inv {good good' : σ → ε → Prop} {I : σ → Prop}
    (hstep : ∀ s e, I s → good s e → good' s e ∧ ∀ s', step s e = .ret s' → I s')
    {o : Outcome σ} (ho : ∀ s, o = .ret s → I s) {evs : List ε} (hg : EachStep step good o evs) :
    EachStep step good' o evs := by
  induction evs generalizing o with
  | nil => exact eachStep_nil good' o
  | cons e evs ih =>
    cases o with
    | spin s => trivial
    | ret s =>
      obtain ⟨h1, h2⟩ := hstep s e (ho s rfl) hg.1
      exact ⟨h1, ih h2 hg.2⟩

theorem eachStep_true (o : Outcome σ) (evs : List ε) : EachStep step (fun _ _ => True) o evs := by
  induction evs generalizing o with
  | nil => exact eachStep_nil _ o
  | cons e evs ih =>
    cases o with
    | spin s => trivial
    | ret s => exact ⟨trivial, ih _⟩

theorem eachStep_last {good : σ → ε → Prop} {o : Outcome σ} {evs : List ε} {e : ε} {s : σ}
    (h : EachStep step good o (evs ++ [e])) (hr : run step o evs = .ret s) : good s e := by
  have hl := (eachStep_append.mp h).2
  rw [hr] at hl
  exact hl.1

/-- Two conditions that an invariant makes equivalent, and that keep it, hold along the same runs. -/
theorem eachStep_iff {good good' : σ → ε → Prop} {I : σ → Prop}
    (hiff : ∀ s e, I s → (good s e ↔ good' s e))
    (hstep : ∀ s e s', I s → good' s e → step s e = .ret s' → I s') {o : Outcome σ}
    (ho : ∀ s, o = .ret s → I s) (evs : List ε) :
    EachStep step good o evs ↔ EachStep step good' o evs := by
  constructor
  · intro hg
    refine eachStep_of_inv (fun s e hs h => ?_) ho hg
    have h' := (hiff s e hs).mp h
    exact ⟨h', fun s' => hstep s e s' hs h'⟩
  · intro hg
    exact eachStep_of_inv (fun s e hs h => ⟨(hiff s e hs).mpr h, fun s' => hstep s e s' hs h⟩) ho hg

/-- What the steps of a run show, each in the state it starts from. -/
def collect {α : Type*} (step : σ → ε → Outcome σ) (f : σ → ε → List α) :
    Outcome σ → List ε → List α
  | .ret s, e :: evs => f s e ++ collect step f (step s e) evs
  | _, _ => []

@[simp] theorem collect_nil {α : Type*} (f : σ → ε → List α) (o : Outcome σ) :
    collect step f o [] = [] := by cases o <;> rfl

@[simp] theorem collect_spin {α : Type*} (f : σ → ε → List α) (s : σ) (evs : List ε) :
    collect step f (.spin s) evs = [] := by cases evs <;> rfl

/-- Once the run has begun, the condition holds before and after each of its events, and
of the memory that a call which spins leaves. -/
def Always (step : σ → ε → Outcome σ) (P : σ → Prop) : Outcome σ → List ε → Prop
  | .spin _, _ => True
  | .ret s, [] => P s
  | .ret s, e :: evs => P s ∧ P (step s e).state ∧ Always step P (step s e) evs

@[simp] theorem always_spin (P : σ → Prop) (s : σ) (evs : List ε) :
    Always step P (.spin s) evs := by cases evs <;> trivial

@[simp] theorem always_ret_nil (P : σ → Prop) (s : σ) :
    Always step P (.ret s) [] ↔ P s := Iff.rfl

@[simp] theorem always_ret_cons (P : σ → Prop) (s : σ) (e : ε) (evs : List ε) :
    Always step P (.ret s) (e :: evs) ↔
      P s ∧ P (step s e).state ∧ Always step P (step s e) evs := Iff.rfl

theorem always_state {P : σ → Prop} {o : Outcome σ} {evs : List ε} (ho : o.returns = true)
    (h : Always step P o evs) : P (run step o evs).state := by
  induction evs generalizing o with
  | nil =>
    rw [Outcome.eq_ret_of_returns ho] at h
    exact h
  | cons e evs ih =>
    rw [Outcome.eq_ret_of_returns ho] at h ⊢
    obtain ⟨-, h1, h2⟩ := h
    rw [run_cons, Outcome.bind_ret]
    cases hs : step o.state e with
    | spin t => simpa [hs] using h1
    | ret t => exact ih rfl (by rwa [hs] at h2)

theorem always_snoc {P : σ → Prop} {s t : σ} {e : ε} {evs : List ε}
    (h : Always step P (.ret s) evs) (ht : run step (.ret s) evs = .ret t)
    (he : P (step t e).state) : Always step P (.ret s) (evs ++ [e]) := by
  induction evs generalizing s with
  | nil =>
    cases ht
    refine ⟨h, he, ?_⟩
    cases hs : step t e with
    | spin u => trivial
    | ret u => simpa [hs] using he
  | cons e' evs ih =>
    obtain ⟨h0, h1, h2⟩ := h
    refine ⟨h0, h1, ?_⟩
    rw [run_cons, Outcome.bind_ret] at ht
    cases hs : step s e' with
    | spin u => exact always_spin P u _
    | ret u =>
      rw [hs] at h2 ht
      exact ih h2 ht

theorem inv_ret_of {good : σ → ε → Prop} {P : σ → Prop}
    (hstep : ∀ s e s', P s → good s e → step s e = .ret s' → P s') {o : Outcome σ}
    (ho : ∀ s, o = .ret s → P s) {evs : List ε} (hg : EachStep step good o evs) {s : σ}
    (h : run step o evs = .ret s) : P s := by
  induction evs generalizing o with
  | nil => exact ho s h
  | cons e evs ih =>
    cases o with
    | spin u => exact absurd ((run_spin u (e :: evs)).symm.trans h) nofun
    | ret u => exact ih (fun t ht => hstep u e t (ho u rfl) hg.1 ht) hg.2 h

theorem inv_ret {P : σ → Prop} (hstep : ∀ s e s', P s → step s e = .ret s' → P s')
    {o : Outcome σ} (ho : ∀ s, o = .ret s → P s) {evs : List ε} {s : σ}
    (h : run step o evs = .ret s) : P s :=
  inv_ret_of (fun s e s' hs _ => hstep s e s' hs) ho (eachStep_true o evs) h

/-- What a run adds up to, when each step adds something to what was there before. -/
def accumulate {α : Type*} (step : σ → ε → Outcome σ) (f : σ → ε → α → α) :
    Outcome σ → List ε → α → α
  | .ret s, e :: evs, a => accumulate step f (step s e) evs (f s e a)
  | _, _, a => a

/-- The ghost rule: an invariant of the state and of what has been added up. -/
theorem inv_accumulate {α : Type*} {f : σ → ε → α → α} {I : σ → α → Prop}
    (hstep : ∀ s e a s', I s a → step s e = .ret s' → I s' (f s e a)) {o : Outcome σ} {a : α}
    (ho : ∀ s, o = .ret s → I s a) {evs : List ε} {s : σ} (h : run step o evs = .ret s) :
    I s (accumulate step f o evs a) := by
  induction evs generalizing o a with
  | nil =>
    cases o with
    | spin u => exact absurd h nofun
    | ret u => exact ho s h
  | cons e evs ih =>
    cases o with
    | spin u => exact absurd ((run_spin u (e :: evs)).symm.trans h) nofun
    | ret u => exact ih (fun t ht => hstep u e a t (ho u rfl) ht) h

/-- Along a run of good steps an invariant of the states between the events gives the condition. -/
theorem always_of_inv {good : σ → ε → Prop} {I P : σ → Prop} (hP : ∀ s, I s → P s)
    (hstep : ∀ s e, I s → good s e → P (step s e).state ∧ ∀ s', step s e = .ret s' → I s')
    {o : Outcome σ} (ho : ∀ s, o = .ret s → I s) {evs : List ε} (hg : EachStep step good o evs) :
    Always step P o evs := by
  induction evs generalizing o with
  | nil =>
    cases o with
    | spin s => trivial
    | ret s => exact hP s (ho s rfl)
  | cons e evs ih =>
    cases o with
    | spin s => trivial
    | ret s =>
      obtain ⟨h1, h2⟩ := hstep s e (ho s rfl) hg.1
      exact ⟨hP s (ho s rfl), h1, ih h2 hg.2⟩

/-- The exactness rule: an invariant that good steps keep, and a condition that every other
step breaks, hold together along exactly the runs of good steps. -/
theorem always_iff {good : σ → ε → Prop} {I P : σ → Prop} (hP : ∀ s, I s → P s)
    (hstep : ∀ s e, I s → good s e → P (step s e).state ∧ ∀ s', step s e = .ret s' → I s')
    (hbad : ∀ s e, I s → ¬ good s e → ¬ P (step s e).state)
    {o : Outcome σ} (ho : ∀ s, o = .ret s → I s) (evs : List ε) :
    Always step P o evs ↔ EachStep step good o evs := by
  refine ⟨fun h => ?_, always_of_inv hP hstep ho⟩
  induction evs generalizing o with
  | nil => exact eachStep_nil good o
  | cons e evs ih =>
    cases o with
    | spin s => trivial
    | ret s =>
      have hg : good s e := not_not.mp fun hn => hbad s e (ho s rfl) hn h.2.1
      exact ⟨hg, ih (hstep s e (ho s rfl) hg).2 h.2.2⟩

theorem always_append {P : σ → Prop} {o : Outcome σ} {evs evs' : List ε} :
    Always step P o (evs ++ evs') ↔
      Always step P o evs ∧ Always step P (run step o evs) evs' := by
  induction evs generalizing o with
  | nil =>
    cases o with
    | spin s => simp
    | ret s =>
      refine ⟨fun h => ⟨?_, h⟩, fun h => h.2⟩
      cases evs' with
      | nil => exact h
      | cons e evs' => exact h.1
  | cons e evs ih =>
    cases o with
    | spin s => simp
    | ret s => simp [ih, and_assoc]

/-- The phase rule: a phase that good events keep, unless they spin, is kept by good runs. -/
theorem sat_run {S T : σ → Prop} {good : ε → Prop}
    (hstep : ∀ s e, S s → good e → (step s e).Sat S T) {o : Outcome σ} (ho : o.Sat S T)
    {evs : List ε} (hg : ∀ e ∈ evs, good e) : (run step o evs).Sat S T := by
  induction evs generalizing o with
  | nil => exact ho
  | cons e evs ih =>
    have he := hg e List.mem_cons_self
    exact ih (ho.bind fun s hs => hstep s e hs he) fun e' he' => hg e' (List.mem_cons_of_mem e he')

theorem always_of_sat {P S T : σ → Prop} {good : ε → Prop} (hS : ∀ s, S s → P s)
    (hT : ∀ s, T s → P s) (hstep : ∀ s e, S s → good e → (step s e).Sat S T) {o : Outcome σ}
    (ho : o.Sat S T) {evs : List ε} (hg : ∀ e ∈ evs, good e) : Always step P o evs := by
  induction evs generalizing o with
  | nil =>
    cases o with
    | spin s => trivial
    | ret s => exact hS s ho
  | cons e evs ih =>
    have he := hg e List.mem_cons_self
    cases o with
    | spin s => trivial
    | ret s =>
      have hs := hstep s e ho he
      exact ⟨hS s ho, hs.state hS hT, ih hs fun e' he' => hg e' (List.mem_cons_of_mem e he')⟩

/-- The milestone rule: if every good event keeps each phase and each milestone leads from one
phase to the next, a good run with all the milestones in it, in their order and with anything
in between, goes through all the phases. -/
theorem sat_sublist {S : ℕ → σ → Prop} {T : σ → Prop} {good : ε → Prop}
    (hkeep : ∀ i s e, S i s → good e → (step s e).Sat (S i) T) {ms evs : List ε}
    (h : ms.Sublist evs) (hg : ∀ e ∈ evs, good e) {k : ℕ}
    (hnext : ∀ i (hi : i < ms.length) s, S (k + i) s → (step s ms[i]).Sat (S (k + i + 1)) T)
    {o : Outcome σ} (ho : o.Sat (S k) T) : (run step o evs).Sat (S (k + ms.length)) T := by
  induction h generalizing o k with
  | slnil => exact ho
  | cons e h ih =>
    have he := hg e List.mem_cons_self
    exact ih (fun e' he' => hg e' (List.mem_cons_of_mem e he')) hnext
      (ho.bind fun s hs => hkeep k s e hs he)
  | @cons_cons ms evs e h ih =>
    have h0 (s : σ) (hs : S k s) : (step s e).Sat (S (k + 1)) T :=
      hnext 0 (Nat.succ_pos _) s hs
    rw [List.length_cons, Nat.add_comm ms.length, ← Nat.add_assoc]
    refine ih (fun e' he' => hg e' (List.mem_cons_of_mem e he')) (fun i hi s hs => ?_) (ho.bind h0)
    rw [Nat.add_assoc k 1 i, Nat.add_comm 1 i] at hs ⊢
    exact hnext (i + 1) (Nat.succ_lt_succ hi) s hs

/-- The two-run rule: a relation that equal events keep, with equal control flow,
is kept along equal lists of events. -/
theorem rel_run {good : σ → ε → Prop} {R : σ → σ → Prop}
    (hstep : ∀ s t e, R s t → good s e → good t e →
      R (step s e).state (step t e).state ∧ (step s e).returns = (step t e).returns)
    {o p : Outcome σ} (ho : R o.state p.state) (hr : o.returns = p.returns) {evs : List ε}
    (hg : EachStep step good o evs) (hh : EachStep step good p evs) :
    R (run step o evs).state (run step p evs).state ∧
      (run step o evs).returns = (run step p evs).returns := by
  induction evs generalizing o p with
  | nil => exact ⟨ho, hr⟩
  | cons e evs ih =>
    cases o with
    | spin s =>
      cases p with
      | spin t => simpa using ho
      | ret t => simp at hr
    | ret s =>
      cases p with
      | spin t => simp at hr
      | ret t =>
        obtain ⟨h1, h2⟩ := hstep s t e ho hg.1 hh.1
        exact ih h1 h2 hg.2 hh.2

end Run

end Lib
