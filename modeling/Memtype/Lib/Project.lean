import Memtype.Lib.Outcome

/-! Runs seen from below, where each step of one system does a list of events of another, and rules
for the logs and the progress of a run. -/

namespace Lib

variable {σ τ ε ζ α β : Type*}

section Project

variable {step : σ → ε → Outcome σ} {step' : τ → ζ → Outcome τ} {g : σ → τ} {f : σ → ε → List ζ}

theorem collect_append (F : σ → ε → List α) (o : Outcome σ) (evs evs' : List ε) :
    collect step F o (evs ++ evs') = collect step F o evs ++ collect step F (run step o evs) evs' := by
  induction evs generalizing o with
  | nil => simp
  | cons e evs ih =>
    cases o with
    | spin s => simp
    | ret s => rw [List.cons_append, collect, collect, ih, List.append_assoc, run_cons, Outcome.bind_ret]

@[simp] theorem collect_singleton (F : σ → ε → List α) (s : σ) (e : ε) :
    collect step F (.ret s) [e] = F s e := by simp [collect]

theorem filter_collect (p : α → Bool) (F : σ → ε → List α) (o : Outcome σ) (evs : List ε) :
    (collect step F o evs).filter p = collect step (fun s e => (F s e).filter p) o evs := by
  induction evs generalizing o with
  | nil => simp
  | cons e evs ih =>
    cases o with
    | spin s => simp
    | ret s => rw [collect, collect, List.filter_append, ih]

/-- What no event of the list shows, the run does not show. -/
theorem collect_eq_nil {F : σ → ε → List α} {evs : List ε} (h : ∀ s, ∀ e ∈ evs, F s e = []) (o : Outcome σ) :
    collect step F o evs = [] := by
  induction evs generalizing o with
  | nil => simp
  | cons e evs ih =>
    cases o with
    | spin s => simp
    | ret s =>
      rw [collect, h s e List.mem_cons_self, List.nil_append]
      exact ih (fun s e he => h s e (List.mem_cons_of_mem _ he)) _

/-- The projection rule: if each step projects to its events, each run projects to all of them. -/
theorem run_project (h : ∀ s e, (step s e).map g = run step' (.ret (g s)) (f s e)) (o : Outcome σ)
    (evs : List ε) : (run step o evs).map g = run step' (o.map g) (collect step f o evs) := by
  induction evs generalizing o with
  | nil => simp
  | cons e evs ih =>
    cases o with
    | spin s => simp
    | ret s =>
      rw [run_cons, Outcome.bind_ret, ih, h, Outcome.map_ret, collect, run_append]

/-- What the events below show is what the steps above show of them. -/
theorem collect_project (h : ∀ s e, (step s e).map g = run step' (.ret (g s)) (f s e))
    (F : τ → ζ → List α) (o : Outcome σ) (evs : List ε) :
    collect step' F (o.map g) (collect step f o evs) =
      collect step (fun s e => collect step' F (.ret (g s)) (f s e)) o evs := by
  induction evs generalizing o with
  | nil => simp
  | cons e evs ih =>
    cases o with
    | spin s => simp
    | ret s => rw [collect, collect, Outcome.map_ret, collect_append, ← h, ih]

end Project

section Logs

variable {step : σ → ε → Outcome σ} {good : σ → ε → Prop} {F : σ → ε → List α} {G : σ → ε → List β}

/-- The rule for logs: an invariant of the state and of what two logs hold so far. -/
theorem inv_logs {I : σ → List α → List β → Prop}
    (hstep : ∀ s e s' l k, I s l k → good s e → step s e = .ret s' → I s' (l ++ F s e) (k ++ G s e))
    {o : Outcome σ} {l : List α} {k : List β} (ho : ∀ s, o = .ret s → I s l k) {evs : List ε}
    (hg : EachStep step good o evs) {s : σ} (h : run step o evs = .ret s) :
    I s (l ++ collect step F o evs) (k ++ collect step G o evs) := by
  induction evs generalizing o l k with
  | nil => simpa using ho s h
  | cons e evs ih =>
    cases o with
    | spin u => exact absurd ((run_spin u (e :: evs)).symm.trans h) nofun
    | ret u =>
      rw [collect, collect, ← List.append_assoc, ← List.append_assoc]
      exact ih (fun t ht => hstep u e t l k (ho u rfl) hg.1 ht) hg.2 h

end Logs

section Rank

variable {step : σ → ε → Outcome σ} {good : σ → ε → Prop} {P : σ → Prop} {m : σ → ℕ}

/-- The rule for progress: each good step keeps the goal or comes nearer to it by the events that
count. -/
theorem rank_run {p : ε → Bool}
    (hkeep : ∀ s e s', P s → good s e → step s e = .ret s' → P s')
    (hnear : ∀ s e s', ¬P s → good s e → step s e = .ret s' →
      P s' ∨ m s' + (if p e then 1 else 0) ≤ m s)
    {s s' : σ} {k n : ℕ} (hs : P s ∨ m s + k ≤ n) {evs : List ε}
    (hg : EachStep step good (.ret s) evs) (h : run step (.ret s) evs = .ret s') :
    P s' ∨ m s' + (k + evs.countP p) ≤ n := by
  induction evs generalizing s k with
  | nil =>
    cases Outcome.ret.inj h
    exact hs
  | cons e evs ih =>
    rw [run_cons, Outcome.bind_ret] at h
    cases he : step s e with
    | spin t =>
      rw [he, run_spin] at h
      exact absurd h nofun
    | ret t =>
      have hrest := hg.2
      rw [he] at hrest h
      have hnext : P t ∨ m t + (k + if p e then 1 else 0) ≤ n := by
        by_cases hgoal : P s
        · exact .inl (hkeep s e t hgoal hg.1 he)
        · have hle := hs.resolve_left hgoal
          exact (hnear s e t hgoal hg.1 he).imp_right fun h => by omega
      rw [List.countP_cons]
      exact (ih hnext hrest h).imp_right fun h => by omega

end Rank

end Lib
