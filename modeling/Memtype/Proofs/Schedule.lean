import Memtype.Lib.Period
import Memtype.Proofs.Buttons

/-! The period of the scheduler. `SCH_Task` counts the changes of the timer that it observes, and
`sch_Task_10ms` runs at those that leave `sch_tick` at a multiple of ten. -/

namespace Memtype

open Lib

/-- What a call of `SCH_Task` does: the timer is the same, a change is counted, or the change also
runs `sch_Task_10ms`. -/
inductive SchCall where
  | same | change | task
  deriving DecidableEq

namespace SchCall

def observes : SchCall → Bool
  | .same => false
  | .change | .task => true

def runs : SchCall → Bool
  | .task => true
  | .same | .change => false

theorem observes_of_runs (c : SchCall) (h : c.runs = true) : c.observes = true := by
  cases c with
  | same => cases h
  | change => rfl
  | task => rfl

end SchCall

namespace Sch

def call (s : Sch) (timer : UInt8) : SchCall :=
  if s.lastTimerVal = timer then .same else if (s.tick + 1) % 10 = 0 then .task else .change

def next (s : Sch) (timer : UInt8) : Sch :=
  if s.lastTimerVal = timer then s else { lastTimerVal := timer, tick := s.tick + 1 }

def calls : Sch → List UInt8 → List SchCall
  | _, [] => []
  | s, timer :: timers => s.call timer :: (s.next timer).calls timers

end Sch

/-- The readings that differ from the one before, when that was `t` at first. -/
def changes : UInt8 → List UInt8 → ℕ
  | _, [] => 0
  | t, timer :: timers => (if t = timer then 0 else 1) + changes timer timers

def Event.timer : Event → List UInt8
  | .schTask timer _ => [timer]
  | _ => []

def Event.schCall (d : Device) : Event → List SchCall
  | .schTask timer _ => [d.sch.call timer]
  | _ => []

def timers (L : Layout) : Outcome Device → List Event → List UInt8 :=
  collect (step L) fun _ e => e.timer

def schCalls (L : Layout) : Outcome Device → List Event → List SchCall :=
  collect (step L) fun d e => e.schCall d

/-- At all times `sch_Task_10ms` has run once for every ten changes observed, and from one run to
the next there are ten. -/
structure KeepsPeriod (l : List SchCall) : Prop where
  count : ∀ m, m <+: l → m.countP SchCall.runs = m.countP SchCall.observes / 10
  apart : ∀ pre mid post, l = pre ++ .task :: (mid ++ .task :: post) → .task ∉ mid →
    (mid ++ [.task]).countP SchCall.observes = 10

namespace Sch

variable {s : Sch} {t : UInt8}

theorem call_same (h : s.lastTimerVal = t) : s.call t = .same ∧ s.next t = s :=
  ⟨if_pos h, if_pos h⟩

theorem next_changed (h : s.lastTimerVal ≠ t) :
    s.next t = { lastTimerVal := t, tick := s.tick + 1 } := if_neg h

theorem call_task (h : s.lastTimerVal ≠ t) (ht : (s.tick + 1) % 10 = 0) : s.call t = .task := by
  unfold call
  rw [if_neg h, if_pos ht]

theorem call_change (h : s.lastTimerVal ≠ t) (ht : ¬(s.tick + 1) % 10 = 0) : s.call t = .change := by
  unfold call
  rw [if_neg h, if_neg ht]

theorem observes_call (s : Sch) (t : UInt8) :
    (s.call t).observes = true ↔ s.lastTimerVal ≠ t := by
  by_cases h : s.lastTimerVal = t
  · rw [(call_same h).1]
    exact iff_of_false nofun (not_not.mpr h)
  · by_cases ht : (s.tick + 1) % 10 = 0
    · rw [call_task h ht]
      exact iff_of_true rfl h
    · rw [call_change h ht]
      exact iff_of_true rfl h

theorem next_last (s : Sch) (t : UInt8) : (s.next t).lastTimerVal = t := by
  by_cases h : s.lastTimerVal = t
  · rw [(call_same h).2, h]
  · rw [next_changed h]

end Sch

/-- The changes observed are those in the timer readings. -/
theorem observed_calls (s : Sch) (ts : List UInt8) :
    (s.calls ts).countP SchCall.observes = changes s.lastTimerVal ts := by
  induction ts generalizing s with
  | nil => rfl
  | cons t ts ih =>
    rw [Sch.calls, List.countP_cons, ih, s.next_last, changes, Nat.add_comm]
    refine congrArg (· + changes t ts) ?_
    by_cases h : s.lastTimerVal = t
    · rw [if_pos h, if_neg ((s.observes_call t).not.mpr (not_not.mpr h))]
    · rw [if_neg h, if_pos ((s.observes_call t).mpr h)]

/-- `sch_tick` fires as a counter modulo 256. -/
theorem fires_tick {s : Sch} {n : ℕ} (hn : s.tick.toNat = n % 256) :
    (s.tick + 1).toNat = (n + 1) % 256 ∧ ((s.tick + 1) % 10 = 0 ↔ Fires 256 10 n) := by
  have hnext : (s.tick + 1).toNat = (n + 1) % 256 := by
    rw [UInt8.toNat_add, hn, UInt8.toNat_one]
    omega
  refine ⟨hnext, ?_⟩
  rw [← UInt8.toNat_inj, UInt8.toNat_mod, hnext]
  exact Iff.rfl

/-- The runs in the first calls, when `n` changes have been observed before. -/
theorem runs_calls {s : Sch} {n : ℕ} (hn : s.tick.toNat = n % 256) {ts : List UInt8}
    {m : List SchCall} (hm : m <+: s.calls ts) : Nat.count (Fires 256 10) n + m.countP SchCall.runs =
      Nat.count (Fires 256 10) (n + m.countP SchCall.observes) := by
  induction ts generalizing s n m with
  | nil =>
    rw [List.prefix_nil.mp hm]
    rfl
  | cons t ts ih =>
    cases m with
    | nil => rfl
    | cons c m =>
      obtain ⟨rfl, hrest⟩ := List.cons_prefix_cons.mp hm
      by_cases h : s.lastTimerVal = t
      · obtain ⟨hcall, hnext⟩ := Sch.call_same h
        rw [hnext] at hrest
        rw [hcall, List.countP_cons_of_neg Bool.false_ne_true,
          List.countP_cons_of_neg Bool.false_ne_true]
        exact ih hn hrest
      · rw [Sch.next_changed h] at hrest
        obtain ⟨hn1, hfires⟩ := fires_tick hn
        have hrest := ih hn1 hrest
        rw [Nat.count_succ] at hrest
        by_cases ht : (s.tick + 1) % 10 = 0
        · rw [Sch.call_task h ht, List.countP_cons_of_pos rfl, List.countP_cons_of_pos rfl]
          rw [if_pos (hfires.mp ht), Nat.add_assoc, Nat.add_assoc, Nat.add_comm 1,
            Nat.add_comm 1] at hrest
          exact hrest
        · rw [Sch.call_change h ht, List.countP_cons_of_neg Bool.false_ne_true,
            List.countP_cons_of_pos rfl]
          rw [if_neg (mt hfires.mpr ht), Nat.add_zero, Nat.add_assoc, Nat.add_comm 1] at hrest
          exact hrest

/-- The period is kept for 255 changes, and not for 256. -/
theorem keepsPeriod_calls {s : Sch} (hs : s.tick = 0) (ts : List UInt8) :
    KeepsPeriod (s.calls ts) ↔ changes s.lastTimerVal ts ≤ 255 := by
  have hcount {m : List SchCall} (hm : m <+: s.calls ts) :
      m.countP SchCall.runs = Nat.count (Fires 256 10) (m.countP SchCall.observes) := by
    have h := runs_calls (n := 0) (congrArg UInt8.toNat hs) hm
    rwa [Nat.count_zero, Nat.zero_add, Nat.zero_add] at h
  rw [← observed_calls, Nat.le_iff_lt_add_one,
    ← count_fires_iff (w := 256) (p := 10) (by decide) (by decide)]
  constructor
  · intro h k hk
    obtain ⟨m, hm, rfl⟩ := exists_prefix_countP hk
    rw [← hcount hm]
    exact h.count m hm
  · intro h
    have hall (m : List SchCall) (hm : m <+: s.calls ts) :
        m.countP SchCall.runs = m.countP SchCall.observes / 10 := by
      rw [hcount hm]
      exact h _ hm.sublist.countP_le
    refine ⟨hall, fun pre mid post hl hmid => ?_⟩
    refine apart_of_counts (by decide) SchCall.observes_of_runs hall hl rfl rfl ?_
    rw [List.countP_eq_zero]
    intro c hc hr
    cases c with
    | task => exact hmid hc
    | same => cases hr
    | change => cases hr

/-- `SCH_Task` runs `sch_Task_10ms` at these calls. -/
theorem schTask_call (L : Layout) (timer : UInt8) (adc : Option UInt8) (d : Device) :
    schTask L timer adc d = if d.sch.call timer = .task then
      schTask10ms L adc { d with sch := d.sch.next timer } else
        .ret { d with sch := d.sch.next timer } := by
  unfold schTask
  by_cases h : d.sch.lastTimerVal = timer
  · obtain ⟨hcall, hnext⟩ := Sch.call_same h
    rw [hcall, hnext, if_neg (not_not.mpr h)]
    rfl
  · rw [if_pos h, Sch.next_changed h]
    dsimp only
    by_cases ht : (d.sch.tick + 1) % 10 = 0
    · rw [if_pos ht, Sch.call_task h ht]
      rfl
    · rw [if_neg ht, Sch.call_change h ht]
      rfl

/-- Only `SCH_Task` moves its variables. -/
theorem step_sch (L : Layout) (d : Device) (e : Event) :
    (step L d e).state.sch = e.timer.foldl Sch.next d.sch := by
  have hclocks (hb : ∀ b, e ≠ .button b) (hs : ∀ timer adc, e ≠ .schTask timer adc) :
      (step L d e).state.sch = d.sch := congrArg Prod.snd (step_clocks L d hb hs)
  cases e with
  | schTask timer adc =>
    rw [show step L d (.schTask timer adc) = schTask L timer adc d from rfl, schTask_call]
    split_ifs
    · have hs := congrArg Prod.snd (uifTask_clocks L (uibTask (admTask adc
        { d with sch := d.sch.next timer })))
      cases adc <;> exact hs
    · rfl
  | button b => exact congrArg Prod.snd (uifTask_clocks L { d with uib :=
      { d.uib with buttonPressed := b, buttonChanged := true } })
  | _ => exact hclocks (by rintro _ ⟨⟩) (by rintro _ _ ⟨⟩)

/-- The calls of a run are those of the scheduler on its timer readings. -/
theorem schCalls_eq (L : Layout) (d : Device) (evs : List Event) :
    schCalls L (.ret d) evs = d.sch.calls (timers L (.ret d) evs) := by
  induction evs generalizing d with
  | nil => rfl
  | cons e evs ih =>
    have hcall (ts : List UInt8) :
        d.sch.calls (e.timer ++ ts) = e.schCall d ++ (e.timer.foldl Sch.next d.sch).calls ts := by
      cases e <;> rfl
    have hsch := step_sch L d e
    have hleft : schCalls L (.ret d) (e :: evs) = e.schCall d ++ schCalls L (step L d e) evs := rfl
    have hright : timers L (.ret d) (e :: evs) = e.timer ++ timers L (step L d e) evs := rfl
    rw [hleft, hright, hcall, ← hsch]
    cases step L d e with
    | ret d' => rw [ih d', Outcome.state_ret]
    | spin d' =>
      rw [schCalls, timers, collect_spin, collect_spin]
      rfl

/-- `sch_Task_10ms` keeps its period of ten changes exactly until the 256th, at which `sch_tick`
wraps. -/
theorem keepsPeriod_iff (L : Layout) (d : Device) (hd : d.sch = {}) (evs : List Event) :
    KeepsPeriod (schCalls L (.ret d) evs) ↔ changes 0 (timers L (.ret d) evs) ≤ 255 := by
  rw [schCalls_eq, keepsPeriod_calls (by rw [hd]), hd]

def countingTimer (n : ℕ) : List Event :=
  (List.range n).map fun i => .schTask (UInt8.ofNat (i + 1)) none

theorem keepsPeriod_counting : KeepsPeriod
    (schCalls sampleLayout (.ret (idleDevice fun _ => 0)) (countingTimer 100)) :=
  (keepsPeriod_iff sampleLayout (idleDevice fun _ => 0) rfl (countingTimer 100)).mpr
    (by decide +kernel)

theorem not_keepsPeriod_wrap : ¬∀ L d evs, d.sch = {} → KeepsPeriod (schCalls L (.ret d) evs) := by
  intro h
  have hcount := (h sampleLayout (idleDevice fun _ => 0) (countingTimer 256) rfl).count _
    (List.prefix_refl _)
  -- 26 runs in 256 changes
  exact absurd hcount (by decide +kernel)

end Memtype
