import Mathlib.Data.List.Basic
import Mathlib.Data.List.Nodup

/- A queue behind a mutex with a condition variable. A thread that wants to take is ready for the mutex or asleep on the
   condition; whoever puts something in wakes one sleeper. Sleepers may also wake without a reason. -/
namespace BlockingQueue
variable {ι α : Type}

structure Monitor (ι α : Type) where
  queue : List α
  ready : List ι
  asleep : List ι

def Monitor.inside (m : Monitor ι α) : List ι := m.ready ++ m.asleep

inductive Event (ι α : Type) where
  | put (x : α)
  | wants (i : ι)
  | takes (i : ι) (x : α)
  | sleeps (i : ι)
  | wakes (i : ι)

inductive Step : Monitor ι α → Event ι α → Monitor ι α → Prop
  | putQuiet (queue : List α) (ready : List ι) (x : α) : Step ⟨queue, ready, []⟩ (.put x) ⟨queue ++ [x], ready, []⟩
  | putWake (queue : List α) (ready before behind : List ι) (i : ι) (x : α) :
      Step ⟨queue, ready, before ++ i :: behind⟩ (.put x) ⟨queue ++ [x], i :: ready, before ++ behind⟩
  | wants (m : Monitor ι α) {i : ι} (outside : i ∉ m.inside) : Step m (.wants i) { m with ready := i :: m.ready }
  | takes (x : α) (queue : List α) (before behind asleep : List ι) (i : ι) :
      Step ⟨x :: queue, before ++ i :: behind, asleep⟩ (.takes i x) ⟨queue, before ++ behind, asleep⟩
  | sleeps (before behind asleep : List ι) (i : ι) :
      Step ⟨[], before ++ i :: behind, asleep⟩ (.sleeps i) ⟨[], before ++ behind, i :: asleep⟩
  | wakes (queue : List α) (ready before behind : List ι) (i : ι) :
      Step ⟨queue, ready, before ++ i :: behind⟩ (.wakes i) ⟨queue, i :: ready, before ++ behind⟩

inductive Run : List (Event ι α) → Monitor ι α → Prop
  | empty : Run [] ⟨[], [], []⟩
  | step {events : List (Event ι α)} {m m' : Monitor ι α} {event : Event ι α} (earlier : Run events m) (step : Step m event m') :
      Run (event :: events) m'

def Event.brought : Event ι α → Option α
  | .put x => some x
  | _ => none

def Event.given : Event ι α → Option (ι × α)
  | .takes i x => some (i, x)
  | _ => none

/-- What has been put in, and what has been taken out and by whom, with the earliest first. -/
def brought (events : List (Event ι α)) : List α := events.reverse.filterMap Event.brought

def given (events : List (Event ι α)) : List (ι × α) := events.reverse.filterMap Event.given

theorem brought_cons (event : Event ι α) (events : List (Event ι α)) :
    brought (event :: events) = brought events ++ event.brought.toList := by
  rw [brought, brought, List.reverse_cons, List.filterMap_append, List.filterMap_cons]
  cases event.brought <;> rfl

theorem given_cons (event : Event ι α) (events : List (Event ι α)) :
    given (event :: events) = given events ++ event.given.toList := by
  rw [given, given, List.reverse_cons, List.filterMap_append, List.filterMap_cons]
  cases event.given <;> rfl

section Steps
variable {m m' : Monitor ι α} {event : Event ι α}

theorem step_queue (step : Step m event m') :
    (event.given.toList.map Prod.snd) ++ m'.queue = m.queue ++ event.brought.toList := by
  cases step with
  | putQuiet | putWake | sleeps => rfl
  | wants | takes | wakes => exact (List.append_nil _).symm

/-- While one sleeps there is a thread ready for everything that is queued. -/
def Attended (m : Monitor ι α) : Prop := m.asleep ≠ [] → m.queue.length ≤ m.ready.length

theorem step_attended (step : Step m event m') (attended : Attended m) : Attended m' := by
  intro sleeper
  cases step with
  | putQuiet => exact absurd rfl sleeper
  | putWake queue ready before behind i x =>
    have enough := attended (List.append_ne_nil_of_right_ne_nil _ (List.cons_ne_nil _ _))
    simp only [List.length_append, List.length_cons, List.length_nil] at enough ⊢
    omega
  | wants m outside => exact Nat.le_succ_of_le (attended sleeper)
  | takes x queue before behind asleep i =>
    have enough := attended sleeper
    simp only [List.length_append, List.length_cons] at enough ⊢
    omega
  | sleeps before behind asleep i => exact Nat.zero_le _
  | wakes queue ready before behind i =>
    have enough := attended (List.append_ne_nil_of_right_ne_nil _ (List.cons_ne_nil _ _))
    exact Nat.le_succ_of_le enough

theorem woken_perm (ready before behind : List ι) (i : ι) :
    (i :: ready ++ (before ++ behind)).Perm (ready ++ (before ++ i :: behind)) :=
  List.perm_middle.symm.trans (List.Perm.append_left ready List.perm_middle.symm)

theorem put_inside {x : α} (step : Step m (.put x) m') : m'.inside.Perm m.inside ∧ m'.queue = m.queue ++ [x] := by
  cases step with
  | putQuiet => exact ⟨List.Perm.refl _, rfl⟩
  | putWake queue ready before behind i => exact ⟨woken_perm ready before behind i, rfl⟩

theorem wants_inside {i : ι} (step : Step m (.wants i) m') :
    i ∉ m.inside ∧ m'.inside = i :: m.inside ∧ m'.queue = m.queue := by
  cases step with
  | wants m outside => exact ⟨outside, rfl, rfl⟩

theorem takes_inside {i : ι} {x : α} (step : Step m (.takes i x) m') :
    m.inside.Perm (i :: m'.inside) ∧ m.queue = x :: m'.queue := by
  cases step with
  | takes x queue before behind asleep i => exact ⟨List.Perm.append_right asleep List.perm_middle, rfl⟩

theorem sleeps_inside {i : ι} (step : Step m (.sleeps i) m') :
    m'.inside.Perm m.inside ∧ i ∈ m.inside ∧ m.queue = [] ∧ m'.queue = [] := by
  cases step with
  | sleeps before behind asleep i =>
    refine ⟨List.perm_middle.trans (List.Perm.append_right asleep List.perm_middle.symm), ?_, rfl, rfl⟩
    exact List.mem_append_left _ (List.mem_append_right _ List.mem_cons_self)

theorem wakes_inside {i : ι} (step : Step m (.wakes i) m') : m'.inside.Perm m.inside ∧ m'.queue = m.queue := by
  cases step with
  | wakes queue ready before behind i => exact ⟨woken_perm ready before behind i, rfl⟩

theorem step_nodup (step : Step m event m') (nodup : m.inside.Nodup) : m'.inside.Nodup := by
  cases event with
  | put x => exact (put_inside step).1.nodup_iff.mpr nodup
  | wants i =>
    obtain ⟨outside, inside, -⟩ := wants_inside step
    rw [inside]
    exact List.nodup_cons.mpr ⟨outside, nodup⟩
  | takes i x => exact (List.nodup_cons.mp ((takes_inside step).1.nodup_iff.mp nodup)).2
  | sleeps i => exact (sleeps_inside step).1.nodup_iff.mpr nodup
  | wakes i => exact (wakes_inside step).1.nodup_iff.mpr nodup

/-- Who sleeps although something is queued leaves a thread that can take it. -/
theorem someone_takes (attended : Attended m) (some_ : m.queue ≠ []) (wanted : m.inside ≠ []) :
    ∃ i x m', Step m (.takes i x) m' := by
  obtain ⟨queue, ready, asleep⟩ := m
  have waiting : ready ≠ [] := by
    intro none_
    have sleeper : asleep ≠ [] := fun empty => wanted (by rw [Monitor.inside, none_, empty, List.append_nil])
    have enough : queue.length ≤ ready.length := attended sleeper
    rw [none_, List.length_nil, Nat.le_zero, List.length_eq_zero_iff] at enough
    exact some_ enough
  obtain ⟨x, rest, rfl⟩ := List.exists_cons_of_ne_nil some_
  obtain ⟨i, others, rfl⟩ := List.exists_cons_of_ne_nil waiting
  exact ⟨i, x, _, Step.takes x rest [] others asleep i⟩

end Steps

/-- What has been taken out and what is queued is what was put in, in that order. -/
theorem run_queue {events : List (Event ι α)} {m : Monitor ι α} (run : Run events m) :
    (given events).map Prod.snd ++ m.queue = brought events := by
  induction run with
  | empty => rfl
  | step earlier step ih =>
    rw [given_cons, brought_cons, List.map_append, List.append_assoc, step_queue step, ← List.append_assoc, ih]

theorem run_attended {events : List (Event ι α)} {m : Monitor ι α} (run : Run events m) : Attended m := by
  induction run with
  | empty => exact fun sleeper => absurd rfl sleeper
  | step earlier step ih => exact step_attended step ih

theorem run_nodup {events : List (Event ι α)} {m : Monitor ι α} (run : Run events m) : m.inside.Nodup := by
  induction run with
  | empty => exact List.nodup_nil
  | step earlier step ih => exact step_nodup step ih

end BlockingQueue
