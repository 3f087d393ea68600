import E2Guardian.BlockingQueue
import Mathlib.Algebra.BigOperators.Group.List.Basic
import Mathlib.Algebra.Order.BigOperators.Group.Finset
import Mathlib.Data.List.Perm.Subperm

/- The threads of the proxy: listeners that accept connections, workers that handle them, and the main thread that stops the
   workers with null sockets. -/
namespace GuardianWorkers
open BlockingQueue

structure LqRec (S : Type) where
  sock : Option S -- none for a null pointer
  ct_type : Nat

def ctProxy : Nat := 1

inductive Place (S : Type) where
  | top
  | popping
  | popped (rec : LqRec S)
  | handling (peersock : S)
  | ended

structure Proxy (S : Type) where
  http_worker_Q : Monitor Nat (LqRec S)
  ttg : Bool
  nulls : Nat
  place : Nat → Place S
  events : List (Event Nat (LqRec S))
  handled : List (Nat × S)

variable {S : Type}

def Proxy.started : Proxy S := ⟨⟨[], [], []⟩, false, 0, fun _ => .top, [], []⟩

def Proxy.moved (s : Proxy S) (i : Nat) (place : Place S) : Proxy S :=
  { s with place := fun j => if j = i then place else s.place j }

def Proxy.queued (s : Proxy S) (event : Event Nat (LqRec S)) (Q : Monitor Nat (LqRec S)) : Proxy S :=
  { s with http_worker_Q := Q, events := event :: s.events }

inductive WorkerStep (http_workers : Nat) (s : Proxy S) : Proxy S → Prop
  | ends (i : Nat) (known : i < http_workers) (top : s.place i = .top) (stop : s.ttg = true) :
      WorkerStep http_workers s (s.moved i .ended)
  | calls (i : Nat) (Q : Monitor Nat (LqRec S)) (known : i < http_workers) (top : s.place i = .top) (goes : s.ttg = false)
      (step : Step s.http_worker_Q (.wants i) Q) : WorkerStep http_workers s ((s.queued (.wants i) Q).moved i .popping)
  | waits (i : Nat) (Q : Monitor Nat (LqRec S)) (step : Step s.http_worker_Q (.sleeps i) Q) :
      WorkerStep http_workers s (s.queued (.sleeps i) Q)
  | pops (i : Nat) (rec : LqRec S) (Q : Monitor Nat (LqRec S)) (step : Step s.http_worker_Q (.takes i rec) Q) :
      WorkerStep http_workers s ((s.queued (.takes i rec) Q).moved i (.popped rec))
  | breaks (i : Nat) (rec : LqRec S) (holds : s.place i = .popped rec) (off : s.ttg = true ∨ rec.sock = none) :
      WorkerStep http_workers s (s.moved i .top)
  | ignores (i : Nat) (rec : LqRec S) (holds : s.place i = .popped rec) (real : rec.sock ≠ none) (goes : s.ttg = false) :
      WorkerStep http_workers s (s.moved i .top)
  | handles (i : Nat) (peersock : S) (ct_type : Nat) (holds : s.place i = .popped ⟨some peersock, ct_type⟩)
      (goes : s.ttg = false) :
      WorkerStep http_workers s { s.moved i (.handling peersock) with handled := (i, peersock) :: s.handled }
  | returns (i : Nat) (peersock : S) (handles : s.place i = .handling peersock) : WorkerStep http_workers s (s.moved i .top)

inductive ProxyStep (http_workers : Nat) (s : Proxy S) : Proxy S → Prop
  | worker {s' : Proxy S} (step : WorkerStep http_workers s s') : ProxyStep http_workers s s'
  | accepts (peersock : S) (ct_type : Nat) (Q : Monitor Nat (LqRec S))
      (step : Step s.http_worker_Q (.put ⟨some peersock, ct_type⟩) Q) :
      ProxyStep http_workers s (s.queued (.put ⟨some peersock, ct_type⟩) Q)
  | terminates : ProxyStep http_workers s { s with ttg := true }
  | sendsNull (Q : Monitor Nat (LqRec S)) (stop : s.ttg = true) (more : s.nulls < http_workers)
      (step : Step s.http_worker_Q (.put ⟨none, ctProxy⟩) Q) :
      ProxyStep http_workers s { s.queued (.put ⟨none, ctProxy⟩) Q with nulls := s.nulls + 1 }
  | wakes (i : Nat) (Q : Monitor Nat (LqRec S)) (step : Step s.http_worker_Q (.wakes i) Q) :
      ProxyStep http_workers s (s.queued (.wakes i) Q)

inductive Reachable (http_workers : Nat) : Proxy S → Prop
  | started : Reachable http_workers .started
  | step {s s' : Proxy S} (earlier : Reachable http_workers s) (step : ProxyStep http_workers s s') : Reachable http_workers s'

def accepted (s : Proxy S) : List S := (brought s.events).filterMap LqRec.sock

/-- The sockets that a worker has got from the queue, and that it has handled, in that order. -/
def takenBy (i : Nat) (s : Proxy S) : List S := (given s.events).filterMap fun t => if t.1 = i then t.2.sock else none

def handledBy (i : Nat) (s : Proxy S) : List S := s.handled.reverse.filterMap fun t => if t.1 = i then some t.2 else none

def Place.inHand : Place S → List S
  | .popped rec => rec.sock.toList
  | _ => []

structure Sane (http_workers : Nat) (s : Proxy S) : Prop where
  run : Run s.events s.http_worker_Q
  inside_iff : ∀ i, i ∈ s.http_worker_Q.inside ↔ s.place i = .popping
  known : ∀ i, s.place i ≠ .top → i < http_workers
  before_stop : s.ttg = false → s.nulls = 0
  enough : s.ttg = true → s.http_worker_Q.inside.length + s.nulls ≤ s.http_worker_Q.queue.length + http_workers
  handled : ∀ i, (handledBy i s ++ (s.place i).inHand).Sublist (takenBy i s)

section Moves
variable {http_workers : Nat} {s : Proxy S}

theorem moved_place (s : Proxy S) (i j : Nat) (place : Place S) :
    (s.moved i place).place j = if j = i then place else s.place j := rfl

theorem inside_length (sane : Sane http_workers s) : s.http_worker_Q.inside.length ≤ http_workers := by
  have nodup := run_nodup sane.run
  have inRange : ∀ i ∈ s.http_worker_Q.inside, i ∈ List.range http_workers := by
    intro i member
    rw [List.mem_range]
    apply sane.known
    rw [(sane.inside_iff i).mp member]
    exact nofun
  have most := (nodup.subperm inRange).length_le
  rwa [List.length_range] at most

theorem sane_moved (sane : Sane http_workers s) {i : Nat} {place : Place S} (outside : s.place i ≠ .popping)
    (stays : place ≠ .popping) (known : i < http_workers) (hand : place.inHand.Sublist (s.place i).inHand) :
    Sane http_workers (s.moved i place) := by
  constructor
  · exact sane.run
  · intro j
    rw [moved_place]
    by_cases here : j = i
    · subst here
      rw [if_pos rfl]
      exact iff_of_false (fun inside => outside ((sane.inside_iff j).mp inside)) stays
    · rw [if_neg here]
      exact sane.inside_iff j
  · intro j away
    rw [moved_place] at away
    by_cases here : j = i
    · exact here ▸ known
    · rw [if_neg here] at away
      exact sane.known j away
  · exact sane.before_stop
  · exact sane.enough
  · intro j
    rw [moved_place]
    by_cases here : j = i
    · subst here
      rw [if_pos rfl]
      exact (List.Sublist.append (List.Sublist.refl _) hand).trans (sane.handled j)
    · rw [if_neg here]
      exact sane.handled j

theorem takenBy_queued (s : Proxy S) (event : Event Nat (LqRec S)) (Q : Monitor Nat (LqRec S)) (j : Nat) :
    takenBy j (s.queued event Q) = takenBy j s ++
      event.given.toList.filterMap fun t => if t.1 = j then t.2.sock else none := by
  rw [takenBy, Proxy.queued, given_cons, List.filterMap_append]
  rfl

theorem sane_queued (sane : Sane http_workers s) {event : Event Nat (LqRec S)} {Q : Monitor Nat (LqRec S)}
    (step : Step s.http_worker_Q event Q) (inside : Q.inside.Perm s.http_worker_Q.inside)
    (queue : s.http_worker_Q.queue.length ≤ Q.queue.length) (keeps : event.given = none) :
    Sane http_workers (s.queued event Q) := by
  constructor
  · exact sane.run.step step
  · exact fun i => inside.mem_iff.trans (sane.inside_iff i)
  · exact sane.known
  · exact sane.before_stop
  · intro stop
    have enough := sane.enough stop
    have length := inside.length_eq
    change Q.inside.length + s.nulls ≤ Q.queue.length + http_workers
    omega
  · intro i
    rw [takenBy_queued, keeps]
    exact (sane.handled i).trans (List.sublist_append_left _ _)

theorem sane_calls (sane : Sane http_workers s) {i : Nat} {Q : Monitor Nat (LqRec S)} (known : i < http_workers)
    (top : s.place i = .top) (goes : s.ttg = false) (step : Step s.http_worker_Q (.wants i) Q) :
    Sane http_workers ((s.queued (.wants i) Q).moved i .popping) := by
  obtain ⟨-, inside, -⟩ := wants_inside step
  constructor
  · exact sane.run.step step
  · intro j
    rw [moved_place]
    change j ∈ Q.inside ↔ _
    rw [inside, List.mem_cons]
    by_cases here : j = i
    · rw [if_pos here]
      exact iff_of_true (Or.inl here) rfl
    · rw [if_neg here, or_iff_right here]
      exact sane.inside_iff j
  · intro j away
    rw [moved_place] at away
    by_cases here : j = i
    · exact here ▸ known
    · rw [if_neg here] at away
      exact sane.known j away
  · exact sane.before_stop
  · exact fun stop => absurd (goes.symm.trans stop) Bool.false_ne_true
  · intro j
    rw [moved_place]
    have before := sane.handled j
    have nothing : takenBy j ((s.queued (.wants i) Q).moved i .popping) = takenBy j s :=
      (takenBy_queued s (.wants i) Q j).trans (List.append_nil _)
    rw [nothing]
    by_cases here : j = i
    · subst here
      rw [top] at before
      rw [if_pos rfl]
      exact before
    · rw [if_neg here]
      exact before

theorem sane_pops (sane : Sane http_workers s) {i : Nat} {rec : LqRec S} {Q : Monitor Nat (LqRec S)}
    (step : Step s.http_worker_Q (.takes i rec) Q) : Sane http_workers ((s.queued (.takes i rec) Q).moved i (.popped rec)) := by
  obtain ⟨inside, queue⟩ := takes_inside step
  have popping := (sane.inside_iff i).mp (inside.mem_iff.mpr List.mem_cons_self)
  have gone : i ∉ Q.inside := (List.nodup_cons.mp (inside.nodup_iff.mp (run_nodup sane.run))).1
  constructor
  · exact sane.run.step step
  · intro j
    rw [moved_place]
    change j ∈ Q.inside ↔ _
    by_cases here : j = i
    · subst here
      rw [if_pos rfl]
      exact iff_of_false gone nofun
    · rw [if_neg here]
      refine Iff.trans ?_ (sane.inside_iff j)
      rw [inside.mem_iff, List.mem_cons, or_iff_right here]
  · intro j away
    by_cases here : j = i
    · subst here
      exact sane.known j (by rw [popping]; exact nofun)
    · rw [moved_place, if_neg here] at away
      exact sane.known j away
  · exact sane.before_stop
  · intro stop
    have enough := sane.enough stop
    have length := inside.length_eq
    rw [queue, List.length_cons] at enough
    rw [List.length_cons] at length
    change Q.inside.length + s.nulls ≤ Q.queue.length + http_workers
    omega
  · intro j
    rw [moved_place]
    have before := sane.handled j
    have taken : takenBy j ((s.queued (.takes i rec) Q).moved i (.popped rec)) = _ := takenBy_queued s (.takes i rec) Q j
    rw [taken]
    by_cases here : j = i
    · subst here
      have empty : (Place.popping : Place S).inHand = [] := rfl
      rw [popping, empty, List.append_nil] at before
      have more : ([(j, rec)].filterMap fun t : Nat × LqRec S => if t.1 = j then t.2.sock else none) = rec.sock.toList := by
        cases sock : rec.sock <;> simp [sock]
      rw [if_pos rfl]
      exact List.Sublist.append before (more ▸ List.Sublist.refl _)
    · rw [if_neg here]
      exact before.trans (List.sublist_append_left _ _)

theorem sane_handles (sane : Sane http_workers s) {i : Nat} {peersock : S} {ct_type : Nat}
    (holds : s.place i = .popped ⟨some peersock, ct_type⟩) :
    Sane http_workers { s.moved i (.handling peersock) with handled := (i, peersock) :: s.handled } := by
  have away : s.place i ≠ .popping := by rw [holds]; exact nofun
  have plain := @sane_moved _ _ _ sane i (.handling peersock) away nofun
      (sane.known i (by rw [holds]; exact nofun)) (List.nil_sublist _)
  constructor
  · exact plain.run
  · exact plain.inside_iff
  · exact plain.known
  · exact plain.before_stop
  · exact plain.enough
  · intro j
    change (handledBy j _ ++ ((s.moved i (.handling peersock)).place j).inHand).Sublist (takenBy j s)
    have before := sane.handled j
    rw [moved_place, handledBy, List.reverse_cons, List.filterMap_append]
    by_cases here : j = i
    · subst here
      rw [holds] at before
      simpa [handledBy, Place.inHand] using before
    · rw [if_neg here]
      simpa [handledBy, Ne.symm here] using before

end Moves

section Reached
variable {http_workers : Nat} {s s' : Proxy S}

theorem worker_sane (sane : Sane http_workers s) (step : WorkerStep http_workers s s') : Sane http_workers s' := by
  cases step with
  | ends i known top stop => exact sane_moved sane (by rw [top]; exact nofun) nofun known (List.nil_sublist _)
  | calls i Q known top goes step => exact sane_calls sane known top goes step
  | waits i Q step =>
    obtain ⟨inside, -, empty, stays⟩ := sleeps_inside step
    exact sane_queued sane step inside (by rw [empty, stays]) rfl
  | pops i rec Q step => exact sane_pops sane step
  | breaks i rec holds off =>
    exact sane_moved sane (by rw [holds]; exact nofun) nofun (sane.known i (by rw [holds]; exact nofun)) (List.nil_sublist _)
  | ignores i rec holds real goes =>
    exact sane_moved sane (by rw [holds]; exact nofun) nofun (sane.known i (by rw [holds]; exact nofun)) (List.nil_sublist _)
  | handles i peersock ct_type holds goes => exact sane_handles sane holds
  | returns i peersock handles =>
    exact sane_moved sane (by rw [handles]; exact nofun) nofun (sane.known i (by rw [handles]; exact nofun)) (List.nil_sublist _)

theorem proxy_sane (sane : Sane http_workers s) (step : ProxyStep http_workers s s') : Sane http_workers s' := by
  cases step with
  | worker step => exact worker_sane sane step
  | accepts peersock ct_type Q step =>
    obtain ⟨inside, queue⟩ := put_inside step
    exact sane_queued sane step inside (by rw [queue, List.length_append]; exact Nat.le_add_right _ _) rfl
  | terminates =>
    refine ⟨sane.run, sane.inside_iff, sane.known, nofun, fun _ => ?_, sane.handled⟩
    cases stop : s.ttg with
    | false =>
      have most := inside_length sane
      have none_ := sane.before_stop stop
      change s.http_worker_Q.inside.length + s.nulls ≤ _
      omega
    | true => exact sane.enough stop
  | sendsNull Q stop more step =>
    obtain ⟨inside, queue⟩ := put_inside step
    have plain := sane_queued sane step inside (by rw [queue, List.length_append]; exact Nat.le_add_right _ _) rfl
    refine ⟨plain.run, plain.inside_iff, plain.known, fun goes => absurd (goes.symm.trans stop) Bool.false_ne_true,
      fun _ => ?_, plain.handled⟩
    have enough := sane.enough stop
    have length := inside.length_eq
    change Q.inside.length + (s.nulls + 1) ≤ Q.queue.length + http_workers
    rw [queue, List.length_append, List.length_singleton]
    omega
  | wakes i Q step =>
    obtain ⟨inside, queue⟩ := wakes_inside step
    exact sane_queued sane step inside (by rw [queue]) rfl

theorem reachable_sane (reachable : Reachable http_workers s) : Sane http_workers s := by
  induction reachable with
  | started =>
    refine ⟨.empty, fun i => iff_of_false List.not_mem_nil nofun, fun i away => absurd rfl away, fun _ => rfl, nofun, fun i => ?_⟩
    exact List.Sublist.refl _
  | step earlier step ih => exact proxy_sane ih step

/- No connection is handled twice. -/

theorem count_by [DecidableEq S] (l : List (Nat × S)) (i : Nat) (x : S) :
    l.count (i, x) = (l.filterMap fun t => if t.1 = i then some t.2 else none).count x := by
  induction l with
  | nil => rfl
  | cons t l ih =>
    obtain ⟨j, y⟩ := t
    rw [List.count_cons, ih, List.filterMap_cons]
    by_cases here : j = i
    · subst here
      simp [List.count_cons]
    · simp [here]

def taken (s : Proxy S) : List (Nat × S) := (given s.events).filterMap fun t => t.2.sock.map (t.1, ·)

theorem takenBy_taken (s : Proxy S) (i : Nat) :
    takenBy i s = (taken s).filterMap fun t => if t.1 = i then some t.2 else none := by
  rw [takenBy, taken, List.filterMap_filterMap]
  congr 1
  funext t
  cases t.2.sock <;> simp

theorem handled_subperm (sane : Sane http_workers s) : s.handled.Subperm (taken s) := by
  classical
  rw [List.subperm_ext_iff]
  rintro ⟨i, x⟩ -
  have part : (handledBy i s).Sublist (takenBy i s) := (List.sublist_append_left _ _).trans (sane.handled i)
  have less := part.count_le x
  rw [takenBy_taken, ← count_by, handledBy, ← count_by, List.count_reverse] at less
  exact less

theorem taken_accepted (sane : Sane http_workers s) : ((taken s).map Prod.snd).Sublist (accepted s) := by
  have sockets : (taken s).map Prod.snd = ((given s.events).map Prod.snd).filterMap LqRec.sock := by
    rw [taken, List.map_filterMap, List.filterMap_map]
    congr 1
    funext t
    cases sock : t.2.sock <;> simp [sock]
  rw [sockets, accepted, ← run_queue sane.run, List.filterMap_append]
  exact List.sublist_append_left _ _

/-- What the workers take out of the queue is what was put in, in that order. Each handles only what it took itself, and no
connection is handled more often than it was accepted. -/
theorem connections_handled_once (reachable : Reachable http_workers s) :
    (given s.events).map Prod.snd ++ s.http_worker_Q.queue = brought s.events ∧
      s.handled.Subperm (taken s) ∧ (s.handled.map Prod.snd).Subperm (accepted s) := by
  have sane := reachable_sane reachable
  have own : s.handled.Subperm (taken s) := handled_subperm sane
  have sockets : (s.handled.map Prod.snd).Subperm ((taken s).map Prod.snd) := by
    obtain ⟨_, perm, part⟩ := own
    exact ⟨_, perm.map Prod.snd, part.map Prod.snd⟩
  exact ⟨run_queue sane.run, own, sockets.trans (taken_accepted sane).subperm⟩

def oneHandled : Proxy Nat :=
  let called := (Proxy.started.queued (.wants 0) ⟨[], [0], []⟩).moved 0 .popping
  let come := called.queued (.put ⟨some 7, ctProxy⟩) ⟨[⟨some 7, ctProxy⟩], [0], []⟩
  let got := (come.queued (.takes 0 ⟨some 7, ctProxy⟩) ⟨[], [], []⟩).moved 0 (.popped ⟨some 7, ctProxy⟩)
  { got.moved 0 (.handling 7) with handled := [(0, 7)] }

theorem oneHandled_reachable : Reachable 1 oneHandled := by
  have called := (@Reachable.started Nat 1).step (.worker (.calls 0 _ Nat.zero_lt_one rfl rfl (.wants _ List.not_mem_nil)))
  have come := called.step (.accepts 7 ctProxy _ (.putQuiet [] [0] _))
  have got := come.step (.worker (.pops 0 _ _ (.takes _ [] [] [] [] 0)))
  exact got.step (.worker (.handles 0 7 ctProxy rfl rfl))

theorem one_handled_once : (given oneHandled.events).map Prod.snd ++ oneHandled.http_worker_Q.queue = brought oneHandled.events ∧
    oneHandled.handled.Subperm (taken oneHandled) ∧ (oneHandled.handled.map Prod.snd).Subperm (accepted oneHandled) :=
  connections_handled_once oneHandled_reachable

/-- No connection waits for a worker that sleeps. -/
theorem connections_attended (reachable : Reachable http_workers s) :
    (s.http_worker_Q.asleep ≠ [] → s.http_worker_Q.queue.length ≤ s.http_worker_Q.ready.length) ∧
      (s.http_worker_Q.queue ≠ [] → (∃ i, s.place i = .popping) →
        ∃ i rec Q, WorkerStep http_workers s ((s.queued (.takes i rec) Q).moved i (.popped rec))) := by
  have sane := reachable_sane reachable
  refine ⟨run_attended sane.run, fun some_ ⟨i, popping⟩ => ?_⟩
  have wanted := List.ne_nil_of_mem ((sane.inside_iff i).mpr popping)
  obtain ⟨j, rec, Q, step⟩ := someone_takes (run_attended sane.run) some_ wanted
  exact ⟨j, rec, Q, .pops j rec Q step⟩

def oneWoken : Proxy Nat :=
  let called := (Proxy.started.queued (.wants 0) ⟨[], [0], []⟩).moved 0 .popping
  let asleep := called.queued (.sleeps 0) ⟨[], [], [0]⟩
  asleep.queued (.put ⟨some 7, ctProxy⟩) ⟨[⟨some 7, ctProxy⟩], [0], []⟩

theorem oneWoken_reachable : Reachable 1 oneWoken := by
  have called := (@Reachable.started Nat 1).step (.worker (.calls 0 _ Nat.zero_lt_one rfl rfl (.wants _ List.not_mem_nil)))
  have asleep := called.step (.worker (.waits 0 _ (.sleeps [] [] [] 0)))
  exact asleep.step (.accepts 7 ctProxy _ (.putWake [] [] [] [] 0 _))

theorem one_woken_attended :
    ∃ i rec Q, WorkerStep 1 oneWoken ((oneWoken.queued (.takes i rec) Q).moved i (.popped rec)) :=
  (connections_attended oneWoken_reachable).2 (List.cons_ne_nil _ _) ⟨0, rfl⟩

/- The null sockets stop every worker. -/

def Place.left : Place S → Nat
  | .popping => 3
  | .popped _ => 2
  | .handling _ => 2
  | .top => 1
  | .ended => 0

def remaining (http_workers : Nat) (s : Proxy S) : Nat := ∑ i ∈ Finset.range http_workers, (s.place i).left

theorem remaining_moved {i : Nat} {place : Place S} (known : i < http_workers) (less : place.left < (s.place i).left) :
    remaining http_workers (s.moved i place) < remaining http_workers s := by
  apply Finset.sum_lt_sum
  · intro j _
    rw [moved_place]
    by_cases here : j = i
    · subst here
      rw [if_pos rfl]
      exact Nat.le_of_lt less
    · rw [if_neg here]
  · refine ⟨i, Finset.mem_range.mpr known, ?_⟩
    rw [moved_place, if_pos rfl]
    exact less

/-- Once all null sockets are sent there is something in the queue for each worker that wants to take. -/
theorem nulls_enough (sane : Sane http_workers s) (stop : s.ttg = true) (all : s.nulls = http_workers) :
    s.http_worker_Q.inside.length ≤ s.http_worker_Q.queue.length := by
  have enough := sane.enough stop
  omega

theorem worker_nearer (sane : Sane http_workers s) (stop : s.ttg = true) (all : s.nulls = http_workers)
    (step : WorkerStep http_workers s s') : remaining http_workers s' < remaining http_workers s := by
  cases step with
  | ends i known top _ => exact remaining_moved known (by rw [top]; exact Nat.zero_lt_one)
  | calls i Q known top goes step => exact absurd (goes.symm.trans stop) Bool.false_ne_true
  | waits i Q step =>
    obtain ⟨-, member, empty, -⟩ := sleeps_inside step
    have enough := nulls_enough sane stop all
    have some_ := List.length_pos_of_mem member
    rw [empty, List.length_nil] at enough
    omega
  | pops i rec Q step =>
    obtain ⟨inside, -⟩ := takes_inside step
    have popping := (sane.inside_iff i).mp (inside.mem_iff.mpr List.mem_cons_self)
    exact remaining_moved (s := s.queued (.takes i rec) Q) (sane.known i (by rw [popping]; exact nofun))
      (by change _ < (s.place i).left; rw [popping]; exact Nat.lt_succ_self 2)
  | breaks i rec holds off =>
    exact remaining_moved (sane.known i (by rw [holds]; exact nofun)) (by rw [holds]; exact Nat.lt_succ_self 1)
  | ignores i rec holds real goes => exact absurd (goes.symm.trans stop) Bool.false_ne_true
  | handles i peersock ct_type holds goes => exact absurd (goes.symm.trans stop) Bool.false_ne_true
  | returns i peersock handles =>
    exact remaining_moved (sane.known i (by rw [handles]; exact nofun)) (by rw [handles]; exact Nat.lt_succ_self 1)

/-- After the stop each step of a worker brings the end nearer, and when none can go on all have ended. -/
theorem workers_end (reachable : Reachable http_workers s) (stop : s.ttg = true) (all : s.nulls = http_workers) :
    (∀ s', WorkerStep http_workers s s' → remaining http_workers s' < remaining http_workers s) ∧
      ((¬∃ s', WorkerStep http_workers s s') → ∀ i < http_workers, s.place i = .ended) := by
  have sane := reachable_sane reachable
  refine ⟨fun s' => worker_nearer sane stop all, fun stuck i known => ?_⟩
  cases place : s.place i with
  | top => exact absurd ⟨_, .ends i known place stop⟩ stuck
  | popping =>
    have member := (sane.inside_iff i).mpr place
    have enough := nulls_enough sane stop all
    have some_ : s.http_worker_Q.queue ≠ [] := by
      rw [← List.length_pos_iff]
      exact Nat.lt_of_lt_of_le (List.length_pos_of_mem member) enough
    obtain ⟨j, rec, Q, step⟩ := someone_takes (run_attended sane.run) some_ (List.ne_nil_of_mem member)
    exact absurd ⟨_, .pops j rec Q step⟩ stuck
  | popped rec => exact absurd ⟨_, .breaks i rec place (Or.inl stop)⟩ stuck
  | handling peersock => exact absurd ⟨_, .returns i peersock place⟩ stuck
  | ended => rfl

end Reached

def oneStopped : Proxy Nat :=
  let stop : Proxy Nat := { Proxy.started with ttg := true }
  let sent := { stop.queued (.put ⟨none, ctProxy⟩) ⟨[⟨none, ctProxy⟩], [], []⟩ with nulls := 1 }
  sent.moved 0 .ended

theorem oneStopped_reachable : Reachable 1 oneStopped := by
  have stop := (@Reachable.started Nat 1).step .terminates
  have sent := stop.step (.sendsNull _ rfl Nat.zero_lt_one (.putQuiet [] [] _))
  exact sent.step (.worker (.ends 0 Nat.zero_lt_one rfl rfl))

theorem one_ends : (∀ s', WorkerStep 1 oneStopped s' → remaining 1 s' < remaining 1 oneStopped) ∧
    ((¬∃ s', WorkerStep 1 oneStopped s') → ∀ i < 1, oneStopped.place i = .ended) :=
  workers_end oneStopped_reachable rfl rfl

end GuardianWorkers
