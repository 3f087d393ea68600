import Mathlib.Data.List.Perm.Basic
import Mathlib.Data.Set.Card

/- Numbered nodes that share their parts. A node is live if it has a list of parts, possibly
   with repetitions; the walk from some roots meets every node once for every path to it.
   Sharing is counted by such walks, and a walk only depends on the parts of what it meets. -/
namespace SharedGraph

variable {kids kids' : Nat → Option (List Nat)}

inductive Walks (kids : Nat → Option (List Nat)) : List Nat → List Nat → Prop where
  | nil : Walks kids [] []
  | cons {i js is ws rest} (live : kids i = some js) (down : Walks kids js ws)
      (next : Walks kids is rest) : Walks kids (i :: is) (i :: (ws ++ rest))

def follow (kids : Nat → Option (List Nat)) : Nat → List Nat → Option Nat
  | i, [] => (kids i).map fun _ => i
  | i, k :: path =>
    match kids i with
    | none => none
    | some js =>
      match js[k]? with
      | none => none
      | some j => follow kids j path

attribute [local simp] follow

def Reaches (kids : Nat → Option (List Nat)) (h i : Nat) : Prop := ∃ path, follow kids h path = some i

noncomputable def numPaths (kids : Nat → Option (List Nat)) (h i : Nat) : Nat :=
  Set.ncard {path | follow kids h path = some i}

theorem Walks.unique {is ws vs : List Nat} (one : Walks kids is ws) (two : Walks kids is vs) : ws = vs := by
  induction one generalizing vs with
  | nil => cases two; rfl
  | cons live _ _ ihDown ihNext =>
    cases two with
    | cons live' down' next' =>
      rw [live, Option.some.injEq] at live'
      subst live'
      rw [ihDown down', ihNext next']

theorem Walks.append {is js ws vs : List Nat} (one : Walks kids is ws) (two : Walks kids js vs) :
    Walks kids (is ++ js) (ws ++ vs) := by
  induction one with
  | nil => exact two
  | cons live down _ _ ih =>
    rw [List.cons_append, List.cons_append, List.append_assoc]
    exact .cons live down ih

theorem Walks.split {a b ws : List Nat} (all : Walks kids (a ++ b) ws) :
    ∃ us vs, Walks kids a us ∧ Walks kids b vs ∧ ws = us ++ vs := by
  induction a generalizing ws with
  | nil => exact ⟨[], ws, .nil, all, rfl⟩
  | cons i is ih =>
    cases all with
    | cons live down next =>
      obtain ⟨us, vs, left, right, rfl⟩ := ih next
      exact ⟨_, vs, .cons live down left, right, by simp⟩

theorem Walks.perm {is js ws : List Nat} (walk : Walks kids is ws) (same : is.Perm js) :
    ∃ vs, Walks kids js vs ∧ ws.Perm vs := by
  induction same generalizing ws with
  | nil => exact ⟨ws, walk, .refl _⟩
  | cons i _ ih =>
    cases walk with
    | cons live down next =>
      obtain ⟨vs, next', moved⟩ := ih next
      exact ⟨_, .cons live down next', (moved.append_left _).cons i⟩
  | swap i j l =>
    obtain ⟨us, vs, left, right, rfl⟩ := Walks.split (a := [j, i]) (b := l) walk
    obtain ⟨u, v, first, second, rfl⟩ := Walks.split (a := [j]) (b := [i]) left
    exact ⟨(v ++ u) ++ vs, (second.append first).append right, (List.perm_append_comm).append_right vs⟩
  | trans _ _ ih ih' =>
    obtain ⟨us, walk', moved⟩ := ih walk
    obtain ⟨vs, walk'', moved'⟩ := ih' walk'
    exact ⟨vs, walk'', moved.trans moved'⟩

theorem Walks.congr {is ws : List Nat} (walk : Walks kids is ws) (same : ∀ i ∈ ws, kids' i = kids i) :
    Walks kids' is ws := by
  induction walk with
  | nil => exact .nil
  | cons live _ _ ihDown ihNext =>
    have here := same _ (List.mem_cons_self ..)
    have below := ihDown fun i mem => same i (by simp [mem])
    have later := ihNext fun i mem => same i (by simp [mem])
    exact .cons (here.trans live) below later

theorem Walks.live {is ws : List Nat} (walk : Walks kids is ws) {i : Nat} (met : i ∈ ws) :
    ∃ js, kids i = some js := by
  induction walk with
  | nil => simp at met
  | cons live _ _ ihDown ihNext =>
    simp only [List.mem_cons, List.mem_append] at met
    obtain rfl | below | later := met
    · exact ⟨_, live⟩
    · exact ihDown below
    · exact ihNext later

theorem Walks.root {is ws : List Nat} (walk : Walks kids is ws) {i : Nat} (start : i ∈ is) : i ∈ ws := by
  induction walk with
  | nil => simp at start
  | cons _ _ _ _ ihNext =>
    obtain rfl | later := List.mem_cons.mp start
    · simp
    · simp [ihNext later]

theorem Walks.part {is ws js : List Nat} (walk : Walks kids is ws) {i j : Nat} (met : i ∈ ws)
    (parts : kids i = some js) (mem : j ∈ js) : j ∈ ws := by
  induction walk with
  | nil => simp at met
  | cons live down _ ihDown ihNext =>
    simp only [List.mem_cons, List.mem_append] at met ⊢
    obtain rfl | below | later := met
    · rw [live, Option.some.injEq] at parts
      subst parts
      exact .inr (.inl (down.root mem))
    · exact .inr (.inl (ihDown below))
    · exact .inr (.inr (ihNext later))

/-- A node that is neither a root nor a part of any node is not met. -/
theorem Walks.avoids {is ws : List Nat} (walk : Walks kids is ws) {me : Nat} (notRoot : me ∉ is)
    (notPart : ∀ i js, kids i = some js → me ∉ js) : me ∉ ws := by
  induction walk with
  | nil => simp
  | cons live _ _ ihDown ihNext =>
    simp only [List.mem_cons, List.mem_append, not_or] at notRoot ⊢
    exact ⟨notRoot.1, ihDown (notPart _ _ live), ihNext notRoot.2⟩

/-- A root of a walk that ends becomes a part of another root: as many meetings as before. -/
theorem Walks.attach {me j : Nat} {js rest ws : List Nat} (walk : Walks kids (j :: me :: rest) ws)
    (live : kids me = some js) (notRoot : me ∉ j :: rest)
    (notPart : ∀ i parts, kids i = some parts → me ∉ parts)
    (grown : kids' me = some (js ++ [j])) (same : ∀ i, i ≠ me → kids' i = kids i) :
    ∃ vs, Walks kids' (me :: rest) vs ∧ ws.Perm vs := by
  obtain ⟨below, others, first, second, rfl⟩ := Walks.split (a := [j]) (b := me :: rest) walk
  have keep : ∀ {is us : List Nat}, Walks kids is us → me ∉ is → Walks kids' is us := by
    intro is us part notIn
    apply part.congr
    intro i met
    apply same
    rintro rfl
    exact part.avoids notIn notPart met
  cases second with
  | cons live' down next =>
    rw [live, Option.some.injEq] at live'
    subst live'
    have inner := (keep down (notPart me js live)).append (keep first (by simp_all))
    refine ⟨_, .cons grown inner (keep next (by simp_all)), ?_⟩
    simp only [List.append_assoc]
    exact (List.perm_middle).trans (List.Perm.cons me (List.perm_append_comm_assoc _ _ _))

theorem reaches_of_met {is ws : List Nat} (walk : Walks kids is ws) {i : Nat} (met : i ∈ ws) :
    ∃ h ∈ is, Reaches kids h i := by
  induction walk with
  | nil => simp at met
  | @cons root js is _ _ live _ _ ihDown ihNext =>
    simp only [List.mem_cons, List.mem_append] at met
    obtain rfl | below | later := met
    · exact ⟨i, List.mem_cons_self .., [], by simp [follow, live]⟩
    · obtain ⟨j, mem, path, leads⟩ := ihDown below
      obtain ⟨k, inside, rfl⟩ := List.mem_iff_getElem.mp mem
      exact ⟨root, List.mem_cons_self .., k :: path, by simp [follow, live, inside, leads]⟩
    · obtain ⟨h, mem, reach⟩ := ihNext later
      exact ⟨h, List.mem_cons_of_mem _ mem, reach⟩

theorem met_of_path {is ws : List Nat} (walk : Walks kids is ws) (path : List Nat) :
    ∀ {h i : Nat}, h ∈ ws → follow kids h path = some i → i ∈ ws := by
  induction path with
  | nil =>
    intro h i met leads
    obtain ⟨js, live⟩ := walk.live met
    simp only [follow, live, Option.map_some, Option.some.injEq] at leads
    exact leads ▸ met
  | cons k path ih =>
    intro h i met leads
    obtain ⟨js, live⟩ := walk.live met
    simp only [follow, live] at leads
    cases at_k : js[k]? with
    | none => simp [at_k] at leads
    | some j =>
      simp only [at_k] at leads
      exact ih (walk.part met live (List.mem_of_getElem? at_k)) leads

theorem met_of_reaches {is ws : List Nat} (walk : Walks kids is ws) {h i : Nat} (root : h ∈ is)
    (reach : Reaches kids h i) : i ∈ ws := by
  obtain ⟨path, leads⟩ := reach
  exact met_of_path walk path (walk.root root) leads

theorem follow_append (path : List Nat) : ∀ {h i : Nat}, follow kids h path = some i →
    ∀ more, follow kids h (path ++ more) = follow kids i more := by
  induction path with
  | nil =>
    intro h i leads more
    simp only [follow, Option.map_eq_some_iff] at leads
    obtain ⟨_, _, rfl⟩ := leads
    rfl
  | cons k path ih =>
    intro h i leads more
    rw [List.cons_append, follow]
    rw [follow] at leads
    split at leads
    · simp at leads
    · split at leads
      · simp at leads
      · exact ih leads more

theorem Reaches.part {h i j : Nat} {js : List Nat} (reach : Reaches kids h i) (parts : kids i = some js)
    (mem : j ∈ js) (live : (kids j).isSome) : Reaches kids h j := by
  obtain ⟨path, leads⟩ := reach
  obtain ⟨k, inside, rfl⟩ := List.mem_iff_getElem.mp mem
  obtain ⟨_, there⟩ := Option.isSome_iff_exists.mp live
  refine ⟨path ++ [k], ?_⟩
  rw [follow_append path leads]
  simp [follow, parts, inside, there]

/- The number of paths. -/

def through (kids : Nat → Option (List Nat)) (js : List Nat) (i : Nat) : Set (List Nat) :=
  {path | ∃ k j rest, path = k :: rest ∧ js[k]? = some j ∧ follow kids j rest = some i}

def later : List Nat → List Nat
  | [] => []
  | k :: path => (k + 1) :: path

theorem later_injOn (js : List Nat) (i : Nat) : Set.InjOn later (through kids js i) := by
  rintro _ ⟨k, _, rest, rfl, _⟩ _ ⟨k', _, rest', rfl, _⟩ same
  simp only [later, List.cons.injEq, Nat.add_right_cancel_iff] at same
  rw [same.1, same.2]

theorem through_cons (j : Nat) (js : List Nat) (i : Nat) : through kids (j :: js) i =
    (0 :: ·) '' {path | follow kids j path = some i} ∪ later '' through kids js i := by
  ext path
  constructor
  · rintro ⟨k, j', rest, rfl, at_k, leads⟩
    cases k with
    | zero =>
      simp only [List.getElem?_cons_zero, Option.some.injEq] at at_k
      exact .inl ⟨rest, at_k ▸ leads, rfl⟩
    | succ k => exact .inr ⟨k :: rest, ⟨k, j', rest, rfl, by simpa using at_k, leads⟩, rfl⟩
  · rintro (⟨rest, leads, rfl⟩ | ⟨_, ⟨k, j', rest, rfl, at_k, leads⟩, rfl⟩)
    · exact ⟨0, j, rest, rfl, rfl, leads⟩
    · exact ⟨k + 1, j', rest, rfl, by simpa using at_k, leads⟩

theorem through_finite (js : List Nat) (i : Nat)
    (finite : ∀ j ∈ js, {path | follow kids j path = some i}.Finite) : (through kids js i).Finite := by
  induction js with
  | nil =>
    have none : through kids [] i = ∅ := by
      ext path
      simp [through]
    simp [none]
  | cons j js ih =>
    rw [through_cons]
    exact ((finite j (by simp)).image _).union ((ih fun j mem => finite j (by simp [mem])).image _)

theorem through_ncard (js : List Nat) (i : Nat)
    (finite : ∀ j ∈ js, {path | follow kids j path = some i}.Finite) :
    (through kids js i).ncard = (js.map fun j => numPaths kids j i).sum := by
  induction js with
  | nil =>
    have none : through kids [] i = ∅ := by
      ext path
      simp [through]
    simp [none]
  | cons j js ih =>
    have rest := fun j mem => finite j (List.mem_cons_of_mem _ mem)
    have apart : Disjoint ((0 :: ·) '' {path | follow kids j path = some i})
        (later '' through kids js i) := by
      rw [Set.disjoint_left]
      rintro _ ⟨_, _, rfl⟩ ⟨_, ⟨k, _, _, rfl, _⟩, same⟩
      simp [later] at same
    rw [through_cons, Set.ncard_union_eq apart ((finite j (by simp)).image _)
      ((through_finite js i rest).image _), Set.ncard_image_of_injective _ (List.cons_injective),
      (later_injOn js i).ncard_image, ih rest]
    simp [numPaths]

theorem paths_eq {h : Nat} {js : List Nat} (live : kids h = some js) (i : Nat) :
    {path | follow kids h path = some i} = (if h = i then {[]} else ∅) ∪ through kids js i := by
  ext path
  cases path with
  | nil =>
    simp only [Set.mem_ofPred_eq, follow, live, Option.map_some, Option.some.injEq, through]
    split <;> simp_all
  | cons k path =>
    have elsewhere : k :: path ∉ (if h = i then {[]} else ∅ : Set (List Nat)) := by split <;> simp
    simp only [Set.mem_ofPred_eq, follow, live, through, Set.mem_union, elsewhere, false_or]
    cases at_k : js[k]? with
    | none => simp [at_k]
    | some j => simp [at_k]

theorem paths_finite {is ws : List Nat} (walk : Walks kids is ws) (i : Nat) :
    ∀ h ∈ is, {path | follow kids h path = some i}.Finite := by
  induction walk with
  | nil => simp
  | cons live _ _ ihDown ihNext =>
    intro h mem
    obtain rfl | later := List.mem_cons.mp mem
    · rw [paths_eq live]
      exact Set.Finite.union (by split <;> simp) (through_finite _ i ihDown)
    · exact ihNext h later

theorem sum_numPaths {is ws : List Nat} (walk : Walks kids is ws) (i : Nat) :
    (is.map fun h => numPaths kids h i).sum = ws.count i := by
  induction walk with
  | nil => simp
  | @cons h js is below rest live down _ ihDown ihNext =>
    have fin := through_finite js i (paths_finite down i)
    have apart : Disjoint (if h = i then {[]} else ∅) (through kids js i) := by
      rw [Set.disjoint_left]
      rintro path here ⟨k, _, _, rfl, _⟩
      split at here <;> simp at here
    have own : numPaths kids h i = (if h = i then 1 else 0) + below.count i := by
      rw [numPaths, paths_eq live, Set.ncard_union_eq apart (by split <;> simp) fin,
        through_ncard js i (paths_finite down i), ihDown]
      split <;> simp
    rw [List.map_cons, List.sum_cons, own, ihNext]
    by_cases same : h = i
    · simp [same]
      omega
    · simp [same]

theorem acyclic_of_falling {α : Type} {r : α → α → Prop} (rank : α → Nat)
    (falls : ∀ a b, r a b → rank b < rank a) (a : α) : ¬ Relation.TransGen r a a := by
  have along : ∀ {a b}, Relation.TransGen r a b → rank b < rank a := by
    intro a b leads
    induction leads with
    | single step => exact falls _ _ step
    | tail _ step ih => exact Nat.lt_trans (falls _ _ step) ih
  intro cycle
  exact Nat.lt_irrefl _ (along cycle)

/-- A relation without cycles ends everywhere if it starts in finitely many places only. -/
theorem descends_of_finite {α : Type} {r : α → α → Prop} (finite : {a | ∃ b, r a b}.Finite)
    (acyclic : ∀ a, ¬ Relation.TransGen r a a) : WellFounded fun b a => r a b := by
  let closure (x y : {a | ∃ b, r a b}) : Prop := Relation.TransGen r y.1 x.1
  have : Finite {a | ∃ b, r a b} := finite.to_subtype
  have : IsTrans _ closure := ⟨fun _ _ _ one two => two.trans one⟩
  have : Std.Irrefl closure := ⟨fun x => acyclic x.1⟩
  have sources : WellFounded closure := Finite.wellFounded_of_trans_of_irrefl closure
  have onward : ∀ x : {a | ∃ b, r a b}, Acc (fun b a => r a b) x.1 := by
    intro x
    induction x using sources.induction with
    | h x ih =>
      constructor
      intro b step
      by_cases more : ∃ c, r b c
      · exact ih ⟨b, more⟩ (.single step)
      · exact ⟨b, fun c next => absurd ⟨c, next⟩ more⟩
  constructor
  intro a
  by_cases more : ∃ b, r a b
  · exact onward ⟨a, more⟩
  · exact ⟨a, fun b next => absurd ⟨b, next⟩ more⟩

end SharedGraph
