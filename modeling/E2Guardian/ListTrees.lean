import E2Guardian.ListEnds

/- What a loaded item list stands for: the tree of its entries and of those of the lists it
   includes. Lookups and sorting see no more of a list than its tree. -/
namespace GuardianListTrees
open GuardianString GuardianTime GuardianItemFile GuardianListManager GuardianListCounts
open GuardianListEnds SharedGraph

inductive ListTree where
  | node (kind : Kind) (contents : Contents) (morelists : List ListTree)

inductive Denotes (m : Manager) : List Nat → List ListTree → Prop where
  | nil : Denotes m [] []
  | cons {i c is ts rest} (there : m.slot i = some c) (down : Denotes m c.morelists ts)
      (next : Denotes m is rest) : Denotes m (i :: is) (.node c.kind c.contents ts :: rest)

theorem Denotes.append {m : Manager} {is js : List Nat} {ts us : List ListTree} (one : Denotes m is ts)
    (two : Denotes m js us) : Denotes m (is ++ js) (ts ++ us) := by
  induction one with
  | nil => exact two
  | cons there down _ _ ih => exact .cons there down ih

theorem Denotes.kept {m m' : Manager} (kept : Kept m m') {is : List Nat} {ts : List ListTree}
    (denotes : Denotes m is ts) : Denotes m' is ts := by
  induction denotes with
  | nil => exact .nil
  | @cons i c is ts rest there _ _ ihDown ihNext =>
    obtain ⟨n, there'⟩ := kept _ _ there
    have here : Denotes m' (i :: is) (.node (addRef n c).kind (addRef n c).contents ts :: rest) :=
      .cons there' ihDown ihNext
    exact here

/-- What does not lead to a changed place stands for the same trees. -/
theorem Denotes.elsewhere {m m' : Manager} {me : Nat} (alone : Unincluded m me)
    (same : ∀ i, i ≠ me → m'.slot i = m.slot i) {is : List Nat} {ts : List ListTree}
    (denotes : Denotes m is ts) (notRoot : me ∉ is) : Denotes m' is ts := by
  induction denotes with
  | nil => exact .nil
  | cons there _ _ ihDown ihNext =>
    simp only [List.mem_cons, not_or] at notRoot
    have below := ihDown (alone _ _ (kids_of_slot there))
    exact .cons ((same _ (Ne.symm notRoot.1)).trans there) below (ihNext notRoot.2)

theorem Denotes.walks {m : Manager} {is : List Nat} {ts : List ListTree} (denotes : Denotes m is ts) :
    ∃ ws, Walks m.kids is ws := by
  induction denotes with
  | nil => exact ⟨[], .nil⟩
  | cons there _ _ ihDown ihNext =>
    obtain ⟨ws, down⟩ := ihDown
    obtain ⟨rest, next⟩ := ihNext
    exact ⟨_, .cons (kids_of_slot there) down next⟩

theorem Denotes.first {m : Manager} {is : List Nat} {tree : ListTree} {trees : List ListTree}
    (denotes : Denotes m is (tree :: trees)) : ∃ i c rest ts, is = i :: rest ∧ m.slot i = some c ∧
      tree = .node c.kind c.contents ts ∧ Denotes m c.morelists ts ∧ Denotes m rest trees := by
  generalize all : tree :: trees = both at denotes
  cases denotes with
  | nil => simp at all
  | cons there down next =>
    simp only [List.cons.injEq] at all
    exact ⟨_, _, _, _, rfl, there, all.1, down, all.2 ▸ next⟩

theorem findWith_same {α : Type} (own : Kind → Contents → Option α) (now : Clock) {m m' : Manager}
    {is : List Nat} {ts : List ListTree} (one : Denotes m is ts) :
    ∀ {js : List Nat}, Denotes m' js ts → ∃ enough answer, ∀ depth ≥ enough,
      firstFound (findWith own now depth m) is = some answer ∧
      firstFound (findWith own now depth m') js = some answer := by
  induction one with
  | nil =>
    intro js two
    cases two
    exact ⟨0, none, fun _ _ => ⟨rfl, rfl⟩⟩
  | @cons i c is ts rest there _ _ ihDown ihNext =>
    intro js two
    obtain ⟨j, c', js, ts', rfl, there', same, down', next'⟩ := two.first
    simp only [ListTree.node.injEq] at same
    obtain ⟨kind, contents, rfl⟩ := same
    obtain ⟨below, down, ihDown⟩ := ihDown down'
    obtain ⟨after, next, ihNext⟩ := ihNext next'
    -- The answer of the list itself, the same on both sides.
    have here : ∃ answer, ∀ depth ≥ below, findWith own now (depth + 1) m i = some answer ∧
        findWith own now (depth + 1) m' j = some answer := by
      refine ⟨if GuardianItemList.inTime now c.contents.limit then (own c.kind c.contents).or down else none, ?_⟩
      intro depth deep
      simp only [findWith, there, there', ← kind, ← contents, (ihDown depth deep).1, (ihDown depth deep).2]
      split
      · cases own c.kind c.contents <;> simp
      · simp
    obtain ⟨answer, here⟩ := here
    refine ⟨max (below + 1) after, answer.or next, ?_⟩
    intro depth deep
    obtain ⟨depth, rfl⟩ : ∃ less, depth = less + 1 := ⟨depth - 1, by omega⟩
    simp only [firstFound, (here depth (by omega)).1, (here depth (by omega)).2, (ihNext _ (by omega : depth + 1 ≥ after)).1,
      (ihNext _ (by omega : depth + 1 ≥ after)).2]
    cases answer <;> simp

mutual

def sortTree (startsWith : Bool) : ListTree → ListTree
  | .node kind contents morelists =>
    .node kind (sortOwn kind startsWith contents) (sortTrees startsWith morelists)

def sortTrees (startsWith : Bool) : List ListTree → List ListTree
  | [] => []
  | t :: ts => sortTree startsWith t :: sortTrees startsWith ts

end

theorem Denotes.sorted {m m' : Manager} {startsWith : Bool} {is : List Nat} {ts : List ListTree}
    (denotes : Denotes m is ts) : ∀ {ws : List Nat}, Walks m.kids is ws →
      (∀ i ∈ ws, m'.slot i = (m.slot i).map (sortContainer startsWith)) →
      Denotes m' is (sortTrees startsWith ts) := by
  induction denotes with
  | nil =>
    intro ws _ _
    exact .nil
  | @cons i c is ts rest there _ _ ihDown ihNext =>
    intro ws walk slots
    cases walk with
    | cons live down next =>
      rw [kids_of_slot there, Option.some.injEq] at live
      subst live
      have here := slots i (by simp)
      rw [there, Option.map_some] at here
      have below := ihDown down fun j mem => slots j (by simp [mem])
      have later := ihNext next fun j mem => slots j (by simp [mem])
      have all : Denotes m' (i :: is) (.node (sortContainer startsWith c).kind
          (sortContainer startsWith c).contents (sortTrees startsWith ts) :: sortTrees startsWith rest) :=
        .cons here below later
      exact all

/- The lookups of a list, and what they answer. -/
inductive Query where
  | findInList (string : Str)
  | findStartsWith (string : Str)
  | findEndsWith (string : Str)
  | isNowInTimelist

inductive Answer where
  | found (rc : Option Found)
  | inTime (now : Bool)
  deriving DecidableEq, Repr

def ask (host : Host) (now : Clock) (q : Query) (depth : Nat) (m : Manager) (i : Nat) : Option Answer :=
  match q with
  | .findInList string => (findInList host now string depth m i).map .found
  | .findStartsWith string => (findStartsWith now string depth m i).map .found
  | .findEndsWith string => (findEndsWith now string depth m i).map .found
  | .isNowInTimelist => (m.slot i).map fun c => .inTime (isNowInTimelist now c.contents)

/-- The two lists give the same answers to every lookup at every time. -/
def SameAnswers (host : Host) (m : Manager) (i : Nat) (m' : Manager) (i' : Nat) : Prop :=
  ∀ now q, ∃ enough answer, ∀ depth ≥ enough, ask host now q depth m i = some answer ∧
    ask host now q depth m' i' = some answer

theorem findWith_same_one {α : Type} (own : Kind → Contents → Option α) (now : Clock) {m m' : Manager} {i i' : Nat}
    {tree : ListTree} (one : Denotes m [i] [tree]) (two : Denotes m' [i'] [tree]) :
    ∃ enough answer, ∀ depth ≥ enough, findWith own now depth m i = some answer ∧
      findWith own now depth m' i' = some answer := by
  have single : ∀ {m : Manager} {i : Nat} {depth : Nat} {answer : Option α},
      firstFound (findWith own now depth m) [i] = some answer → findWith own now depth m i = some answer := by
    intro m i depth answer found
    simp only [firstFound] at found
    cases here : findWith own now depth m i with
    | none => simp [here] at found
    | some a => cases a <;> simpa [here] using found
  obtain ⟨enough, answer, answers⟩ := findWith_same own now one two
  exact ⟨enough, answer, fun depth deep => ⟨single (answers depth deep).1, single (answers depth deep).2⟩⟩

theorem sameAnswers_of_tree {host : Host} {m m' : Manager} {i i' : Nat} {tree : ListTree}
    (one : Denotes m [i] [tree]) (two : Denotes m' [i'] [tree]) : SameAnswers host m i m' i' := by
  intro now q
  have found : ∀ own : Kind → Contents → Option Found, ∃ enough answer, ∀ depth ≥ enough,
      (findWith own now depth m i).map Answer.found = some answer ∧
      (findWith own now depth m' i').map Answer.found = some answer := by
    intro own
    obtain ⟨enough, answer, answers⟩ := findWith_same_one own now one two
    refine ⟨enough, .found answer, ?_⟩
    intro depth deep
    rw [(answers depth deep).1, (answers depth deep).2]
    exact ⟨rfl, rfl⟩
  cases q with
  | findInList string => exact found _
  | findStartsWith string => exact found _
  | findEndsWith string => exact found _
  | isNowInTimelist =>
    obtain ⟨_, c, _, ts, heads, there, same, _⟩ := one.first
    obtain ⟨_, c', _, ts', heads', there', same', _⟩ := two.first
    simp only [List.cons.injEq] at heads heads'
    rw [same, ListTree.node.injEq] at same'
    refine ⟨0, .inTime (isNowInTimelist now c.contents), ?_⟩
    intro depth _
    simp only [ask, heads.1, there, heads'.1, there', same'.2.1, Option.map_some, and_self]

theorem sorted_sameAnswers {host : Host} {m m' : Manager} {i i' : Nat} {tree : ListTree} (startsWith : Bool)
    (one : Denotes m [i] [tree]) (two : Denotes m' [i'] [tree]) :
    ∃ enough, ∀ depth ≥ enough, ∃ sorted sorted', doSort startsWith depth m i = some sorted ∧
      doSort startsWith depth m' i' = some sorted' ∧ SameAnswers host sorted i sorted' i' := by
  obtain ⟨ws, walk⟩ := one.walks
  obtain ⟨ws', walk'⟩ := two.walks
  obtain ⟨enough, sorts⟩ := doSort_ends startsWith walk
  obtain ⟨enough', sorts'⟩ := doSort_ends startsWith walk'
  refine ⟨max enough enough', ?_⟩
  intro depth deep
  obtain ⟨sorted, done, slots⟩ := sorts depth (by omega) m rfl
  obtain ⟨sorted', done', slots'⟩ := sorts' depth (by omega) m' rfl
  have first := one.sorted walk fun j mem => by rw [slots j, if_pos mem]
  have second := two.sorted walk' fun j mem => by rw [slots' j, if_pos mem]
  exact ⟨sorted, sorted', by simpa [List.foldlM_cons] using done, by simpa [List.foldlM_cons] using done',
    sameAnswers_of_tree first second⟩

end GuardianListTrees
