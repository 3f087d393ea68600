import E2Guardian.ListTrees

/- Reuse of item lists that are already loaded. A list file stands for the tree that reading it and
   its includes gives, without any table and without any reuse. -/
namespace GuardianListCache
open GuardianString GuardianTime GuardianItemFile GuardianListManager GuardianListCounts
open GuardianListEnds GuardianListTrees SharedGraph

/- Reading list files without a table. -/

section Fresh
variable (files : Files) (host : Host) (w : Request)

def storeTree (line : Line) (st : Contents × List ListTree) : Option (Contents × List ListTree) :=
  (addLine host w.kind w.filters line st.1).map (·, st.2)

def anotherTree (load : Str → Option (Option ListTree)) (inc : Str) (st : Contents × List ListTree) :
    Option (Bool × (Contents × List ListTree)) :=
  match load inc with
  | none => none
  | some none => some (false, st)
  | some (some tree) => some (true, (st.1, st.2 ++ [tree]))

/-- The tree of a list file, none in it if the file cannot be loaded. -/
def freshTree : Nat → Str → Option (Option ListTree)
  | 0, _ => none
  | depth + 1, filename =>
    if !files.ensureListFileExists filename then some none
    else
      match files.getFileLength filename with
      | none => some none
      | some len =>
        if len < 2 then some (some (.node w.kind .empty []))
        else
          match files.listfile filename with
          | none => some none
          | some text =>
            match readLines (fileSource w.list_pwd filename) (storeTree host w)
              (anotherTree (freshTree depth)) (textLines text) (.empty, []) with
            | none => none
            | some (false, _, _) => some none
            | some (true, _, (k, ts)) => some (some (.node w.kind (sortRead w.kind k) ts))

/-- Reading the file with its includes ends with the given tree. -/
def Fresh (filename : Str) (fresh : Option ListTree) : Prop :=
  ∃ enough, ∀ depth ≥ enough, freshTree files host w depth filename = some fresh

end Fresh

def includesOf (files : Files) (list_pwd name : Str) : List Str :=
  if isMemory name then []
  else
    match files.listfile name with
    | none => []
    | some text => includesIn (fileSource list_pwd name) (textLines text)

theorem mem_includesOf {files : Files} {list_pwd name inc : Str} :
    inc ∈ includesOf files list_pwd name ↔ Includes files list_pwd name inc := by
  unfold includesOf Includes
  cases isMemory name with
  | true => simp
  | false =>
    cases files.listfile name with
    | none => simp
    | some text => simp

theorem freshTree_congr {files : Files} {host : Host} {w w' : Request} {asked : Str → Prop}
    (file : ∀ name, asked name → isMemory name = false)
    (onward : ∀ name inc, asked name → Includes files w.list_pwd name inc → asked inc)
    (kind : w.kind = w'.kind) (filters : w.filters = w'.filters)
    (includes : ∀ name, asked name → includesOf files w.list_pwd name = includesOf files w'.list_pwd name)
    (depth : Nat) : ∀ name, asked name → freshTree files host w depth name = freshTree files host w' depth name := by
  induction depth with
  | zero => exact fun _ _ => rfl
  | succ depth ih =>
    intro name wanted
    have notMemory := file name wanted
    have same := includes name wanted
    simp only [freshTree]
    rw [kind]
    cases opened : files.listfile name with
    | none => rfl
    | some text =>
      simp only [includesOf, notMemory, opened] at same
      have alike := parseLine_of_includesIn (textLines text) same
      have loop : readLines (fileSource w.list_pwd name) (storeTree host w)
          (anotherTree (freshTree files host w depth)) (textLines text) (.empty, []) =
        readLines (fileSource w'.list_pwd name) (storeTree host w')
          (anotherTree (freshTree files host w' depth)) (textLines text) (.empty, []) := by
        have stored : storeTree host w = storeTree host w' := by
          unfold storeTree
          rw [kind, filters]
        rw [stored]
        apply readLines_congr _ _ _ _ alike
        intro inc mem st
        have next := onward name inc wanted ⟨notMemory, text, opened, mem⟩
        rw [anotherTree, ih inc next, anotherTree]
      simp only [loop]

/- Loading through the table. -/

section Loading
variable {files : Files} {host : Host} {asked : Request → Str → Prop}

/-- The list stands for the tree of its file, read for one of the requests that ask for the file
    with this order and these filters. -/
def Faithful (files : Files) (host : Host) (asked : Request → Str → Prop) (m : Manager) (i : Nat)
    (c : Container) : Prop :=
  ∃ w tree, asked w c.sourcefile ∧ w.startswith = c.sourcestartswith ∧ w.filters = c.sourcefilters ∧
    Fresh files host w c.sourcefile (some tree) ∧ Denotes m [i] [tree]

/-- All lists but those that are still being filled are faithful. -/
def AllFaithful (files : Files) (host : Host) (asked : Request → Str → Prop) (m : Manager)
    (busy : List Nat) : Prop :=
  ∀ i c, m.slot i = some c → i ∉ busy → Faithful files host asked m i c

theorem Faithful.kept {m m' : Manager} {i : Nat} {c : Container} {n : Int} (kept : Kept m m')
    (faithful : Faithful files host asked m i c) : Faithful files host asked m' i (addRef n c) := by
  obtain ⟨w, tree, wanted, order, filters, fresh, denotes⟩ := faithful
  exact ⟨w, tree, wanted, order, filters, fresh, denotes.kept kept⟩

/-- Requests for a file with the same order and filters have the same kind and name the same
    includes; only list files are asked for, and none of them includes itself. -/
structure Consistent (files : Files) (asked : Request → Str → Prop) : Prop where
  acyclic : ∀ w name, asked w name → Acyclic files w.list_pwd
  file : ∀ w name, asked w name → isMemory name = false
  onward : ∀ w name inc, asked w name → Includes files w.list_pwd name inc → asked w inc
  roles : ∀ w w' name, asked w name → asked w' name → w.startswith = w'.startswith →
    w.filters = w'.filters →
    w.kind = w'.kind ∧ includesOf files w.list_pwd name = includesOf files w'.list_pwd name

theorem Fresh.role {w w' : Request} {name : Str} {fresh : Option ListTree}
    (consistent : Consistent files asked) (one : asked w name) (two : asked w' name)
    (order : w.startswith = w'.startswith) (filters : w.filters = w'.filters)
    (read : Fresh files host w name fresh) : Fresh files host w' name fresh := by
  obtain ⟨kind, _⟩ := consistent.roles w w' name one two order filters
  obtain ⟨enough, reads⟩ := read
  refine ⟨enough, ?_⟩
  intro depth deep
  rw [← reads depth deep]
  symm
  -- Both requests ask for whatever the file leads to.
  apply @freshTree_congr files host w w' (fun name => asked w name ∧ asked w' name)
    (fun name wanted => consistent.file w name wanted.1) ?_ kind filters ?_ depth name ⟨one, two⟩
  · intro name inc wanted includes
    have same := (consistent.roles w w' name wanted.1 wanted.2 order filters).2
    have includes' := mem_includesOf.mp (same ▸ mem_includesOf.mpr includes)
    exact ⟨consistent.onward w name inc wanted.1 includes, consistent.onward w' name inc wanted.2 includes'⟩
  · intro name wanted
    exact (consistent.roles w w' name wanted.1 wanted.2 order filters).2

theorem quit_fresh {w : Request} {filename : Str} {fresh : Option ListTree}
    (reads : ∀ depth, freshTree files host w (depth + 1) filename = some fresh) :
    Fresh files host w filename fresh := by
  refine ⟨1, ?_⟩
  intro depth deep
  obtain ⟨depth, rfl⟩ : ∃ less, depth = less + 1 := ⟨depth - 1, by omega⟩
  exact reads depth

inductive Delivers (m : Manager) : Option Nat → Option ListTree → Prop where
  | failed : Delivers m none none
  | loaded {i tree} (denotes : Denotes m [i] [tree]) : Delivers m (some i) (some tree)

/-- A list that is being filled, the tree that has been read of it so far, and the other lists. -/
structure Following (files : Files) (host : Host) (asked : Request → Str → Prop) (w : Request)
    (filename : Str) (m : Manager) (handles busy : List Nat) (m₁ : Manager)
    (st : Contents × List ListTree) : Prop where
  filling : Filling files w filename m handles m₁
  faithful : AllFaithful files host asked m₁ (m.free :: busy)
  mine : ∃ c, m₁.slot m.free = some c ∧ c.sourcefile = filename ∧ c.sourcestartswith = w.startswith ∧
    c.sourcefilters = w.filters ∧ c.kind = w.kind ∧ c.contents = st.1 ∧ Denotes m₁ c.morelists st.2

theorem AllFaithful.elsewhere {m m' : Manager} {me : Nat} {busy : List Nat} (alone : Unincluded m me)
    (same : ∀ i, i ≠ me → m'.slot i = m.slot i) (all : AllFaithful files host asked m (me :: busy)) :
    AllFaithful files host asked m' (me :: busy) := by
  intro i c there free
  have other : i ≠ me := by
    rintro rfl
    simp at free
  rw [same i other] at there
  obtain ⟨w, tree, wanted, order, filters, fresh, denotes⟩ := all i c there free
  exact ⟨w, tree, wanted, order, filters, fresh, denotes.elsewhere alone same (by simpa using Ne.symm other)⟩

theorem AllFaithful.kept {m m' : Manager} {busy : List Nat} (kept : Kept m m')
    (back : ∀ i c, m'.slot i = some c → ∃ c₀, m.slot i = some c₀)
    (all : AllFaithful files host asked m busy) : AllFaithful files host asked m' busy := by
  intro i c there free
  obtain ⟨c₀, there₀⟩ := back i c there
  obtain ⟨n, there'⟩ := kept i c₀ there₀
  rw [there, Option.some.injEq] at there'
  rw [there']
  exact (all i c₀ there₀ free).kept kept

section Following
variable {w : Request} {filename : Str} {m : Manager} {handles busy : List Nat}

theorem following_start (acc : Accounts m handles) (all : AllFaithful files host asked m busy) :
    Following files host asked w filename m handles busy
      (m.place m.free (newContainer files w filename)) (.empty, []) := by
  refine ⟨filling_start acc, ?_, ?_⟩
  · intro i c there free
    simp only [List.mem_cons, not_or] at free
    rw [slot_place, if_neg (Ne.symm free.1)] at there
    obtain ⟨n, there'⟩ := (@filling_start files w filename m handles acc).kept i c there
    rw [slot_place, if_neg (Ne.symm free.1), there, Option.some.injEq] at there'
    have kept := (all i c there free.2).kept (n := n) (@filling_start files w filename m handles acc).kept
    rw [← there'] at kept
    exact kept
  · exact ⟨_, by rw [slot_place, if_pos rfl], rfl, rfl, rfl, rfl, rfl, .nil⟩

theorem Following.filled {m₁ : Manager} {st : Contents × List ListTree}
    (state : Following files host asked w filename m handles busy m₁ st) {f : Container → Container}
    (fills : Fills f) {k : Contents} (entries : ∀ c, c.contents = st.1 → (f c).contents = k) :
    Following files host asked w filename m handles busy (m₁.modify m.free f) (k, st.2) := by
  have same : ∀ i, i ≠ m.free → (m₁.modify m.free f).slot i = m₁.slot i := by
    intro i other
    rw [slot_modify, if_neg (Ne.symm other)]
  obtain ⟨c, there, name, order, filters, kind, contents, denotes⟩ := state.mine
  refine ⟨state.filling.filled fills, state.faithful.elsewhere state.filling.alone same, f c, ?_⟩
  have below := denotes.elsewhere state.filling.alone same (state.filling.alone _ _ (kids_of_slot there))
  obtain ⟨k', date, new⟩ := fills c
  refine ⟨by rw [slot_modify, if_pos rfl, there, Option.map_some], ?_, ?_, ?_, ?_, entries c contents, ?_⟩
  all_goals rw [new]
  · exact name
  · exact order
  · exact filters
  · exact kind
  · exact below

theorem Following.stored {m₁ : Manager} {st : Contents × List ListTree}
    (state : Following files host asked w filename m handles busy m₁ st) (line : Line) :
    (storeLine host w m.free line m₁ = none ∧ storeTree host w line st = none) ∨
    ∃ m₂ st₂, storeLine host w m.free line m₁ = some m₂ ∧ storeTree host w line st = some st₂ ∧
      Following files host asked w filename m handles busy m₂ st₂ := by
  obtain ⟨c, there, _, _, _, _, contents, _⟩ := state.mine
  simp only [storeLine, there, storeTree, contents]
  cases added : addLine host w.kind w.filters line st.1 with
  | none => exact .inl ⟨rfl, rfl⟩
  | some k =>
    exact .inr ⟨_, _, rfl, rfl, state.filled (fills_contents fun _ => k) fun _ _ => rfl⟩

/-- No list that is being filled is one that the file leads to. -/
def BusyApart (files : Files) (w : Request) (filename : Str) (m : Manager) (busy : List Nat) : Prop :=
  ∀ b ∈ busy, ∃ c, m.slot b = some c ∧
    ¬ Relation.ReflTransGen (Includes files w.list_pwd) filename c.sourcefile

/-- Loads up to the depth stand for what reading the file gives and leave all lists faithful. -/
def LoadsDeliver (files : Files) (host : Host) (asked : Request → Str → Prop) (w : Request) (depth : Nat) :
    Prop :=
  ∀ filename m m' handles busy r, Accounts m handles → AllFaithful files host asked m busy →
    asked w filename → BusyApart files w filename m busy →
    newItemList files host w depth filename m = some (r, m') →
    AllFaithful files host asked m' busy ∧
      ∃ fresh, Fresh files host w filename fresh ∧ Delivers m' r fresh

theorem Following.busyApart {m₁ : Manager} {st : Contents × List ListTree} {inc : Str}
    (consistent : Consistent files asked) (wanted : asked w filename)
    (apart : BusyApart files w filename m busy) (includes : Includes files w.list_pwd filename inc)
    (state : Following files host asked w filename m handles busy m₁ st) :
    BusyApart files w inc m₁ (m.free :: busy) := by
  intro b mem
  obtain rfl | busyB := List.mem_cons.mp mem
  · obtain ⟨c, there, name⟩ := state.filling.mine
    refine ⟨c, there, ?_⟩
    rw [name]
    intro back
    exact consistent.acyclic w filename wanted filename (.head' includes back)
  · obtain ⟨c, there, far⟩ := apart b busyB
    obtain ⟨n, there₁⟩ := state.filling.kept b c there
    exact ⟨_, there₁, fun leads => far (.head includes leads)⟩

theorem Following.another {depth : Nat} {m₁ m₂ : Manager} {st : Contents × List ListTree} {inc : Str}
    {ok : Bool} (consistent : Consistent files asked) (wanted : asked w filename)
    (acc : Accounts m handles) (apart : BusyApart files w filename m busy)
    (loads : LoadsDeliver files host asked w depth) (includes : Includes files w.list_pwd filename inc)
    (state : Following files host asked w filename m handles busy m₁ st)
    (done : readAnotherItemList (newItemList files host w depth) m.free inc m₁ = some (ok, m₂)) :
    (Filling files w filename m handles m₂ ∧ AllFaithful files host asked m₂ (m.free :: busy)) ∧
    ∃ fresh, Fresh files host w inc fresh ∧ (ok = false → fresh = none) ∧
      (ok = true → ∃ tree, fresh = some tree ∧
        Following files host asked w filename m handles busy m₂ (st.1, st.2 ++ [tree])) := by
  have acyclic := consistent.acyclic w filename wanted
  have fills := state.filling.another acc acyclic
    (fun _ _ _ _ _ acc done => newItemList_keeps acyclic depth acc done) includes done
  have apart₁ := state.busyApart consistent wanted apart includes
  obtain ⟨c, there, name, order, filters, kind, contents, denotes⟩ := state.mine
  unfold readAnotherItemList at done
  split at done
  · simp at done
  · rename_i m' failed
    simp only [Option.some.injEq, Prod.mk.injEq] at done
    obtain ⟨rfl, rfl⟩ := done
    obtain ⟨faithful, fresh, read, delivers⟩ := loads _ _ _ _ _ _ state.filling.accounts state.faithful
      (consistent.onward w filename inc wanted includes) apart₁ failed
    cases delivers
    exact ⟨⟨fills, faithful⟩, none, read, fun _ => rfl, by simp⟩
  · rename_i j m' found
    simp only [Option.some.injEq, Prod.mk.injEq] at done
    obtain ⟨rfl, rfl⟩ := done
    obtain ⟨faithful, fresh, read, delivers⟩ := loads _ _ _ _ _ _ state.filling.accounts state.faithful
      (consistent.onward w filename inc wanted includes) apart₁ found
    have load := newItemList_keeps acyclic depth state.filling.accounts found
    obtain ⟨_, _, ⟨notMe, alone⟩, _⟩ := state.filling.loaded acyclic includes load
    have same : ∀ i, i ≠ m.free → (m'.modify m.free (attach j)).slot i = m'.slot i := by
      intro i other
      rw [slot_modify, if_neg (Ne.symm other)]
    cases delivers with
    | loaded delivered =>
      obtain ⟨n, there'⟩ := load.kept _ c there
      have parts : m'.kids m.free = some c.morelists := by rw [kids_of_slot there']; rfl
      have all := ((denotes.kept load.kept).append delivered).elsewhere alone same (by
        simp only [List.mem_append, List.mem_singleton, not_or]
        exact ⟨alone _ _ parts, fun same => notMe (by rw [same])⟩)
      have faithful' := faithful.elsewhere alone same
      refine ⟨⟨fills, faithful'⟩, _, read, by simp, fun _ => ⟨_, rfl, fills, faithful', ?_⟩⟩
      refine ⟨attach j (addRef n c), ?_, name, order, filters, kind, contents, all⟩
      rw [slot_modify, if_pos rfl, there', Option.map_some]
      rfl

theorem ifsreadItemList_follows {depth : Nat} {m₁ m₂ : Manager} {ok : Bool} {source : Source}
    {lines rest : List Str} (consistent : Consistent files asked) (wanted : asked w filename)
    (acc : Accounts m handles) (apart : BusyApart files w filename m busy)
    (loads : LoadsDeliver files host asked w depth)
    (named : ∀ inc ∈ includesIn source lines, Includes files w.list_pwd filename inc)
    (start : Following files host asked w filename m handles busy m₁ (.empty, []))
    (done : ifsreadItemList host w (newItemList files host w depth) source m.free lines m₁ = some (ok, rest, m₂)) :
    (Filling files w filename m handles m₂ ∧ AllFaithful files host asked m₂ (m.free :: busy)) ∧
    ∃ enough st, (ok = true → Following files host asked w filename m handles busy m₂ (sortRead w.kind st.1, st.2)) ∧
      ∀ depth ≥ enough, readLines source (storeTree host w) (anotherTree (freshTree files host w depth)) lines
        (.empty, []) = some (ok, rest, st) := by
  have loop : ∀ {ok rest m₂}, readLines source (storeLine host w m.free)
      (readAnotherItemList (newItemList files host w depth) m.free) lines m₁ = some (ok, rest, m₂) →
      ∃ enough st, (Filling files w filename m handles m₂ ∧ AllFaithful files host asked m₂ (m.free :: busy)) ∧
        (ok = true → Following files host asked w filename m handles busy m₂ st) ∧
        ∀ depth ≥ enough, readLines source (storeTree host w) (anotherTree (freshTree files host w depth)) lines
          (.empty, []) = some (ok, rest, st) := by
    intro ok rest m₂ read
    apply readLines_follows _ _ _ (fun m₁ st (state : Following files host asked w filename m handles busy m₁ st) =>
      ⟨state.filling, state.faithful⟩) (fun line m₁ st state => state.stored line) lines ?_ start read
    intro inc mem m₁ st ok m₂ state answer
    obtain ⟨kept, fresh, ⟨enough, reads⟩, failed, loaded⟩ := state.another consistent wanted acc apart loads
      (named inc mem) answer
    cases ok with
    | false =>
      refine ⟨enough, st, kept, by simp, ?_⟩
      intro depth deep
      rw [anotherTree, reads depth deep, failed rfl]
    | true =>
      obtain ⟨tree, rfl, state'⟩ := loaded rfl
      refine ⟨enough, (st.1, st.2 ++ [tree]), kept, fun _ => state', ?_⟩
      intro depth deep
      rw [anotherTree, reads depth deep]
  unfold ifsreadItemList at done
  split at done
  · rename_i rest' m₃ read
    simp only [Option.some.injEq, Prod.mk.injEq] at done
    obtain ⟨rfl, rfl, rfl⟩ := done
    obtain ⟨enough, st, _, state, reads⟩ := loop read
    have sorted := (state rfl).filled (fills_contents fun c => sortRead w.kind c.contents)
      fun c same => by simp only [same]; rfl
    exact ⟨⟨sorted.filling, sorted.faithful⟩, enough, st, fun _ => sorted, reads⟩
  · rename_i other
    obtain ⟨enough, st, kept, state, reads⟩ := loop done
    cases ok with
    | false => exact ⟨kept, enough, st, by simp, reads⟩
    | true => exact absurd done (other rest m₂)

/-- Reading the list through the table follows reading it without. -/
theorem readItemList_follows {depth : Nat} {m₁ m₂ : Manager} {ok : Bool} (consistent : Consistent files asked)
    (wanted : asked w filename) (acc : Accounts m handles) (apart : BusyApart files w filename m busy)
    (loads : LoadsDeliver files host asked w depth)
    (start : Following files host asked w filename m handles busy m₁ (.empty, []))
    (done : readItemList files host w (newItemList files host w depth) filename m.free m₁ = some (ok, m₂)) :
    (Filling files w filename m handles m₂ ∧ AllFaithful files host asked m₂ (m.free :: busy)) ∧
    ∃ fresh, Fresh files host w filename fresh ∧ (ok = false → fresh = none) ∧
      (ok = true → ∃ st, fresh = some (.node w.kind st.1 st.2) ∧
        Following files host asked w filename m handles busy m₂ st) := by
  have notMemory := consistent.file w filename wanted
  simp only [readItemList, notMemory] at done
  simp only [Bool.false_eq_true, if_false] at done
  by_cases exists_ : files.ensureListFileExists filename
  · simp only [exists_, Bool.not_true, Bool.false_eq_true, if_false] at done
    have dated := start.filled (f := fun c => { c with filedate := files.getFileDate filename })
      (fun c => ⟨c.contents, files.getFileDate filename, rfl⟩) (k := .empty) fun c same => same
    cases length : files.getFileLength filename with
    | none =>
      simp only [length, Option.some.injEq, Prod.mk.injEq] at done
      obtain ⟨rfl, rfl⟩ := done
      exact ⟨⟨dated.filling, dated.faithful⟩, none, quit_fresh fun depth => by simp [freshTree, exists_, length],
        fun _ => rfl, by simp⟩
    | some len =>
      simp only [length] at done
      by_cases blank : len < 2
      · simp only [blank, if_true, Option.some.injEq, Prod.mk.injEq] at done
        obtain ⟨rfl, rfl⟩ := done
        exact ⟨⟨dated.filling, dated.faithful⟩, some (.node w.kind .empty []),
          quit_fresh fun depth => by simp [freshTree, exists_, length, blank], by simp, fun _ => ⟨_, rfl, dated⟩⟩
      · simp only [blank, if_false] at done
        cases opened : files.listfile filename with
        | none =>
          simp only [opened, Option.some.injEq, Prod.mk.injEq] at done
          obtain ⟨rfl, rfl⟩ := done
          exact ⟨⟨dated.filling, dated.faithful⟩, none,
            quit_fresh fun depth => by simp [freshTree, exists_, length, blank, opened], fun _ => rfl, by simp⟩
        | some text =>
          simp only [opened] at done
          split at done
          · simp at done
          · rename_i ok' rest m₃ read
            simp only [Option.some.injEq, Prod.mk.injEq] at done
            obtain ⟨rfl, rfl⟩ := done
            have named : ∀ inc ∈ includesIn (fileSource w.list_pwd filename) (textLines text),
                Includes files w.list_pwd filename inc := fun inc mem => ⟨notMemory, text, opened, mem⟩
            obtain ⟨kept, enough, st, state, reads⟩ := ifsreadItemList_follows consistent wanted acc apart loads
              named dated read
            refine ⟨kept, if ok' then some (.node w.kind (sortRead w.kind st.1) st.2) else none,
              ⟨enough + 1, ?_⟩, ?_, ?_⟩
            · intro depth deep
              obtain ⟨depth, rfl⟩ : ∃ less, depth = less + 1 := ⟨depth - 1, by omega⟩
              simp only [freshTree, exists_, length, blank, opened, reads depth (by omega)]
              cases ok' <;> rfl
            · rintro rfl
              rfl
            · rintro rfl
              exact ⟨(sortRead w.kind st.1, st.2), rfl, state rfl⟩
  · simp only [exists_, Bool.not_false, if_true, Option.some.injEq, Prod.mk.injEq] at done
    obtain ⟨rfl, rfl⟩ := done
    exact ⟨⟨start.filling, start.faithful⟩, none, quit_fresh fun depth => by simp [freshTree, exists_],
      fun _ => rfl, by simp⟩

end Following

theorem Following.complete {w : Request} {filename : Str} {m m₂ : Manager} {handles busy : List Nat}
    {st : Contents × List ListTree} (wanted : asked w filename)
    (state : Following files host asked w filename m handles busy m₂ st)
    (read : Fresh files host w filename (some (.node w.kind st.1 st.2))) :
    AllFaithful files host asked m₂ busy ∧ Denotes m₂ [m.free] [.node w.kind st.1 st.2] := by
  obtain ⟨c, there, name, order, filters, kind, contents, denotes⟩ := state.mine
  have own : Denotes m₂ [m.free] [.node w.kind st.1 st.2] := by
    rw [← kind, ← contents]
    exact .cons there denotes .nil
  refine ⟨?_, own⟩
  intro i c' there' free
  by_cases here : i = m.free
  · subst here
    rw [there, Option.some.injEq] at there'
    subst there'
    exact ⟨w, _, by rw [name]; exact wanted, order.symm, filters.symm, by rw [name]; exact read, own⟩
  · exact state.faithful i c' there' (by simp [here, free])

theorem deleted_faithful {depth : Nat} {w : Request} {filename : Str} {m m₁ m₂ : Manager} {handles busy : List Nat}
    (state : Filling files w filename m handles m₁) (all : AllFaithful files host asked m₁ (m.free :: busy))
    (done : delete depth m₁ m.free = some m₂) : AllFaithful files host asked m₂ busy := by
  obtain ⟨c, there, _⟩ := state.mine
  obtain ⟨ws, walk⟩ := state.accounts.walked _ c there
  rw [delete_eq state.accounts there walk done]
  have all' : AllFaithful files host asked (m₁.addRefs (-1) ws) (m.free :: busy) := by
    apply all.kept (kept_addRefs m₁ (-1) ws)
    intro i c₁ there₁
    rw [slot_addRefs] at there₁
    obtain ⟨c₀, there₀, _⟩ := Option.map_eq_some_iff.mp there₁
    exact ⟨c₀, there₀⟩
  have alone : Unincluded (m₁.addRefs (-1) ws) m.free := by
    intro i js parts
    rw [kids_addRefs] at parts
    exact state.alone i js parts
  intro i c' there' free
  have other : i ≠ m.free := by
    rintro rfl
    simp at there'
  have same : ∀ i, i ≠ m.free → ((m₁.addRefs (-1) ws).clear m.free).slot i = (m₁.addRefs (-1) ws).slot i := by
    intro i other
    rw [slot_clear, if_neg (Ne.symm other)]
  exact all'.elsewhere alone same i c' there' (by simp [other, free])

theorem newItemList_delivers {w : Request} (consistent : Consistent files asked) (depth : Nat) :
    LoadsDeliver files host asked w depth := by
  induction depth with
  | zero =>
    intro filename m m' handles busy r _ _ _ _ done
    simp [newItemList] at done
  | succ depth ih =>
    intro filename m m' handles busy r acc all wanted apart done
    rw [newItemList] at done
    split at done
    · simp at done
    · -- A list that is used again was read for another request, which reads the file alike.
      rename_i i found
      obtain ⟨m₁, held, same⟩ := Option.map_eq_some_iff.mp done
      simp only [Prod.mk.injEq] at same
      obtain ⟨rfl, rfl⟩ := same
      obtain ⟨c, there, used, _⟩ := previousItem_found found
      obtain ⟨name, order, filters⟩ := previousUseItem_iff.mp used
      have free : i ∉ busy := by
        intro mem
        obtain ⟨c', there', far⟩ := apart i mem
        rw [there, Option.some.injEq] at there'
        rw [← there', name] at far
        exact far .refl
      obtain ⟨ws, walk⟩ := acc.walked i c there
      have counts := refList_adjusts.eq walk held
      subst counts
      refine ⟨?_, ?_⟩
      · apply all.kept (kept_addRefs m 1 ws)
        intro j c₁ there₁
        rw [slot_addRefs] at there₁
        obtain ⟨c₀, there₀, _⟩ := Option.map_eq_some_iff.mp there₁
        exact ⟨c₀, there₀⟩
      · obtain ⟨w', tree, wanted', order', filters', read, denotes⟩ := all i c there free
        rw [name] at wanted' read
        exact ⟨some tree, read.role consistent wanted' wanted (order'.trans order) (filters'.trans filters),
          .loaded (denotes.kept (kept_addRefs m 1 ws))⟩
    · split at done
      · simp at done
      · rename_i m₁ read
        simp only [Option.some.injEq, Prod.mk.injEq] at done
        obtain ⟨rfl, rfl⟩ := done
        obtain ⟨_, fresh, reads, _, loaded⟩ := readItemList_follows consistent wanted acc apart ih
          (following_start acc all) read
        obtain ⟨st, rfl, state⟩ := loaded rfl
        obtain ⟨faithful, denotes⟩ := state.complete wanted reads
        exact ⟨faithful, _, reads, .loaded denotes⟩
      · rename_i m₁ read
        obtain ⟨m₂, gone, same⟩ := Option.map_eq_some_iff.mp done
        simp only [Prod.mk.injEq] at same
        obtain ⟨rfl, rfl⟩ := same
        obtain ⟨⟨filling, faithful⟩, fresh, reads, failed, _⟩ := readItemList_follows consistent wanted acc apart ih
          (following_start acc all) read
        rw [failed rfl] at reads
        exact ⟨deleted_faithful filling faithful gone, none, reads, .failed⟩

/- A fresh load ends if reading the file without a table does. -/

theorem Fresh.unique {w : Request} {filename : Str} {one two : Option ListTree}
    (first : Fresh files host w filename one) (second : Fresh files host w filename two) : one = two := by
  obtain ⟨enough, reads⟩ := first
  obtain ⟨enough', reads'⟩ := second
  have same := (reads (max enough enough') (by omega)).symm.trans (reads' _ (by omega))
  exact Option.some.inj same

theorem readLines_deeper {w : Request} {depth : Nat} {source : Source} {lines rest : List Str}
    {st st' : Contents × List ListTree} {ok : Bool}
    (deeper : ∀ filename fresh, freshTree files host w depth filename = some fresh → Fresh files host w filename fresh)
    (read : readLines source (storeTree host w) (anotherTree (freshTree files host w depth)) lines st =
      some (ok, rest, st')) :
    ∃ enough st'', True ∧ (ok = true → st' = st'') ∧ ∀ depth ≥ enough, readLines source (storeTree host w)
      (anotherTree (freshTree files host w depth)) lines st = some (ok, rest, st'') := by
  apply readLines_follows _ _ _ (R := Eq) (Q := fun _ => True) (fun _ _ _ => trivial) ?_ lines ?_ rfl read
  · rintro line st _ rfl
    cases storeTree host w line st with
    | none => exact .inl ⟨rfl, rfl⟩
    | some st₁ => exact .inr ⟨st₁, st₁, rfl, rfl, rfl⟩
  · rintro inc _ st _ ok st₁ rfl answer
    cases load : freshTree files host w depth inc with
    | none => simp [anotherTree, load] at answer
    | some fresh =>
      obtain ⟨enough, reads⟩ := deeper inc fresh load
      refine ⟨enough, st₁, trivial, fun _ => rfl, ?_⟩
      intro depth deep
      rw [← answer, anotherTree, anotherTree, reads depth deep, load]

theorem fresh_of_freshTree {w : Request} (depth : Nat) : ∀ {filename : Str} {fresh : Option ListTree},
    freshTree files host w depth filename = some fresh → Fresh files host w filename fresh := by
  induction depth with
  | zero =>
    intro filename fresh read
    simp [freshTree] at read
  | succ depth ih =>
    intro filename fresh read
    simp only [freshTree] at read
    split at read
    · rename_i missing
      exact quit_fresh fun depth => by simp only [freshTree, missing, if_true]; exact read
    · rename_i exists_
      split at read
      · rename_i length
        exact quit_fresh fun depth => by simp only [freshTree, exists_, length]; exact read
      · rename_i len length
        split at read
        · rename_i blank
          exact quit_fresh fun depth => by simp only [freshTree, exists_, length, blank]; exact read
        · rename_i long
          split at read
          · rename_i opened
            exact quit_fresh fun depth => by simp only [freshTree, exists_, length, long, opened]; exact read
          · rename_i text opened
            cases loop : readLines (fileSource w.list_pwd filename) (storeTree host w)
              (anotherTree (freshTree files host w depth)) (textLines text) (.empty, []) with
            | none => simp [loop] at read
            | some r =>
              obtain ⟨ok, rest, st⟩ := r
              obtain ⟨enough, st', _, same, reads⟩ := readLines_deeper (fun _ _ => ih) loop
              refine ⟨enough + 1, ?_⟩
              intro depth deep
              obtain ⟨depth, rfl⟩ : ∃ less, depth = less + 1 := ⟨depth - 1, by omega⟩
              simp only [freshTree, exists_, length, long, opened, reads depth (by omega)]
              simp only [loop] at read
              cases ok with
              | false => exact read
              | true =>
                rw [← same rfl]
                exact read

section Existence
variable {w : Request} {filename : Str} {m : Manager} {handles busy : List Nat} {depth : Nat}

/-- Loads end for the files whose trees are read at the depth. -/
def LoadsEnd (files : Files) (host : Host) (asked : Request → Str → Prop) (w : Request) (depth : Nat) : Prop :=
  ∀ filename fresh m handles busy, freshTree files host w depth filename = some fresh → asked w filename →
    Accounts m handles → AllFaithful files host asked m busy → BusyApart files w filename m busy →
    ∃ enough r, ∀ d ≥ enough, newItemList files host w d filename m = some r

theorem ifsreadItemList_ends_fresh {source : Source} {lines : List Str} {r : Bool × List Str × Contents × List ListTree}
    (consistent : Consistent files asked) (wanted : asked w filename) (acc : Accounts m handles)
    (apart : BusyApart files w filename m busy) (ends : LoadsEnd files host asked w depth)
    (named : ∀ inc ∈ includesIn source lines, Includes files w.list_pwd filename inc) {m₁ : Manager}
    (start : Following files host asked w filename m handles busy m₁ (.empty, []))
    (read : readLines source (storeTree host w) (anotherTree (freshTree files host w depth)) lines (.empty, []) =
      some r) :
    ∃ enough result, ∀ d ≥ enough, ifsreadItemList host w (newItemList files host w d) source m.free lines m₁ =
      some result := by
  obtain ⟨ok, rest, st⟩ := r
  have loop : ∃ enough m₂, True ∧ (ok = true → Following files host asked w filename m handles busy m₂ st) ∧
      ∀ d ≥ enough, readLines source (storeLine host w m.free)
        (readAnotherItemList (newItemList files host w d) m.free) lines m₁ = some (ok, rest, m₂) := by
    apply readLines_follows _ _ _
      (R := fun st m₁ => Following files host asked w filename m handles busy m₁ st) (Q := fun _ => True)
      (fun _ _ _ => trivial) ?_ lines ?_ start read
    · intro line st m₁ state
      obtain ⟨one, two⟩ | ⟨m₂, st₂, one, two, next⟩ := state.stored line
      · exact .inl ⟨two, one⟩
      · exact .inr ⟨st₂, m₂, two, one, next⟩
    · intro inc mem st m₁ ok st₂ state answer
      have includes := named inc mem
      cases load : freshTree files host w depth inc with
      | none => simp [anotherTree, load] at answer
      | some fresh =>
        have apart₁ := state.busyApart consistent wanted apart includes
        obtain ⟨enough, ⟨r, m₂⟩, answers⟩ := ends inc fresh m₁ _ _ load
          (consistent.onward w filename inc wanted includes) state.filling.accounts state.faithful apart₁
        have result : ∃ ok' m₃, ∀ d ≥ enough,
            readAnotherItemList (newItemList files host w d) m.free inc m₁ = some (ok', m₃) := by
          cases r with
          | none => exact ⟨false, m₂, fun d deep => by rw [readAnotherItemList, answers d deep]⟩
          | some j =>
            refine ⟨true, m₂.modify m.free (attach j), ?_⟩
            intro d deep
            rw [readAnotherItemList, answers d deep]
            rfl
        obtain ⟨ok', m₃, results⟩ := result
        obtain ⟨_, fresh', read', failed, loaded⟩ := state.another consistent wanted acc apart
          (newItemList_delivers consistent enough) includes (results enough (Nat.le_refl _))
        have same := (fresh_of_freshTree depth load).unique read'
        subst same
        rw [anotherTree, load] at answer
        cases ok' with
        | false =>
          rw [failed rfl] at answer
          simp only [Option.some.injEq, Prod.mk.injEq] at answer
          obtain ⟨rfl, rfl⟩ := answer
          exact ⟨enough, m₃, trivial, by simp, results⟩
        | true =>
          obtain ⟨tree, rfl, next⟩ := loaded rfl
          simp only [Option.some.injEq, Prod.mk.injEq] at answer
          obtain ⟨rfl, rfl⟩ := answer
          exact ⟨enough, m₃, trivial, fun _ => next, results⟩
  obtain ⟨enough, m₂, _, _, reads⟩ := loop
  cases ok with
  | false =>
    refine ⟨enough, (false, rest, m₂), ?_⟩
    intro d deep
    rw [ifsreadItemList, reads d deep]
  | true =>
    refine ⟨enough, (true, rest, m₂.modify m.free fun c => { c with contents := sortRead w.kind c.contents }), ?_⟩
    intro d deep
    rw [ifsreadItemList, reads d deep]

theorem readItemList_ends_fresh {fresh : Option ListTree} (consistent : Consistent files asked)
    (wanted : asked w filename) (acc : Accounts m handles) (all : AllFaithful files host asked m busy)
    (apart : BusyApart files w filename m busy) (ends : LoadsEnd files host asked w depth)
    (read : freshTree files host w (depth + 1) filename = some fresh) :
    ∃ enough r, ∀ d ≥ enough, readItemList files host w (newItemList files host w d) filename m.free
      (m.place m.free (newContainer files w filename)) = some r := by
  have notMemory := consistent.file w filename wanted
  have start := @following_start files host asked w filename m handles busy acc all
  have dated := start.filled (f := fun c => { c with filedate := files.getFileDate filename })
    (fun c => ⟨c.contents, files.getFileDate filename, rfl⟩) (k := .empty) fun c same => same
  simp only [freshTree] at read
  simp only [readItemList, notMemory, Bool.false_eq_true, if_false]
  split
  · exact ⟨0, _, fun _ _ => rfl⟩
  · rename_i exists_
    simp only [exists_] at read
    cases length : files.getFileLength filename with
    | none => exact ⟨0, _, fun _ _ => rfl⟩
    | some len =>
      simp only [length] at read ⊢
      by_cases blank : len < 2
      · simp only [blank, if_true]
        exact ⟨0, _, fun _ _ => rfl⟩
      · simp only [blank, if_false] at read ⊢
        cases opened : files.listfile filename with
        | none => exact ⟨0, _, fun _ _ => rfl⟩
        | some text =>
          simp only [opened] at read ⊢
          cases loop : readLines (fileSource w.list_pwd filename) (storeTree host w)
            (anotherTree (freshTree files host w depth)) (textLines text) (.empty, []) with
          | none => simp [loop] at read
          | some r =>
            obtain ⟨enough, ⟨ok, rest, m₂⟩, reads⟩ := ifsreadItemList_ends_fresh consistent wanted acc apart ends
              (fun inc mem => ⟨notMemory, text, opened, mem⟩) dated loop
            refine ⟨enough, (ok, m₂), ?_⟩
            intro d deep
            simp only [reads d deep]

theorem newItemList_ends_fresh (consistent : Consistent files asked) (depth : Nat) :
    LoadsEnd files host asked w depth := by
  induction depth with
  | zero =>
    intro filename fresh m handles busy read
    simp [freshTree] at read
  | succ depth ih =>
    intro filename fresh m handles busy read wanted acc all apart
    obtain ⟨looked, previous, lookup⟩ := previousItem_ends files w filename acc (List.range m.l.length)
    cases previous with
    | some i =>
      obtain ⟨c, there, _, _⟩ := previousItem_found (lookup looked (Nat.le_refl _))
      obtain ⟨ws, walk⟩ := acc.walked i c there
      obtain ⟨enough, ends⟩ := refList_adjusts.ends_eq walk
      refine ⟨max looked enough + 1, (some i, m.addRefs 1 ws), ?_⟩
      intro d deep
      obtain ⟨d, rfl⟩ : ∃ less, d = less + 1 := ⟨d - 1, by omega⟩
      rw [newItemList, lookup d (by omega)]
      simp only [ends d (by omega), Option.map_some]
    | none =>
      obtain ⟨enough, ⟨ok, m₁⟩, reads⟩ := readItemList_ends_fresh consistent wanted acc all apart ih read
      cases ok with
      | true =>
        refine ⟨max looked enough + 1, (some m.free, m₁), ?_⟩
        intro d deep
        obtain ⟨d, rfl⟩ : ∃ less, d = less + 1 := ⟨d - 1, by omega⟩
        rw [newItemList, lookup d (by omega)]
        simp only [reads d (by omega)]
      | false =>
        obtain ⟨⟨filling, _⟩, _⟩ := readItemList_follows consistent wanted acc apart
          (newItemList_delivers consistent enough) (following_start acc all) (reads enough (Nat.le_refl _))
        obtain ⟨c, there, _⟩ := filling.mine
        obtain ⟨enough', m₂, _, ends⟩ := delete_ends filling.accounts there
        refine ⟨max (max looked enough) enough' + 1, (none, m₂), ?_⟩
        intro d deep
        obtain ⟨d, rfl⟩ : ∃ less, d = less + 1 := ⟨d - 1, by omega⟩
        rw [newItemList, lookup d (by omega)]
        simp only [reads d (by omega), ends d (by omega), Option.map_some]

end Existence

end Loading

/- Runs of loads. -/

structure Call where
  w : Request
  filename : Str
  deriving DecidableEq

def runCalls (files : Files) (host : Host) (depth : Nat) : List Call → Manager → Option (List (Option Nat) × Manager)
  | [], m => some ([], m)
  | c :: calls, m =>
    match newItemList files host c.w depth c.filename m with
    | none => none
    | some (r, m) => (runCalls files host depth calls m).map fun (ids, m) => (r :: ids, m)

def Leads (files : Files) (c : Call) (name : Str) : Prop :=
  Relation.ReflTransGen (Includes files c.w.list_pwd) c.filename name

/-- Whatever file two calls with one order and one set of filters lead to is of one kind for both
    and names the same includes for both. The calls lead to list files only, and to no include
    cycle. -/
structure OneRole (files : Files) (calls : List Call) : Prop where
  acyclic : ∀ c ∈ calls, Acyclic files c.w.list_pwd
  file : ∀ c ∈ calls, ∀ name, Leads files c name → isMemory name = false
  roles : ∀ c ∈ calls, ∀ c' ∈ calls, c.w.startswith = c'.w.startswith → c.w.filters = c'.w.filters →
    ∀ name, Leads files c name → Leads files c' name → c.w.kind = c'.w.kind ∧
      includesOf files c.w.list_pwd name = includesOf files c'.w.list_pwd name

/-- A call that loads the file into an empty table ends; it fails if the call failed, and else the
    two lists answer alike, as they were loaded and when both are sorted. -/
def AsFresh (files : Files) (host : Host) (m : Manager) (c : Call) (r : Option Nat) : Prop :=
  ∃ enough r₀ m₀,
    (∀ depth ≥ enough, newItemList files host c.w depth c.filename (.empty []) = some (r₀, m₀)) ∧
    ((r = none ∧ r₀ = none) ∨ ∃ i i₀, r = some i ∧ r₀ = some i₀ ∧ SameAnswers host m i m₀ i₀ ∧
      ∀ startsWith, ∃ enough, ∀ depth ≥ enough, ∃ sorted sorted₀, doSort startsWith depth m i = some sorted ∧
        doSort startsWith depth m₀ i₀ = some sorted₀ ∧ SameAnswers host sorted i sorted₀ i₀)

def askedBy (files : Files) (calls : List Call) (w : Request) (name : Str) : Prop :=
  ∃ c ∈ calls, c.w = w ∧ Leads files c name

theorem OneRole.consistent {files : Files} {calls : List Call} (one : OneRole files calls) :
    Consistent files (askedBy files calls) := by
  constructor
  · rintro w name ⟨c, mem, rfl, _⟩
    exact one.acyclic c mem
  · rintro w name ⟨c, mem, rfl, leads⟩
    exact one.file c mem name leads
  · rintro w name inc ⟨c, mem, rfl, leads⟩ includes
    exact ⟨c, mem, rfl, leads.tail includes⟩
  · rintro w w' name ⟨c, mem, rfl, leads⟩ ⟨c', mem', rfl, leads'⟩ order filters
    exact one.roles c mem c' mem' order filters name leads leads'

section Runs
variable {files : Files} {host : Host} {asked : Request → Str → Prop}

/-- Every answer of the run stands, at its end, for what reading the file gives. -/
theorem runCalls_delivers (consistent : Consistent files asked) {depth : Nat} (calls : List Call) :
    ∀ {m m' : Manager} {handles : List Nat} {ids : List (Option Nat)}, Accounts m handles →
      AllFaithful files host asked m [] → (∀ c ∈ calls, asked c.w c.filename) →
      runCalls files host depth calls m = some (ids, m') →
      Kept m m' ∧ List.Forall₂ (fun c r => ∃ fresh, Fresh files host c.w c.filename fresh ∧ Delivers m' r fresh)
        calls ids := by
  induction calls with
  | nil =>
    intro m m' handles ids _ _ _ done
    simp only [runCalls, Option.some.injEq, Prod.mk.injEq] at done
    obtain ⟨rfl, rfl⟩ := done
    exact ⟨.refl m, .nil⟩
  | cons c calls ih =>
    intro m m' handles ids acc all wanted done
    have wantedFirst := wanted c (List.mem_cons_self ..)
    rw [runCalls] at done
    split at done
    · simp at done
    · rename_i r m₁ load
      obtain ⟨⟨ids₁, m₂⟩, rest, same⟩ := Option.map_eq_some_iff.mp done
      simp only [Prod.mk.injEq] at same
      obtain ⟨rfl, rfl⟩ := same
      have keeps := newItemList_keeps (consistent.acyclic c.w c.filename wantedFirst) depth acc load
      obtain ⟨faithful, fresh, read, delivers⟩ := newItemList_delivers consistent depth _ _ _ _ [] _ acc all
        wantedFirst (by simp [BusyApart]) load
      obtain ⟨kept, others⟩ := ih keeps.accounts faithful (fun c mem => wanted c (List.mem_cons_of_mem _ mem)) rest
      refine ⟨keeps.kept.trans kept, .cons ⟨fresh, read, ?_⟩ others⟩
      cases delivers with
      | failed => exact .failed
      | loaded denotes => exact .loaded (denotes.kept kept)

theorem allFaithful_empty (stdin : List Str) : AllFaithful files host asked (.empty stdin) [] := by
  intro i c there
  simp [Manager.slot, SlotTable.slot, Manager.empty] at there

theorem asFresh_of_delivers (consistent : Consistent files asked) {m : Manager} {c : Call} {r : Option Nat}
    {fresh : Option ListTree} (wanted : asked c.w c.filename) (read : Fresh files host c.w c.filename fresh)
    (delivers : Delivers m r fresh) : AsFresh files host m c r := by
  obtain ⟨read₀, reads⟩ := read
  obtain ⟨enough, ⟨r₀, m₀⟩, loads⟩ := newItemList_ends_fresh consistent read₀ _ _ _ _ [] (reads read₀ (Nat.le_refl _))
    wanted (accounts_empty []) (allFaithful_empty []) (by simp [BusyApart])
  obtain ⟨_, fresh₀, read', delivers₀⟩ := newItemList_delivers consistent enough _ _ _ _ [] _ (accounts_empty [])
    (allFaithful_empty []) wanted (by simp [BusyApart]) (loads enough (Nat.le_refl _))
  have same := read'.unique ⟨read₀, reads⟩
  subst same
  refine ⟨enough, r₀, m₀, loads, ?_⟩
  cases delivers with
  | failed =>
    cases delivers₀
    exact .inl ⟨rfl, rfl⟩
  | loaded denotes =>
    cases delivers₀ with
    | loaded denotes₀ =>
      exact .inr ⟨_, _, rfl, rfl, sameAnswers_of_tree denotes denotes₀,
        fun startsWith => sorted_sameAnswers startsWith denotes denotes₀⟩

end Runs

/-- In every run of loads that uses each file in one role, reuse cannot be told from a fresh load. -/
theorem reuse_unseen_in_one_role (files : Files) (host : Host) (calls : List Call) (one : OneRole files calls)
    (depth : Nat) (stdin : List Str) (ids : List (Option Nat)) (m : Manager)
    (ran : runCalls files host depth calls (.empty stdin) = some (ids, m)) :
    List.Forall₂ (AsFresh files host m) calls ids := by
  have wanted : ∀ c ∈ calls, askedBy files calls c.w c.filename := fun c mem => ⟨c, mem, rfl, .refl⟩
  have delivered := (runCalls_delivers one.consistent calls (accounts_empty stdin) (allFaithful_empty stdin)
    wanted ran).2
  have both := (List.forall₂_and_left calls ids).mpr ⟨wanted, delivered⟩
  apply both.imp
  intro c r ⟨wanted, fresh, read, delivers⟩
  exact asFresh_of_delivers one.consistent wanted read delivers

def adCalls : List Call := [⟨siteList, str "/sites"⟩, ⟨siteList, str "/ads"⟩]

def adsLoaded : Manager := ((runCalls adFiles noHost 4 adCalls (.empty [])).map Prod.snd).getD (.empty [])

theorem adCalls_one_role : OneRole adFiles adCalls := by
  have same : ∀ c ∈ adCalls, c.w = siteList := by decide
  constructor
  · intro c mem
    rw [same c mem]
    exact adFiles_acyclic
  · intro c mem name leads
    have named : ∀ p ∈ adTexts, ∀ inc ∈ includesIn (fileSource siteList.list_pwd p.1) (textLines p.2),
        isMemory inc = false := by decide
    have called : ∀ c ∈ adCalls, isMemory c.filename = false := by decide
    cases leads.cases_tail with
    | inl start =>
      rw [start]
      exact called c mem
    | inr step =>
      obtain ⟨_, _, includes⟩ := step
      rw [same c mem] at includes
      obtain ⟨p, known, _, inc⟩ := includes_filesOf includes
      exact named p known name inc
  · intro c mem c' mem' _ _ name _ _
    rw [same c mem, same c' mem']
    exact ⟨rfl, rfl⟩

/-- A list that was loaded as an include is used again as if it had been loaded on its own. -/
theorem included_ads_reused : runCalls adFiles noHost 4 adCalls (.empty []) = some ([some 0, some 1], adsLoaded) ∧
    List.Forall₂ (AsFresh adFiles noHost adsLoaded) adCalls [some 0, some 1] := by
  have ran : runCalls adFiles noHost 4 adCalls (.empty []) = some ([some 0, some 1], adsLoaded) := by decide
  exact ⟨ran, reuse_unseen_in_one_role adFiles noHost adCalls adCalls_one_role 4 [] _ _ ran⟩

/-- A file with a subnet, and the expressions and addresses that its lookup comes to. -/
def subnetFiles : Files := filesOf [(str "/ips", str "10.0.0.0/24\n")]

def subnetHost : Host :=
  { noHost with
    matchIP := fun text => text == str "10.0.0.5"
    matchCIDR := fun text => text == str "10.0.0.0/24"
    inet_aton := fun text =>
      if text = str "10.0.0.0" then some 0x0A000000
      else if text = str "10.0.0.5" then some 0x0A000005 else none }

def ipList : Request := { siteList with kind := ⟨true, false, false⟩ }

def subnetCalls : List Call := [⟨siteList, str "/ips"⟩, ⟨ipList, str "/ips"⟩]

def subnetsLoaded : Manager :=
  ((runCalls subnetFiles subnetHost 4 subnetCalls (.empty [])).map Prod.snd).getD (.empty [])

def subnetFresh : Manager :=
  ((newItemList subnetFiles subnetHost ipList 4 (str "/ips") (.empty [])).map Prod.snd).getD (.empty [])

/-- The file is loaded as a site list and then asked for as an IP list: the site list is handed
    out, and an address of the subnet is not found in it. -/
theorem site_list_used_as_ip_list :
    runCalls subnetFiles subnetHost 4 subnetCalls (.empty []) = some ([some 0, some 0], subnetsLoaded) ∧
    newItemList subnetFiles subnetHost ipList 4 (str "/ips") (.empty []) = some (some 0, subnetFresh) ∧
    findInList subnetHost noon (str "10.0.0.5") 1 subnetsLoaded 0 = some none ∧
    findInList subnetHost noon (str "10.0.0.5") 1 subnetFresh 0 = some (some ([], some [])) := by
  decide

end GuardianListCache
