import E2Guardian.ListEnds
import E2Guardian.PhraseGraph
import E2Guardian.SlotTable

/- The phrase lists of ListManager: newPhraseList, which looks for a list of the same three files,
   and readbplfile, which fills a list that is not in use yet. The limit of a list is compared but
   never stored. A read that fails leaves the list in the table with what had been read. -/
namespace GuardianPhraseManager
open GuardianString GuardianPhraseList GuardianPhraseGraph GuardianListEnds SlotTable

structure PhraseContainer where
  exceptionpfile : Str
  bannedpfile : Str
  weightedpfile : Str
  naughtynesslimit : Int
  exceptionpfiledate : Int
  bannedpfiledate : Int
  weightedpfiledate : Int
  list : PhraseList
  graph : Option PhraseGraph
  used : Bool
  deriving DecidableEq

section Manager
variable (date : Str → Int) (fqs : Bool) (depth : Nat)

def previousUsePhrase (files : PhraseFiles) (c : PhraseContainer) : Bool :=
  c.exceptionpfile == files.exception && c.bannedpfile == files.banned &&
    c.weightedpfile == files.weighted && c.naughtynesslimit == files.nlimit &&
    decide (date files.banned ≤ c.bannedpfiledate) &&
    decide (date files.exception ≤ c.exceptionpfiledate) &&
    decide (date files.weighted ≤ c.weightedpfiledate)

def newPhraseContainer (files : PhraseFiles) : PhraseContainer :=
  { exceptionpfile := files.exception, bannedpfile := files.banned, weightedpfile := files.weighted
    naughtynesslimit := 0
    exceptionpfiledate := date files.exception, bannedpfiledate := date files.banned
    weightedpfiledate := date files.weighted
    list := .empty, graph := none, used := false }

def newPhraseList (files : PhraseFiles) (t : Slots PhraseContainer) : Nat × Slots PhraseContainer :=
  match firstPlace (previousUsePhrase date files) t with
  | some i => (i, t)
  | none => (free t, place t (free t) (newPhraseContainer date files))

/-- The three reads, each into what the ones before it left, also after one that failed. -/
def readThree (view : FileSystem) (files : PhraseFiles) (list : PhraseList) : Option (Bool × PhraseList) :=
  match readPhraseList view true 0 depth list files.exception (-1) (-1) with
  | none => none
  | some (first, list) =>
    match readPhraseList view false files.nlimit depth list files.banned (-1) (-1) with
    | none => none
    | some (second, list) =>
      match readPhraseList view false files.nlimit depth list files.weighted (-1) (-1) with
      | none => none
      | some (third, list) => some (first && second && third, list)

/-- The reads of readbplfile into a list that is not in use yet. -/
def readUnused (view : FileSystem) (files : PhraseFiles) (c : PhraseContainer) :
    Option (Bool × PhraseContainer) :=
  if c.used then some (true, c)
  else
    match readThree depth view files c.list with
    | none => none
    | some (false, list) => some (false, { c with list := list })
    | some (true, list) =>
      match makeGraph fqs list with
      | none => none
      | some g => some (true, { c with list := g.list, graph := some g, used := true })

def readbplfile (view : FileSystem) (files : PhraseFiles) (t : Slots PhraseContainer) :
    Option (Option Nat × Slots PhraseContainer) :=
  let (res, t) := newPhraseList date files t
  match slot t res with
  | none => none
  | some c =>
    match readUnused fqs depth view files c with
    | none => none
    | some (ok, c) => some (if ok then some res else none, modify t res fun _ => c)

structure Ask where
  view : FileSystem
  files : PhraseFiles

def runAsks : List Ask → Slots PhraseContainer → Option (List (Ask × Option Nat) × Slots PhraseContainer)
  | [], t => some ([], t)
  | a :: asks, t =>
    match readbplfile date fqs depth a.view a.files t with
    | none => none
    | some (r, t) => (runAsks asks t).map fun (log, t) => ((a, r) :: log, t)

end Manager

/- Reading depends on the files that the includes lead to. -/

theorem phraseLines_congr {keep : PhraseList → Int → Bool} {isexception : Bool} {nlimit : Int}
    {load load' : PhraseList → Str → Int → Int → Option (Bool × PhraseList)} (lines : List Str) :
    ∀ st : ReadState, (∀ name ∈ phraseIncludes st.caseinsensitive lines, ∀ l cat time,
        load l name cat time = load' l name cat time) →
      readLines keep load isexception nlimit lines st = readLines keep load' isexception nlimit lines st := by
  induction lines with
  | nil => exact fun _ _ => rfl
  | cons linebuffer lines ih =>
    intro st same
    rw [readLines, readLines, readLine_eq, readLine_eq]
    rw [phraseIncludes] at same
    cases request : lineRequest linebuffer st.caseinsensitive with
    | stop => rfl
    | include_ name =>
      simp only [request, List.mem_cons] at same
      simp only [serve, same name (.inl rfl)]
      cases load' st.list name st.catindex st.timeindex with
      | none => rfl
      | some r => exact ih _ fun inc mem => same inc (.inr mem)
    | phrases line =>
      simp only [request] at same
      by_cases stored : keep st.list st.timeindex
      · simp only [serve, stored, if_true]
        exact ih _ same
      · simp only [serve, stored]
        exact ih _ same
    | nothing | category lcat | noconvert | time tl =>
      simp only [request] at same
      simp only [serve]
      exact ih _ same

theorem readPhraseList_congr {text view : FileSystem} {isexception : Bool} {nlimit : Int} (depth : Nat) :
    ∀ {filename : Str}, (∀ name, Relation.ReflTransGen (PhraseIncludes text) filename name → view name = text name) →
      ∀ l cat time, readPhraseList view isexception nlimit depth l filename cat time =
        readPhraseList text isexception nlimit depth l filename cat time := by
  induction depth with
  | zero => exact fun _ _ _ _ => rfl
  | succ depth ih =>
    intro filename same l cat time
    simp only [readPhraseList, readPhraseListKeeping, same filename .refl]
    cases opened : text filename with
    | none => rfl
    | some contents =>
      simp only
      split
      · rfl
      · apply phraseLines_congr
        intro inc mem l cat time
        exact ih (fun name leads => same name (.head ⟨contents, opened, mem⟩ leads)) l cat time

/- What decides the result of a read. -/

def timesRead : Bool → List Str → Bool
  | _, [] => true
  | caseinsensitive, linebuffer :: rest =>
    match lineRequest linebuffer caseinsensitive with
    | .stop => false
    | .noconvert => timesRead false rest
    | _ => timesRead caseinsensitive rest

def readable (view : FileSystem) (name : Str) : Bool :=
  match view name with
  | none => false
  | some text => decide (text.length < 2) || timesRead true (GuardianListManager.textLines text)

def Ask.loadable (a : Ask) : Bool :=
  readable a.view a.files.exception && readable a.view a.files.banned && readable a.view a.files.weighted

theorem readLines_times {keep : PhraseList → Int → Bool} {isexception : Bool} {nlimit : Int}
    {load : PhraseList → Str → Int → Int → Option (Bool × PhraseList)} {ok : Bool} {l : PhraseList}
    (lines : List Str) : ∀ st : ReadState, readLines keep load isexception nlimit lines st = some (ok, l) →
      ok = timesRead st.caseinsensitive lines := by
  induction lines with
  | nil =>
    intro st read
    simp only [readLines, Option.some.injEq, Prod.mk.injEq] at read
    exact read.1.symm
  | cons linebuffer lines ih =>
    intro st read
    rw [readLines, readLine_eq] at read
    rw [timesRead]
    cases request : lineRequest linebuffer st.caseinsensitive with
    | stop =>
      simp only [request, serve, Option.some.injEq, Prod.mk.injEq] at read
      exact read.1.symm
    | include_ name =>
      simp only [request, serve] at read
      cases answer : load st.list name st.catindex st.timeindex with
      | none => simp [answer] at read
      | some r =>
        simp only [answer] at read
        have rest := ih _ read
        exact rest
    | phrases line =>
      simp only [request, serve] at read
      by_cases stored : keep st.list st.timeindex
      · simp only [stored, if_true] at read
        have rest := ih _ read
        exact rest
      · simp only [stored] at read
        have rest := ih _ read
        exact rest
    | nothing | category lcat | noconvert | time tl =>
      simp only [request, serve] at read
      have rest := ih _ read
      exact rest

theorem readPhraseList_readable {view : FileSystem} {isexception ok : Bool} {nlimit cat time : Int} {depth : Nat}
    {l l' : PhraseList} {filename : Str}
    (read : readPhraseList view isexception nlimit depth l filename cat time = some (ok, l')) :
    ok = readable view filename := by
  cases depth with
  | zero => simp [readPhraseList, readPhraseListKeeping] at read
  | succ depth =>
    simp only [readPhraseList, readPhraseListKeeping] at read
    unfold readable
    cases opened : view filename with
    | none =>
      simp only [opened, Option.some.injEq, Prod.mk.injEq] at read
      exact read.1.symm
    | some text =>
      simp only [opened] at read
      by_cases blank : text.length < 2
      · simp only [blank, if_true, Option.some.injEq, Prod.mk.injEq] at read
        simp [blank, read.1]
      · simp only [blank, if_false] at read
        simpa [blank, GuardianListManager.textLines] using readLines_times _ _ read

theorem readThree_loadable {a : Ask} {depth : Nat} {ok : Bool} {l l' : PhraseList}
    (read : readThree depth a.view a.files l = some (ok, l')) : ok = a.loadable := by
  unfold readThree at read
  split at read
  · cases read
  · rename_i first one exception
    split at read
    · cases read
    · rename_i second two banned
      split at read
      · cases read
      · rename_i third three weighted
        simp only [Option.some.injEq, Prod.mk.injEq] at read
        rw [← read.1, readPhraseList_readable exception, readPhraseList_readable banned,
          readPhraseList_readable weighted]
        rfl

theorem readThree_fresh {view : FileSystem} {files : PhraseFiles} {depth : Nat} {l : PhraseList} :
    readThree depth view files .empty = some (true, l) ↔ readFiles view depth files = some l := by
  constructor
  · intro read
    unfold readThree at read
    split at read
    · cases read
    · rename_i first one exception
      split at read
      · cases read
      · rename_i second two banned
        split at read
        · cases read
        · rename_i third three weighted
          simp only [Option.some.injEq, Prod.mk.injEq, Bool.and_eq_true] at read
          obtain ⟨⟨⟨rfl, rfl⟩, rfl⟩, rfl⟩ := read
          unfold readPhraseList at exception banned weighted
          simp only [readFiles, readFilesKeeping, exception, banned, weighted]
  · intro read
    unfold readFiles readFilesKeeping at read
    split at read
    · rename_i one exception
      split at read
      · rename_i two banned
        split at read
        · rename_i three weighted
          cases read
          simp only [readThree, readPhraseList, exception, banned, weighted, Bool.and_self]
        · cases read
      · cases read
    · cases read

/-- The call sees the three files and all that they include. -/
def SeesAll (text : FileSystem) (a : Ask) : Prop :=
  ∀ top ∈ [a.files.exception, a.files.banned, a.files.weighted], ∀ name,
    Relation.ReflTransGen (PhraseIncludes text) top name → a.view name = text name

theorem readThree_congr {text : FileSystem} {a : Ask} (sees : SeesAll text a) (depth : Nat) (l : PhraseList) :
    readThree depth a.view a.files l = readThree depth text a.files l := by
  unfold readThree
  simp only [readPhraseList_congr depth (sees a.files.exception (by simp)),
    readPhraseList_congr depth (sees a.files.banned (by simp)),
    readPhraseList_congr depth (sees a.files.weighted (by simp))]

/- Entries of the table. -/

def sameFiles (f g : PhraseFiles) : Bool :=
  g.exception == f.exception && g.banned == f.banned && g.weighted == f.weighted

def named (files : PhraseFiles) (c : PhraseContainer) : Bool :=
  c.exceptionpfile == files.exception && c.bannedpfile == files.banned && c.weightedpfile == files.weighted

def Ask.storesNothing (depth : Nat) (a : Ask) : Bool :=
  decide (readThree depth a.view a.files .empty = some (false, .empty))

section Entries
variable {date : Str → Int} {fqs : Bool} {depth : Nat} {text : FileSystem}

/-- The limit of an entry is 0, whatever limit it was asked for with. -/
structure Entry (date : Str → Int) (c : PhraseContainer) : Prop where
  limit : c.naughtynesslimit = 0
  exception : c.exceptionpfiledate = date c.exceptionpfile
  banned : c.bannedpfiledate = date c.bannedpfile
  weighted : c.weightedpfiledate = date c.weightedpfile

def Loaded (date : Str → Int) (fqs : Bool) (depth : Nat) (text : FileSystem) (files : PhraseFiles)
    (c : PhraseContainer) : Prop :=
  ∃ l g, readFiles text depth files = some l ∧ makeGraph fqs l = some g ∧
    c = { newPhraseContainer date files with list := g.list, graph := some g, used := true }

theorem entry_new (files : PhraseFiles) : Entry date (newPhraseContainer date files) := ⟨rfl, rfl, rfl, rfl⟩

theorem loaded_used {files : PhraseFiles} {c : PhraseContainer} (loaded : Loaded date fqs depth text files c) :
    c.used = true := by
  obtain ⟨l, g, _, _, rfl⟩ := loaded
  rfl

theorem previousUse_entry {c : PhraseContainer} (entry : Entry date c) (files : PhraseFiles) :
    previousUsePhrase date files c = (named files c && files.nlimit == 0) := by
  obtain ⟨limit, exception, banned, weighted⟩ := entry
  unfold previousUsePhrase named
  rw [limit, exception, banned, weighted]
  by_cases same : c.exceptionpfile = files.exception ∧ c.bannedpfile = files.banned ∧ c.weightedpfile = files.weighted
  · obtain ⟨e, b, w⟩ := same
    simp [e, b, w, eq_comm]
  · have differ : (c.exceptionpfile == files.exception && c.bannedpfile == files.banned &&
        c.weightedpfile == files.weighted) = false := by
      simpa [and_assoc] using same
    simp [differ]

theorem storesNothing_not_loadable {a : Ask} (idle : a.storesNothing depth) : a.loadable = false := by
  have read := of_decide_eq_true idle
  exact (readThree_loadable read).symm

theorem loadable_stores {a : Ask} (loadable : a.loadable) : ¬ a.storesNothing depth := by
  intro idle
  rw [storesNothing_not_loadable idle] at loadable
  cases loadable

theorem readUnused_keeps {view : FileSystem} {files : PhraseFiles} {c c' : PhraseContainer} {ok : Bool}
    (read : readUnused fqs depth view files c = some (ok, c')) :
    ∃ list graph used, c' = { c with list := list, graph := graph, used := used } := by
  unfold readUnused at read
  split at read
  · cases read
    exact ⟨c.list, c.graph, c.used, rfl⟩
  · split at read
    · cases read
    · cases read
      exact ⟨_, _, _, rfl⟩
    · split at read
      · cases read
      · cases read
        exact ⟨_, _, _, rfl⟩

theorem readUnused_named {view : FileSystem} {files : PhraseFiles} {c c' : PhraseContainer} {ok : Bool}
    (read : readUnused fqs depth view files c = some (ok, c')) (f : PhraseFiles) : named f c' = named f c := by
  obtain ⟨list, graph, used, rfl⟩ := readUnused_keeps read
  rfl

theorem readUnused_entry {view : FileSystem} {files : PhraseFiles} {c c' : PhraseContainer} {ok : Bool}
    (read : readUnused fqs depth view files c = some (ok, c')) (entry : Entry date c) : Entry date c' := by
  obtain ⟨list, graph, used, rfl⟩ := readUnused_keeps read
  exact ⟨entry.limit, entry.exception, entry.banned, entry.weighted⟩

theorem readUnused_used {view : FileSystem} {files : PhraseFiles} {c c' : PhraseContainer} {ok : Bool}
    (used : c.used) (read : readUnused fqs depth view files c = some (ok, c')) : ok = true ∧ c' = c := by
  simp only [readUnused, used, if_true, Option.some.injEq, Prod.mk.injEq] at read
  exact ⟨read.1.symm, read.2.symm⟩

/-- A read into an entry that is not in use succeeds if the files can be read. -/
theorem readUnused_loadable {a : Ask} {c c' : PhraseContainer} {ok : Bool} (unused : c.used = false)
    (read : readUnused fqs depth a.view a.files c = some (ok, c')) : ok = a.loadable ∧ c'.used = a.loadable := by
  simp only [readUnused, unused] at read
  split at read
  · contradiction
  · split at read
    · cases read
    · rename_i list three
      cases read
      exact ⟨readThree_loadable three, readThree_loadable three⟩
    · rename_i list three
      split at read
      · cases read
      · cases read
        exact ⟨readThree_loadable three, readThree_loadable three⟩

theorem readUnused_idle {a : Ask} {c' : PhraseContainer} {ok : Bool} (idle : a.storesNothing depth)
    (read : readUnused fqs depth a.view a.files (newPhraseContainer date a.files) = some (ok, c')) :
    c' = newPhraseContainer date a.files := by
  have three := of_decide_eq_true idle
  simp only [readUnused, newPhraseContainer, Bool.false_eq_true, if_false, three, Option.some.injEq,
    Prod.mk.injEq] at read
  exact read.2.symm

theorem readUnused_whole {a : Ask} {c' : PhraseContainer} {ok : Bool} (loadable : a.loadable) (sees : SeesAll text a)
    (read : readUnused fqs depth a.view a.files (newPhraseContainer date a.files) = some (ok, c')) :
    Loaded date fqs depth text a.files c' := by
  simp only [readUnused, newPhraseContainer, Bool.false_eq_true, if_false] at read
  split at read
  · cases read
  · rename_i list three
    rw [← readThree_loadable three] at loadable
    cases loadable
  · rename_i list three
    rw [readThree_congr sees] at three
    split at read
    · cases read
    · rename_i g made
      cases read
      exact ⟨list, g, readThree_fresh.mp three, made, rfl⟩

theorem readbplfile_cases {view : FileSystem} {files : PhraseFiles} {t t' : Slots PhraseContainer} {r : Option Nat}
    (full : Full t) (read : readbplfile date fqs depth view files t = some (r, t')) :
    (∃ i c ok c', firstPlace (previousUsePhrase date files) t = some i ∧ slot t i = some c ∧
        readUnused fqs depth view files c = some (ok, c') ∧ r = (if ok then some i else none) ∧
        t' = modify t i fun _ => c') ∨
      ∃ ok c', firstPlace (previousUsePhrase date files) t = none ∧
        readUnused fqs depth view files (newPhraseContainer date files) = some (ok, c') ∧
        r = (if ok then some t.length else none) ∧ t' = t ++ [some c'] := by
  unfold readbplfile newPhraseList at read
  cases place : firstPlace (previousUsePhrase date files) t with
  | some i =>
    obtain ⟨c, there, _⟩ := firstPlace_some place
    simp only [place, there] at read
    split at read
    · cases read
    · rename_i ok c' filled
      cases read
      exact .inl ⟨i, c, ok, c', rfl, there, filled, rfl, rfl⟩
  | none =>
    obtain ⟨last, placed⟩ := place_full full (newPhraseContainer date files)
    rw [last] at placed
    simp only [place, last, placed, slot_append, if_true] at read
    split at read
    · cases read
    · rename_i ok c' filled
      cases read
      exact .inr ⟨ok, c', rfl, filled, rfl, modify_append t _ c'⟩

end Entries

end GuardianPhraseManager
