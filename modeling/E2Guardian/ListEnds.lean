import E2Guardian.ListCounts
import E2Guardian.PhraseList

/- Termination of the list loaders and of the traversals over included lists. Nothing in the
   program looks for include cycles. Where the list files have none, every load ends, and so
   does every traversal of what was loaded. -/
namespace GuardianListEnds
open GuardianString GuardianTime GuardianItemFile GuardianListManager GuardianListCounts
open SharedGraph
open GuardianPhraseList (FileSystem PhraseList ReadState lineRequest serve readLine_eq readPhraseList
  readPhraseListKeeping)

theorem enough_for_all {α : Type} {P : α → Nat → Prop} (l : List α)
    (each : ∀ a ∈ l, ∃ enough, ∀ depth ≥ enough, P a depth) :
    ∃ enough, ∀ depth ≥ enough, ∀ a ∈ l, P a depth := by
  induction l with
  | nil => exact ⟨0, by simp⟩
  | cons a l ih =>
    obtain ⟨first, here⟩ := each a (by simp)
    obtain ⟨rest, there⟩ := ih fun b mem => each b (by simp [mem])
    refine ⟨max first rest, ?_⟩
    intro depth deep b mem
    obtain rfl | later := List.mem_cons.mp mem
    · exact here depth (by omega)
    · exact there depth (by omega) b later

/- Traversals of lists that are all there. -/

theorem upToDate_ends (files : Files) {m : Manager} {is ws : List Nat} (walk : Walks m.kids is ws) :
    ∃ enough answer, ∀ depth ≥ enough, is.allM (upToDate files depth m) = some answer := by
  induction walk with
  | nil => exact ⟨0, true, fun _ _ => rfl⟩
  | @cons i js is ws rest live _ _ ihDown ihNext =>
    obtain ⟨below, down, ihDown⟩ := ihDown
    obtain ⟨after, next, ihNext⟩ := ihNext
    obtain ⟨c, there, rfl⟩ := kids_eq_some live
    have own : ∃ answer, ∀ depth ≥ below + 1, upToDate files depth m i = some answer := by
      refine ⟨if startsWith c.sourcefile (str "memory:") then true
        else if files.getFileDate c.sourcefile > c.filedate then false else down, ?_⟩
      intro depth deep
      obtain ⟨depth, rfl⟩ : ∃ less, depth = less + 1 := ⟨depth - 1, by omega⟩
      simp only [upToDate, there, ihDown depth (by omega)]
      split
      · rfl
      · split <;> rfl
    obtain ⟨answer, own⟩ := own
    refine ⟨max (below + 1) after, answer && next, ?_⟩
    intro depth deep
    simp only [List.allM, own depth (by omega), ihNext depth (by omega)]
    cases answer <;> rfl

def sortContainer (startsWith : Bool) (c : Container) : Container :=
  { c with contents := sortOwn c.kind startsWith c.contents }

theorem sortContainer_twice (startsWith : Bool) (c : Container) :
    sortContainer startsWith (sortContainer startsWith c) = sortContainer startsWith c := by
  simp only [sortContainer, sortOwn_twice]

/-- The lists that the sort comes to are sorted, those that it comes to again as well. -/
theorem doSort_ends (startsWith : Bool) {kids : Nat → Option (List Nat)} {is ws : List Nat}
    (walk : Walks kids is ws) : ∃ enough, ∀ depth ≥ enough, ∀ m : Manager, m.kids = kids →
      ∃ m', is.foldlM (doSort startsWith depth) m = some m' ∧
        ∀ i, m'.slot i = if i ∈ ws then (m.slot i).map (sortContainer startsWith) else m.slot i := by
  have kids_sorted : ∀ {m m' : Manager} {ws : List Nat}, (∀ i, m'.slot i =
      if i ∈ ws then (m.slot i).map (sortContainer startsWith) else m.slot i) → m'.kids = m.kids := by
    intro m m' ws slots
    funext i
    rw [Manager.kids, slots, Manager.kids]
    split
    · cases m.slot i <;> rfl
    · rfl
  induction walk with
  | nil => exact ⟨0, fun _ _ m shape => ⟨m, rfl, by simp⟩⟩
  | @cons i js is ws rest live _ _ ihDown ihNext =>
    obtain ⟨below, ihDown⟩ := ihDown
    obtain ⟨after, ihNext⟩ := ihNext
    refine ⟨max (below + 1) after, ?_⟩
    intro depth deep m shape
    obtain ⟨depth, rfl⟩ : ∃ less, depth = less + 1 := ⟨depth - 1, by omega⟩
    obtain ⟨c, there, rfl⟩ := kids_eq_some (shape ▸ live)
    obtain ⟨m₁, down, slots₁⟩ := ihDown depth (by omega) m shape
    have shape₁ : (m₁.modify i (sortContainer startsWith)).kids = kids := by
      rw [kids_modify _ _ _ (by intro c; rfl), kids_sorted slots₁, shape]
    obtain ⟨m₂, next, slots₂⟩ := ihNext (depth + 1) (by omega) _ shape₁
    refine ⟨m₂, ?_, ?_⟩
    · rw [List.foldlM_cons, doSort, there]
      simp only [down, Option.map_some, Option.bind_eq_bind, Option.bind_some]
      exact next
    · intro j
      have twice : ∀ s : Option Container, (s.map (sortContainer startsWith)).map (sortContainer startsWith) =
          s.map (sortContainer startsWith) := by
        intro s
        cases s with
        | none => rfl
        | some c => simp only [Option.map_some, sortContainer_twice]
      rw [slots₂, slot_modify, slots₁]
      by_cases here : i = j <;> by_cases inDown : j ∈ ws <;> by_cases inNext : j ∈ rest <;>
        simp [here, inDown, inNext, twice, eq_comm]

theorem findWith_ends {α : Type} {m : Manager} {is ws : List Nat} (walk : Walks m.kids is ws) :
    ∃ enough, ∀ depth ≥ enough, ∀ (own : Kind → Contents → Option α) (now : Clock),
      ∃ answer, firstFound (findWith own now depth m) is = some answer := by
  induction walk with
  | nil => exact ⟨0, fun _ _ _ _ => ⟨none, rfl⟩⟩
  | @cons i js is ws rest live _ _ ihDown ihNext =>
    obtain ⟨below, ihDown⟩ := ihDown
    obtain ⟨after, ihNext⟩ := ihNext
    obtain ⟨c, there, rfl⟩ := kids_eq_some live
    refine ⟨max (below + 1) after, ?_⟩
    intro depth deep own now
    obtain ⟨depth, rfl⟩ : ∃ less, depth = less + 1 := ⟨depth - 1, by omega⟩
    obtain ⟨down, foundDown⟩ := ihDown depth (by omega) own now
    obtain ⟨next, foundNext⟩ := ihNext (depth + 1) (by omega) own now
    have here : ∃ answer, findWith own now (depth + 1) m i = some answer := by
      rw [findWith, there]
      simp only [foundDown]
      split
      · split <;> exact ⟨_, rfl⟩
      · exact ⟨_, rfl⟩
    obtain ⟨answer, here⟩ := here
    simp only [firstFound, here, foundNext]
    cases answer <;> exact ⟨_, rfl⟩

theorem isSome_of_firstFound {α : Type} {f : Nat → Option (Option α)} {i : Nat} {answer : Option α}
    (found : firstFound f [i] = some answer) : (f i).isSome := by
  simp only [firstFound] at found
  cases here : f i with
  | none => simp [here] at found
  | some a => rfl

theorem isSome_of_allM {f : Nat → Option Bool} {i : Nat} {answer : Bool} (all : [i].allM f = some answer) :
    (f i).isSome := by
  simp only [List.allM] at all
  cases here : f i with
  | none => simp [here] at all
  | some b => rfl

theorem traversals_end (files : Files) (host : Host) {m : Manager} {i : Nat} {ws : List Nat}
    (walk : Walks m.kids [i] ws) :
    ∃ enough, ∀ depth ≥ enough, ∀ (startsWith : Bool) (now : Clock) (string : Str),
      (doSort startsWith depth m i).isSome ∧ (upToDate files depth m i).isSome ∧
      (refList depth m i).isSome ∧ (deRefList depth m i).isSome ∧
      (findInList host now string depth m i).isSome := by
  obtain ⟨sortSW, sortsSW⟩ := doSort_ends true walk
  obtain ⟨sortEW, sortsEW⟩ := doSort_ends false walk
  obtain ⟨dated, answer, dates⟩ := upToDate_ends files walk
  obtain ⟨held, holds⟩ := refList_adjusts.ends_eq walk
  obtain ⟨released, releases⟩ := deRefList_adjusts.ends_eq walk
  obtain ⟨found, finds⟩ := findWith_ends (α := Found) walk
  refine ⟨max (max (max sortSW sortEW) (max dated held)) (max released found), ?_⟩
  intro depth deep startsWith now string
  refine ⟨?_, isSome_of_allM (dates depth (by omega)), ?_, ?_, ?_⟩
  · obtain ⟨m', sorted⟩ : ∃ m', [i].foldlM (doSort startsWith depth) m = some m' := by
      cases startsWith with
      | true => exact (sortsSW depth (by omega) m rfl).imp fun _ sorts => sorts.1
      | false => exact (sortsEW depth (by omega) m rfl).imp fun _ sorts => sorts.1
    have sorted : doSort startsWith depth m i = some m' := by simpa [List.foldlM_cons] using sorted
    simp [sorted]
  · simp [holds depth (by omega)]
  · simp [releases depth (by omega)]
  · obtain ⟨answer, ends⟩ := finds depth (by omega) (fun kind k => findOwn host kind k string) now
    exact isSome_of_firstFound ends

/- Loading item lists. -/

def ShortLines (lines : List Str) : Prop := ∀ line ∈ lines, line.length < 20000

theorem previousItem_ends (files : Files) (w : Request) (filename : Str) {m : Manager}
    {handles : List Nat} (acc : Accounts m handles) (is : List Nat) :
    ∃ enough answer, ∀ depth ≥ enough, previousItem files w depth filename m is = some answer := by
  induction is with
  | nil => exact ⟨0, none, fun _ _ => rfl⟩
  | cons i is ih =>
    obtain ⟨enough, answer, ih⟩ := ih
    cases there : m.slot i with
    | none =>
      refine ⟨enough, answer, ?_⟩
      intro depth deep
      rw [previousItem, there]
      exact ih depth deep
    | some c =>
      by_cases used : previousUseItem w c filename
      · obtain ⟨ws, walk⟩ := acc.walked i c there
        obtain ⟨enough', current, ends⟩ := upToDate_ends files walk
        have own : ∀ depth ≥ enough', upToDate files depth m i = some current := by
          intro depth deep
          have all := ends depth deep
          simp only [List.allM] at all
          cases answered : upToDate files depth m i with
          | none => simp [answered] at all
          | some b => cases b <;> simpa [answered] using all
        refine ⟨max enough enough', if current then some i else answer, ?_⟩
        intro depth deep
        rw [previousItem, there]
        simp only [used, if_true, own depth (by omega), ih depth (by omega)]
        cases current <;> rfl
      · refine ⟨enough, answer, ?_⟩
        intro depth deep
        rw [previousItem, there]
        simp only [used]
        exact ih depth deep

section ReadingEnds
variable {files : Files} {host : Host} {w : Request} {me : Nat}
variable {load : Nat → Str → Manager → Option (Option Nat × Manager)} {P : Manager → Prop}
variable (filled : ∀ f, Fills f → ∀ m, P m → P (m.modify me f))
include filled

theorem ifsreadItemList_ends {source : Source} {lines : List Str} {m : Manager} (short : ShortLines lines)
    (included : ∀ inc ∈ includesIn source lines, ∀ m, P m → ∃ enough r, P r.2 ∧
      ∀ depth ≥ enough, readAnotherItemList (load depth) me inc m = some r) (start : P m) :
    ∃ enough r, P r.2.2 ∧ ShortLines r.2.1 ∧
      ∀ depth ≥ enough, ifsreadItemList host w (load depth) source me lines m = some r := by
  obtain ⟨enough, ⟨ok, rest, m₁⟩, kept, left, ends⟩ := readLines_ends source (storeLine host w me)
    (storeLine_keeps filled) lines short included start
  have shortRest : ShortLines rest := fun line mem => short line (left line mem)
  cases ok with
  | false =>
    refine ⟨enough, (false, rest, m₁), kept, shortRest, ?_⟩
    intro depth deep
    rw [ifsreadItemList, ends depth deep]
  | true =>
    refine ⟨enough, (true, rest, _), filled _ (fills_contents fun c => sortRead w.kind c.contents) m₁ kept,
      shortRest, ?_⟩
    intro depth deep
    rw [ifsreadItemList, ends depth deep]
    rfl

theorem readItemList_ends {filename : Str} (left : ∀ m rest, ShortLines rest → P m → P { m with stdin := rest })
    (fits : ∀ m, P m → ShortLines m.stdin)
    (short : ∀ name text, files.listfile name = some text → ShortLines (textLines text))
    (included : ∀ inc, Includes files w.list_pwd filename inc → ∀ m, P m → ∃ enough r, P r.2 ∧
      ∀ depth ≥ enough, readAnotherItemList (load depth) me inc m = some r) {m : Manager} (start : P m) :
    ∃ enough r, P r.2 ∧ ∀ depth ≥ enough, readItemList files host w (load depth) filename me m = some r := by
  unfold readItemList
  split
  · unfold readStdinItemList
    split
    · exact ⟨0, (false, m), start, fun _ _ => rfl⟩
    · obtain ⟨enough, ⟨ok, rest, m₁⟩, kept, shortRest, ends⟩ := @ifsreadItemList_ends host w me load P
        filled ⟨[], [], true⟩ m.stdin m (fits m start) (by simp [includesIn_stdin]) start
      refine ⟨enough, (ok, { m₁ with stdin := rest }), left _ _ shortRest kept, ?_⟩
      intro depth deep
      rw [ends depth deep]
  · rename_i file
    have dated := filled _ (fun c => ⟨c.contents, files.getFileDate filename, rfl⟩) m start
    split
    · exact ⟨0, (false, m), start, fun _ _ => rfl⟩
    · simp only
      split
      · exact ⟨0, (false, _), dated, fun _ _ => rfl⟩
      · split
        · exact ⟨0, (true, _), dated, fun _ _ => rfl⟩
        · split
          · exact ⟨0, (false, _), dated, fun _ _ => rfl⟩
          · rename_i text opened
            have named : ∀ inc ∈ includesIn (fileSource w.list_pwd filename) (textLines text),
                Includes files w.list_pwd filename inc := by
              intro inc mem
              exact ⟨by simpa using file, text, opened, mem⟩
            obtain ⟨enough, ⟨ok, rest, m₁⟩, kept, _, ends⟩ := @ifsreadItemList_ends host w me load P
              filled _ _ _ (short filename text opened)
              (fun inc mem => included inc (named inc mem)) dated
            refine ⟨enough, (ok, m₁), kept, ?_⟩
            intro depth deep
            rw [ends depth deep]

end ReadingEnds

theorem stdin_addRefs (n : Int) (ws : List Nat) (m : Manager) : (m.addRefs n ws).stdin = m.stdin := by
  induction ws generalizing m with
  | nil => rfl
  | cons i ws ih => exact ih (m.modify i (addRef n))

theorem delete_ends {m : Manager} {me : Nat} {handles : List Nat} {c : Container}
    (acc : Accounts m (me :: handles)) (there : m.slot me = some c) :
    ∃ enough m', m'.stdin = m.stdin ∧ ∀ depth ≥ enough, delete depth m me = some m' := by
  by_cases held : c.refcount > 0
  · obtain ⟨ws, walk⟩ := acc.walked me c there
    cases walk with
    | @cons _ _ _ below _ live down _ =>
      rw [kids_of_slot there, Option.some.injEq] at live
      subst live
      obtain ⟨enough, ends⟩ := deRefList_adjusts.ends down
      refine ⟨enough, ((m.modify me (addRef (-1))).addRefs (-1) below).clear me, stdin_addRefs _ _ _, ?_⟩
      intro depth deep
      rw [delete, there]
      simp only [held, if_true, ends depth deep _ (kids_addRef m me (-1)), Option.map_some]
  · refine ⟨0, m.clear me, rfl, ?_⟩
    intro depth _
    rw [delete, there]
    simp only [held, if_false]

theorem another_ends {files : Files} {host : Host} {w : Request} (acyclic : Acyclic files w.list_pwd)
    {filename inc : Str} {m m₁ : Manager} {handles : List Nat} (acc : Accounts m handles)
    (includes : Includes files w.list_pwd filename inc) (state : Filling files w filename m handles m₁)
    (loads : ∃ enough r, ShortLines r.2.stdin ∧ ∀ depth ≥ enough, newItemList files host w depth inc m₁ = some r) :
    ∃ enough r, (Filling files w filename m handles r.2 ∧ ShortLines r.2.stdin) ∧
      ∀ depth ≥ enough, readAnotherItemList (newItemList files host w depth) m.free inc m₁ = some r := by
  obtain ⟨enough, ⟨r, m₂⟩, shortOut, ends⟩ := loads
  have answer : ∃ result, result.2.stdin = m₂.stdin ∧ ∀ depth ≥ enough,
      readAnotherItemList (newItemList files host w depth) m.free inc m₁ = some result := by
    cases r with
    | none =>
      refine ⟨(false, m₂), rfl, ?_⟩
      intro depth deep
      rw [readAnotherItemList, ends depth deep]
    | some j =>
      refine ⟨(true, m₂.modify m.free (attach j)), rfl, ?_⟩
      intro depth deep
      rw [readAnotherItemList, ends depth deep]
      rfl
  obtain ⟨result, sameIn, answer⟩ := answer
  refine ⟨enough, result, ⟨?_, sameIn ▸ shortOut⟩, answer⟩
  exact state.another acc acyclic (fun _ _ _ _ _ => newItemList_keeps acyclic enough) includes
    (answer enough (Nat.le_refl _))

/-- Every load of files without an include cycle ends, whatever was loaded before. -/
theorem newItemList_ends {files : Files} {host : Host} {w : Request}
    (descends : WellFounded fun inc name => Includes files w.list_pwd name inc)
    (acyclic : Acyclic files w.list_pwd)
    (short : ∀ name text, files.listfile name = some text → ShortLines (textLines text))
    (filename : Str) : ∀ {m : Manager} {handles : List Nat}, Accounts m handles → ShortLines m.stdin →
      ∃ enough r, ShortLines r.2.stdin ∧
        ∀ depth ≥ enough, newItemList files host w depth filename m = some r := by
  induction filename using descends.induction with
  | h filename ih =>
    intro m handles acc shortIn
    obtain ⟨looked, previous, lookup⟩ := previousItem_ends files w filename acc (List.range m.l.length)
    cases previous with
    | some i =>
      obtain ⟨c, there, _, _⟩ := previousItem_found (lookup looked (Nat.le_refl _))
      obtain ⟨ws, walk⟩ := acc.walked i c there
      obtain ⟨enough, ends⟩ := refList_adjusts.ends_eq walk
      refine ⟨max looked enough + 1, (some i, m.addRefs 1 ws), by rw [stdin_addRefs]; exact shortIn, ?_⟩
      intro depth deep
      obtain ⟨depth, rfl⟩ : ∃ less, depth = less + 1 := ⟨depth - 1, by omega⟩
      rw [newItemList, lookup depth (by omega)]
      simp only [ends depth (by omega), Option.map_some]
    | none =>
      have included : ∀ inc, Includes files w.list_pwd filename inc → ∀ m₁,
          Filling files w filename m handles m₁ ∧ ShortLines m₁.stdin →
          ∃ enough r, (Filling files w filename m handles r.2 ∧ ShortLines r.2.stdin) ∧
            ∀ depth ≥ enough, readAnotherItemList (newItemList files host w depth) m.free inc m₁ = some r := by
        intro inc includes m₁ kept
        exact another_ends acyclic acc includes kept.1 (ih inc includes kept.1.accounts kept.2)
      obtain ⟨read, ⟨ok, m₁⟩, ⟨state, shortOut⟩, reads⟩ : ∃ enough r,
          (Filling files w filename m handles r.2 ∧ ShortLines r.2.stdin) ∧
          ∀ depth ≥ enough, readItemList files host w (newItemList files host w depth) filename m.free
            (m.place m.free (newContainer files w filename)) = some r := readItemList_ends
        (P := fun m₁ => Filling files w filename m handles m₁ ∧ ShortLines m₁.stdin)
        (fun f fills m₁ kept => ⟨kept.1.filled fills, kept.2⟩)
        (fun m₁ rest shortRest kept => ⟨⟨kept.1.kept, kept.1.accounts.restdin rest, kept.1.mine,
          kept.1.alone, kept.1.apart⟩, shortRest⟩)
        (fun _ kept => kept.2) short included ⟨filling_start acc, shortIn⟩
      cases ok with
      | true =>
        refine ⟨max looked read + 1, (some m.free, m₁), shortOut, ?_⟩
        intro depth deep
        obtain ⟨depth, rfl⟩ : ∃ less, depth = less + 1 := ⟨depth - 1, by omega⟩
        rw [newItemList, lookup depth (by omega)]
        simp only [reads depth (by omega)]
      | false =>
        obtain ⟨c, there, _⟩ := state.mine
        obtain ⟨enough, m₂, sameIn, ends⟩ := delete_ends state.accounts there
        refine ⟨max (max looked read) enough + 1, (none, m₂), sameIn ▸ shortOut, ?_⟩
        intro depth deep
        obtain ⟨depth, rfl⟩ : ∃ less, depth = less + 1 := ⟨depth - 1, by omega⟩
        rw [newItemList, lookup depth (by omega)]
        simp only [reads depth (by omega), ends depth (by omega), Option.map_some]

/- Loading phrase lists. -/

/-- The files the lines of a phrase list name; names are taken in lower case until #noconvert. -/
def phraseIncludes : Bool → List Str → List Str
  | _, [] => []
  | caseinsensitive, linebuffer :: rest =>
    match lineRequest linebuffer caseinsensitive with
    | .include_ name => name :: phraseIncludes caseinsensitive rest
    | .noconvert => phraseIncludes false rest
    | _ => phraseIncludes caseinsensitive rest

def PhraseIncludes (fs : FileSystem) (name inc : Str) : Prop :=
  ∃ text, fs name = some text ∧ inc ∈ phraseIncludes true (textLines text)

section Phrases
variable {keep : PhraseList → Int → Bool} {isexception : Bool} {nlimit : Int}

theorem phraseLines_end {include_ : PhraseList → Str → Int → Int → Option (Bool × PhraseList)}
    (lines : List Str) : ∀ st : ReadState,
      (∀ name ∈ phraseIncludes st.caseinsensitive lines, ∀ l cat time, ∃ r, include_ l name cat time = some r) →
      ∃ r, GuardianPhraseList.readLines keep include_ isexception nlimit lines st = some r := by
  induction lines with
  | nil => exact fun st _ => ⟨(true, st.list), rfl⟩
  | cons linebuffer lines ih =>
    intro st included
    rw [GuardianPhraseList.readLines, readLine_eq]
    rw [phraseIncludes] at included
    cases request : lineRequest linebuffer st.caseinsensitive with
    | stop => exact ⟨_, rfl⟩
    | include_ name =>
      simp only [request, List.mem_cons] at included
      obtain ⟨⟨ok, list⟩, answer⟩ := included name (.inl rfl) st.list st.catindex st.timeindex
      simp only [serve, answer]
      exact ih _ fun inc mem => included inc (.inr mem)
    | phrases line =>
      simp only [request] at included
      by_cases stored : keep st.list st.timeindex
      · simp only [serve, stored, if_true]
        exact ih _ included
      · simp only [serve, stored]
        exact ih _ included
    | nothing | category lcat | noconvert | time tl =>
      simp only [request] at included
      simp only [serve]
      exact ih _ included

/-- Every load of phrase files without an include cycle ends. -/
theorem readPhraseList_ends {fs : FileSystem} (descends : WellFounded fun inc name => PhraseIncludes fs name inc)
    (filename : Str) : ∃ enough, ∀ depth ≥ enough, ∀ l cat time,
      ∃ r, readPhraseListKeeping keep fs isexception nlimit depth l filename cat time = some r := by
  induction filename using descends.induction with
  | h filename ih =>
    cases opened : fs filename with
    | none =>
      refine ⟨1, ?_⟩
      intro depth deep l cat time
      obtain ⟨depth, rfl⟩ : ∃ less, depth = less + 1 := ⟨depth - 1, by omega⟩
      simp only [readPhraseListKeeping, opened]
      exact ⟨_, rfl⟩
    | some text =>
      obtain ⟨enough, ends⟩ := enough_for_all (phraseIncludes true (textLines text))
        fun inc mem => ih inc ⟨text, opened, mem⟩
      refine ⟨enough + 1, ?_⟩
      intro depth deep l cat time
      obtain ⟨depth, rfl⟩ : ∃ less, depth = less + 1 := ⟨depth - 1, by omega⟩
      simp only [readPhraseListKeeping, opened]
      split
      · exact ⟨_, rfl⟩
      · exact phraseLines_end _ ⟨l, cat, time, true⟩ (ends depth (by omega))

end Phrases

/-- Without an include cycle every load ends, of an item list after whatever was loaded and
    released before and of a phrase list, and so does every traversal of the loaded list. -/
theorem loads_end_without_cycles (files : Files) (host : Host) (w : Request) (filename : Str)
    (s : System) (reached : Reached s)
    (finite : {name | ∃ inc, Includes files w.list_pwd name inc}.Finite)
    (acyclic : ∀ name, ¬ Relation.TransGen (Includes files w.list_pwd) name name)
    (short : ∀ name text, files.listfile name = some text → ShortLines (textLines text))
    (shortIn : ShortLines s.manager.stdin)
    (fs : FileSystem) (phraseFinite : {name | ∃ inc, PhraseIncludes fs name inc}.Finite)
    (phraseAcyclic : ∀ name, ¬ Relation.TransGen (PhraseIncludes fs) name name) :
    (∃ enough r, (∀ depth ≥ enough, newItemList files host w depth filename s.manager = some r) ∧
      ∀ i, r.1 = some i → ∃ enough, ∀ depth ≥ enough, ∀ (startsWith : Bool) (now : Clock) (string : Str),
        (doSort startsWith depth r.2 i).isSome ∧ (upToDate files depth r.2 i).isSome ∧
        (refList depth r.2 i).isSome ∧ (deRefList depth r.2 i).isSome ∧
        (findInList host now string depth r.2 i).isSome) ∧
    ∀ isexception nlimit list phrasefile catindex timeindex, ∃ enough, ∀ depth ≥ enough,
      (readPhraseList fs isexception nlimit depth list phrasefile catindex timeindex).isSome := by
  constructor
  · obtain ⟨enough, ⟨r, m⟩, _, ends⟩ := @newItemList_ends files host w
      (descends_of_finite finite acyclic) acyclic short filename _ _
      (reached_accounts reached) shortIn
    refine ⟨enough, (r, m), ends, ?_⟩
    rintro i rfl
    have after := newItemList_keeps acyclic enough (reached_accounts reached) (ends enough (Nat.le_refl _))
    obtain ⟨ws, walk⟩ := after.accounts.handle_walk (by simp : i ∈ (some i).toList ++ s.handles)
    exact traversals_end files host walk
  · intro isexception nlimit list phrasefile catindex timeindex
    obtain ⟨enough, ends⟩ := readPhraseList_ends (descends_of_finite phraseFinite phraseAcyclic) phrasefile
    refine ⟨enough, ?_⟩
    intro depth deep
    exact Option.isSome_iff_exists.mpr (ends depth deep list catindex timeindex)

theorem finite_filesOf (texts : List (Str × Str)) (list_pwd : Str) :
    {name | ∃ inc, Includes (filesOf texts) list_pwd name inc}.Finite := by
  apply (texts.map Prod.fst).finite_toSet.subset
  rintro name ⟨inc, includes⟩
  obtain ⟨p, mem, rfl, _⟩ := includes_filesOf includes
  exact List.mem_map_of_mem mem

theorem short_filesOf {texts : List (Str × Str)} (short : ∀ p ∈ texts, ∀ line ∈ textLines p.2, line.length < 20000)
    (name text : Str) (opened : (filesOf texts).listfile name = some text) : ShortLines (textLines text) := by
  simp only [filesOf, Option.some.injEq] at opened
  subst opened
  cases known : texts.lookup name with
  | none => simp [ShortLines, textLines]
  | some text =>
    obtain ⟨before, after, split, _⟩ := List.lookup_eq_some_iff.mp known
    exact short (name, text) (by simp [split])

def bannedPhrases : FileSystem := fun name =>
  if name = str "/banned" then some (str ".include</more>\n<casino>\n")
  else if name = str "/more" then some (str "<poker>\n") else none

theorem bannedPhrases_includes {name inc : Str} (includes : PhraseIncludes bannedPhrases name inc) :
    name = str "/banned" ∧ inc = str "/more" := by
  obtain ⟨text, opened, mem⟩ := includes
  unfold bannedPhrases at opened
  split at opened
  · rename_i banned
    have names : phraseIncludes true (textLines (str ".include</more>\n<casino>\n")) = [str "/more"] := by
      decide
    simp only [Option.some.injEq] at opened
    rw [← opened, names, List.mem_singleton] at mem
    exact ⟨banned, mem⟩
  · split at opened
    · have names : phraseIncludes true (textLines (str "<poker>\n")) = [] := by decide
      simp only [Option.some.injEq] at opened
      simp [← opened, names] at mem
    · simp at opened

theorem sites_and_phrases_end :
    (∃ enough r, (∀ depth ≥ enough,
        newItemList adFiles noHost siteList depth (str "/sites") adsHeld.manager = some r) ∧
      ∀ i, r.1 = some i → ∃ enough, ∀ depth ≥ enough, ∀ (startsWith : Bool) (now : Clock) (string : Str),
        (doSort startsWith depth r.2 i).isSome ∧ (upToDate adFiles depth r.2 i).isSome ∧
        (refList depth r.2 i).isSome ∧ (deRefList depth r.2 i).isSome ∧
        (findInList noHost now string depth r.2 i).isSome) ∧
    ∀ isexception nlimit list phrasefile catindex timeindex, ∃ enough, ∀ depth ≥ enough,
      (readPhraseList bannedPhrases isexception nlimit depth list phrasefile catindex timeindex).isSome := by
  apply loads_end_without_cycles adFiles noHost siteList (str "/sites") adsHeld adsHeld_reached
    (finite_filesOf _ _) adFiles_acyclic (short_filesOf (by decide)) (by simp [ShortLines]; decide)
  · apply (Set.finite_singleton (str "/banned")).subset
    rintro name ⟨inc, includes⟩
    exact (bannedPhrases_includes includes).1
  · apply acyclic_of_falling List.length
    intro name inc includes
    obtain ⟨rfl, rfl⟩ := bannedPhrases_includes includes
    decide

def selfText : Str := str ".Include</self>\n"

def selfFiles : Files := filesOf [(str "/self", selfText)]

def selfPhrases : FileSystem := fun name => if name = str "/self" then some selfText else none

def selfLoaded : Manager :=
  ((newItemList selfFiles noHost siteList 3 (str "/self") (.empty [])).map Prod.snd).getD
    (.empty [])

theorem doSort_stuck {m : Manager} {i : Nat} (self : m.kids i = some [i]) (startsWith : Bool) (depth : Nat) :
    doSort startsWith depth m i = none := by
  induction depth with
  | zero => rfl
  | succ depth ih =>
    obtain ⟨c, there, same⟩ := kids_eq_some self
    rw [doSort, there]
    simp [same, ih]

theorem self_phrases_stuck (depth : Nat) (list : PhraseList) (catindex timeindex : Int) :
    readPhraseList selfPhrases false 0 depth list (str "/self") catindex timeindex =
      none := by
  induction depth generalizing list catindex timeindex with
  | zero => rfl
  | succ depth ih =>
    have opened : selfPhrases (str "/self") = some selfText := rfl
    have long : ¬ selfText.length < 2 := by decide
    have lines : selfText.splitOn (ch '\n') = [str ".Include</self>", []] := by decide
    have request : lineRequest (str ".Include</self>") true = .include_ (str "/self") := by decide
    have stuck := ih list catindex timeindex
    unfold readPhraseList at stuck ⊢
    simp only [readPhraseListKeeping, opened, long, if_false, lines, GuardianPhraseList.readLines,
      readLine_eq, request, serve, stuck]

/-- The list that includes itself is loaded, but its sort never ends, and as a phrase list it
    is never loaded. -/
theorem self_include_never_ends :
    newItemList selfFiles noHost siteList 3 (str "/self") (.empty []) =
        some (some 0, selfLoaded) ∧
      (∀ depth, doSort siteList.startswith depth selfLoaded 0 = none) ∧
      ∀ depth, readPhraseList selfPhrases false 0 depth .empty (str "/self") (-1) (-1) =
        none :=
  ⟨by decide, doSort_stuck (by decide) _, fun depth => self_phrases_stuck depth _ _ _⟩

end GuardianListEnds
