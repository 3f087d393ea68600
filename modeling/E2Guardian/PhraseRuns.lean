import E2Guardian.PhraseManager

/- Runs of readbplfile. A list that is asked for again is the list of a single load, unless a call
   asks for a limit other than 0 twice, or reads into what an earlier call left. -/
namespace GuardianPhraseRuns
open GuardianString GuardianPhraseList GuardianPhraseGraph GuardianListEnds SlotTable GuardianPhraseManager

/- The first entry for three files is given to the first call for them, and to every call for them
   with limit 0. Any other call gets an entry of its own. -/

def zeroLimit (a : Ask) : Bool := a.files.nlimit == 0

def firstEntry (files : PhraseFiles) (asks : List Ask) : List Ask :=
  match asks.filter fun a => sameFiles files a.files with
  | [] => []
  | a :: more => a :: more.filter zeroLimit

/-- Not two calls that can load the same files with the same limit, other than 0. -/
def Apart (a b : Ask) : Prop := a.files = b.files → a.files.nlimit ≠ 0 → ¬ (a.loadable ∧ b.loadable)

structure Unspoilt (depth : Nat) (text : FileSystem) (asks : List Ask) : Prop where
  once : asks.Pairwise Apart
  whole : ∀ a ∈ asks, a.files.nlimit ≠ 0 → a.loadable → SeesAll text a
  zero : ∀ b ∈ asks, b.files.nlimit = 0 → ∀ x ∈ firstEntry b.files asks, x.loadable →
    ∀ a, (firstEntry b.files asks).find? (fun a => !a.storesNothing depth) = some a →
      a.files.nlimit = 0 ∧ a.loadable ∧ SeesAll text a

theorem sameFiles_iff {f g : PhraseFiles} :
    sameFiles f g ↔ g.exception = f.exception ∧ g.banned = f.banned ∧ g.weighted = f.weighted := by
  simp [sameFiles, and_assoc]

theorem files_eq {f g : PhraseFiles} (same : sameFiles f g) (limit : g.nlimit = f.nlimit) : g = f := by
  obtain ⟨e, b, w⟩ := sameFiles_iff.mp same
  cases f
  cases g
  simp_all

theorem firstEntry_append (files : PhraseFiles) (past : List Ask) (b : Ask) :
    firstEntry files (past ++ [b]) = firstEntry files past ++
      if sameFiles files b.files ∧ (firstEntry files past = [] ∨ b.files.nlimit = 0) then [b] else [] := by
  unfold firstEntry
  rw [List.filter_append]
  by_cases same : sameFiles files b.files
  · cases asked : past.filter (fun a => sameFiles files a.files) with
    | nil => simp [same]
    | cons a more =>
      by_cases limit : b.files.nlimit = 0
      · simp [same, limit, zeroLimit]
      · simp [same, limit, zeroLimit]
  · simp [same]

theorem firstEntry_same {files : PhraseFiles} {asks : List Ask} {a : Ask} (mem : a ∈ firstEntry files asks) :
    sameFiles files a.files := by
  unfold firstEntry at mem
  cases asked : asks.filter (fun a => sameFiles files a.files) with
  | nil => simp [asked] at mem
  | cons first more =>
    have inside : a ∈ asks.filter (fun a => sameFiles files a.files) := by
      rw [asked]
      simp only [asked, List.mem_cons, List.mem_filter] at mem
      simp only [List.mem_cons]
      tauto
    exact (List.mem_filter.mp inside).2

theorem firstEntry_prefix (files : PhraseFiles) (past rest : List Ask) :
    firstEntry files past <+: firstEntry files (past ++ rest) := by
  induction rest using List.reverseRecOn with
  | nil => simp
  | append_singleton rest b ih =>
    rw [← List.append_assoc, firstEntry_append]
    exact ih.trans (List.prefix_append _ _)

theorem Unspoilt.of_append {depth : Nat} {text : FileSystem} {past rest : List Ask}
    (unspoilt : Unspoilt depth text (past ++ rest)) : Unspoilt depth text past := by
  constructor
  · exact (List.pairwise_append.mp unspoilt.once).1
  · intro a mem
    exact unspoilt.whole a (List.mem_append_left _ mem)
  · intro b mem limit x sharing loadable a found
    obtain ⟨more, longer⟩ := firstEntry_prefix b.files past rest
    apply unspoilt.zero b (List.mem_append_left _ mem) limit x
    · rw [← longer]
      exact List.mem_append_left _ sharing
    · exact loadable
    · rw [← longer, List.find?_append, found]
      rfl

theorem find_loadable {depth : Nat} {sharing : List Ask} {b : Ask} (idle : ∀ x ∈ sharing, x.storesNothing depth)
    (loadable : b.loadable) : (sharing ++ [b]).find? (fun a => !a.storesNothing depth) = some b := by
  rw [List.find?_append, List.find?_eq_none.mpr (by simpa using idle)]
  simpa using loadable_stores loadable

theorem Unspoilt.sees_last {depth : Nat} {text : FileSystem} {past : List Ask} {b : Ask}
    (unspoilt : Unspoilt depth text (past ++ [b])) (loadable : b.loadable)
    (idle : b.files.nlimit = 0 → ∀ a ∈ firstEntry b.files past, a.storesNothing depth) : SeesAll text b := by
  have mem : b ∈ past ++ [b] := by simp
  by_cases limit : b.files.nlimit = 0
  · have shares : firstEntry b.files (past ++ [b]) = firstEntry b.files past ++ [b] := by
      simp [firstEntry_append, limit, sameFiles]
    have zero := unspoilt.zero b mem limit
    rw [shares] at zero
    exact (zero b (by simp) loadable b (find_loadable (idle limit) loadable)).2.2
  · exact unspoilt.whole b mem limit loadable

/- The table after a run. -/

section Runs
variable {date : Str → Int} {fqs : Bool} {depth : Nat} {text : FileSystem}

theorem newPhraseContainer_same {f g : PhraseFiles} (same : sameFiles f g) :
    newPhraseContainer date g = newPhraseContainer date f := by
  obtain ⟨e, b, w⟩ := sameFiles_iff.mp same
  unfold newPhraseContainer
  rw [e, b, w]

theorem named_same {f g : PhraseFiles} (same : sameFiles f g) : named g = named f := by
  obtain ⟨e, b, w⟩ := sameFiles_iff.mp same
  unfold named
  rw [e, b, w]

/-- What the first entry for the files holds after the calls that it was given to. -/
structure Standing (date : Str → Int) (fqs : Bool) (depth : Nat) (text : FileSystem) (files : PhraseFiles)
    (sharing : List Ask) (c : PhraseContainer) : Prop where
  idle : (∀ a ∈ sharing, a.storesNothing depth) → c = newPhraseContainer date files
  unread : (∀ a ∈ sharing, a.loadable = false) → c.used = false
  held : ∀ a, sharing.find? (fun a => !a.storesNothing depth) = some a → a.files.nlimit = 0 → a.loadable →
    SeesAll text a → Loaded date fqs depth text a.files c

/-- The table has an entry for the files, as the calls that it was given to left it. -/
def Known (date : Str → Int) (fqs : Bool) (depth : Nat) (text : FileSystem) (t : Slots PhraseContainer)
    (files : PhraseFiles) (sharing : List Ask) : Prop :=
  ∃ i c, firstPlace (named files) t = some i ∧ slot t i = some c ∧ Standing date fqs depth text files sharing c

def Given (date : Str → Int) (fqs : Bool) (depth : Nat) (text : FileSystem) (t : Slots PhraseContainer)
    (a : Ask) (r : Nat) : Prop :=
  (∃ c, slot t r = some c ∧ Loaded date fqs depth text a.files c) ∧
    (a.files.nlimit = 0 → firstPlace (named a.files) t = some r) ∧ (a.files.nlimit ≠ 0 → a.loadable)

structure Booked (date : Str → Int) (fqs : Bool) (depth : Nat) (text : FileSystem)
    (log : List (Ask × Option Nat)) (t : Slots PhraseContainer) : Prop where
  full : Full t
  entries : Each (Entry date) t
  unasked : ∀ files, firstEntry files (log.map Prod.fst) = [] → firstPlace (named files) t = none
  asked : ∀ files, firstEntry files (log.map Prod.fst) ≠ [] →
    Known date fqs depth text t files (firstEntry files (log.map Prod.fst))
  given : ∀ a r, (a, some r) ∈ log → Given date fqs depth text t a r

theorem previousUse_place {t : Slots PhraseContainer} (entries : Each (Entry date) t)
    (files : PhraseFiles) :
    firstPlace (previousUsePhrase date files) t = if files.nlimit = 0 then firstPlace (named files) t else none := by
  have same : firstPlace (previousUsePhrase date files) t =
      firstPlace (fun c => named files c && files.nlimit == 0) t := by
    apply firstPlace_congr rfl
    intro i
    cases there : slot t i with
    | none => rfl
    | some c => exact previousUse_entry (entries i c there) files
  rw [same]
  by_cases limit : files.nlimit = 0
  · simp [limit]
  · simp only [limit, if_false]
    have never : (fun c => named files c && files.nlimit == 0) = fun _ => false := by
      funext c
      simp [limit]
    simp [never, firstPlace]

theorem booked_nil : Booked date fqs depth text [] [] := by
  constructor
  · simp [Full]
  · simp [Each, slot]
  · exact fun _ _ => rfl
  · intro files asked
    exact absurd rfl asked
  · simp

theorem standing_new {b : Ask} {files : PhraseFiles} {c' : PhraseContainer} {ok : Bool}
    (same : sameFiles files b.files)
    (read : readUnused fqs depth b.view b.files (newPhraseContainer date b.files) = some (ok, c')) :
    Standing date fqs depth text files [b] c' := by
  constructor
  · intro idle
    rw [readUnused_idle (idle b (by simp)) read, newPhraseContainer_same same]
  · intro unread
    rw [(readUnused_loadable rfl read).2, unread b (by simp)]
  · intro a found _ loadable sees
    obtain rfl := List.mem_singleton.mp (List.mem_of_find?_eq_some found)
    exact readUnused_whole loadable sees read

/- A call that gets an entry of its own. -/

theorem Known.append {t : Slots PhraseContainer} {files : PhraseFiles} {sharing : List Ask}
    (known : Known date fqs depth text t files sharing) (c' : PhraseContainer) :
    Known date fqs depth text (t ++ [some c']) files sharing := by
  obtain ⟨i, c, found, there, standing⟩ := known
  have inside := lt_length_of_slot there
  refine ⟨i, c, ?_, ?_, standing⟩
  · rw [firstPlace_append, found]
    rfl
  · rw [slot_append, if_neg (by omega)]
    exact there

theorem Given.append {t : Slots PhraseContainer} {a : Ask} {r : Nat} (given : Given date fqs depth text t a r)
    (c' : PhraseContainer) : Given date fqs depth text (t ++ [some c']) a r := by
  obtain ⟨⟨c, there, loaded⟩, zero, loadable⟩ := given
  have inside := lt_length_of_slot there
  refine ⟨⟨c, ?_, loaded⟩, ?_, loadable⟩
  · rw [slot_append, if_neg (by omega)]
    exact there
  · intro limit
    rw [firstPlace_append, zero limit]
    rfl

section New
variable {log : List (Ask × Option Nat)} {t : Slots PhraseContainer} {b : Ask} {ok : Bool} {c' : PhraseContainer}

theorem Booked.known_new (booked : Booked date fqs depth text log t)
    (missing : b.files.nlimit = 0 → firstPlace (named b.files) t = none)
    (read : readUnused fqs depth b.view b.files (newPhraseContainer date b.files) = some (ok, c'))
    {files : PhraseFiles} (asked : firstEntry files (log.map Prod.fst ++ [b]) ≠ []) :
    Known date fqs depth text (t ++ [some c']) files (firstEntry files (log.map Prod.fst ++ [b])) := by
  rw [firstEntry_append] at asked ⊢
  by_cases first : firstEntry files (log.map Prod.fst) = []
  · have same : sameFiles files b.files := by
      by_contra differ
      simp [first, differ] at asked
    have name : named files c' := (readUnused_named read files).trans same
    refine ⟨t.length, c', ?_, ?_, ?_⟩
    · rw [firstPlace_append, booked.unasked files first, name]
      rfl
    · simp [slot_append]
    · simpa [first, same] using standing_new same read
  · -- a call with limit 0 would have been given the entry
    have apart : ¬ (sameFiles files b.files ∧ b.files.nlimit = 0) := by
      intro ⟨same, limit⟩
      obtain ⟨i, c, found, _⟩ := booked.asked files first
      have none := missing limit
      rw [named_same same, found] at none
      cases none
    simpa [first, apart] using (booked.asked files first).append c'

theorem Booked.given_new (booked : Booked date fqs depth text log t)
    (unspoilt : Unspoilt depth text (log.map Prod.fst ++ [b]))
    (missing : b.files.nlimit = 0 → firstPlace (named b.files) t = none)
    (read : readUnused fqs depth b.view b.files (newPhraseContainer date b.files) = some (true, c')) :
    Given date fqs depth text (t ++ [some c']) b t.length := by
  have loadable : b.loadable := (readUnused_loadable rfl read).1.symm
  have sees : SeesAll text b := by
    apply unspoilt.sees_last loadable
    intro limit
    have first : firstEntry b.files (log.map Prod.fst) = [] := by
      by_contra asked
      obtain ⟨i, c, found, _⟩ := booked.asked b.files asked
      rw [missing limit] at found
      cases found
    simp [first]
  refine ⟨⟨c', ?_, readUnused_whole loadable sees read⟩, ?_, fun _ => loadable⟩
  · simp [slot_append]
  · intro limit
    have name : named b.files c' := (readUnused_named read b.files).trans (by simp [named, newPhraseContainer])
    rw [firstPlace_append, missing limit, name]
    rfl

theorem Booked.new (booked : Booked date fqs depth text log t)
    (unspoilt : Unspoilt depth text (log.map Prod.fst ++ [b]))
    (missing : firstPlace (previousUsePhrase date b.files) t = none)
    (read : readUnused fqs depth b.view b.files (newPhraseContainer date b.files) = some (ok, c')) :
    Booked date fqs depth text (log ++ [(b, if ok then some t.length else none)]) (t ++ [some c']) := by
  have grown : (log ++ [(b, if ok then some t.length else none)]).map Prod.fst = log.map Prod.fst ++ [b] := by simp
  have absent : b.files.nlimit = 0 → firstPlace (named b.files) t = none := by
    intro limit
    rw [previousUse_place booked.entries, if_pos limit] at missing
    exact missing
  constructor
  · exact full_append booked.full c'
  · exact each_append booked.entries (readUnused_entry read (entry_new b.files))
  · intro files none
    rw [grown, firstEntry_append, List.append_eq_nil_iff] at none
    have differ : sameFiles files b.files = false := by
      by_contra same
      simp [same, none.1] at none
    have name : named files c' = false := (readUnused_named read files).trans differ
    rw [firstPlace_append, booked.unasked files none.1, name]
    rfl
  · intro files asked
    rw [grown] at asked ⊢
    exact booked.known_new absent read asked
  · intro a r mem
    rw [List.mem_append] at mem
    rcases mem with old | new
    · exact (booked.given a r old).append c'
    · simp only [List.mem_singleton, Prod.mk.injEq] at new
      obtain ⟨rfl, answer⟩ := new
      cases ok with
      | false => cases answer
      | true =>
        cases answer
        exact booked.given_new unspoilt absent read

end New

/- A call that is given the first entry for its files. -/

theorem named_both {f g : PhraseFiles} {c : PhraseContainer} (first : named f c) (second : named g c) :
    sameFiles f g := by
  simp only [named, Bool.and_eq_true, beq_iff_eq] at first second
  obtain ⟨⟨e, b⟩, w⟩ := first
  obtain ⟨⟨e', b'⟩, w'⟩ := second
  exact sameFiles_iff.mpr ⟨e'.symm.trans e, b'.symm.trans b, w'.symm.trans w⟩

theorem firstEntry_congr {f g : PhraseFiles} (same : sameFiles f g) : firstEntry g = firstEntry f := by
  obtain ⟨e, b, w⟩ := sameFiles_iff.mp same
  unfold firstEntry sameFiles
  rw [e, b, w]

theorem find_storing {sharing : List Ask} {x : Ask} (mem : x ∈ sharing) (stores : ¬ x.storesNothing depth) (b : Ask) :
    ∃ a ∈ sharing, sharing.find? (fun a => !a.storesNothing depth) = some a ∧
      (sharing ++ [b]).find? (fun a => !a.storesNothing depth) = some a := by
  obtain ⟨a, found⟩ : ∃ a, sharing.find? (fun a => !a.storesNothing depth) = some a := by
    rw [← Option.isSome_iff_exists, List.find?_isSome]
    exact ⟨x, mem, by simpa using stores⟩
  refine ⟨a, List.mem_of_find?_eq_some found, found, ?_⟩
  rw [List.find?_append, found]
  rfl

section Again
-- The first entry is given to one more call, which has limit 0.
variable {b : Ask} {sharing : List Ask} {c c' : PhraseContainer} {ok : Bool}

theorem standing_held (standing : Standing date fqs depth text b.files sharing c) {x : Ask} (mem : x ∈ sharing)
    (loadable : x.loadable) (loaded : Loaded date fqs depth text b.files c)
    (read : readUnused fqs depth b.view b.files c = some (ok, c')) :
    Standing date fqs depth text b.files (sharing ++ [b]) c' := by
  obtain ⟨rfl, rfl⟩ := readUnused_used (loaded_used loaded) read
  have stores : ¬ x.storesNothing depth := loadable_stores loadable
  constructor
  · intro idle
    exact absurd (idle x (List.mem_append_left _ mem)) stores
  · intro unread
    simp [unread x (List.mem_append_left _ mem)] at loadable
  · intro a found
    obtain ⟨a', _, first, still⟩ := find_storing mem stores b
    rw [still, ← first] at found
    exact standing.held a found

theorem standing_unread (standing : Standing date fqs depth text b.files sharing c)
    (none : ∀ x ∈ sharing ++ [b], x.loadable = false)
    (read : readUnused fqs depth b.view b.files c = some (ok, c')) :
    Standing date fqs depth text b.files (sharing ++ [b]) c' ∧ ok = false := by
  have unused := standing.unread fun x mem => none x (List.mem_append_left _ mem)
  obtain ⟨ok_eq, used_eq⟩ := readUnused_loadable unused read
  have failed : b.loadable = false := none b (by simp)
  rw [failed] at ok_eq used_eq
  refine ⟨⟨?_, fun _ => used_eq, ?_⟩, ok_eq⟩
  · intro idle
    rw [standing.idle fun x mem => idle x (List.mem_append_left _ mem)] at read
    exact readUnused_idle (idle b (by simp)) read
  · intro a found _ loadable _
    rw [none a (List.mem_of_find?_eq_some found)] at loadable
    cases loadable

theorem standing_loads (standing : Standing date fqs depth text b.files sharing c)
    (idle : ∀ x ∈ sharing, x.storesNothing depth) (loadable : b.loadable) (sees : SeesAll text b)
    (read : readUnused fqs depth b.view b.files c = some (ok, c')) :
    Standing date fqs depth text b.files (sharing ++ [b]) c' ∧ Loaded date fqs depth text b.files c' := by
  rw [standing.idle idle] at read
  have loaded := readUnused_whole loadable sees read
  refine ⟨⟨?_, ?_, ?_⟩, loaded⟩
  · intro all
    exact absurd (all b (by simp)) (loadable_stores loadable)
  · intro unread
    rw [unread b (by simp)] at loadable
    cases loadable
  · intro a found _ loadable' _
    have mem := List.mem_of_find?_eq_some found
    rw [List.mem_append, List.mem_singleton] at mem
    rcases mem with old | rfl
    · exact absurd (idle a old) (loadable_stores loadable')
    · exact loaded

theorem standing_again (standing : Standing date fqs depth text b.files sharing c)
    (same : ∀ a ∈ sharing, sameFiles b.files a.files) (limit : b.files.nlimit = 0)
    (zero : ∀ x ∈ sharing ++ [b], x.loadable →
      ∀ a, (sharing ++ [b]).find? (fun a => !a.storesNothing depth) = some a →
        a.files.nlimit = 0 ∧ a.loadable ∧ SeesAll text a)
    (read : readUnused fqs depth b.view b.files c = some (ok, c')) :
    Standing date fqs depth text b.files (sharing ++ [b]) c' ∧ (ok → Loaded date fqs depth text b.files c') := by
  by_cases before : ∃ x ∈ sharing, x.loadable
  · obtain ⟨x, mem, loadable⟩ := before
    obtain ⟨a, member, found, still⟩ := find_storing mem (loadable_stores loadable) b
    obtain ⟨limit', loadable', sees⟩ := zero x (List.mem_append_left _ mem) loadable a still
    have loaded := standing.held a found limit' loadable' sees
    rw [files_eq (same a member) (limit'.trans limit.symm)] at loaded
    refine ⟨standing_held standing mem loadable loaded read, fun _ => ?_⟩
    rw [(readUnused_used (loaded_used loaded) read).2]
    exact loaded
  · have none : ∀ x ∈ sharing, x.loadable = false := by
      intro x mem
      by_contra loadable
      exact before ⟨x, mem, by simpa using loadable⟩
    cases loadable : b.loadable with
    | false =>
      have all : ∀ x ∈ sharing ++ [b], x.loadable = false := by
        intro x mem
        rw [List.mem_append, List.mem_singleton] at mem
        rcases mem with old | rfl
        · exact none x old
        · exact loadable
      obtain ⟨after, failed⟩ := standing_unread standing all read
      refine ⟨after, fun success => ?_⟩
      rw [failed] at success
      cases success
    | true =>
      have idle : ∀ x ∈ sharing, x.storesNothing depth := by
        intro x mem
        by_contra stores
        obtain ⟨a, member, _, still⟩ := find_storing mem stores b
        have late := (zero b (by simp) loadable a still).2.1
        rw [none a member] at late
        cases late
      have sees := (zero b (by simp) loadable b (find_loadable idle loadable)).2.2
      obtain ⟨after, loaded⟩ := standing_loads standing idle loadable sees read
      exact ⟨after, fun _ => loaded⟩

end Again

section Reused
variable {log : List (Ask × Option Nat)} {t : Slots PhraseContainer} {b : Ask} {ok : Bool} {i : Nat}
variable {c c' : PhraseContainer}

theorem firstPlace_read (there : slot t i = some c)
    (read : readUnused fqs depth b.view b.files c = some (ok, c')) (files : PhraseFiles) :
    firstPlace (named files) (modify t i fun _ => c') = firstPlace (named files) t := by
  apply firstPlace_congr
  · exact length_modify t i _
  · intro j
    rw [slot_modify]
    split
    · rename_i here
      simp [← here, there, readUnused_named read]
    · rfl

theorem Known.modify (found : firstPlace (named b.files) t = some i) (there : slot t i = some c)
    (read : readUnused fqs depth b.view b.files c = some (ok, c')) {files : PhraseFiles} {sharing : List Ask}
    (differ : ¬ sameFiles files b.files) (known : Known date fqs depth text t files sharing) :
    Known date fqs depth text (modify t i fun _ => c') files sharing := by
  obtain ⟨j, d, found', there', standing⟩ := known
  refine ⟨j, d, ?_, ?_, standing⟩
  · rw [firstPlace_read there read]
    exact found'
  · rw [slot_modify, if_neg]
    · exact there'
    · intro here
      obtain ⟨e, there₁, name₁⟩ := firstPlace_some found
      obtain ⟨e', there₂, name₂⟩ := firstPlace_some found'
      rw [← here, there₁] at there₂
      cases there₂
      exact differ (named_both name₂ name₁)

theorem Given.modify (there : slot t i = some c) (read : readUnused fqs depth b.view b.files c = some (ok, c'))
    {a : Ask} {r : Nat} (given : Given date fqs depth text t a r) :
    Given date fqs depth text (modify t i fun _ => c') a r := by
  obtain ⟨⟨d, there', loaded⟩, rest⟩ := given
  unfold Given
  rw [firstPlace_read there read]
  refine ⟨⟨d, ?_, loaded⟩, rest⟩
  rw [slot_modify]
  split
  · rename_i here
    rw [← here, there] at there'
    cases there'
    -- an entry that is in use is not read again
    rw [← here, there, (readUnused_used (loaded_used loaded) read).2]
    rfl
  · exact there'

theorem Booked.standing_last (booked : Booked date fqs depth text log t)
    (unspoilt : Unspoilt depth text (log.map Prod.fst ++ [b])) (limit : b.files.nlimit = 0)
    (found : firstPlace (named b.files) t = some i) (there : slot t i = some c)
    (read : readUnused fqs depth b.view b.files c = some (ok, c')) :
    Standing date fqs depth text b.files (firstEntry b.files (log.map Prod.fst ++ [b])) c' ∧
      (ok → Loaded date fqs depth text b.files c') := by
  have asked : firstEntry b.files (log.map Prod.fst) ≠ [] := by
    intro none
    rw [booked.unasked b.files none] at found
    cases found
  have shares : firstEntry b.files (log.map Prod.fst ++ [b]) = firstEntry b.files (log.map Prod.fst) ++ [b] := by
    simp [firstEntry_append, limit, sameFiles]
  obtain ⟨j, d, found', there', standing⟩ := booked.asked b.files asked
  obtain rfl : i = j := Option.some.inj (found.symm.trans found')
  obtain rfl : c = d := Option.some.inj (there.symm.trans there')
  have zero := unspoilt.zero b (by simp) limit
  rw [shares] at zero ⊢
  exact standing_again standing (fun a mem => firstEntry_same mem) limit zero read

theorem Booked.again (booked : Booked date fqs depth text log t)
    (unspoilt : Unspoilt depth text (log.map Prod.fst ++ [b]))
    (previous : firstPlace (previousUsePhrase date b.files) t = some i) (there : slot t i = some c)
    (read : readUnused fqs depth b.view b.files c = some (ok, c')) :
    Booked date fqs depth text (log ++ [(b, if ok then some i else none)]) (modify t i fun _ => c') := by
  have grown : (log ++ [(b, if ok then some i else none)]).map Prod.fst = log.map Prod.fst ++ [b] := by simp
  obtain ⟨limit, found⟩ : b.files.nlimit = 0 ∧ firstPlace (named b.files) t = some i := by
    rw [previousUse_place booked.entries] at previous
    split at previous
    · rename_i limit
      exact ⟨limit, previous⟩
    · cases previous
  have here : slot (modify t i fun _ => c') i = some c' := by
    rw [slot_modify, if_pos rfl, there]
    rfl
  obtain ⟨after, loaded⟩ := booked.standing_last unspoilt limit found there read
  constructor
  · exact full_modify booked.full i _
  · apply each_modify booked.entries
    intro d _
    exact readUnused_entry read (booked.entries i c there)
  · intro files none
    rw [grown, firstEntry_append, List.append_eq_nil_iff] at none
    rw [firstPlace_read there read]
    exact booked.unasked files none.1
  · intro files more
    rw [grown] at more ⊢
    by_cases same : sameFiles files b.files
    · rw [firstEntry_congr same] at after
      rw [named_same same] at found
      refine ⟨i, c', ?_, here, ?_⟩
      · rw [firstPlace_read there read]
        exact found
      · exact ⟨fun idle => (after.idle idle).trans (newPhraseContainer_same same), after.unread, after.held⟩
    · rw [firstEntry_append] at more ⊢
      simp only [same, Bool.false_eq_true, false_and, if_false, List.append_nil] at more ⊢
      exact (booked.asked files more).modify found there read same
  · intro a r mem
    rw [List.mem_append] at mem
    rcases mem with old | new
    · exact (booked.given a r old).modify there read
    · simp only [List.mem_singleton, Prod.mk.injEq] at new
      obtain ⟨rfl, answer⟩ := new
      cases ok with
      | false => cases answer
      | true =>
        cases answer
        refine ⟨⟨c', here, loaded rfl⟩, ?_, fun other => absurd limit other⟩
        intro _
        rw [firstPlace_read there read]
        exact found

end Reused

/- Whole runs. -/

theorem runAsks_booked (asks : List Ask) : ∀ {log log' : List (Ask × Option Nat)} {t t' : Slots PhraseContainer},
    Booked date fqs depth text log t → Unspoilt depth text (log.map Prod.fst ++ asks) →
      runAsks date fqs depth asks t = some (log', t') → Booked date fqs depth text (log ++ log') t' := by
  induction asks with
  | nil =>
    intro log log' t t' booked _ run
    cases run
    rw [List.append_nil]
    exact booked
  | cons b asks ih =>
    intro log log' t t' booked unspoilt run
    rw [runAsks] at run
    split at run
    · cases run
    · rename_i r u read
      have longer : Unspoilt depth text ((log.map Prod.fst ++ [b]) ++ asks) := by simpa using unspoilt
      have next : Booked date fqs depth text (log ++ [(b, r)]) u := by
        rcases readbplfile_cases booked.full read with
          ⟨i, c, ok, c', found, there, filled, rfl, rfl⟩ | ⟨ok, c', missing, filled, rfl, rfl⟩
        · exact booked.again longer.of_append found there filled
        · exact booked.new longer.of_append missing filled
      obtain ⟨⟨tail, v⟩, ran, split⟩ := Option.map_eq_some_iff.mp run
      cases split
      have whole := ih next (by simpa using longer) ran
      simpa using whole

theorem runAsks_asks (asks : List Ask) : ∀ {log : List (Ask × Option Nat)} {t t' : Slots PhraseContainer},
    runAsks date fqs depth asks t = some (log, t') → log.map Prod.fst = asks := by
  induction asks with
  | nil =>
    intro log t t' run
    cases run
    rfl
  | cons b asks ih =>
    intro log t t' run
    rw [runAsks] at run
    split at run
    · cases run
    · obtain ⟨⟨tail, v⟩, ran, split⟩ := Option.map_eq_some_iff.mp run
      cases split
      rw [List.map_cons, ih ran]

theorem loaded_fresh {files : PhraseFiles} {c : PhraseContainer} (loaded : Loaded date fqs depth text files c) :
    readbplfile date fqs depth text files [] = some (some 0, [some c]) := by
  obtain ⟨l, g, read, made, rfl⟩ := loaded
  have three := readThree_fresh.mpr read
  have filled : readUnused fqs depth text files (newPhraseContainer date files) =
      some (true, { newPhraseContainer date files with list := g.list, graph := some g, used := true }) := by
    simp [readUnused, newPhraseContainer, three, made]
  simp [readbplfile, newPhraseList, firstPlace, free, place, slot, filled, SlotTable.modify]

/-- Successful calls with the same three files and the same limit get the same list. -/
def SameIds (log : List (Ask × Option Nat)) : Prop :=
  ∀ a b r s, (a, some r) ∈ log → (b, some s) ∈ log → a.files = b.files → r = s

/-- Every list that a call got is the list of a single load into an empty table. -/
def FreshLists (date : Str → Int) (fqs : Bool) (depth : Nat) (text : FileSystem)
    (log : List (Ask × Option Nat)) (t : Slots PhraseContainer) : Prop :=
  ∀ a r, (a, some r) ∈ log → ∃ c u, readbplfile date fqs depth text a.files [] = some (some 0, u) ∧
    slot u 0 = some c ∧ slot t r = some c

theorem lists_as_loaded_once {asks : List Ask} {log : List (Ask × Option Nat)} {t : Slots PhraseContainer}
    (unspoilt : Unspoilt depth text asks) (run : runAsks date fqs depth asks [] = some (log, t)) :
    SameIds log ∧ FreshLists date fqs depth text log t := by
  have booked := runAsks_booked asks booked_nil (by simpa using unspoilt) run
  rw [List.nil_append] at booked
  constructor
  · intro a b r s first second same
    obtain ⟨_, zero, loadable⟩ := booked.given a r first
    obtain ⟨_, zero', loadable'⟩ := booked.given b s second
    by_cases limit : a.files.nlimit = 0
    · have place := zero limit
      rw [same, zero' (same ▸ limit)] at place
      exact (Option.some.inj place).symm
    · by_contra differ
      have once : (log.map Prod.fst).Pairwise Apart := by
        rw [runAsks_asks asks run]
        exact unspoilt.once
      have symmetric : Std.Symm fun p q : Ask × Option Nat => Apart p.1 q.1 :=
        ⟨fun _ _ apart same limit both => apart same.symm (same ▸ limit) both.symm⟩
      have apart := (List.pairwise_map.mp once).forall first second (by simp [differ])
      exact apart same limit ⟨loadable limit, loadable' (same ▸ limit)⟩
  · intro a r given
    obtain ⟨⟨c, there, loaded⟩, _⟩ := booked.given a r given
    exact ⟨c, [some c], loaded_fresh loaded, rfl, there⟩

end Runs

theorem runAsks_answers {date : Str → Int} {fqs : Bool} {depth : Nat} {asks : List Ask} {ids : List (Option Nat)}
    {t : Slots PhraseContainer}
    (run : (runAsks date fqs depth asks []).map (fun r => (r.1.map Prod.snd, r.2)) = some (ids, t)) :
    runAsks date fqs depth asks [] = some (asks.zip ids, t) := by
  obtain ⟨⟨log, u⟩, ran, answers⟩ := Option.map_eq_some_iff.mp run
  simp only [Prod.mk.injEq] at answers
  obtain ⟨rfl, rfl⟩ := answers
  have asked := runAsks_asks asks ran
  rw [ran, ← asked, List.zip_map']
  simp

def shopFiles : FileSystem := fun name =>
  if name = str "/banned" then some (str "<arms>,<sale>\n<drugs>") else if name = str "/weighted" then some (str "<shop><10%>")
  else if name = str "/exception" then some [] else none

def shopLists (nlimit : Int) : PhraseFiles := ⟨str "/exception", str "/banned", str "/weighted", nlimit⟩

def wholeShop (nlimit : Int) : Ask := ⟨shopFiles, shopLists nlimit⟩

def closedShop (nlimit : Int) : Ask := ⟨fun _ => none, shopLists nlimit⟩

def halfShop (nlimit : Int) : Ask := ⟨fun name => if name = str "/weighted" then none else shopFiles name, shopLists nlimit⟩

def shopTable (asks : List Ask) : Slots PhraseContainer :=
  ((runAsks (fun _ => 0) true 1 asks []).map Prod.snd).getD []

def shopRun : List Ask := [closedShop 0, wholeShop 0, closedShop 0, wholeShop 50]

theorem shop_unspoilt : Unspoilt 1 shopFiles shopRun := by
  have sees : ∀ nlimit, SeesAll shopFiles (wholeShop nlimit) := fun _ _ _ _ _ => rfl
  have sharing : firstEntry (shopLists 0) shopRun = [closedShop 0, wholeShop 0, closedShop 0] := rfl
  constructor
  · simp [shopRun, Apart, closedShop, wholeShop, shopLists]
  · intro a mem limit _
    simp only [shopRun, List.mem_cons, List.not_mem_nil, or_false] at mem
    rcases mem with rfl | rfl | rfl | rfl
    · exact absurd rfl limit
    · exact absurd rfl limit
    · exact absurd rfl limit
    · exact sees 50
  · intro b mem limit x _ _ a found
    have files : b.files = shopLists 0 := by
      simp only [shopRun, List.mem_cons, List.not_mem_nil, or_false] at mem
      rcases mem with rfl | rfl | rfl | rfl
      · rfl
      · rfl
      · rfl
      · cases limit
    have idle : (closedShop 0).storesNothing 1 = true := by decide
    have stores : (wholeShop 0).storesNothing 1 = false := by decide
    simp only [files, sharing, List.find?_cons, idle, stores, Bool.not_true, Bool.not_false,
      Option.some.injEq] at found
    rw [← found]
    exact ⟨rfl, by decide, sees 0⟩

theorem shop_lists_as_loaded :
    SameIds (shopRun.zip [none, some 0, some 0, some 1]) ∧
      FreshLists (fun _ => 0) true 1 shopFiles (shopRun.zip [none, some 0, some 0, some 1]) (shopTable shopRun) :=
  lists_as_loaded_once shop_unspoilt (runAsks_answers (by decide))

/-- The limit is never stored; and a list of which a part could be read gets that part twice. -/
theorem lists_loaded_twice :
    (∀ asks ∈ [[wholeShop 50, wholeShop 50], [halfShop 0, wholeShop 0]], ∀ a ∈ asks, ∀ name,
        a.view name = none ∨ a.view name = shopFiles name) ∧
      (∃ log t, runAsks (fun _ => 0) true 1 [wholeShop 50, wholeShop 50] [] = some (log, t) ∧ ¬ SameIds log) ∧
      ∃ log t, runAsks (fun _ => 0) true 1 [halfShop 0, wholeShop 0] [] = some (log, t) ∧
        ¬ FreshLists (fun _ => 0) true 1 shopFiles log t := by
  refine ⟨?_, ?_, ?_⟩
  · intro asks mem a asked name
    simp only [List.mem_cons, List.not_mem_nil, or_false] at mem
    rcases mem with rfl | rfl
    · simp only [List.mem_cons, List.not_mem_nil, or_false, or_self] at asked
      rw [asked]
      exact .inr rfl
    · simp only [List.mem_cons, List.not_mem_nil, or_false] at asked
      rcases asked with rfl | rfl
      · by_cases weighted : name = str "/weighted"
        · exact .inl (if_pos weighted)
        · exact .inr (if_neg weighted)
      · exact .inr rfl
  · have run : runAsks (fun _ => 0) true 1 [wholeShop 50, wholeShop 50] [] =
        some ([wholeShop 50, wholeShop 50].zip [some 0, some 1], shopTable [wholeShop 50, wholeShop 50]) :=
      runAsks_answers (by decide)
    refine ⟨_, _, run, ?_⟩
    intro same
    have equal := same (wholeShop 50) (wholeShop 50) 0 1 (by simp) (by simp) rfl
    cases equal
  · have run : runAsks (fun _ => 0) true 1 [halfShop 0, wholeShop 0] [] =
        some ([halfShop 0, wholeShop 0].zip [none, some 0], shopTable [halfShop 0, wholeShop 0]) :=
      runAsks_answers (by decide)
    refine ⟨_, _, run, ?_⟩
    intro fresh
    obtain ⟨c, u, read, there, held⟩ := fresh (wholeShop 0) 0 (by simp)
    have twice : (slot (shopTable [halfShop 0, wholeShop 0]) 0).map (fun c => c.list.items.length) = some 7 := by
      decide
    have single : (readbplfile (fun _ => 0) true 1 shopFiles (shopLists 0) []).map
        (fun r => (slot r.2 0).map fun c => c.list.items.length) = some (some 4) := by
      decide
    have files : (wholeShop 0).files = shopLists 0 := rfl
    rw [files] at read
    rw [held] at twice
    rw [read, Option.map_some, there, twice] at single
    cases single

end GuardianPhraseRuns
