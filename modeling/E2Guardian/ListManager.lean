import E2Guardian.ItemFile
import E2Guardian.SharedGraph
import E2Guardian.SlotTable

/- The item lists of ListManager: the table of loaded lists, reuse of a list that was loaded
   before, loading with includes, reference counts along includes, release and garbage
   collection, and the lookups that go on into the included lists. A list is known by its place
   in the table. Each recursion over includes has a bound on its depth; none is a recursion
   that goes deeper, or the use of a place that holds no list. -/
namespace GuardianListManager
open GuardianString GuardianTime GuardianItemList GuardianItemFile SharedGraph

/-- What a load sees of the files. A missing list file that can be made has been made, from its
    sample or empty. `unsetDate` is what a date holds that was never set. -/
structure Files where
  ensureListFileExists : Str → Bool
  getFileDate : Str → Int
  getFileLength : Str → Option Nat
  listfile : Str → Option Str
  unsetDate : Int

structure Request where
  list_pwd : Str
  startswith : Bool
  filters : Int
  kind : Kind
  deriving DecidableEq

structure Container where
  sourcefile : Str
  sourcestartswith : Bool
  sourcefilters : Int
  kind : Kind
  refcount : Int -- an int; fewer than 2^31 include paths to one list are meant
  filedate : Int
  contents : Contents
  morelists : List Nat
  deriving DecidableEq

/-- The table and the lines that are left on stdin; with none left stdin is no longer good. -/
structure Manager where
  l : SlotTable.Slots Container
  stdin : List Str
  deriving DecidableEq

namespace Manager

def empty (stdin : List Str) : Manager := ⟨[], stdin⟩

def slot (m : Manager) (i : Nat) : Option Container := SlotTable.slot m.l i

def modify (m : Manager) (i : Nat) (f : Container → Container) : Manager :=
  { m with l := SlotTable.modify m.l i f }

def clear (m : Manager) (i : Nat) : Manager := { m with l := SlotTable.clear m.l i }

def free (m : Manager) : Nat := SlotTable.free m.l

def place (m : Manager) (i : Nat) (c : Container) : Manager :=
  { m with l := SlotTable.place m.l i c }

def kids (m : Manager) (i : Nat) : Option (List Nat) := (m.slot i).map Container.morelists

end Manager

def addRef (n : Int) (c : Container) : Container := { c with refcount := c.refcount + n }

def refList : Nat → Manager → Nat → Option Manager
  | 0, _, _ => none
  | depth + 1, m, i =>
    match m.slot i with
    | none => none
    | some c => c.morelists.foldlM (refList depth) (m.modify i (addRef 1))

def deRefList : Nat → Manager → Nat → Option Manager
  | 0, _, _ => none
  | depth + 1, m, i =>
    match m.slot i with
    | none => some m
    | some c => c.morelists.foldlM (deRefList depth) (m.modify i (addRef (-1)))

/-- `delete l[i]` and `l[i] = NULL`: the reset of a list that is still referenced releases it. -/
def delete (depth : Nat) (m : Manager) (i : Nat) : Option Manager :=
  match m.slot i with
  | none => some m
  | some c =>
    if c.refcount > 0 then
      (c.morelists.foldlM (deRefList depth) (m.modify i (addRef (-1)))).map (·.clear i)
    else some (m.clear i)

/-- The lists that are deleted have no references left, so their reset releases nothing. -/
def garbageCollect (m : Manager) : Manager :=
  { m with l := m.l.map (Option.filter fun c => !decide (c.refcount < 1)) }

section Loading
variable (files : Files) (host : Host) (w : Request)

def previousUseItem (c : Container) (filename : Str) : Bool :=
  filename == c.sourcefile && w.startswith == c.sourcestartswith && w.filters == c.sourcefilters

def upToDate : Nat → Manager → Nat → Option Bool
  | 0, _, _ => none
  | depth + 1, m, i =>
    match m.slot i with
    | none => none
    | some c =>
      if startsWith c.sourcefile (str "memory:") then some true
      else if files.getFileDate c.sourcefile > c.filedate then some false
      else c.morelists.allM (upToDate depth m)

def previousItem (depth : Nat) (filename : Str) (m : Manager) : List Nat → Option (Option Nat)
  | [] => some none
  | i :: is =>
    match m.slot i with
    | none => previousItem depth filename m is
    | some c =>
      if previousUseItem w c filename then
        match upToDate files depth m i with
        | none => none
        | some true => some (some i)
        | some false => previousItem depth filename m is
      else previousItem depth filename m is

def newContainer (filename : Str) : Container :=
  { sourcefile := filename, sourcestartswith := w.startswith, sourcefilters := w.filters,
    kind := w.kind, refcount := 1, filedate := files.unsetDate, contents := .empty, morelists := [] }

def storeLine (me : Nat) (line : Line) (m : Manager) : Option Manager :=
  match m.slot me with
  | none => none
  | some c =>
    (addLine host w.kind w.filters line c.contents).map fun k =>
      m.modify me fun c => { c with contents := k }

def isMemory (filename : Str) : Bool := startsWith (toLower filename) (str "memory:")

variable (load : Str → Manager → Option (Option Nat × Manager))

def readAnotherItemList (me : Nat) (inc : Str) (m : Manager) : Option (Bool × Manager) :=
  match load inc m with
  | none => none
  | some (none, m) => some (false, m)
  | some (some result, m) =>
    some (true, m.modify me fun c => { c with morelists := c.morelists ++ [result] })

def ifsreadItemList (source : Source) (me : Nat) (lines : List Str) (m : Manager) :
    Option (Bool × List Str × Manager) :=
  match readLines source (storeLine host w me) (readAnotherItemList load me) lines m with
  | some (true, rest, m) =>
    some (true, rest, m.modify me fun c => { c with contents := sortRead w.kind c.contents })
  | r => r

def readStdinItemList (me : Nat) (m : Manager) : Option (Bool × Manager) :=
  if m.stdin = [] then some (false, m)
  else
    match ifsreadItemList host w load ⟨[], [], true⟩ me m.stdin m with
    | none => none
    | some (ok, rest, m) => some (ok, { m with stdin := rest })

def fileSource (list_pwd filename : Str) : Source := ⟨baseDir filename, list_pwd, false⟩

def textLines (text : Str) : List Str := text.splitOn (ch '\n')

def readItemList (filename : Str) (me : Nat) (m : Manager) : Option (Bool × Manager) :=
  if isMemory filename then readStdinItemList host w load me m
  else if !files.ensureListFileExists filename then some (false, m)
  else
    let m := m.modify me fun c => { c with filedate := files.getFileDate filename }
    match files.getFileLength filename with
    | none => some (false, m)
    | some len =>
      if len < 2 then some (true, m) -- its blank
      else
        match files.listfile filename with
        | none => some (false, m)
        | some text =>
          match ifsreadItemList host w load (fileSource w.list_pwd filename) me (textLines text) m with
          | none => none
          | some (ok, _, m) => some (ok, m)

end Loading

def newItemList (files : Files) (host : Host) (w : Request) :
    Nat → Str → Manager → Option (Option Nat × Manager)
  | 0, _, _ => none
  | depth + 1, filename, m =>
    match previousItem files w depth filename m (List.range m.l.length) with
    | none => none
    | some (some i) => (refList depth m i).map (some i, ·)
    | some none =>
      match readItemList files host w (newItemList files host w depth) filename m.free
        (m.place m.free (newContainer files w filename)) with
      | none => none
      | some (true, m') => some (some m.free, m')
      | some (false, m') => (delete depth m' m.free).map (none, ·)

def doSort (startsWith : Bool) : Nat → Manager → Nat → Option Manager
  | 0, _, _ => none
  | depth + 1, m, i =>
    match m.slot i with
    | none => none
    | some c =>
      (c.morelists.foldlM (doSort startsWith depth) m).map fun m =>
        m.modify i fun c => { c with contents := sortOwn c.kind startsWith c.contents }

section Lookups
variable {α : Type} (own : Kind → Contents → Option α) (now : Clock)

def firstFound (f : Nat → Option (Option α)) : List Nat → Option (Option α)
  | [] => some none
  | i :: is =>
    match f i with
    | none => none
    | some (some rc) => some (some rc)
    | some none => firstFound f is

/-- The shape shared by the lookups: the entries of the list itself, then its includes in
    order, all only while the list is in time. -/
def findWith : Nat → Manager → Nat → Option (Option α)
  | 0, _, _ => none
  | depth + 1, m, i =>
    match m.slot i with
    | none => none
    | some c =>
      if inTime now c.contents.limit then
        match own c.kind c.contents with
        | some rc => some (some rc)
        | none => firstFound (findWith depth m) c.morelists
      else some none

end Lookups

def findInList (host : Host) (now : Clock) (string : Str) : Nat → Manager → Nat → Option (Option Found) :=
  findWith (fun kind k => findOwn host kind k string) now

def findStartsWith (now : Clock) (string : Str) : Nat → Manager → Nat → Option (Option Found) :=
  findWith (fun _ k => searchOwn greaterThanSW k string) now

def findEndsWith (now : Clock) (string : Str) : Nat → Manager → Nat → Option (Option Found) :=
  findWith (fun _ k => searchOwn greaterThanEW k string) now

/- The table after each kind of change. -/

@[simp] theorem slot_modify (m : Manager) (i j : Nat) (f : Container → Container) :
    (m.modify i f).slot j = if i = j then (m.slot j).map f else m.slot j :=
  SlotTable.slot_modify m.l i j f

@[simp] theorem slot_clear (m : Manager) (i j : Nat) :
    (m.clear i).slot j = if i = j then none else m.slot j := SlotTable.slot_clear m.l i j

theorem slot_free (m : Manager) : m.slot m.free = none := SlotTable.slot_free m.l

theorem slot_place (m : Manager) (c : Container) (j : Nat) :
    (m.place m.free c).slot j = if m.free = j then some c else m.slot j :=
  SlotTable.slot_place m.l c j

@[simp] theorem slot_garbageCollect (m : Manager) (i : Nat) :
    (garbageCollect m).slot i = (m.slot i).filter fun c => !decide (c.refcount < 1) := by
  simp only [Manager.slot, SlotTable.slot, garbageCollect, List.getElem?_map]
  cases m.l[i]? with
  | none => rfl
  | some c => rfl

theorem kids_eq_some {m : Manager} {i : Nat} {js : List Nat} (h : m.kids i = some js) :
    ∃ c, m.slot i = some c ∧ c.morelists = js := Option.map_eq_some_iff.mp h

theorem kids_of_slot {m : Manager} {i : Nat} {c : Container} (h : m.slot i = some c) :
    m.kids i = some c.morelists := by
  rw [Manager.kids, h, Option.map_some]

/-- A change of a list that leaves its includes alone changes no includes. -/
theorem kids_modify (m : Manager) (i : Nat) (f : Container → Container)
    (same : ∀ c, (f c).morelists = c.morelists) : (m.modify i f).kids = m.kids := by
  funext j
  simp only [Manager.kids, slot_modify]
  split
  · simp [Option.map_map, Function.comp_def, same]
  · rfl

@[simp] theorem kids_addRef (m : Manager) (i : Nat) (n : Int) :
    (m.modify i (addRef n)).kids = m.kids := kids_modify m i (addRef n) fun _ => rfl

def Manager.addRefs (n : Int) (m : Manager) (ws : List Nat) : Manager :=
  ws.foldl (fun m i => m.modify i (addRef n)) m

theorem kids_addRefs (n : Int) (ws : List Nat) (m : Manager) : (m.addRefs n ws).kids = m.kids := by
  induction ws generalizing m with
  | nil => rfl
  | cons i ws ih =>
    have step := ih (m.modify i (addRef n))
    rw [kids_addRef] at step
    exact step

theorem slot_addRefs (n : Int) (ws : List Nat) (m : Manager) (i : Nat) :
    (m.addRefs n ws).slot i = (m.slot i).map (addRef (n * ws.count i)) := by
  induction ws generalizing m with
  | nil =>
    have nothing : addRef (n * ([] : List Nat).count i) = id := by
      funext c
      simp [addRef]
    rw [nothing, Option.map_id]
    rfl
  | cons j ws ih =>
    have step : m.addRefs n (j :: ws) = (m.modify j (addRef n)).addRefs n ws := rfl
    rw [step, ih, slot_modify]
    by_cases same : j = i
    · subst same
      cases m.slot j with
      | none => simp
      | some c =>
        simp only [if_true, Option.map_some, addRef, List.count_cons_self, Option.some.injEq,
          Container.mk.injEq, true_and, and_true]
        push_cast
        rw [Int.mul_add]
        omega
    · simp [same]

theorem addRefs_append (n : Int) (m : Manager) (us vs : List Nat) :
    m.addRefs n (us ++ vs) = (m.addRefs n us).addRefs n vs := List.foldl_append

/-- refList and deRefList on lists that are all there are one traversal, which adds one or takes one. -/
structure Adjusts (f : Nat → Manager → Nat → Option Manager) (n : Int) : Prop where
  stuck : ∀ m i, f 0 m i = none
  onward : ∀ depth m i c, m.slot i = some c →
    f (depth + 1) m i = c.morelists.foldlM (f depth) (m.modify i (addRef n))

theorem refList_adjusts : Adjusts refList 1 where
  stuck _ _ := rfl
  onward depth m i c there := by rw [refList, there]

theorem deRefList_adjusts : Adjusts deRefList (-1) where
  stuck _ _ := rfl
  onward depth m i c there := by rw [deRefList, there]

section CountingTraversals
variable {f : Nat → Manager → Nat → Option Manager} {n : Int} (adjusts : Adjusts f n)
include adjusts

theorem Adjusts.counts {kids : Nat → Option (List Nat)} {is ws : List Nat}
    (walk : Walks kids is ws) : ∀ {depth : Nat} {m m' : Manager}, m.kids = kids →
      is.foldlM (f depth) m = some m' → m' = m.addRefs n ws := by
  induction walk with
  | nil =>
    intro depth m m' _ done
    simp only [List.foldlM_nil, Option.pure_def, Option.some.injEq] at done
    exact done.symm
  | @cons i js is ws rest live _ _ ihDown ihNext =>
    intro depth m m' shape done
    rw [List.foldlM_cons] at done
    obtain ⟨m₁, first, next⟩ := Option.bind_eq_some_iff.mp done
    cases depth with
    | zero => simp [adjusts.stuck] at first
    | succ depth =>
      obtain ⟨c, there, rfl⟩ := kids_eq_some (shape ▸ live)
      rw [adjusts.onward depth m i c there] at first
      have below := ihDown (by rw [kids_addRef, shape]) first
      have after := ihNext (by rw [below, kids_addRefs, kids_addRef, shape]) next
      rw [after, below, ← addRefs_append]
      rfl

theorem Adjusts.ends {kids : Nat → Option (List Nat)} {is ws : List Nat}
    (walk : Walks kids is ws) : ∃ enough, ∀ depth ≥ enough, ∀ m : Manager, m.kids = kids →
      is.foldlM (f depth) m = some (m.addRefs n ws) := by
  induction walk with
  | nil => exact ⟨0, fun _ _ _ _ => rfl⟩
  | @cons i js is ws rest live _ _ ihDown ihNext =>
    obtain ⟨below, ihDown⟩ := ihDown
    obtain ⟨after, ihNext⟩ := ihNext
    refine ⟨max (below + 1) after, ?_⟩
    intro depth deep m shape
    obtain ⟨depth, rfl⟩ : ∃ less, depth = less + 1 := ⟨depth - 1, by omega⟩
    obtain ⟨c, there, rfl⟩ := kids_eq_some (shape ▸ live)
    have shape' : (m.modify i (addRef n)).kids = kids := by rw [kids_addRef, shape]
    rw [List.foldlM_cons, adjusts.onward depth m i c there, ihDown depth (by omega) _ shape']
    rw [Option.bind_eq_bind, Option.bind_some]
    rw [ihNext (depth + 1) (by omega) _ (by rw [kids_addRefs, shape']), ← addRefs_append]
    rfl

variable {m m' : Manager} {i : Nat} {ws : List Nat} (walk : Walks m.kids [i] ws)
include walk

/-- The traversal from one list on. -/
theorem Adjusts.eq {depth : Nat} (done : f depth m i = some m') : m' = m.addRefs n ws := by
  apply adjusts.counts walk rfl
  rw [List.foldlM_cons, done]
  rfl

theorem Adjusts.ends_eq : ∃ enough, ∀ depth ≥ enough, f depth m i = some (m.addRefs n ws) := by
  obtain ⟨enough, ends⟩ := adjusts.ends walk
  refine ⟨enough, ?_⟩
  intro depth deep
  simpa [List.foldlM_cons] using ends depth deep m rfl

end CountingTraversals

/- Loading. -/

/-- The list file names the other one in an include line. -/
def Includes (files : Files) (list_pwd name inc : Str) : Prop :=
  isMemory name = false ∧ ∃ text, files.listfile name = some text ∧
    inc ∈ includesIn (fileSource list_pwd name) (textLines text)

/-- No list file includes itself, directly or through others. -/
def Acyclic (files : Files) (list_pwd : Str) : Prop :=
  ∀ name, ¬ Relation.TransGen (Includes files list_pwd) name name

/-- Files with the given texts, all of one date; any other file is made empty. -/
def filesOf (texts : List (Str × Str)) : Files :=
  { ensureListFileExists := fun _ => true
    getFileDate := fun _ => 0
    getFileLength := fun name => some ((texts.lookup name).getD []).length
    listfile := fun name => some ((texts.lookup name).getD [])
    unsetDate := 0 }

theorem includes_filesOf {texts : List (Str × Str)} {list_pwd name inc : Str}
    (includes : Includes (filesOf texts) list_pwd name inc) :
    ∃ p ∈ texts, p.1 = name ∧ inc ∈ includesIn (fileSource list_pwd p.1) (textLines p.2) := by
  obtain ⟨_, text, opened, mem⟩ := includes
  simp only [filesOf, Option.some.injEq] at opened
  cases known : texts.lookup name with
  | none =>
    have empty : text = [] := by rw [← opened, known, Option.getD_none]
    subst empty
    exact absurd mem (by simp [textLines, includesIn, parseLine, cstr])
  | some text' =>
    rw [known, Option.getD_some] at opened
    subst opened
    obtain ⟨before, after, split, _⟩ := List.lookup_eq_some_iff.mp known
    exact ⟨(name, text'), by simp [split], rfl, mem⟩

theorem acyclic_filesOf {texts : List (Str × Str)} {list_pwd : Str}
    (shorter : ∀ p ∈ texts, ∀ inc ∈ includesIn (fileSource list_pwd p.1) (textLines p.2),
      inc.length < p.1.length) : Acyclic (filesOf texts) list_pwd := by
  apply acyclic_of_falling List.length
  intro name inc includes
  obtain ⟨p, mem, rfl, named⟩ := includes_filesOf includes
  exact shorter p mem inc named

def noHost : Host :=
  ⟨fun _ => false, fun _ => false, fun _ => false, fun _ => false, fun _ => false, fun _ => none, 1⟩

def siteList : Request := ⟨[], false, 0, ⟨false, false, false⟩⟩

def Fills (f : Container → Container) : Prop :=
  ∀ c, ∃ k date, f c = { c with contents := k, filedate := date }

theorem fills_contents (g : Container → Contents) : Fills fun c => { c with contents := g c } := by
  intro c
  exact ⟨g c, c.filedate, rfl⟩

section ReadingKeeps
variable {files : Files} {host : Host} {w : Request} {me : Nat}
variable {load : Str → Manager → Option (Option Nat × Manager)} {P : Manager → Prop}
variable (filled : ∀ f, Fills f → ∀ m, P m → P (m.modify me f))
include filled

theorem storeLine_keeps (line : Line) (m m' : Manager) (start : P m)
    (done : storeLine host w me line m = some m') : P m' := by
  unfold storeLine at done
  split at done
  · simp at done
  · obtain ⟨k, _, rfl⟩ := Option.map_eq_some_iff.mp done
    exact filled _ (fills_contents fun _ => k) m start

theorem ifsreadItemList_keeps {source : Source} {lines rest : List Str} {m m' : Manager} {ok : Bool}
    (included : ∀ inc ∈ includesIn source lines, ∀ m ok m', P m →
      readAnotherItemList load me inc m = some (ok, m') → P m') (start : P m)
    (done : ifsreadItemList host w load source me lines m = some (ok, rest, m')) : P m' := by
  have loop := @readLines_keeps _ source (storeLine host w me) (readAnotherItemList load me) P
    (storeLine_keeps filled) lines included m start
  unfold ifsreadItemList at done
  split at done
  · rename_i rest₁ m₁ read
    simp only [Option.some.injEq, Prod.mk.injEq] at done
    rw [← done.2.2]
    exact filled _ (fills_contents fun c => sortRead w.kind c.contents) m₁ (loop read)
  · exact loop done

/-- What filling the list, reading on in stdin and every include keep, readItemList keeps. -/
theorem readItemList_keeps {filename : Str} (left : ∀ m rest, P m → P { m with stdin := rest })
    (included : ∀ inc, Includes files w.list_pwd filename inc → ∀ m ok m', P m →
      readAnotherItemList load me inc m = some (ok, m') → P m') {m m' : Manager} {ok : Bool} (start : P m)
    (done : readItemList files host w load filename me m = some (ok, m')) : P m' := by
  unfold readItemList at done
  split at done
  · unfold readStdinItemList at done
    split at done
    · simp only [Option.some.injEq, Prod.mk.injEq] at done
      exact done.2 ▸ start
    · split at done
      · simp at done
      · rename_i rest m₁ read
        simp only [Option.some.injEq, Prod.mk.injEq] at done
        rw [← done.2]
        apply left
        apply ifsreadItemList_keeps filled ?_ start read
        simp [includesIn_stdin]
  · rename_i file
    have dated := filled _ (fun c => ⟨c.contents, files.getFileDate filename, rfl⟩) m start
    split at done
    · simp only [Option.some.injEq, Prod.mk.injEq] at done
      exact done.2 ▸ start
    · simp only at done
      split at done
      · simp only [Option.some.injEq, Prod.mk.injEq] at done
        exact done.2 ▸ dated
      · split at done
        · simp only [Option.some.injEq, Prod.mk.injEq] at done
          exact done.2 ▸ dated
        · split at done
          · simp only [Option.some.injEq, Prod.mk.injEq] at done
            exact done.2 ▸ dated
          · rename_i text opened
            split at done
            · simp at done
            · rename_i rest m₁ read
              simp only [Option.some.injEq, Prod.mk.injEq] at done
              rw [← done.2]
              apply ifsreadItemList_keeps filled ?_ dated read
              intro inc mem
              exact included inc ⟨by simpa using file, text, opened, mem⟩

end ReadingKeeps

/-- A list that is used again is one of the file, in the wanted order and with the filters. -/
theorem previousItem_found {files : Files} {w : Request} {depth : Nat} {filename : Str} {m : Manager}
    {is : List Nat} {i : Nat} (found : previousItem files w depth filename m is = some (some i)) :
    ∃ c, m.slot i = some c ∧ previousUseItem w c filename = true ∧
      upToDate files depth m i = some true := by
  induction is with
  | nil => simp [previousItem] at found
  | cons j is ih =>
    rw [previousItem] at found
    split at found
    · exact ih found
    · rename_i c there
      split at found
      · rename_i used
        split at found
        · simp at found
        · rename_i current
          simp only [Option.some.injEq] at found
          subst found
          exact ⟨c, there, used, current⟩
        · exact ih found
      · exact ih found

theorem previousUseItem_iff {w : Request} {c : Container} {filename : Str} :
    previousUseItem w c filename = true ↔
      c.sourcefile = filename ∧ c.sourcestartswith = w.startswith ∧ c.sourcefilters = w.filters := by
  simp only [previousUseItem, Bool.and_eq_true, beq_iff_eq, and_assoc]
  constructor
  · rintro ⟨rfl, order, filters⟩
    exact ⟨rfl, order.symm, filters.symm⟩
  · rintro ⟨rfl, order, filters⟩
    exact ⟨rfl, order.symm, filters.symm⟩

end GuardianListManager
