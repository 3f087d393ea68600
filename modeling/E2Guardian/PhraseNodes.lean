import E2Guardian.PhraseGraph

/- The array of ints in which makeGraph keeps the nodes of the graph. A node is a letter, the flag of an end, the number of its
   links, the number of a phrase and the links. The root has room for more links, so the other nodes are counted from a second
   base. A read outside the array gives 0; arrays with more cells than an int counts are not modelled. -/
namespace GuardianPhraseNodes
open GuardianString GuardianPhraseList GuardianPhraseGraph WordTrie

def rootOffset : Nat := rootNodeSize - graphEntrySize

def nodeSize (pos : Nat) : Nat := if pos = 0 then rootNodeSize else graphEntrySize

def linkLimit (pos : Nat) : Nat := if pos = 0 then maxRootLinks else maxLinks

def place (pos k : Nat) : Nat := (if pos = 0 then 0 else rootOffset) + pos * graphEntrySize + k

structure Nodes where
  realgraphdata : List Int
  graphitems : Nat
  deriving DecidableEq, Repr

namespace Nodes

def raw (a : Nodes) (n : Nat) : Int := a.realgraphdata.getD n 0

def cell (a : Nodes) (pos k : Nat) : Int := a.raw (place pos k)

def write (a : Nodes) (pos k : Nat) (value : Int) : Nodes :=
  { a with realgraphdata := a.realgraphdata.set (place pos k) value }

def letter (a : Nodes) (pos : Nat) : UInt8 := UInt8.ofNat (a.cell pos 0).toNat

def links (a : Nodes) (pos : Nat) : List Nat :=
  (List.range (a.cell pos 2).toNat).map fun i => (a.cell pos (4 + i)).toNat

/-- Counts one more node, and makes the array longer if that does not fit; the new cells are zero. -/
def newNode (a : Nodes) : Nodes :=
  let graphitems := a.graphitems + 1
  if a.realgraphdata.length < graphEntrySize * graphitems + rootOffset then
    let more := graphEntrySize * (graphitems + 256) + rootOffset - a.realgraphdata.length
    ⟨a.realgraphdata ++ List.replicate more 0, graphitems⟩
  else ⟨a.realgraphdata, graphitems⟩

def link (a : Nodes) (pos child : Nat) : Nodes :=
  (a.write pos 2 (a.cell pos 2 + 1)).write pos (4 + (a.cell pos 2).toNat) child

def open_ (a : Nodes) (i : Nat) (p : UInt8) (item : Nat) : Nodes := (a.write i 0 p.toNat).write i 3 item

end Nodes

/-- The nodes of the letters behind the first; the limit is that of the node that the word was added to. -/
def spellRest (limit item : Nat) : Nat → Str → Nodes → Option Nodes
  | i, [], a => some (a.write i 1 1)
  | i, p :: s, a =>
    if a.cell i 2 + 1 > limit then none
    else spellRest limit item (i + 1) s ((a.link i (i + 1)).newNode.open_ (i + 1) p item)

def insertNodes (a : Nodes) (inx item : Nat) (p : UInt8) (s : Str) : Option Nodes :=
  let i := a.graphitems
  let a := a.newNode
  if a.cell inx 2 + 1 > linkLimit inx then none
  else spellRest (linkLimit inx) item i s ((a.link inx i).open_ i p item)

def collide (a : Nodes) (item : Nat) (l : PhraseList) (child : Nat) : PhraseList :=
  if a.cell child 1 = 1 then resolveCollision l (a.cell child 3).toNat item else l

/-- The children with the letter. -/
def matching (a : Nodes) (inx : Nat) (p : UInt8) : List Nat := (a.links inx).filter fun child => a.letter child == p

def graphAddBelow (item : Nat) : UInt8 → Str → Nat → PhraseList × Nodes → Option (PhraseList × Nodes)
  | p, [], inx, (l, a) =>
    match matching a inx p with
    | [] => (insertNodes a inx item p []).map fun a => (l, a)
    | same => some (same.foldl (collide a item) l, a)
  | p, next :: t, inx, (l, a) =>
    match matching a inx p with
    | [] => (insertNodes a inx item p (next :: t)).map fun a => (l, a)
    | child :: _ => graphAddBelow item next t child (l, a)

def graphAdd (st : PhraseList × Nodes) (item : Nat) : Option (PhraseList × Nodes) :=
  let s := getItemAtInt st.1 item
  graphAddBelow item (s.headD 0) s.tail 0 st

-- none where the calls nest deeper
def graphFindBranches (a : Nodes) : Nat → Nat → Option Nat
  | 0, _ => none
  | depth + 1, pos =>
    ((a.links pos).foldlM (fun n child => (graphFindBranches a depth child).map (n + ·)) 0).map
      (· + ((a.links pos).length - 1))

def graphCopyNodePhrases (a : Nodes) : Nat → PhraseList × List Nat → Nat → Option (PhraseList × List Nat)
  | 0, _, _ => none
  | depth + 1, st, pos =>
    ((a.links pos).foldlM (graphCopyNodePhrases a depth) st).map fun st => storeSlow st (a.cell pos 3).toNat

/-- Closes the gap at one of the root's links, up to the number of links that there were at first. -/
def removeLink (a : Nodes) (ml i : Nat) : Nodes :=
  let a := (List.range' i (ml - i)).foldl (fun a j => a.write 0 (4 + j) (a.cell 0 (4 + j + 1))) a
  a.write 0 2 (a.cell 0 2 - 1)

def moveRound (depth ml : Nat) (st : Nodes × PhraseList × List Nat) (i : Nat) : Option (Nodes × PhraseList × List Nat) :=
  let (a, slow) := st
  let node := (a.cell 0 (4 + i)).toNat
  match graphFindBranches a depth node with
  | none => none
  | some branches =>
    if branches < 12 then (graphCopyNodePhrases a depth slow node).map fun slow => (removeLink a ml i, slow)
    else some (a, slow)

def moveSparse (depth : Nat) (a : Nodes) (slow : PhraseList × List Nat) : Option (Nodes × PhraseList × List Nat) :=
  let ml := (a.cell 0 2).toNat
  (List.range ml).reverse.foldlM (moveRound depth ml) (a, slow)

/-- The conservative guess: a node for every third byte of the phrases. -/
def firstNodes (l : PhraseList) : Nodes :=
  let data_length := l.items.foldl (fun n item => n + item.text.length + 1) 0
  ⟨List.replicate (graphEntrySize * (data_length / 3 + 1) + rootOffset) 0, 1⟩

def Nodes.fitted (a : Nodes) : Nodes :=
  { a with realgraphdata := a.realgraphdata.take (graphEntrySize * a.graphitems + rootOffset) }

/-- The second half of makeGraph, where quick search is not forced: the list, slowgraph and the array. -/
def makeNodes (depth : Nat) (l : PhraseList) : Option (Nodes × PhraseList × List Nat) :=
  match graphSizeSort l (List.range l.items.length) with
  | none => none
  | some sizelist =>
    match sizelist.foldlM graphAdd (l, firstNodes l) with
    | none => none
    | some (l, a) => moveSparse depth a.fitted (l, [])


/- The cells. -/

theorem place_inj {p q k j : Nat} (inside : k < nodeSize p) (inside' : j < nodeSize q) (same : place p k = place q j) :
    p = q ∧ k = j := by
  simp only [place, nodeSize, rootOffset, rootNodeSize, graphEntrySize] at *
  split_ifs at * <;> omega

/-- The nodes so far are inside, and behind them there is nothing. -/
structure Sized (a : Nodes) : Prop where
  root : 0 < a.graphitems
  room : graphEntrySize * a.graphitems + rootOffset ≤ a.realgraphdata.length
  blank : ∀ n ≥ graphEntrySize * a.graphitems + rootOffset, a.raw n = 0

section Cells
variable {a : Nodes} {pos k : Nat}

theorem raw_write (a : Nodes) (pos k : Nat) (value : Int) {n : Nat} (other : place pos k ≠ n) :
    (a.write pos k value).raw n = a.raw n := by
  simp [Nodes.raw, Nodes.write, List.getD_eq_getElem?_getD, List.getElem?_set_ne other]

theorem raw_newNode (a : Nodes) (n : Nat) : a.newNode.raw n = a.raw n := by
  unfold Nodes.newNode Nodes.raw
  dsimp only
  split
  · rw [List.getD_eq_getElem?_getD, List.getD_eq_getElem?_getD, List.getElem?_append]
    split
    · rfl
    · rename_i behind
      rw [List.getElem?_eq_none (Nat.le_of_not_lt behind), List.getElem?_replicate]
      split <;> rfl
  · rfl

theorem Sized.place_inside (sized : Sized a) (old : pos < a.graphitems) (inside : k < nodeSize pos) :
    place pos k < graphEntrySize * a.graphitems + rootOffset := by
  have root := sized.root
  simp only [place, nodeSize, rootOffset, rootNodeSize, graphEntrySize] at *
  split_ifs at * <;> omega

theorem Sized.cell_new (sized : Sized a) (new : a.graphitems ≤ pos) : a.cell pos k = 0 := by
  apply sized.blank
  have root := sized.root
  simp only [place, rootOffset, rootNodeSize, graphEntrySize]
  split_ifs <;> omega

theorem Sized.cell_write (sized : Sized a) (old : pos < a.graphitems) (inside : k < nodeSize pos) (value : Int) :
    (a.write pos k value).cell pos k = value := by
  have room := (sized.place_inside old inside).trans_le sized.room
  simp [Nodes.cell, Nodes.raw, Nodes.write, List.getD_eq_getElem?_getD, room]

theorem cell_write_other {q j : Nat} (inside : k < nodeSize pos) (inside' : j < nodeSize q) (other : q ≠ pos ∨ j ≠ k)
    (value : Int) : (a.write pos k value).cell q j = a.cell q j := by
  apply raw_write
  intro same
  obtain ⟨rfl, rfl⟩ := place_inj inside inside' same
  exact other.elim (· rfl) (· rfl)

theorem Sized.write (sized : Sized a) (old : pos < a.graphitems) (inside : k < nodeSize pos) (value : Int) :
    Sized (a.write pos k value) := by
  refine ⟨sized.root, by simpa [Nodes.write] using sized.room, ?_⟩
  intro n behind
  rw [raw_write a pos k value (Nat.ne_of_lt ((sized.place_inside old inside).trans_le behind))]
  exact sized.blank n behind

theorem graphitems_newNode (a : Nodes) : a.newNode.graphitems = a.graphitems + 1 := by
  unfold Nodes.newNode
  dsimp only
  split <;> rfl

theorem Sized.newNode (sized : Sized a) : Sized a.newNode := by
  refine ⟨by rw [graphitems_newNode]; exact Nat.succ_pos _, ?_, ?_⟩
  · rw [graphitems_newNode]
    unfold Nodes.newNode
    dsimp only
    split
    · simp only [List.length_append, List.length_replicate, graphEntrySize]
      omega
    · rename_i fits
      exact Nat.le_of_not_lt fits
  · intro n behind
    rw [graphitems_newNode] at behind
    rw [raw_newNode]
    exact sized.blank n (by simp only [graphEntrySize] at *; omega)

end Cells

/- The links. -/

structure Linked (a : Nodes) (pos : Nat) (ts : List Nat) : Prop where
  count : a.cell pos 2 = ts.length
  each : ∀ (i child : Nat), ts[i]? = some child → a.cell pos (4 + i) = child
  few : ts.length ≤ linkLimit pos

theorem nodeSize_eq (pos : Nat) : nodeSize pos = linkLimit pos + 4 := by
  unfold nodeSize linkLimit
  split <;> rfl

theorem linkLimit_pos (pos : Nat) : 60 ≤ linkLimit pos := by
  unfold linkLimit
  split <;> decide

section Links
variable {a b : Nodes} {pos k : Nat} {ts : List Nat}

theorem linked_nil (none_ : a.cell pos 2 = 0) : Linked a pos [] := by
  refine ⟨none_, ?_, Nat.zero_le _⟩
  intro i child there
  cases there

theorem Linked.links_eq (linked : Linked a pos ts) : a.links pos = ts := by
  apply List.ext_getElem?
  intro i
  rw [Nodes.links, linked.count, Int.toNat_natCast, List.getElem?_map]
  by_cases inside : i < ts.length
  · have there := List.getElem?_eq_getElem inside
    rw [List.getElem?_range inside, there, Option.map_some, linked.each i _ there, Int.toNat_natCast]
  · rw [List.getElem?_eq_none (by simpa using inside), List.getElem?_eq_none (Nat.le_of_not_lt inside), Option.map_none]

theorem Linked.congr (linked : Linked a pos ts) (same : ∀ k < nodeSize pos, b.cell pos k = a.cell pos k) : Linked b pos ts := by
  have limit := linkLimit_pos pos
  rw [nodeSize_eq] at same
  refine ⟨(same 2 (by omega)).trans linked.count, ?_, linked.few⟩
  intro i child there
  have inside := (List.getElem?_eq_some_iff.mp there).1
  have few := linked.few
  exact (same (4 + i) (by omega)).trans (linked.each i child there)

variable (sized : Sized a) (old : pos < a.graphitems) (linked : Linked a pos ts) (room : ts.length < linkLimit pos)
  (child : Nat)
include sized old linked room

theorem Sized.link : Sized (a.link pos child) := by
  have size := nodeSize_eq pos
  have limit := linkLimit_pos pos
  have count := linked.count
  exact (sized.write old (by omega) _).write old (by rw [count]; omega) _

omit sized old in
theorem cell_link_other {q j : Nat} (inside : j < nodeSize q) (other : q ≠ pos ∨ j = 0 ∨ j = 1 ∨ j = 3) :
    (a.link pos child).cell q j = a.cell q j := by
  have size := nodeSize_eq pos
  have limit := linkLimit_pos pos
  have count := linked.count
  rw [Nodes.link, cell_write_other (by rw [count]; omega) inside (by omega), cell_write_other (by omega) inside (by omega)]

theorem linked_link : Linked (a.link pos child) pos (ts ++ [child]) := by
  have size := nodeSize_eq pos
  have limit := linkLimit_pos pos
  have count := linked.count
  have counted := sized.write old (by omega : 2 < nodeSize pos) (a.cell pos 2 + 1)
  have place : 4 + (a.cell pos 2).toNat < nodeSize pos := by
    rw [count]
    omega
  refine ⟨?_, ?_, ?_⟩
  · rw [Nodes.link, cell_write_other place (by omega) (.inr (by omega)), sized.cell_write old (by omega), count,
      List.length_append]
    rfl
  · intro i last there
    rw [Nodes.link, count, Int.toNat_natCast]
    rw [count, Int.toNat_natCast] at place
    by_cases new : i = ts.length
    · subst new
      rw [List.getElem?_concat_length, Option.some.injEq] at there
      rw [← count, counted.cell_write old place, there]
    · have inside := (List.getElem?_eq_some_iff.mp there).1
      rw [List.length_append, List.length_singleton] at inside
      rw [List.getElem?_append_left (by omega)] at there
      rw [cell_write_other place (by omega) (.inr (by omega)), cell_write_other (by omega) (by omega) (.inr (by omega))]
      exact linked.each i last there
  · rw [List.length_append]
    exact room

omit linked room child in
theorem Sized.open_ (p : UInt8) (item : Nat) : Sized (a.open_ pos p item) ∧
    (a.open_ pos p item).cell pos 0 = p.toNat ∧ (a.open_ pos p item).cell pos 3 = item ∧
      ∀ q j, j < nodeSize q → (q ≠ pos ∨ (j ≠ 0 ∧ j ≠ 3)) → (a.open_ pos p item).cell q j = a.cell q j := by
  have size := nodeSize_eq pos
  have limit := linkLimit_pos pos
  have first := sized.write old (by omega : 0 < nodeSize pos) (p.toNat : Int)
  refine ⟨first.write old (by omega) _, ?_, first.cell_write old (by omega) _, ?_⟩
  · rw [Nodes.open_, cell_write_other (by omega) (by omega) (.inr (by omega)), sized.cell_write old (by omega)]
  · intro q j inside other
    rw [Nodes.open_, cell_write_other (by omega) inside (by omega), cell_write_other (by omega) inside (by omega)]

end Links

/- What the array stands for: the tree with the place of each node beside its phrase. -/

abbrev Drawn := Forest UInt8 (Nat × Nat)

def bare (f : Drawn) : Links := f.map Prod.snd

def tops : Drawn → List Nat
  | .nil => []
  | .cons _ _ node _ rest => node.1 :: tops rest

def places (f : Drawn) : List Nat := f.items.map Prod.fst

def Stored (a : Nodes) : Drawn → Prop
  | .nil => True
  | .cons c last (pos, item) links rest =>
    (a.cell pos 0 = c.toNat ∧ a.cell pos 1 = (if last then 1 else 0) ∧ a.cell pos 3 = item ∧ Linked a pos (tops links)) ∧
      Stored a links ∧ Stored a rest

section Drawing
variable {a b : Nodes} {f g : Drawn}

theorem tops_append (f g : Drawn) : tops (f.append g) = tops f ++ tops g := by
  induction f with
  | nil => rfl
  | cons c last node links rest _ ih => rw [Forest.append, tops, tops, ih, List.cons_append]

theorem tops_length (f : Drawn) : (tops f).length = f.letters.length := by
  induction f with
  | nil => rfl
  | cons c last node links rest _ ih => rw [tops, Forest.letters, List.length_cons, List.length_cons, ih]

theorem places_append (f g : Drawn) : places (f.append g) = places f ++ places g := by
  rw [places, Forest.items_append, List.map_append, places, places]

theorem places_cons (c : UInt8) (last : Bool) (pos item : Nat) (links rest : Drawn) :
    places (.cons c last (pos, item) links rest) = places links ++ pos :: places rest := by
  simp [places, Forest.items]

theorem stored_append : Stored a (f.append g) ↔ Stored a f ∧ Stored a g := by
  induction f with
  | nil => simp [Forest.append, Stored]
  | cons c last node links rest _ ih => simp only [Forest.append, Stored, ih, and_assoc]

theorem Stored.congr (stored : Stored a f) (same : ∀ pos ∈ places f, ∀ k < nodeSize pos, b.cell pos k = a.cell pos k) :
    Stored b f := by
  induction f with
  | nil => trivial
  | cons c last node links rest ihLinks ihRest =>
    obtain ⟨pos, item⟩ := node
    obtain ⟨⟨letter, flag, phrase, linked⟩, inLinks, inRest⟩ := stored
    rw [places_cons] at same
    have here := same pos (by simp)
    have size := nodeSize_eq pos
    refine ⟨⟨?_, ?_, ?_, linked.congr here⟩, ihLinks inLinks fun q member => same q (by simp [member]),
      ihRest inRest fun q member => same q (by simp [member])⟩
    · rw [here 0 (by omega), letter]
    · rw [here 1 (by omega), flag]
    · rw [here 3 (by omega), phrase]

theorem Stored.letters_eq (stored : Stored a f) : (tops f).map a.letter = f.letters := by
  induction f with
  | nil => rfl
  | cons c last node links rest _ ih =>
    obtain ⟨⟨letter, -⟩, -, inRest⟩ := stored
    rw [tops, List.map_cons, Forest.letters, ih inRest, Nodes.letter, letter, Int.toNat_natCast, UInt8.ofNat_toNat]

theorem Stored.none_with (stored : Stored a f) {p : UInt8} (absent : p ∉ f.letters) :
    (tops f).filter (fun child => a.letter child == p) = [] := by
  rw [List.filter_eq_nil_iff]
  intro child member same
  rw [← stored.letters_eq] at absent
  exact absent (List.mem_map.mpr ⟨child, member, beq_iff_eq.mp same⟩)

theorem bare_cons (c : UInt8) (last : Bool) (pos item : Nat) (links rest : Drawn) :
    bare (.cons c last (pos, item) links rest) = .cons c last item (bare links) (bare rest) := rfl

theorem bare_around (f : Drawn) (c : UInt8) (last : Bool) (pos item : Nat) (links g : Drawn) :
    bare (f.append (.cons c last (pos, item) links g)) = (bare f).append (.cons c last item (bare links) (bare g)) := by
  rw [bare, Forest.map_append, Forest.map, bare, bare, bare]

end Drawing

/- Adding a phrase. -/

/-- The nodes of a new word, one behind the other. -/
def chain (item : Nat) : Nat → UInt8 → Str → Drawn
  | i, p, [] => .cons p true (i, item) .nil .nil
  | i, p, next :: t => .cons p false (i, item) (chain item (i + 1) next t) .nil

section Chain
variable (item i : Nat) (p : UInt8) (t : Str)

theorem chain_bare : bare (chain item i p t) = Forest.branch item p t := by
  induction t generalizing i p with
  | nil => rfl
  | cons next t ih =>
    rw [chain, bare, Forest.map, Forest.branch, ← ih (i + 1) next]
    rfl

theorem chain_tops : tops (chain item i p t) = [i] := by
  cases t <;> rfl

theorem chain_places : (places (chain item i p t)).Nodup ∧ ∀ q ∈ places (chain item i p t), i ≤ q ∧ q < i + t.length + 1 := by
  induction t generalizing i p with
  | nil => simp [chain, places, Forest.items]
  | cons next t ih =>
    obtain ⟨once, within⟩ := ih (i + 1) next
    rw [chain, places_cons, List.length_cons]
    constructor
    · refine List.nodup_append.mpr ⟨once, List.nodup_singleton i, ?_⟩
      intro q below r last same
      have := within q below
      rw [places, Forest.items, List.map_nil, List.mem_singleton] at last
      omega
    · intro q member
      rcases List.mem_append.mp member with below | last
      · have := within q below
        omega
      · rw [places, Forest.items, List.map_nil, List.mem_singleton] at last
        omega

end Chain

theorem spellRest_spec {limit item : Nat} (some_ : 0 < limit) (t : Str) : ∀ {a : Nodes} {i : Nat} {p : UInt8}, Sized a →
    a.graphitems = i + 1 → a.cell i 0 = p.toNat → a.cell i 1 = 0 → a.cell i 3 = item → Linked a i [] →
    ∃ b, spellRest limit item i t a = some b ∧ Sized b ∧ b.graphitems = i + t.length + 1 ∧ Stored b (chain item i p t) ∧
      ∀ q < i, ∀ k < nodeSize q, b.cell q k = a.cell q k := by
  induction t with
  | nil =>
    intro a i p sized count letter flag phrase linked
    have size := nodeSize_eq i
    have old : i < a.graphitems := by omega
    have same : ∀ k < nodeSize i, k ≠ 1 → (a.write i 1 1).cell i k = a.cell i k := fun k inside other =>
      cell_write_other (by omega) inside (.inr other) 1
    refine ⟨a.write i 1 1, rfl, sized.write old (by omega) 1, count, ⟨⟨?_, ?_, ?_, ?_⟩, trivial, trivial⟩, ?_⟩
    · rw [same 0 (by omega) (by omega), letter]
    · rw [sized.cell_write old (by omega), if_pos rfl]
    · rw [same 3 (by omega) (by omega), phrase]
    · exact linked_nil ((same 2 (by omega) (by omega)).trans linked.count)
    · intro q before k inside
      exact cell_write_other (by omega) inside (.inl (Nat.ne_of_lt before)) 1
  | cons next t ih =>
    intro a i p sized count letter flag phrase linked
    have size := nodeSize_eq i
    have limit_ := linkLimit_pos i
    have old : i < a.graphitems := by omega
    have room : ([] : List Nat).length < linkLimit i := Nat.lt_of_lt_of_le (by decide) limit_
    have linked' := linked_link sized old linked room (i + 1)
    have sized' := (sized.link old linked room (i + 1)).newNode
    have count' : (a.link i (i + 1)).newNode.graphitems = i + 1 + 1 := by
      rw [graphitems_newNode]
      exact congrArg (· + 1) count
    have fresh : ∀ k, (a.link i (i + 1)).newNode.cell (i + 1) k = 0 := by
      intro k
      rw [Nodes.cell, raw_newNode]
      exact (sized.link old linked room (i + 1)).cell_new (Nat.le_of_eq count)
    have linkedCell : ∀ q k, (a.link i (i + 1)).newNode.cell q k = (a.link i (i + 1)).cell q k := fun q k => by
      rw [Nodes.cell, raw_newNode, Nodes.cell]
    obtain ⟨opened, letter', phrase', others⟩ := sized'.open_ (by omega : i + 1 < _) next item
    have size' := nodeSize_eq (i + 1)
    have limit' := linkLimit_pos (i + 1)
    obtain ⟨b, run, sizedEnd, countEnd, stored, kept⟩ := ih opened (by exact count') letter'
      (by rw [others _ 1 (by omega) (by omega), fresh]) phrase'
      (linked_nil ((others _ 2 (by omega) (by omega)).trans (fresh 2)))
    have before : ∀ k < nodeSize i, b.cell i k = (a.link i (i + 1)).cell i k := by
      intro k inside
      rw [kept i (Nat.lt_succ_self i) k inside, others i k inside (.inl (Nat.ne_of_lt (Nat.lt_succ_self i))), linkedCell]
    refine ⟨b, ?_, sizedEnd, ?_, ⟨⟨?_, ?_, ?_, ?_⟩, stored, trivial⟩, ?_⟩
    · rw [spellRest, if_neg, run]
      rw [linked.count, List.length_nil]
      omega
    · rw [countEnd, List.length_cons]
      omega
    · rw [before 0 (by omega), cell_link_other linked room _ (by omega) (by omega), letter]
    · rw [before 1 (by omega), cell_link_other linked room _ (by omega) (by omega), flag, if_neg Bool.false_ne_true]
    · rw [before 3 (by omega), cell_link_other linked room _ (by omega) (by omega), phrase]
    · rw [chain_tops]
      exact linked'.congr before
    · intro q earlier k inside
      rw [kept q (by omega) k inside, others q k inside (.inl (by omega)), linkedCell,
        cell_link_other linked room _ inside (.inl (Nat.ne_of_lt earlier))]

theorem insertNodes_spec {a : Nodes} {inx : Nat} {ts : List Nat} (sized : Sized a) (inside : inx < a.graphitems)
    (linked : Linked a inx ts) (item : Nat) (p : UInt8) (t : Str) :
    (linkLimit inx ≤ ts.length → insertNodes a inx item p t = none) ∧
      (ts.length < linkLimit inx → ∃ b, insertNodes a inx item p t = some b ∧ Sized b ∧
        b.graphitems = a.graphitems + t.length + 1 ∧ Linked b inx (ts ++ [a.graphitems]) ∧
        Stored b (chain item a.graphitems p t) ∧ ∀ q < a.graphitems, ∀ k < nodeSize q,
          q ≠ inx ∨ k = 0 ∨ k = 1 ∨ k = 3 → b.cell q k = a.cell q k) := by
  have same : ∀ q k, a.newNode.cell q k = a.cell q k := fun q k => by rw [Nodes.cell, raw_newNode, Nodes.cell]
  have linked' : Linked a.newNode inx ts := linked.congr fun k _ => same inx k
  have count := linked'.count
  have larger := graphitems_newNode a
  have inside' : inx < a.newNode.graphitems := by omega
  constructor
  · intro full
    rw [insertNodes, if_pos (by rw [count]; omega)]
  · intro room
    have size := nodeSize_eq a.graphitems
    have limit := linkLimit_pos a.graphitems
    have linkedSized := sized.newNode.link inside' linked' room a.graphitems
    have new : a.graphitems < (a.newNode.link inx a.graphitems).graphitems := larger ▸ Nat.lt_succ_self _
    obtain ⟨opened, letter, phrase, others⟩ := linkedSized.open_ new p item
    have fresh : ∀ k, k < nodeSize a.graphitems → k ≠ 0 → k ≠ 3 →
        ((a.newNode.link inx a.graphitems).open_ a.graphitems p item).cell a.graphitems k = 0 := by
      intro k within first third
      rw [others _ k within (.inr ⟨first, third⟩), cell_link_other linked' room _ within (.inl (Nat.ne_of_gt inside)), same]
      exact sized.cell_new (Nat.le_refl _)
    obtain ⟨b, run, sizedEnd, countEnd, stored, kept⟩ := spellRest_spec (Nat.lt_of_lt_of_le (by decide) (linkLimit_pos inx)) t
      opened larger letter (fresh 1 (by omega) (by omega) (by omega)) phrase
      (linked_nil (fresh 2 (by omega) (by omega) (by omega)))
    have before : ∀ q < a.graphitems, ∀ k < nodeSize q, b.cell q k = (a.newNode.link inx a.graphitems).cell q k := by
      intro q earlier k within
      rw [kept q earlier k within, others q k within (.inl (Nat.ne_of_lt earlier))]
    refine ⟨b, ?_, sizedEnd, countEnd, ?_, stored, ?_⟩
    · rw [insertNodes, if_neg (by rw [count]; omega), run]
    · exact (linked_link sized.newNode inside' linked' room a.graphitems).congr (before inx inside)
    · intro q earlier k within other
      rw [before q earlier k within, cell_link_other linked' room _ within other, same]

/-- The links of a node and all below them. -/
structure DrawnAt (a : Nodes) (inx : Nat) (f : Drawn) : Prop where
  inside : inx < a.graphitems
  linked : Linked a inx (tops f)
  stored : Stored a f
  once : (inx :: places f).Nodup
  within : ∀ q ∈ places f, 0 < q ∧ q < a.graphitems
  distinct : f.Distinct

/-- Adding a word below a node changes nothing but links, and those only there. -/
structure Extended (a b : Nodes) (inx : Nat) (f g : Drawn) : Prop where
  sized : Sized b
  more : a.graphitems ≤ b.graphitems
  linked : Linked b inx (tops g)
  stored : Stored b g
  once : (places g).Nodup
  new : ∀ q ∈ places g, q ∈ places f ∨ a.graphitems ≤ q ∧ q < b.graphitems
  letters : ∀ q < a.graphitems, ∀ k, k = 0 ∨ k = 1 ∨ k = 3 → b.cell q k = a.cell q k
  others : ∀ q < a.graphitems, q ≠ inx → q ∉ places f → ∀ k < nodeSize q, b.cell q k = a.cell q k

/-- The answers of the tree and of the array. -/
inductive Added (a : Nodes) (l : PhraseList) (item inx : Nat) (f : Drawn) :
    Option (Links × Option Nat) → Option (PhraseList × Nodes) → Prop where
  | refused : Added a l item inx f none none
  | clash (px : Nat) : Added a l item inx f (some (bare f, some px)) (some (resolveCollision l px item, a))
  | grown (b : Nodes) (g : Drawn) (extended : Extended a b inx f g) :
      Added a l item inx f (some (bare g, none)) (some (l, b))

section Adding
variable {a : Nodes} {inx item : Nat} {f : Drawn} {p : UInt8} {t : Str} {l : PhraseList}

theorem DrawnAt.unchanged (drawn : DrawnAt a inx f) (sized : Sized a) : Extended a a inx f f :=
  ⟨sized, Nat.le_refl _, drawn.linked, drawn.stored, (List.nodup_cons.mp drawn.once).2, fun _ member => .inl member,
    fun _ _ _ _ => rfl, fun _ _ _ _ _ _ => rfl⟩

theorem DrawnAt.matching_nil (drawn : DrawnAt a inx f) (absent : p ∉ f.letters) : matching a inx p = [] := by
  rw [matching, drawn.linked.links_eq]
  exact drawn.stored.none_with absent

/-- A letter that is not there yet. -/
theorem DrawnAt.add_new (drawn : DrawnAt a inx f) (sized : Sized a) (absent : p ∉ f.letters) :
    Added a l item inx f ((bare f).add maxLinks item (linkLimit inx) p t)
      ((insertNodes a inx item p t).map fun a => (l, a)) := by
  have absent' : p ∉ (bare f).letters := by rwa [bare, Forest.letters_map]
  have tree : ((bare f).append .nil).add maxLinks item (linkLimit inx) p t = _ := Forest.add_append absent' .nil (linkLimit inx) t
  rw [Forest.append_nil, bare, Forest.letters_map, ← tops_length] at tree
  obtain ⟨full, free⟩ := insertNodes_spec sized drawn.inside drawn.linked item p t
  rw [bare, tree]
  by_cases room : (tops f).length < linkLimit inx
  · obtain ⟨b, run, sizedEnd, count, linked, stored, kept⟩ := free room
    obtain ⟨left, more⟩ : ∃ left, linkLimit inx - (tops f).length = left + 1 := ⟨linkLimit inx - (tops f).length - 1, by omega⟩
    have drawing : (bare f).append (Forest.branch item p t) = bare (f.append (chain item a.graphitems p t)) := by
      rw [bare, bare, Forest.map_append, ← bare, ← bare, chain_bare]
    obtain ⟨apart, once⟩ := List.nodup_cons.mp drawn.once
    obtain ⟨onceNew, within⟩ := chain_places item a.graphitems p t
    rw [more, run]
    change Added a l item inx f (some ((bare f).append (Forest.branch item p t), none)) (some (l, b))
    rw [drawing]
    refine .grown b _ ⟨sizedEnd, by omega, ?_, ?_, ?_, ?_, ?_, ?_⟩
    · rw [tops_append, chain_tops]
      exact linked
    · refine stored_append.mpr ⟨drawn.stored.congr fun q member k inside => ?_, stored⟩
      exact kept q (drawn.within q member).2 k inside (.inl fun same => apart (same ▸ member))
    · rw [places_append]
      refine List.nodup_append.mpr ⟨once, onceNew, ?_⟩
      intro q before r after same
      have := (drawn.within q before).2
      have := within r after
      omega
    · intro q member
      rw [places_append] at member
      refine (List.mem_append.mp member).imp_right fun after => ?_
      have := within q after
      omega
    · intro q earlier k which
      have size := nodeSize_eq q
      exact kept q earlier k (by omega) (.inr which)
    · intro q earlier other _ k inside
      exact kept q earlier k inside (.inl other)
  · have none_ : linkLimit inx - (tops f).length = 0 := by omega
    rw [none_, full (Nat.le_of_not_lt room)]
    exact .refused

section Child
variable {before links after : Drawn} {last : Bool} {pos made : Nat}
  (drawn : DrawnAt a inx (before.append (.cons p last (pos, made) links after)))
include drawn

/-- The one link with a letter. -/
theorem DrawnAt.matching_one : matching a inx p = [pos] := by
  obtain ⟨stored, ⟨letter, -⟩, -, storedAfter⟩ := stored_append.mp drawn.stored
  obtain ⟨-, ⟨new, -⟩, apart⟩ := Forest.distinct_append drawn.distinct
  rw [Forest.letters, List.disjoint_cons_right] at apart
  have here : a.letter pos = p := by rw [Nodes.letter, letter, Int.toNat_natCast, UInt8.ofNat_toNat]
  rw [matching, drawn.linked.links_eq, tops_append, List.filter_append, stored.none_with apart.1, tops,
    List.filter_cons_of_pos (by exact beq_iff_eq.mpr here), storedAfter.none_with new]
  rfl

theorem DrawnAt.child : DrawnAt a pos links ∧ 0 < pos := by
  obtain ⟨-, ⟨-, -, -, linked⟩, stored, -⟩ := stored_append.mp drawn.stored
  obtain ⟨-, ⟨-, distinct, -⟩, -⟩ := Forest.distinct_append drawn.distinct
  obtain ⟨-, once⟩ := List.nodup_cons.mp drawn.once
  have within := drawn.within
  rw [places_append, places_cons] at once within
  have below := (List.nodup_append.mp once).2.1
  have here := within pos (by simp)
  refine ⟨⟨here.2, linked, stored, ?_, fun q member => within q (by simp [member]), distinct⟩, here.1⟩
  rw [List.nodup_append] at below
  exact List.nodup_cons.mpr ⟨fun member => below.2.2 pos member pos List.mem_cons_self rfl, below.1⟩

/-- What is added below a child is added below the node. -/
theorem DrawnAt.extend {b : Nodes} {links' : Drawn} (extended : Extended a b pos links links') :
    Extended a b inx (before.append (.cons p last (pos, made) links after))
      (before.append (.cons p last (pos, made) links' after)) := by
  obtain ⟨storedBefore, ⟨letter, flag, phrase, -⟩, -, storedAfter⟩ := stored_append.mp drawn.stored
  obtain ⟨apart, once⟩ := List.nodup_cons.mp drawn.once
  have within := drawn.within
  have size := nodeSize_eq pos
  rw [places_append, places_cons] at apart once within
  simp only [List.mem_append, List.mem_cons, not_or] at apart within
  obtain ⟨onceBefore, onceBehind, disjoint⟩ := List.nodup_append.mp once
  obtain ⟨onceLinks, onceHere, disjointHere⟩ := List.nodup_append.mp onceBehind
  obtain ⟨notAfter, onceAfter⟩ := List.nodup_cons.mp onceHere
  have here := (within pos (.inr (.inr (.inl rfl)))).2
  refine ⟨extended.sized, extended.more, ?_, ?_, ?_, ?_, extended.letters, ?_⟩
  · have same : tops (before.append (.cons p last (pos, made) links' after)) =
        tops (before.append (.cons p last (pos, made) links after)) := by
      rw [tops_append, tops_append, tops, tops]
    rw [same]
    exact drawn.linked.congr (extended.others inx drawn.inside apart.2.2.1 apart.2.1)
  · refine stored_append.mpr ⟨storedBefore.congr fun q member => ?_, ⟨?_, ?_, ?_, extended.linked⟩, extended.stored,
      storedAfter.congr fun q member => ?_⟩
    · exact extended.others q (within q (.inl member)).2 (disjoint q member pos (by simp))
        fun below => disjoint q member q (List.mem_append_left _ below) rfl
    · rw [extended.letters pos here 0 (by omega), letter]
    · rw [extended.letters pos here 1 (by omega), flag]
    · rw [extended.letters pos here 3 (by omega), phrase]
    · exact extended.others q (within q (by simp [member])).2 (fun same => notAfter (same ▸ member))
        fun below => disjointHere q below q (List.mem_cons_of_mem _ member) rfl
  · rw [places_append, places_cons]
    have old : ∀ q ∈ places links', q ∈ places links ∨ a.graphitems ≤ q := fun q member =>
      (extended.new q member).imp_right And.left
    refine List.nodup_append.mpr ⟨onceBefore, List.nodup_append.mpr ⟨extended.once, onceHere, ?_⟩, ?_⟩
    · intro q member r behind same
      rcases old q member with kept | new
      · exact disjointHere q kept r behind same
      · have := (within r (.inr (.inr (List.mem_cons.mp behind)))).2
        omega
    · intro q first r member same
      rcases List.mem_append.mp member with below | behind
      · rcases old r below with kept | new
        · exact disjoint q first r (List.mem_append_left _ kept) same
        · have := (within q (.inl first)).2
          omega
      · exact disjoint q first r (List.mem_append_right _ behind) same
  · intro q member
    rw [places_append, places_cons] at member ⊢
    simp only [List.mem_append, List.mem_cons] at member ⊢
    rcases member with first | below | behind
    · exact .inl (.inl first)
    · rcases extended.new q below with kept | new
      · exact .inl (.inr (.inl kept))
      · exact .inr new
    · exact .inl (.inr (.inr behind))
  · intro q earlier _ absent
    rw [places_append, places_cons] at absent
    simp only [List.mem_append, List.mem_cons, not_or] at absent
    exact extended.others q earlier absent.2.2.1 absent.2.1

end Child

end Adding

theorem graphAddBelow_spec {a : Nodes} (sized : Sized a) (item : Nat) (l : PhraseList) (t : Str) :
    ∀ {inx : Nat} {f : Drawn} (p : UInt8), DrawnAt a inx f →
      Added a l item inx f ((bare f).add maxLinks item (linkLimit inx) p t) (graphAddBelow item p t inx (l, a)) := by
  induction t with
  | nil =>
    intro inx f p drawn
    by_cases letter : p ∈ f.letters
    · obtain ⟨before, last, ⟨pos, made⟩, links, after, rfl, absent⟩ := Forest.split_at_letter letter
      have absent' : p ∉ (bare before).letters := by rwa [bare, Forest.letters_map]
      obtain ⟨-, ⟨-, flag, phrase, -⟩, -⟩ := stored_append.mp drawn.stored
      have tree : (bare (before.append (.cons p last (pos, made) links after))).add maxLinks item (linkLimit inx) p [] =
          some (bare (before.append (.cons p last (pos, made) links after)), if last then some made else none) := by
        rw [bare_around, Forest.add_append absent', (Forest.add_same ..).1]
        rfl
      have array : graphAddBelow item p [] inx (l, a) = some (collide a item l pos, a) := by
        rw [graphAddBelow, drawn.matching_one]
        rfl
      rw [tree, array, collide, flag, phrase, Int.toNat_natCast]
      cases last with
      | true => exact .clash made
      | false => exact .grown a _ (drawn.unchanged sized)
    · rw [graphAddBelow, drawn.matching_nil letter]
      exact drawn.add_new sized letter
  | cons next t ih =>
    intro inx f p drawn
    by_cases letter : p ∈ f.letters
    · obtain ⟨before, last, ⟨pos, made⟩, links, after, rfl, absent⟩ := Forest.split_at_letter letter
      have absent' : p ∉ (bare before).letters := by rwa [bare, Forest.letters_map]
      obtain ⟨below, other⟩ := drawn.child
      have limit : linkLimit pos = maxLinks := if_neg (Nat.ne_of_gt other)
      have added := ih next below
      rw [limit] at added
      rw [graphAddBelow, drawn.matching_one, bare_around, Forest.add_append absent', (Forest.add_same ..).2]
      dsimp only
      generalize (bare links).add maxLinks item maxLinks next t = tree at added ⊢
      generalize graphAddBelow item next t pos (l, a) = array at added ⊢
      cases added with
      | refused => exact .refused
      | clash px =>
        have clash : Added a l item inx (before.append (.cons p last (pos, made) links after)) (some (_, some px)) _ := .clash px
        rwa [bare_around] at clash
      | grown b g extended =>
        have grown : Added a l item inx (before.append (.cons p last (pos, made) links after)) _ _ :=
          .grown b _ (drawn.extend extended)
        rwa [bare_around] at grown
    · rw [graphAddBelow, drawn.matching_nil letter]
      exact drawn.add_new sized letter

structure Holds (a : Nodes) (f : Drawn) : Prop where
  sized : Sized a
  drawn : DrawnAt a 0 f

/-- Both refuse a phrase, or come to one list with the array standing for the tree. -/
inductive Alike : Option (PhraseList × Links) → Option (PhraseList × Nodes) → Prop where
  | refused : Alike none none
  | holds (l : PhraseList) (a : Nodes) (f : Drawn) (holds : Holds a f) : Alike (some (l, bare f)) (some (l, a))

theorem bare_distinct (f : Drawn) : (bare f).Distinct ↔ f.Distinct := by
  induction f with
  | nil => exact Iff.rfl
  | cons c last node links rest ihLinks ihRest =>
    rw [bare] at ihLinks ihRest
    rw [bare, Forest.map, Forest.Distinct, Forest.Distinct, Forest.letters_map, ihLinks, ihRest]

section Whole
variable {a : Nodes} {f : Drawn} (holds : Holds a f)
include holds

theorem graphAdd_alike (l : PhraseList) (item : Nat) :
    Alike (GuardianPhraseGraph.graphAdd (l, bare f) item) (graphAdd (l, a) item) := by
  have added := graphAddBelow_spec holds.sized item l (getItemAtInt l item).tail ((getItemAtInt l item).headD 0) holds.drawn
  rw [GuardianPhraseGraph.graphAdd, graphAdd]
  dsimp only
  have root : linkLimit 0 = maxRootLinks := rfl
  rw [root] at added
  cases tree : (bare f).add maxLinks item maxRootLinks ((getItemAtInt l item).headD 0) (getItemAtInt l item).tail with
  | none =>
    rw [tree] at added
    generalize graphAddBelow item _ _ 0 (l, a) = array at added ⊢
    cases added
    exact .refused
  | some answer =>
    have distinct := (bare_distinct f).mpr holds.drawn.distinct
    obtain ⟨root', clash⟩ := answer
    have distinct' := Forest.add_distinct tree distinct
    rw [tree] at added
    generalize graphAddBelow item _ _ 0 (l, a) = array at added ⊢
    cases added with
    | clash px => exact .holds _ a f holds
    | grown b g extended =>
      refine .holds l b g ⟨extended.sized, extended.sized.root, extended.linked, extended.stored, ?_, ?_,
        (bare_distinct g).mp distinct'⟩
      · refine List.nodup_cons.mpr ⟨fun member => ?_, extended.once⟩
        rcases extended.new 0 member with kept | new
        · exact absurd (holds.drawn.within 0 kept).1 (Nat.lt_irrefl 0)
        · have := holds.sized.root
          omega
      · intro q member
        have root := holds.sized.root
        have more := extended.more
        rcases extended.new q member with kept | new
        · have := holds.drawn.within q kept
          omega
        · omega

theorem foldlM_alike (order : List Nat) (l : PhraseList) :
    Alike (order.foldlM GuardianPhraseGraph.graphAdd (l, bare f)) (order.foldlM graphAdd (l, a)) := by
  induction order generalizing l a f with
  | nil => exact .holds l a f holds
  | cons item order ih =>
    rw [List.foldlM_cons, List.foldlM_cons]
    have step := graphAdd_alike holds l item
    generalize GuardianPhraseGraph.graphAdd (l, bare f) item = tree at step ⊢
    generalize graphAdd (l, a) item = array at step ⊢
    cases step with
    | refused => exact .refused
    | holds l' b g holds' => exact ih holds' l'

omit holds in
theorem firstNodes_holds (l : PhraseList) : Holds (firstNodes l) .nil := by
  have blank : ∀ n, (firstNodes l).raw n = 0 := by
    intro n
    rw [firstNodes, Nodes.raw, List.getD_eq_getElem?_getD, List.getElem?_replicate]
    split <;> rfl
  refine ⟨⟨Nat.one_pos, ?_, fun n _ => blank n⟩, Nat.one_pos, linked_nil (blank _), trivial, List.nodup_singleton 0, ?_,
    trivial⟩
  · rw [firstNodes, List.length_replicate]
    simp only [graphEntrySize]
    omega
  · intro q member
    cases member

theorem fitted_holds : Holds a.fitted f ∧ a.fitted.graphitems = a.graphitems := by
  have same : ∀ n < graphEntrySize * a.graphitems + rootOffset, a.fitted.raw n = a.raw n := by
    intro n inside
    rw [Nodes.fitted, Nodes.raw, Nodes.raw, List.getD_eq_getElem?_getD, List.getD_eq_getElem?_getD,
      List.getElem?_take_of_lt inside]
  have cells : ∀ q < a.graphitems, ∀ k < nodeSize q, a.fitted.cell q k = a.cell q k := fun q earlier k inside =>
    same _ (holds.sized.place_inside earlier inside)
  refine ⟨⟨⟨holds.sized.root, ?_, ?_⟩, holds.drawn.inside, holds.drawn.linked.congr (cells 0 holds.sized.root),
    holds.drawn.stored.congr fun q member => cells q (holds.drawn.within q member).2, holds.drawn.once,
    holds.drawn.within, holds.drawn.distinct⟩, rfl⟩
  · rw [Nodes.fitted, List.length_take]
    exact le_min (Nat.le_refl _) holds.sized.room
  · intro n behind
    rw [Nodes.fitted, Nodes.raw, List.getD_eq_getElem?_getD, List.getElem?_eq_none]
    · rfl
    · rw [List.length_take]
      exact (min_le_left _ _).trans behind

end Whole

/- Moving the sparse branches. -/

theorem tops_linkCount (f : Drawn) : (tops f).length = linkCount (bare f) := by
  induction f with
  | nil => rfl
  | cons c last node links rest _ ih => rw [tops, List.length_cons, ih, bare_cons, linkCount]

section Below
variable {a : Nodes}

/-- What is done at each node below some links is done at the links, one after the other. -/
theorem branches_links {f : Drawn} (stored : Stored a f) : ∀ {depth : Nat}, (bare f).height ≤ depth → ∀ n,
    (tops f).foldlM (fun n child => (graphFindBranches a depth child).map (n + ·)) n = some (n + linkBranches (bare f)) := by
  induction f with
  | nil => exact fun _ _ => rfl
  | cons c last node links rest ihLinks ihRest =>
    obtain ⟨pos, item⟩ := node
    obtain ⟨⟨-, -, -, linked⟩, inLinks, inRest⟩ := stored
    intro depth deep n
    rw [bare_cons, Forest.height] at deep
    obtain ⟨less, rfl⟩ : ∃ less, depth = less + 1 := ⟨depth - 1, by omega⟩
    have node : graphFindBranches a (less + 1) pos = some (GuardianPhraseGraph.graphFindBranches (bare links)) := by
      rw [graphFindBranches, linked.links_eq, ihLinks inLinks (by omega) 0, Option.map_some, Nat.zero_add, tops_linkCount]
      rfl
    rw [tops, List.foldlM_cons, node, Option.map_some]
    exact (ihRest inRest (by omega) _).trans (by
      rw [bare_cons, linkBranches, GuardianPhraseGraph.graphFindBranches, Nat.add_assoc])

theorem copy_links {f : Drawn} (stored : Stored a f) : ∀ {depth : Nat}, (bare f).height ≤ depth → ∀ st,
    (tops f).foldlM (graphCopyNodePhrases a depth) st = some ((bare f).items.foldl storeSlow st) := by
  induction f with
  | nil => exact fun _ _ => rfl
  | cons c last node links rest ihLinks ihRest =>
    obtain ⟨pos, item⟩ := node
    obtain ⟨⟨-, -, phrase, linked⟩, inLinks, inRest⟩ := stored
    intro depth deep st
    rw [bare_cons, Forest.height] at deep
    obtain ⟨less, rfl⟩ : ∃ less, depth = less + 1 := ⟨depth - 1, by omega⟩
    have node : graphCopyNodePhrases a (less + 1) st pos = some (storeSlow ((bare links).items.foldl storeSlow st) item) := by
      rw [graphCopyNodePhrases, linked.links_eq, ihLinks inLinks (by omega), Option.map_some, phrase, Int.toNat_natCast]
    rw [tops, List.foldlM_cons, node]
    exact (ihRest inRest (by omega) _).trans (by
      rw [bare_cons, Forest.items, List.foldl_append, List.foldl_cons])

end Below

theorem cell_root (a : Nodes) (k : Nat) : a.cell 0 k = a.raw k := by
  rw [Nodes.cell, place, if_pos rfl, Nat.zero_mul, Nat.add_zero, Nat.zero_add]

section Root
variable {a : Nodes} (sized : Sized a)
include sized

theorem raw_root (k : Nat) (inside : k < rootNodeSize) (value : Int) (n : Nat) :
    (a.write 0 k value).raw n = if n = k then value else a.raw n := by
  have place_ : place 0 k = k := by rw [place, if_pos rfl, Nat.zero_mul, Nat.add_zero, Nat.zero_add]
  split
  · rename_i same
    subst same
    rw [← cell_root]
    exact sized.cell_write sized.root inside value
  · rename_i other
    exact raw_write a 0 k value (by omega)

/-- Each cell of a range takes what the next one has. -/
theorem shifted (i count : Nat) (inside : 4 + i + count ≤ rootNodeSize) :
    let b := (List.range' i count).foldl (fun a j => a.write 0 (4 + j) (a.cell 0 (4 + j + 1))) a
    Sized b ∧ b.graphitems = a.graphitems ∧
      ∀ n, b.raw n = if 4 + i ≤ n ∧ n < 4 + i + count then a.raw (n + 1) else a.raw n := by
  induction count with
  | zero => exact ⟨sized, rfl, fun n => by rw [if_neg (by omega)]; rfl⟩
  | succ count ih =>
    obtain ⟨sized', items, cells⟩ := ih (by omega)
    simp only [List.range'_concat, List.foldl_append, List.foldl_cons, List.foldl_nil, Nat.one_mul]
    generalize (List.range' i count).foldl _ a = b at sized' items cells ⊢
    have within : 4 + (i + count) < rootNodeSize := by omega
    refine ⟨sized'.write sized'.root within _, items, ?_⟩
    intro n
    rw [raw_root sized' _ within, cell_root, cells, cells]
    split_ifs <;> first | rfl | omega | (congr 1; omega)

theorem removeLink_spec {front back : List Nat} {child ml : Nat} (linked : Linked a 0 (front ++ child :: back))
    (few : (front ++ child :: back).length ≤ ml) (limit : ml ≤ maxRootLinks) :
    Sized (removeLink a ml front.length) ∧ (removeLink a ml front.length).graphitems = a.graphitems ∧
      Linked (removeLink a ml front.length) 0 (front ++ back) ∧
      ∀ q, 0 < q → ∀ k, (removeLink a ml front.length).cell q k = a.cell q k := by
  rw [List.length_append, List.length_cons] at few
  have room : 4 + maxRootLinks = rootNodeSize := rfl
  obtain ⟨sized', items, cells⟩ := shifted sized front.length (ml - front.length) (by omega)
  rw [removeLink]
  generalize (List.range' front.length (ml - front.length)).foldl _ a = b at sized' items cells ⊢
  have inside : 2 < rootNodeSize := by decide
  have count : b.cell 0 2 = (front ++ child :: back).length := by
    rw [cell_root, cells, if_neg (by omega), ← cell_root]
    exact linked.count
  refine ⟨sized'.write sized'.root inside _, items, ⟨?_, ?_, ?_⟩, ?_⟩
  · rw [cell_root, raw_root sized' 2 inside, if_pos rfl, count, List.length_append, List.length_cons, List.length_append]
    push_cast
    omega
  · intro j next there
    rw [cell_root, raw_root sized' 2 inside, if_neg (by omega), cells]
    have within := (List.getElem?_eq_some_iff.mp there).1
    rw [List.length_append] at within
    split
    · rename_i behind
      rw [List.getElem?_append_right (by omega)] at there
      rw [← cell_root]
      refine linked.each (j + 1) next ?_
      rw [List.getElem?_append_right (by omega), Nat.succ_sub (by omega), List.getElem?_cons_succ]
      exact there
    · rename_i before
      rw [List.getElem?_append_left (by omega)] at there
      rw [← cell_root]
      exact linked.each j next (by rw [List.getElem?_append_left (by omega)]; exact there)
  · have := linked.few
    rw [List.length_append, List.length_cons] at this
    rw [List.length_append]
    omega
  · intro q other k
    have far : rootNodeSize ≤ place q k := by
      simp only [place, if_neg (Nat.ne_of_gt other), rootOffset, rootNodeSize, graphEntrySize]
      omega
    rw [Nodes.cell, raw_root sized' 2 inside, if_neg (by omega), cells, if_neg (by omega)]
    rfl

end Root

/-- What is left of the root's links behind some of them, in the array and in the tree. -/
structure Moved (a b : Nodes) (front : List Nat) (f g : Drawn) : Prop where
  sized : Sized b
  items : b.graphitems = a.graphitems
  linked : Linked b 0 (front ++ tops g)
  cells : ∀ q, 0 < q → ∀ k, b.cell q k = a.cell q k
  stored : Stored a g
  places : (places g).Sublist (places f)
  fewer : (tops g).length ≤ (tops f).length

theorem moveRounds_spec {ml : Nat} (limit : ml ≤ maxRootLinks) (slow : PhraseList × List Nat) (f : Drawn) :
    ∀ {a : Nodes} {front : List Nat}, Sized a → Stored a f → (∀ q ∈ places f, 0 < q) →
      Linked a 0 (front ++ tops f) → (front ++ tops f).length ≤ ml →
      ∃ b g, (∀ depth ≥ (bare f).height,
          (List.range' front.length (tops f).length).reverse.foldlM (moveRound depth ml) (a, slow) =
            some (b, (GuardianPhraseGraph.moveSparse (bare f) slow).2)) ∧
        bare g = (GuardianPhraseGraph.moveSparse (bare f) slow).1 ∧ Moved a b front f g := by
  induction f with
  | nil =>
    intro a front sized stored _ linked _
    exact ⟨a, .nil, fun _ _ => rfl, rfl, sized, rfl, linked, fun _ _ _ => rfl, trivial, .refl _, Nat.le_refl _⟩
  | cons c last node links rest _ ih =>
    obtain ⟨pos, item⟩ := node
    intro a front sized stored positive linked few
    obtain ⟨⟨letter, flag, phrase, below⟩, inLinks, inRest⟩ := stored
    rw [places_cons] at positive
    rw [tops, List.append_cons] at linked few
    obtain ⟨b, g, rounds, tree, moved⟩ := ih sized inRest (fun q member => positive q (by simp [member])) linked few
    have here := positive pos (by simp)
    have belowNow : Linked b pos (tops links) := below.congr fun k _ => moved.cells pos here k
    have linksNow : Stored b links := inLinks.congr fun q member k _ => moved.cells q (positive q (by simp [member])) k
    have order : (List.range' front.length (tops (.cons c last (pos, item) links rest)).length).reverse =
        (List.range' (front ++ [pos]).length (tops rest).length).reverse ++ [front.length] := by
      rw [tops, List.length_cons, List.range'_succ, List.reverse_cons, List.length_append, List.length_singleton]
    have node : (b.cell 0 (4 + front.length)).toNat = pos := by
      have place : (front ++ [pos] ++ tops g)[front.length]? = some pos := by simp
      rw [moved.linked.each front.length pos place, Int.toNat_natCast]
    -- the last round, on what the rounds before it leave
    have round : ∀ depth ≥ (bare (.cons c last (pos, item) links rest)).height, ∀ slow,
        moveRound depth ml (b, slow) front.length =
          if GuardianPhraseGraph.graphFindBranches (bare links) < 12 then
            some (removeLink b ml front.length,
              GuardianPhraseGraph.graphCopyNodePhrases (.cons c last item (bare links) .nil) slow)
          else some (b, slow) := by
      intro depth deep slow
      rw [bare_cons, Forest.height] at deep
      obtain ⟨less, rfl⟩ : ∃ less, depth = less + 1 := ⟨depth - 1, by omega⟩
      have branches : graphFindBranches b (less + 1) pos = some (GuardianPhraseGraph.graphFindBranches (bare links)) := by
        rw [graphFindBranches, belowNow.links_eq, branches_links linksNow (by omega) 0, Option.map_some, Nat.zero_add,
          tops_linkCount]
        rfl
      have copied : graphCopyNodePhrases b (less + 1) slow pos =
          some (GuardianPhraseGraph.graphCopyNodePhrases (.cons c last item (bare links) .nil) slow) := by
        rw [graphCopyNodePhrases, belowNow.links_eq, copy_links linksNow (by omega), Option.map_some, moved.cells pos here,
          phrase, Int.toNat_natCast, GuardianPhraseGraph.graphCopyNodePhrases, Forest.items, List.foldl_append]
        rfl
      rw [moveRound, node, branches]
      dsimp only
      rw [copied]
      rfl
    have all : ∀ depth ≥ (bare (.cons c last (pos, item) links rest)).height,
        (List.range' front.length (tops (.cons c last (pos, item) links rest)).length).reverse.foldlM (moveRound depth ml)
          (a, slow) = moveRound depth ml (b, (GuardianPhraseGraph.moveSparse (bare rest) slow).2) front.length := by
      intro depth deep
      rw [order, List.foldlM_append, rounds depth (by rw [bare_cons, Forest.height] at deep; omega), Option.bind_eq_bind,
        Option.bind_some, List.foldlM_cons]
      exact bind_pure _
    rw [bare_cons, GuardianPhraseGraph.moveSparse]
    generalize GuardianPhraseGraph.moveSparse (bare rest) slow = st at tree all ⊢
    obtain ⟨root, slow'⟩ := st
    dsimp only at tree all ⊢
    by_cases sparse : GuardianPhraseGraph.graphFindBranches (bare links) < 12
    · have linkedNow := moved.linked
      have fewer := moved.fewer
      rw [List.append_assoc] at linkedNow
      rw [List.length_append, List.length_append] at few
      have short : (front ++ pos :: tops g).length ≤ ml := by
        rw [List.length_append, List.length_cons]
        rw [List.length_singleton] at few
        omega
      obtain ⟨sizedEnd, items, linkedEnd, cells⟩ := removeLink_spec moved.sized linkedNow short limit
      rw [if_pos sparse]
      refine ⟨_, g, ?_, tree, sizedEnd, items.trans moved.items, linkedEnd, ?_, moved.stored, ?_, ?_⟩
      · exact fun depth deep => ((all depth deep).trans (round depth deep slow')).trans (if_pos sparse)
      · exact fun q other k => (cells q other k).trans (moved.cells q other k)
      · rw [places_cons]
        exact (moved.places.cons pos).trans (List.sublist_append_right _ _)
      · exact fewer.trans (Nat.le_succ _)
    · rw [if_neg sparse]
      refine ⟨b, .cons c last (pos, item) links g, ?_, ?_, moved.sized, moved.items, ?_, moved.cells, ?_, ?_, ?_⟩
      · exact fun depth deep => ((all depth deep).trans (round depth deep slow')).trans (if_neg sparse)
      · rw [bare_cons, tree]
      · rw [tops, List.append_cons]
        exact moved.linked
      · exact ⟨⟨letter, flag, phrase, below⟩, inLinks, moved.stored⟩
      · rw [places_cons, places_cons]
        exact (List.Sublist.refl _).append (moved.places.cons_cons pos)
      · exact Nat.succ_le_succ moved.fewer

theorem moveSparse_spec {a : Nodes} {f : Drawn} (holds : Holds a f) (slow : PhraseList × List Nat) :
    ∃ b g, (∀ depth ≥ (bare f).height,
        moveSparse depth a slow = some (b, (GuardianPhraseGraph.moveSparse (bare f) slow).2)) ∧
      bare g = (GuardianPhraseGraph.moveSparse (bare f) slow).1 ∧ Holds b g := by
  have drawn := holds.drawn
  have count := drawn.linked.count
  obtain ⟨b, g, rounds, tree, moved⟩ := @moveRounds_spec _ drawn.linked.few slow f a [] holds.sized drawn.stored
    (fun q member => (drawn.within q member).1) drawn.linked (Nat.le_refl _)
  have within : ∀ q ∈ places g, 0 < q ∧ q < b.graphitems := fun q member =>
    moved.items ▸ drawn.within q (moved.places.subset member)
  have distinct : (bare g).Distinct := by
    rw [tree, moveSparse_eq]
    exact dense_distinct ((bare_distinct f).mpr drawn.distinct)
  refine ⟨b, g, ?_, tree, moved.sized, moved.sized.root, moved.linked, ?_, ?_, within, (bare_distinct g).mp distinct⟩
  · intro depth deep
    rw [moveSparse, count, Int.toNat_natCast, List.range_eq_range']
    exact rounds depth deep
  · exact moved.stored.congr fun q member k _ => moved.cells q (within q member).1 k
  · exact drawn.once.sublist (moved.places.cons_cons 0)

/-- The array of a list stands for the graph that is its tree. -/
theorem makeNodes_spec (l : PhraseList) (some_ : l.items.length ≠ 0) :
    (GuardianPhraseGraph.makeGraph false l = none → ∀ depth, makeNodes depth l = none) ∧
      ∀ g, GuardianPhraseGraph.makeGraph false l = some g → ∃ a f, Holds a f ∧ bare f = g.root ∧
        ∃ enough, ∀ depth ≥ enough, makeNodes depth l = some (a, g.list, g.slowgraph) := by
  unfold GuardianPhraseGraph.makeGraph makeNodes
  rw [if_neg some_, if_neg Bool.false_ne_true]
  cases sorted : graphSizeSort l (List.range l.items.length) with
  | none => exact ⟨fun _ _ => rfl, fun g made => by cases made⟩
  | some sizelist =>
    have alike := foldlM_alike (firstNodes_holds l) sizelist l
    have none_ : bare .nil = (.nil : Links) := rfl
    rw [none_] at alike
    dsimp only
    generalize sizelist.foldlM GuardianPhraseGraph.graphAdd (l, .nil) = tree at alike ⊢
    generalize sizelist.foldlM graphAdd (l, firstNodes l) = array at alike ⊢
    cases alike with
    | refused => exact ⟨fun _ _ => rfl, fun g made => by cases made⟩
    | holds l' a f holds =>
      refine ⟨fun made => (by cases made), fun g made => ?_⟩
      obtain ⟨b, drawing, moved, root, holds'⟩ := moveSparse_spec (fitted_holds holds).1 (l', [])
      dsimp only at made
      generalize GuardianPhraseGraph.moveSparse (bare f) (l', []) = st at made moved root
      obtain ⟨root', list, slowgraph⟩ := st
      obtain rfl := Option.some.inj made
      exact ⟨b, drawing, holds', root, _, moved⟩

/- The phrases that can be read from an array. -/

/-- A path of links to a node with the end flag spells a text, with the phrase number of the last node. -/
inductive Spells (a : Nodes) : Nat → List Nat → Str → Nat → Prop where
  | last {inx child : Nat} (link : child ∈ a.links inx) (flag : a.cell child 1 = 1) :
      Spells a inx [child] [a.letter child] (a.cell child 3).toNat
  | more {inx child x : Nat} {path : List Nat} {w : Str} (link : child ∈ a.links inx) (below : Spells a child path w x) :
      Spells a inx (child :: path) (a.letter child :: w) x

theorem Stored.links_at {a : Nodes} {f : Drawn} (stored : Stored a f) {child : Nat} (link : child ∈ tops f) :
    ∃ (before : Drawn) (last : Bool) (item : Nat) (links after : Drawn),
      f = before.append (.cons (a.letter child) last (child, item) links after) := by
  induction f with
  | nil => cases link
  | cons c last node links rest _ ih =>
    obtain ⟨pos, item⟩ := node
    obtain ⟨⟨letter, -⟩, -, inRest⟩ := stored
    rcases List.mem_cons.mp link with rfl | later
    · refine ⟨.nil, last, item, links, rest, ?_⟩
      rw [Forest.append, Nodes.letter, letter, Int.toNat_natCast, UInt8.ofNat_toNat]
    · obtain ⟨before, last', item', links', after, rfl⟩ := ih inRest later
      exact ⟨.cons c last (pos, item) links before, last', item', links', after, rfl⟩

theorem spells_word {a : Nodes} {inx x : Nat} {path : List Nat} {w : Str} (spells : Spells a inx path w x) :
    ∀ {f : Drawn}, Linked a inx (tops f) → Stored a f → (w, x) ∈ (bare f).words := by
  induction spells with
  | @last inx child link flag =>
    intro f linked stored
    rw [linked.links_eq] at link
    obtain ⟨before, last, item, links, after, rfl⟩ := stored.links_at link
    obtain ⟨-, ⟨-, flag', phrase, -⟩, -⟩ := stored_append.mp stored
    rw [flag'] at flag
    cases last with
    | false => cases flag
    | true =>
      rw [bare_around, Forest.words_append, phrase, Int.toNat_natCast, Forest.words]
      simp
  | @more inx child x path w link _ ih =>
    intro f linked stored
    rw [linked.links_eq] at link
    obtain ⟨before, last, item, links, after, rfl⟩ := stored.links_at link
    obtain ⟨-, ⟨-, -, -, below⟩, inLinks, -⟩ := stored_append.mp stored
    rw [bare_around, Forest.words_append, Forest.words]
    simp [ih below inLinks]

theorem word_spelled {a : Nodes} {f : Drawn} (stored : Stored a f) : ∀ {inx x : Nat} {w : Str}, tops f ⊆ a.links inx →
    (w, x) ∈ (bare f).words → ∃ path, Spells a inx path w x := by
  induction f with
  | nil =>
    intro inx x w _ word
    cases word
  | cons c last node links rest ihLinks ihRest =>
    obtain ⟨pos, item⟩ := node
    obtain ⟨⟨letter, flag, phrase, linked⟩, inLinks, inRest⟩ := stored
    intro inx x w subset word
    rw [tops, List.cons_subset] at subset
    have here : a.letter pos = c := by rw [Nodes.letter, letter, Int.toNat_natCast, UInt8.ofNat_toNat]
    rcases Forest.mem_words_cons.mp word with ⟨rfl, rfl, rfl⟩ | ⟨t, inside, rfl⟩ | later
    · have spells := Spells.last subset.1 (flag.trans (if_pos rfl))
      rw [here, phrase, Int.toNat_natCast] at spells
      exact ⟨_, spells⟩
    · obtain ⟨path, below⟩ := ihLinks inLinks (by rw [linked.links_eq]; exact List.Subset.refl _) inside
      have spells := Spells.more subset.1 below
      rw [here] at spells
      exact ⟨_, spells⟩
    · exact ihRest inRest subset.2 later

/-- No two paths spell one text. -/
theorem spells_once {a : Nodes} {inx x : Nat} {path : List Nat} {w : Str} (spells : Spells a inx path w x) :
    ∀ {f : Drawn} {path' : List Nat} {x' : Nat}, Linked a inx (tops f) → Stored a f → f.Distinct →
      Spells a inx path' w x' → path' = path ∧ x' = x := by
  have same_link : ∀ {f : Drawn} {child child' : Nat}, Stored a f → f.Distinct → child ∈ tops f → child' ∈ tops f →
      a.letter child = a.letter child' → child = child' := by
    intro f child child' stored distinct member member' letters
    have once := Forest.letters_nodup distinct
    rw [← stored.letters_eq] at once
    exact List.inj_on_of_nodup_map once member member' letters
  induction spells with
  | @last inx child link flag =>
    intro f path' x' linked stored distinct other
    rw [linked.links_eq] at link
    generalize word : [a.letter child] = w at other
    cases other with
    | @last _ child' link' flag' =>
      rw [linked.links_eq] at link'
      obtain rfl := same_link stored distinct link link' (List.cons.inj word).1
      exact ⟨rfl, rfl⟩
    | @more _ _ _ _ _ _ below =>
      obtain ⟨-, rfl⟩ := List.cons.inj word
      cases below
  | @more inx child x path w link below ih =>
    intro f path' x' linked stored distinct other
    rw [linked.links_eq] at link
    generalize word : a.letter child :: w = w' at other
    cases other with
    | @last _ child' link' flag' =>
      obtain ⟨-, rfl⟩ := List.cons.inj word
      cases below
    | @more _ child' _ path'' _ link' below' =>
      obtain ⟨letters, rfl⟩ := List.cons.inj word
      rw [linked.links_eq] at link'
      obtain rfl := same_link stored distinct link link' letters
      obtain ⟨before, last, item, links, after, rfl⟩ := stored.links_at link
      obtain ⟨-, ⟨-, -, -, linked'⟩, inLinks, -⟩ := stored_append.mp stored
      obtain ⟨-, ⟨-, distinct', -⟩, -⟩ := Forest.distinct_append distinct
      obtain ⟨rfl, rfl⟩ := ih linked' inLinks distinct' below'
      exact ⟨rfl, rfl⟩

/- Walking over an array. -/

/-- One walk: `sl` links of `currnode` are left, the first of them to `pos`. The text is what stands behind the letters
    before; none where it is read past its end, or in more rounds. -/
def walkLoop (a : Nodes) : Nat → Str → Nat → Int → Nat → Option (List Nat)
  | 0, _, _, _, _ => none
  | _ + 1, [], _, _, _ => none
  | rounds + 1, b :: text, pos, sl, currnode =>
    if a.letter pos = b then
      let hit := if a.cell pos 1 = 1 then [(a.cell pos 3).toNat] else []
      let sl := a.cell pos 2
      if sl > 0 then (walkLoop a rounds text (a.cell pos 4).toNat sl pos).map (hit ++ ·) else some hit
    else if sl - 1 > 0 then
      walkLoop a rounds (b :: text) (a.cell currnode (4 + (a.cell currnode 2 - (sl - 1)).toNat)).toNat (sl - 1) currnode
    else some []

/-- The walks from the links of the root. -/
def walkLinks (a : Nodes) (rounds : Nat) (text : Str) : List Nat → Option (List Nat)
  | [] => some []
  | pos :: rest =>
    match walkLoop a rounds text pos 0 0, walkLinks a rounds text rest with
    | some here, some others => some (here ++ others)
    | _, _ => none

/-- A walk from a link on, with the links beside it that are left, is the walk of the tree. -/
theorem walkLoop_spec {a : Nodes} {f : Drawn} (stored : Stored a f) : ∀ {pos : Nat} {more front : List Nat} {sl : Int}
    {currnode : Nat}, tops f = pos :: more → (sl - 1).toNat = more.length →
      (more ≠ [] → Linked a currnode (front ++ pos :: more)) → ∀ text,
      ∃ enough, ∀ rounds ≥ enough, walkLoop a rounds text pos sl currnode = (bare f).walk text := by
  induction f with
  | nil =>
    intro pos more front sl currnode shape
    cases shape
  | cons c last node links rest ihLinks ihRest =>
    obtain ⟨here, item⟩ := node
    obtain ⟨⟨letter, flag, phrase, linked⟩, inLinks, inRest⟩ := stored
    intro pos more front sl currnode shape left beside text
    obtain ⟨rfl, rfl⟩ := List.cons.inj shape
    have letter' : a.letter here = c := by rw [Nodes.letter, letter, Int.toNat_natCast, UInt8.ofNat_toNat]
    have hit : (if a.cell here 1 = 1 then [(a.cell here 3).toNat] else []) = if last then [item] else [] := by
      rw [flag, phrase, Int.toNat_natCast]
      cases last <;> rfl
    cases text with
    | nil =>
      refine ⟨1, fun rounds enough => ?_⟩
      obtain ⟨less, rfl⟩ : ∃ less, rounds = less + 1 := ⟨rounds - 1, by omega⟩
      rfl
    | cons b text =>
      obtain ⟨deep, below⟩ : ∃ deep, ∀ rounds ≥ deep, (if a.cell here 2 > 0 then
          (walkLoop a rounds text (a.cell here 4).toNat (a.cell here 2) here) else some []) = (bare links).walk text := by
        rw [linked.count]
        cases children : tops links with
        | nil =>
          have none_ : links = .nil := by
            cases links with
            | nil => rfl
            | cons _ node _ _ _ => cases children
          subst none_
          exact ⟨0, fun _ _ => rfl⟩
        | cons child others =>
          rw [children] at linked
          obtain ⟨deep, below⟩ := @ihLinks inLinks child others [] (child :: others).length here children (by simp)
            (fun _ => linked) text
          refine ⟨deep, fun rounds enough => ?_⟩
          rw [if_pos (by simp), linked.each 0 child rfl, Int.toNat_natCast]
          exact below rounds enough
      obtain ⟨wide, after⟩ : ∃ wide, ∀ rounds ≥ wide, (if sl - 1 > 0 then walkLoop a rounds (b :: text)
          (a.cell currnode (4 + (a.cell currnode 2 - (sl - 1)).toNat)).toNat (sl - 1) currnode else some []) =
            (bare rest).walk (b :: text) := by
        cases siblings : tops rest with
        | nil =>
          have none_ : rest = .nil := by
            cases rest with
            | nil => rfl
            | cons _ node _ _ _ => cases siblings
          subst none_
          rw [siblings, List.length_nil] at left
          exact ⟨0, fun _ _ => if_neg (by omega)⟩
        | cons next others =>
          rw [siblings] at left beside
          have linkedNow := beside (List.cons_ne_nil _ _)
          rw [List.length_cons] at left
          have place : (a.cell currnode 2 - (sl - 1)).toNat = front.length + 1 := by
            rw [linkedNow.count, List.length_append, List.length_cons, List.length_cons]
            omega
          rw [List.append_cons] at linkedNow
          obtain ⟨wide, after⟩ := @ihRest inRest next others (front ++ [here]) (sl - 1) currnode siblings (by omega)
            (fun _ => linkedNow) (b :: text)
          refine ⟨wide, fun rounds enough => ?_⟩
          have there : (front ++ [here] ++ next :: others)[front.length + 1]? = some next := by
            rw [List.getElem?_append_right (by simp), List.length_append, List.length_singleton, Nat.sub_self]
            rfl
          rw [if_pos (by omega), place, linkedNow.each _ next there, Int.toNat_natCast]
          exact after rounds enough
      refine ⟨max deep wide + 1, fun rounds enough => ?_⟩
      obtain ⟨less, rfl⟩ : ∃ less, rounds = less + 1 := ⟨rounds - 1, by omega⟩
      have below' := below less (by omega)
      have after' := after less (by omega)
      rw [walkLoop, letter', hit, bare_cons, Forest.walk]
      dsimp only
      by_cases same : c = b
      · rw [if_pos same, if_pos same, ← below']
        split
        · rfl
        · simp
      · rw [if_neg same, if_neg same, after']

theorem walkLinks_spec {a : Nodes} {f : Drawn} (stored : Stored a f) (text : Str) :
    ∃ enough, ∀ rounds ≥ enough, walkLinks a rounds text (tops f) = (bare f).walkEach text := by
  induction f with
  | nil => exact ⟨0, fun _ _ => rfl⟩
  | cons c last node links rest _ ih =>
    obtain ⟨pos, item⟩ := node
    obtain ⟨here, inLinks, inRest⟩ := stored
    obtain ⟨enough, others⟩ := ih inRest
    obtain ⟨deep, first⟩ := @walkLoop_spec a (.cons c last (pos, item) links .nil) ⟨here, inLinks, trivial⟩ pos [] [] 0 0 rfl rfl
      (fun more => absurd rfl more) text
    refine ⟨max enough deep, fun rounds many => ?_⟩
    have alone : bare .nil = (.nil : Links) := rfl
    rw [tops, walkLinks, first rounds (by omega), others rounds (by omega), bare_cons, bare_cons, Forest.walkEach, alone]
    cases (Forest.cons c last item (bare links) .nil).walk text <;> cases (bare rest).walkEach text <;> rfl

/-- What makeGraph leaves in the array is the graph that is a tree: each text of the tree is spelled by one path from the root,
    and no other text is, and the walks of a search find the same. -/
theorem nodes_are_graph {l : PhraseList} (some_ : l.items.length ≠ 0) {g : PhraseGraph}
    (made : GuardianPhraseGraph.makeGraph false l = some g) :
    ∃ a enough, (∀ depth ≥ enough, makeNodes depth l = some (a, g.list, g.slowgraph)) ∧
      (∀ w x, (∃ path, Spells a 0 path w x) ↔ (w, x) ∈ g.root.words) ∧
      (∀ path path' w x x', Spells a 0 path w x → Spells a 0 path' w x' → path' = path ∧ x' = x) ∧
      ∀ text, ∃ rounds, ∀ more ≥ rounds, walkLinks a more text (a.links 0) = g.root.walkEach text := by
  obtain ⟨a, f, holds, root, enough, run⟩ := (makeNodes_spec l some_).2 g made
  have drawn := holds.drawn
  refine ⟨a, enough, run, ?_, ?_, ?_⟩
  · intro w x
    rw [← root]
    constructor
    · rintro ⟨path, spells⟩
      exact spells_word spells drawn.linked drawn.stored
    · exact word_spelled drawn.stored (by rw [drawn.linked.links_eq]; exact List.Subset.refl _)
  · intro path path' w x x' spells spells'
    exact spells_once spells drawn.linked drawn.stored drawn.distinct spells'
  · intro text
    rw [drawn.linked.links_eq, ← root]
    exact walkLinks_spec drawn.stored text

end GuardianPhraseNodes
