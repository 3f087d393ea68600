import Mathlib.Data.List.Infix
import Mathlib.Data.List.Nodup
import Mathlib.Data.List.Perm.Basic

/- Tries of words over any alphabet, kept as the links of a node in the order in which they
   were made, with a bound on the links of one node. A word that is the beginning of a longer
   one has to be added before it. -/
namespace WordTrie

variable {α β : Type}

/-- For each link the letter, whether a word ends there, the item that made the node, and the
    links of the node. -/
inductive Forest (α β : Type) where
  | nil
  | cons (letter : α) (last : Bool) (item : β) (links rest : Forest α β)
  deriving DecidableEq, Repr

namespace Forest

def branch (item : β) (letter : α) : List α → Forest α β
  | [] => cons letter true item nil nil
  | next :: t => cons letter false item (branch item next t) nil

def letters : Forest α β → List α
  | nil => []
  | cons c _ _ _ rest => c :: rest.letters

def height : Forest α β → Nat
  | nil => 0
  | cons _ _ _ links rest => max (links.height + 1) rest.height

def words : Forest α β → List (List α × β)
  | nil => []
  | cons c last item links rest =>
    (if last then [([c], item)] else []) ++ links.words.map (fun e => (c :: e.1, e.2)) ++ rest.words

attribute [local simp] words

def items : Forest α β → List β
  | nil => []
  | cons _ _ item links rest => links.items ++ item :: rest.items

/-- The links of one node beside those of another. -/
def append : Forest α β → Forest α β → Forest α β
  | nil, g => g
  | cons c last item links rest, g => cons c last item links (rest.append g)

def map {γ : Type} (f : β → γ) : Forest α β → Forest α γ
  | nil => nil
  | cons c last item links rest => cons c last (f item) (links.map f) (rest.map f)

def Distinct : Forest α β → Prop
  | nil => True
  | cons c _ _ links rest => c ∉ rest.letters ∧ links.Distinct ∧ rest.Distinct

def Owned : Forest α β → Prop
  | nil => True
  | cons _ last item links rest =>
    (last = true ∨ item ∈ links.words.map Prod.snd) ∧ links.Owned ∧ rest.Owned

section Add
variable [DecidableEq α]

/-- Adds a word, given as its first letter and the rest, below a node with room for so many
    more links. With the new links comes the item that has the word already; none when there
    is no room. A word that stops inside a longer one is not added. -/
def add (limit : Nat) (item : β) : Forest α β → Nat → α → List α → Option (Forest α β × Option β)
  | nil, 0, _, _ => none
  | nil, _ + 1, p, t => some (branch item p t, none)
  | cons c last made links rest, room, p, t =>
    if p = c then
      match t with
      | [] => some (cons c last made links rest, if last then some made else none)
      | next :: t =>
        (links.add limit item limit next t).map fun r => (cons c last made r.1 rest, r.2)
    else (rest.add limit item (room - 1) p t).map fun r => (cons c last made links r.1, r.2)

/-- The items of the words at the beginning of the text, along the one path of links that
    matches it; none when the text ends before the path does. -/
def walk : Forest α β → List α → Option (List β)
  | nil, _ => some []
  | cons _ _ _ _ _, [] => none
  | cons c last item links rest, b :: text =>
    if c = b then (links.walk text).map fun found => (if last then [item] else []) ++ found
    else rest.walk (b :: text)

def walkEach : Forest α β → List α → Option (List β)
  | nil, _ => some []
  | cons c last item links rest, text =>
    match (cons c last item links nil).walk text, rest.walkEach text with
    | some here, some others => some (here ++ others)
    | _, _ => none

end Add

theorem mem_words_cons {c : α} {last : Bool} {item : β} {links rest : Forest α β} {w : List α} {x : β} :
    (w, x) ∈ (cons c last item links rest).words ↔
      (last = true ∧ w = [c] ∧ x = item) ∨ (∃ t, (t, x) ∈ links.words ∧ w = c :: t) ∨
        (w, x) ∈ rest.words := by
  cases last <;> simp [words, eq_comm]

theorem words_ne_nil (f : Forest α β) {w : List α} {x : β} (word : (w, x) ∈ f.words) : w ≠ [] := by
  induction f generalizing w with
  | nil => cases word
  | cons c last item links rest _ ih =>
    rcases mem_words_cons.mp word with ⟨-, rfl, -⟩ | ⟨t, -, rfl⟩ | later
    · exact List.cons_ne_nil _ _
    · exact List.cons_ne_nil _ _
    · exact ih later

theorem words_head (f : Forest α β) {c : α} {w : List α} {x : β} (word : (c :: w, x) ∈ f.words) :
    c ∈ f.letters := by
  induction f with
  | nil => cases word
  | cons b last item links rest _ ih =>
    rw [letters, List.mem_cons]
    rcases mem_words_cons.mp word with ⟨-, spelled, -⟩ | ⟨t, -, spelled⟩ | later
    · exact .inl (List.cons.inj spelled).1
    · exact .inl (List.cons.inj spelled).1
    · exact .inr (ih later)

theorem words_length (f : Forest α β) {w : List α} {x : β} (word : (w, x) ∈ f.words) :
    w.length ≤ f.height := by
  induction f generalizing w with
  | nil => cases word
  | cons c last item links rest below ih =>
    rw [height]
    rcases mem_words_cons.mp word with ⟨-, rfl, -⟩ | ⟨t, inside, rfl⟩ | later
    · rw [List.length_singleton]
      omega
    · have fits := below inside
      rw [List.length_cons]
      omega
    · exact (ih later).trans (le_max_right _ _)

theorem words_nodup {f : Forest α β} (distinct : f.Distinct) : (f.words.map Prod.fst).Nodup := by
  induction f with
  | nil => exact List.nodup_nil
  | cons c last item links rest below ih =>
    obtain ⟨fresh, linksDistinct, restDistinct⟩ := distinct
    have tails : ((links.words.map fun e => (c :: e.1, e.2)).map Prod.fst).Nodup := by
      have shape : (links.words.map fun e => (c :: e.1, e.2)).map Prod.fst =
          (links.words.map Prod.fst).map (c :: ·) := by simp [Function.comp_def]
      rw [shape]
      exact List.Nodup.map List.cons_injective (below linksDistinct)
    have others : ∀ w ∈ rest.words.map Prod.fst, ∀ t, w ≠ c :: t := by
      intro w member t starts
      obtain ⟨e, inside, spelled⟩ := List.mem_map.mp member
      refine fresh (words_head rest (w := t) (x := e.2) ?_)
      rw [← starts, ← spelled]
      exact inside
    rw [words, List.map_append, List.map_append, List.nodup_append, List.nodup_append]
    refine ⟨⟨by cases last <;> simp, tails, ?_⟩, ih restDistinct, ?_⟩
    · intro w short v long same
      obtain ⟨e, inside, spelled⟩ : ∃ e ∈ links.words, c :: e.1 = v := by simpa using long
      cases last with
      | false => cases short
      | true =>
        have single : w = [c] := by simpa using short
        apply words_ne_nil links inside
        rw [← same, single] at spelled
        exact (List.cons.inj spelled).2
    · intro w mine v other same
      obtain ⟨t, starts⟩ : ∃ t, w = c :: t := by
        rcases List.mem_append.mp mine with short | long
        · cases last with
          | false => cases short
          | true => exact ⟨[], by simpa using short⟩
        · obtain ⟨e, -, spelled⟩ : ∃ e ∈ links.words, c :: e.1 = w := by simpa using long
          exact ⟨e.1, spelled.symm⟩
      exact others v other t (same ▸ starts)

theorem items_append (f g : Forest α β) : (f.append g).items = f.items ++ g.items := by
  induction f with
  | nil => rfl
  | cons c last item links rest _ ih => simp [append, items, ih]

theorem words_append (f g : Forest α β) : (f.append g).words = f.words ++ g.words := by
  induction f with
  | nil => rfl
  | cons c last item links rest _ ih => simp [append, words, ih]

theorem letters_append (f g : Forest α β) : (f.append g).letters = f.letters ++ g.letters := by
  induction f with
  | nil => rfl
  | cons c last item links rest _ ih => rw [append, letters, letters, ih, List.cons_append]

theorem append_nil (f : Forest α β) : f.append nil = f := by
  induction f with
  | nil => rfl
  | cons c last item links rest _ ih => rw [append, ih]

theorem letters_nodup {f : Forest α β} (distinct : f.Distinct) : f.letters.Nodup := by
  induction f with
  | nil => exact List.nodup_nil
  | cons c last item links rest _ ih => exact List.nodup_cons.mpr ⟨distinct.1, ih distinct.2.2⟩

theorem split_at_letter {f : Forest α β} {p : α} (letter : p ∈ f.letters) :
    ∃ before last item links after, f = append before (cons p last item links after) ∧ p ∉ before.letters := by
  induction f with
  | nil => cases letter
  | cons c last item links rest _ ih =>
    by_cases same : p = c
    · subst same
      exact ⟨nil, last, item, links, rest, rfl, List.not_mem_nil⟩
    · obtain ⟨before, last', item', links', after, whole, absent⟩ := ih ((List.mem_cons.mp letter).resolve_left same)
      refine ⟨cons c last item links before, last', item', links', after, by rw [append, whole], ?_⟩
      rw [letters, List.mem_cons, not_or]
      exact ⟨same, absent⟩

theorem distinct_append {f g : Forest α β} (distinct : (f.append g).Distinct) :
    f.Distinct ∧ g.Distinct ∧ List.Disjoint f.letters g.letters := by
  induction f with
  | nil => exact ⟨trivial, distinct, List.disjoint_nil_left _⟩
  | cons c last item links rest _ ih =>
    obtain ⟨new, below, others⟩ := distinct
    rw [letters_append, List.mem_append, not_or] at new
    obtain ⟨first, second, apart⟩ := ih others
    exact ⟨⟨new.1, below, first⟩, second, List.disjoint_cons_left.mpr ⟨new.2, apart⟩⟩

section Map
variable {γ : Type} (h : β → γ)

theorem map_append (f g : Forest α β) : (f.append g).map h = (f.map h).append (g.map h) := by
  induction f with
  | nil => rfl
  | cons c last item links rest _ ih => rw [append, map, ih, map, append]

theorem letters_map (f : Forest α β) : (f.map h).letters = f.letters := by
  induction f with
  | nil => rfl
  | cons c last item links rest _ ih => rw [map, letters, letters, ih]

end Map

theorem mem_items_iff {f : Forest α β} (owned : f.Owned) (x : β) :
    x ∈ f.items ↔ ∃ w, (w, x) ∈ f.words := by
  induction f with
  | nil => simp [items, words]
  | cons c last item links rest below ih =>
    obtain ⟨mine, linksOwned, restOwned⟩ := owned
    rw [items, List.mem_append, List.mem_cons, below linksOwned, ih restOwned]
    constructor
    · rintro (⟨w, inside⟩ | rfl | ⟨w, later⟩)
      · exact ⟨c :: w, mem_words_cons.mpr (.inr (.inl ⟨w, inside, rfl⟩))⟩
      · rcases mine with ends | listed
        · exact ⟨[c], mem_words_cons.mpr (.inl ⟨ends, rfl, rfl⟩)⟩
        · obtain ⟨⟨w, y⟩, inside, rfl⟩ := List.mem_map.mp listed
          exact ⟨c :: w, mem_words_cons.mpr (.inr (.inl ⟨w, inside, rfl⟩))⟩
      · exact ⟨w, mem_words_cons.mpr (.inr (.inr later))⟩
    · rintro ⟨w, word⟩
      rcases mem_words_cons.mp word with ⟨-, -, rfl⟩ | ⟨t, inside, -⟩ | later
      · exact .inr (.inl rfl)
      · exact .inl ⟨t, inside⟩
      · exact .inr (.inr ⟨w, later⟩)

section Branch
variable (item : β)

theorem branch_words (p : α) (t : List α) : (branch item p t).words = [(p :: t, item)] := by
  induction t generalizing p with
  | nil => rfl
  | cons next t ih => simp [branch, words, ih]

theorem branch_letters (p : α) (t : List α) : (branch item p t).letters = [p] := by
  cases t <;> rfl

theorem branch_height (p : α) (t : List α) : (branch item p t).height = t.length + 1 := by
  induction t generalizing p with
  | nil => rfl
  | cons next t ih => simp [branch, height, ih]

theorem branch_distinct (p : α) (t : List α) : (branch item p t).Distinct := by
  induction t generalizing p with
  | nil => simp [branch, Distinct, letters]
  | cons next t ih => simp [branch, Distinct, letters, ih]

theorem branch_owned (p : α) (t : List α) : (branch item p t).Owned := by
  induction t generalizing p with
  | nil => simp [branch, Owned]
  | cons next t ih => simp [branch, Owned, ih, branch_words]

end Branch

section Adding
variable [DecidableEq α] {limit : Nat} {item : β}

theorem add_cons_cases {c : α} {last : Bool} {made : β} {links rest f' : Forest α β} {room : Nat}
    {p : α} {t : List α} {clash : Option β}
    (added : (cons c last made links rest).add limit item room p t = some (f', clash)) :
    (p = c ∧ t = [] ∧ f' = cons c last made links rest ∧ clash = if last then some made else none) ∨
      (p = c ∧ ∃ next u links', t = next :: u ∧ links.add limit item limit next u = some (links', clash) ∧
        f' = cons c last made links' rest) ∨
      (p ≠ c ∧ ∃ rest', rest.add limit item (room - 1) p t = some (rest', clash) ∧
        f' = cons c last made links rest') := by
  unfold add at added
  split at added
  · rename_i same
    split at added
    · obtain ⟨rfl, rfl⟩ := Prod.ext_iff.mp (Option.some.inj added)
      exact .inl ⟨same, rfl, rfl, rfl⟩
    · rename_i next u
      obtain ⟨⟨links', clash'⟩, inside, result⟩ := Option.map_eq_some_iff.mp added
      obtain ⟨rfl, rfl⟩ := Prod.ext_iff.mp result
      exact .inr (.inl ⟨same, next, u, links', rfl, inside, rfl⟩)
  · rename_i different
    obtain ⟨⟨rest', clash'⟩, inside, result⟩ := Option.map_eq_some_iff.mp added
    obtain ⟨rfl, rfl⟩ := Prod.ext_iff.mp result
    exact .inr (.inr ⟨different, rest', inside, rfl⟩)

theorem add_other {c p : α} (other : p ≠ c) (last : Bool) (made : β) (links rest : Forest α β) (room : Nat) (t : List α) :
    (cons c last made links rest).add limit item room p t =
      (rest.add limit item (room - 1) p t).map fun r => (cons c last made links r.1, r.2) := by
  rw [add.eq_def]
  exact if_neg other

theorem add_same (p : α) (last : Bool) (made : β) (links rest : Forest α β) (room : Nat) :
    (cons p last made links rest).add limit item room p [] =
        some (cons p last made links rest, if last then some made else none) ∧
      ∀ next t, (cons p last made links rest).add limit item room p (next :: t) =
        (links.add limit item limit next t).map fun r => (cons p last made r.1 rest, r.2) := by
  constructor
  · rw [add.eq_def]
    exact if_pos rfl
  · intro next t
    rw [add.eq_def]
    exact if_pos rfl

/-- Links with other letters are passed by. -/
theorem add_append {f : Forest α β} {p : α} (other : p ∉ f.letters) (g : Forest α β) (room : Nat) (t : List α) :
    (f.append g).add limit item room p t =
      (g.add limit item (room - f.letters.length) p t).map fun r => (f.append r.1, r.2) := by
  induction f generalizing room with
  | nil => simp [append, letters]
  | cons c last made links rest _ ih =>
    rw [letters, List.mem_cons, not_or] at other
    rw [append, add_other other.1, ih other.2, Option.map_map, letters, List.length_cons, Nat.sub_sub, Nat.add_comm 1]
    rfl

theorem add_nil {room : Nat} {p : α} {t : List α} {f' : Forest α β} {clash : Option β}
    (added : (nil : Forest α β).add limit item room p t = some (f', clash)) :
    f' = branch item p t ∧ clash = none := by
  cases room with
  | zero => cases added
  | succ room =>
    obtain ⟨rfl, rfl⟩ := Prod.ext_iff.mp (Option.some.inj added)
    exact ⟨rfl, rfl⟩

theorem add_letters {f f' : Forest α β} {room : Nat} {p : α} {t : List α} {clash : Option β}
    (added : f.add limit item room p t = some (f', clash)) {c : α} (letter : c ∈ f'.letters) :
    c = p ∨ c ∈ f.letters := by
  induction f generalizing f' room p t with
  | nil =>
    rw [(add_nil added).1, branch_letters] at letter
    exact .inl (List.mem_singleton.mp letter)
  | cons b last made links rest _ ih =>
    rcases add_cons_cases added with
      ⟨-, -, rfl, -⟩ | ⟨-, next, u, links', -, -, rfl⟩ | ⟨-, rest', inside, rfl⟩
    · exact .inr letter
    · exact .inr letter
    · rcases List.mem_cons.mp letter with first | later
      · exact .inr (List.mem_cons.mpr (.inl first))
      · rcases ih inside later with same | old
        · exact .inl same
        · exact .inr (List.mem_cons_of_mem _ old)

theorem add_distinct {f f' : Forest α β} {room : Nat} {p : α} {t : List α} {clash : Option β}
    (added : f.add limit item room p t = some (f', clash)) (distinct : f.Distinct) : f'.Distinct := by
  induction f generalizing f' room p t with
  | nil => exact (add_nil added).1 ▸ branch_distinct item p t
  | cons c last made links rest below ih =>
    obtain ⟨fresh, linksDistinct, restDistinct⟩ := distinct
    rcases add_cons_cases added with
      ⟨-, -, rfl, -⟩ | ⟨-, next, u, links', -, inside, rfl⟩ | ⟨different, rest', inside, rfl⟩
    · exact ⟨fresh, linksDistinct, restDistinct⟩
    · exact ⟨fresh, below inside linksDistinct, restDistinct⟩
    · refine ⟨?_, linksDistinct, ih inside restDistinct⟩
      intro member
      rcases add_letters inside member with same | old
      · exact different same.symm
      · exact fresh old

theorem add_height {f f' : Forest α β} {room : Nat} {p : α} {t : List α} {clash : Option β}
    (added : f.add limit item room p t = some (f', clash)) (low : f.height ≤ t.length + 1) :
    f'.height ≤ t.length + 1 := by
  induction f generalizing f' room p t with
  | nil => rw [(add_nil added).1, branch_height]
  | cons c last made links rest below ih =>
    rw [height] at low
    rcases add_cons_cases added with
      ⟨-, -, rfl, -⟩ | ⟨-, next, u, links', rfl, inside, rfl⟩ | ⟨different, rest', inside, rfl⟩
    · exact low
    · have deeper := below inside (by rw [List.length_cons] at low; omega)
      rw [height, List.length_cons]
      rw [List.length_cons] at low
      omega
    · have wider := ih inside (by omega)
      rw [height]
      omega

theorem add_clash {f f' : Forest α β} {room : Nat} {p : α} {t : List α} {x : β}
    (added : f.add limit item room p t = some (f', some x)) : f' = f ∧ (p :: t, x) ∈ f.words := by
  induction f generalizing f' room p t with
  | nil => cases (add_nil added).2
  | cons c last made links rest below ih =>
    rcases add_cons_cases added with
      ⟨rfl, rfl, rfl, there⟩ | ⟨rfl, next, u, links', rfl, inside, rfl⟩ | ⟨-, rest', inside, rfl⟩
    · cases last with
      | false => cases there
      | true => exact ⟨rfl, mem_words_cons.mpr (.inl ⟨rfl, rfl, Option.some.inj there⟩)⟩
    · obtain ⟨rfl, member⟩ := below inside
      exact ⟨rfl, mem_words_cons.mpr (.inr (.inl ⟨_, member, rfl⟩))⟩
    · obtain ⟨rfl, member⟩ := ih inside
      exact ⟨rfl, mem_words_cons.mpr (.inr (.inr member))⟩

/-- A word at least as long as all words that are there is added, whatever they are. -/
theorem add_words {f f' : Forest α β} {room : Nat} {p : α} {t : List α}
    (added : f.add limit item room p t = some (f', none)) (owned : f.Owned)
    (low : f.height ≤ t.length + 1) : f'.words.Perm ((p :: t, item) :: f.words) := by
  induction f generalizing f' room p t with
  | nil => rw [(add_nil added).1, branch_words, words]
  | cons c last made links rest below ih =>
    obtain ⟨mine, linksOwned, restOwned⟩ := owned
    rw [height] at low
    rcases add_cons_cases added with
      ⟨rfl, rfl, rfl, there⟩ | ⟨rfl, next, u, links', rfl, inside, rfl⟩ | ⟨-, rest', inside, rfl⟩
    · -- the word ends inside a longer one, which would have been added too early
      exfalso
      cases last with
      | true => cases there
      | false =>
        obtain ⟨⟨w, y⟩, member, -⟩ := List.mem_map.mp (mine.resolve_left Bool.false_ne_true)
        have short := words_length links member
        rw [List.length_nil] at low
        exact words_ne_nil links member (List.eq_nil_of_length_eq_zero (by omega))
    · have deeper := below inside linksOwned (by rw [List.length_cons] at low; omega)
      have spelled := deeper.map fun e => (p :: e.1, e.2)
      rw [words, words, List.append_assoc, List.append_assoc]
      refine ((spelled.append_right _).append_left _).trans ?_
      rw [List.map_cons, List.cons_append]
      exact List.perm_middle
    · have wider := ih inside restOwned (by omega)
      rw [words, words]
      exact (wider.append_left _).trans List.perm_middle

theorem add_words_subset {f f' : Forest α β} {room : Nat} {p : α} {t : List α} {clash : Option β}
    (added : f.add limit item room p t = some (f', clash)) (owned : f.Owned)
    (low : f.height ≤ t.length + 1) {e : List α × β} (word : e ∈ f.words) : e ∈ f'.words := by
  cases clash with
  | none => exact (add_words added owned low).symm.subset (List.mem_cons_of_mem _ word)
  | some x => rwa [(add_clash added).1]

theorem add_owned {f f' : Forest α β} {room : Nat} {p : α} {t : List α} {clash : Option β}
    (added : f.add limit item room p t = some (f', clash)) (owned : f.Owned)
    (low : f.height ≤ t.length + 1) : f'.Owned := by
  induction f generalizing f' room p t with
  | nil => exact (add_nil added).1 ▸ branch_owned item p t
  | cons c last made links rest below ih =>
    obtain ⟨mine, linksOwned, restOwned⟩ := owned
    rw [height] at low
    rcases add_cons_cases added with
      ⟨-, -, rfl, -⟩ | ⟨-, next, u, links', rfl, inside, rfl⟩ | ⟨-, rest', inside, rfl⟩
    · exact ⟨mine, linksOwned, restOwned⟩
    · have shallow : links.height ≤ u.length + 1 := by
        rw [List.length_cons] at low
        omega
      refine ⟨?_, below inside linksOwned shallow, restOwned⟩
      rcases mine with ends | listed
      · exact .inl ends
      · obtain ⟨e, member, same⟩ := List.mem_map.mp listed
        exact .inr (List.mem_map.mpr ⟨e, add_words_subset inside linksOwned shallow member, same⟩)
    · exact ⟨mine, linksOwned, ih inside restOwned (by omega)⟩

end Adding

section Walking
variable [DecidableEq α]

def found (f : Forest α β) (text : List α) : List β :=
  (f.words.filter fun e => e.1.isPrefixOf text).map Prod.snd

theorem found_cons (c : α) (last : Bool) (item : β) (links rest : Forest α β) (b : α) (text : List α) :
    (cons c last item links rest).found (b :: text) =
      (if c = b then (if last then [item] else []) ++ links.found text else []) ++
        rest.found (b :: text) := by
  have below : (links.words.map fun e => (c :: e.1, e.2)).filter (fun e => e.1.isPrefixOf (b :: text)) =
      if c = b then (links.words.filter fun e => e.1.isPrefixOf text).map fun e => (c :: e.1, e.2)
      else [] := by
    rw [List.filter_map]
    by_cases same : c = b
    · simp [same, Function.comp_def]
    · simp [same, Function.comp_def]
  simp only [found, words, List.filter_append, List.map_append, below]
  congr 1
  by_cases same : c = b
  · cases last <;> simp [same]
  · cases last <;> simp [same]

theorem found_eq_nil {f : Forest α β} {b : α} {text : List α} (absent : b ∉ f.letters) :
    f.found (b :: text) = [] := by
  induction f with
  | nil => rfl
  | cons c last item links rest _ ih =>
    rw [letters, List.mem_cons, not_or] at absent
    rw [found_cons, if_neg (fun same => absent.1 same.symm), ih absent.2, List.nil_append]

theorem walk_eq {f : Forest α β} {text : List α} (distinct : f.Distinct)
    (long : f.height ≤ text.length) : f.walk text = some (f.found text) := by
  induction f generalizing text with
  | nil => rfl
  | cons c last item links rest below ih =>
    obtain ⟨fresh, linksDistinct, restDistinct⟩ := distinct
    rw [height] at long
    cases text with
    | nil =>
      rw [List.length_nil] at long
      omega
    | cons b text =>
      rw [List.length_cons] at long
      rw [walk, found_cons]
      split
      · rename_i same
        rw [below linksDistinct (by omega), found_eq_nil (same ▸ fresh), List.append_nil]
        rfl
      · rw [ih restDistinct (by rw [List.length_cons]; omega), List.nil_append]

theorem walkEach_eq {f : Forest α β} {text : List α} (distinct : f.Distinct)
    (long : f.height ≤ text.length) : f.walkEach text = some (f.found text) := by
  induction f with
  | nil => rfl
  | cons c last item links rest _ ih =>
    have ⟨_, linksDistinct, restDistinct⟩ := distinct
    have single : (cons c last item links nil).Distinct :=
      ⟨by simp [letters], linksDistinct, trivial⟩
    have linksLong : (cons c last item links nil).height ≤ text.length := by
      rw [height] at long ⊢
      exact max_le ((le_max_left _ _).trans long) (Nat.zero_le _)
    have restLong : rest.height ≤ text.length := (le_max_right _ _).trans long
    rw [walkEach, walk_eq single linksLong, ih restDistinct restLong]
    simp [found, words]

end Walking

section Longest

/-- The words that no longer word begins with, one for each node without links. -/
def longest : Forest α β → List (List α)
  | nil => []
  | cons c _ _ links rest =>
    (match links.longest with
      | [] => [[c]]
      | ends => ends.map (c :: ·)) ++ rest.longest

theorem longest_eq_nil_iff (f : Forest α β) : f.longest = [] ↔ f = nil := by
  cases f with
  | nil => simp [longest]
  | cons c last item links rest =>
    rw [longest]
    split
    · simp
    · rename_i some_
      simpa using fun none_ => absurd none_ some_

theorem longest_cons_nil (c : α) (last : Bool) (item : β) (rest : Forest α β) :
    (cons c last item nil rest).longest = [c] :: rest.longest := rfl

theorem longest_cons {links : Forest α β} (c : α) (last : Bool) (item : β) (rest : Forest α β) (below : links ≠ nil) :
    (cons c last item links rest).longest = links.longest.map (c :: ·) ++ rest.longest := by
  rw [longest]
  split
  · rename_i none_
    exact absurd ((longest_eq_nil_iff links).mp none_) below
  · rfl

theorem longest_sublist {f : Forest α β} (owned : f.Owned) : f.longest.Sublist (f.words.map Prod.fst) := by
  induction f with
  | nil => exact List.Sublist.slnil
  | cons c last item links rest below ih =>
    obtain ⟨mine, linksOwned, restOwned⟩ := owned
    rw [words, List.map_append, List.map_append]
    by_cases leaf : links = nil
    · subst leaf
      have ends : last = true := by simpa [words] using mine
      rw [longest_cons_nil, ends]
      exact (ih restOwned).cons_cons [c]
    · rw [longest_cons _ _ _ _ leaf]
      have tails : (links.longest.map (c :: ·)).Sublist ((links.words.map fun e => (c :: e.1, e.2)).map Prod.fst) := by
        have spelled := (below linksOwned).map (c :: ·)
        rwa [List.map_map] at spelled ⊢
      exact (tails.trans (List.sublist_append_right _ _)).append (ih restOwned)

theorem longest_head {f : Forest α β} (owned : f.Owned) {w : List α} (member : w ∈ f.longest) :
    ∃ c ∈ f.letters, w.head? = some c := by
  obtain ⟨⟨v, x⟩, word, rfl⟩ := List.mem_map.mp ((longest_sublist owned).subset member)
  obtain ⟨c, t, rfl⟩ := List.exists_cons_of_ne_nil (words_ne_nil f word)
  exact ⟨c, words_head f word, rfl⟩

theorem longest_maximal {f : Forest α β} (distinct : f.Distinct) (owned : f.Owned) {w v : List α} {x : β}
    (member : w ∈ f.longest) (word : (v, x) ∈ f.words) (starts : w <+: v) : v = w := by
  induction f generalizing w v with
  | nil => cases member
  | cons c last item links rest below ih =>
    obtain ⟨fresh, linksDistinct, restDistinct⟩ := distinct
    obtain ⟨mine, linksOwned, restOwned⟩ := owned
    by_cases later : w ∈ rest.longest
    · obtain ⟨b, letter, head⟩ := longest_head restOwned later
      obtain ⟨t, rfl⟩ := List.head?_eq_some_iff.mp head
      rcases mem_words_cons.mp word with ⟨-, rfl, -⟩ | ⟨u, -, rfl⟩ | behind
      · exact absurd (List.cons_prefix_cons.mp starts).1 fun same => fresh (same ▸ letter)
      · exact absurd (List.cons_prefix_cons.mp starts).1 fun same => fresh (same ▸ letter)
      · exact ih restDistinct restOwned later behind starts
    · obtain ⟨t, rfl⟩ : ∃ t, w = c :: t := by
        by_cases leaf : links = nil
        · subst leaf
          rw [longest_cons_nil] at member
          exact ⟨[], (List.mem_cons.mp member).resolve_right later⟩
        · rw [longest_cons _ _ _ _ leaf] at member
          obtain ⟨t, -, rfl⟩ := List.mem_map.mp ((List.mem_append.mp member).resolve_right later)
          exact ⟨t, rfl⟩
      have notBehind : (v, x) ∉ rest.words := by
        intro behind
        obtain ⟨u, rfl, -⟩ := List.cons_prefix_iff.mp starts
        exact fresh (words_head rest behind)
      by_cases leaf : links = nil
      · subst leaf
        rw [longest_cons_nil, List.mem_cons, or_iff_left later] at member
        rcases mem_words_cons.mp word with ⟨-, rfl, -⟩ | ⟨u, inside, -⟩ | behind
        · exact member.symm
        · cases inside
        · exact absurd behind notBehind
      · rw [longest_cons _ _ _ _ leaf, List.mem_append, or_iff_left later] at member
        obtain ⟨s, inside, same⟩ := List.mem_map.mp member
        obtain ⟨-, rfl⟩ := List.cons.inj same
        rcases mem_words_cons.mp word with ⟨-, rfl, -⟩ | ⟨u, tail, rfl⟩ | behind
        · obtain ⟨b, -, head⟩ := longest_head linksOwned inside
          rw [List.cons_prefix_cons, List.prefix_nil] at starts
          rw [starts.2] at head
          cases head
        · rw [below linksDistinct linksOwned inside tail (List.cons_prefix_cons.mp starts).2]
        · exact absurd behind notBehind

theorem longest_covers {f : Forest α β} (owned : f.Owned) {w : List α} {x : β} (word : (w, x) ∈ f.words) :
    ∃ v ∈ f.longest, w <+: v := by
  induction f generalizing w with
  | nil => cases word
  | cons c last item links rest below ih =>
    obtain ⟨mine, linksOwned, restOwned⟩ := owned
    by_cases leaf : links = nil
    · subst leaf
      rw [longest_cons_nil]
      rcases mem_words_cons.mp word with ⟨-, rfl, -⟩ | ⟨u, inside, -⟩ | behind
      · exact ⟨[c], List.mem_cons_self, List.prefix_refl _⟩
      · cases inside
      · obtain ⟨v, member, starts⟩ := ih restOwned behind
        exact ⟨v, List.mem_cons_of_mem _ member, starts⟩
    · rw [longest_cons _ _ _ _ leaf]
      rcases mem_words_cons.mp word with ⟨-, rfl, -⟩ | ⟨u, inside, rfl⟩ | behind
      · obtain ⟨v, member⟩ := List.exists_mem_of_ne_nil _ fun none_ => leaf ((longest_eq_nil_iff links).mp none_)
        exact ⟨c :: v, List.mem_append_left _ (List.mem_map_of_mem member), List.prefix_append [c] v⟩
      · obtain ⟨v, member, starts⟩ := below linksOwned inside
        exact ⟨c :: v, List.mem_append_left _ (List.mem_map_of_mem member), List.cons_prefix_cons.mpr ⟨rfl, starts⟩⟩
      · obtain ⟨v, member, starts⟩ := ih restOwned behind
        exact ⟨v, List.mem_append_right _ member, starts⟩

theorem mem_longest_iff {f : Forest α β} (distinct : f.Distinct) (owned : f.Owned) (w : List α) :
    w ∈ f.longest ↔ w ∈ f.words.map Prod.fst ∧ ∀ v ∈ f.words.map Prod.fst, w <+: v → v = w := by
  constructor
  · intro member
    refine ⟨(longest_sublist owned).subset member, ?_⟩
    intro v listed starts
    obtain ⟨e, word, rfl⟩ := List.mem_map.mp listed
    exact longest_maximal distinct owned member word starts
  · rintro ⟨listed, alone⟩
    obtain ⟨e, word, rfl⟩ := List.mem_map.mp listed
    obtain ⟨v, member, starts⟩ := longest_covers owned word
    rwa [← alone v ((longest_sublist owned).subset member) starts]

end Longest

end Forest
end WordTrie
