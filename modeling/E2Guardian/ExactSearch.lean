import E2Guardian.ItemFile

/- The binary searches of ListContainer for a whole item: in the item lists that doSort has put in descending
   order, from either end of the item, and in the sorted maps. -/
namespace GuardianExactSearch
open GuardianString GuardianItemList GuardianItemFile PrefixSearch ThreeWayBisection

def fullMatch (startsWith : Bool) : Str → Str → Int := if startsWith then greaterThanSWF else greaterThanEWF

def searchVisits (comparitor : Str → Str → Int) (items : List Str) (p : Str) : List Int :=
  visits (fun m => comparitor p (items.getD m.toNat [])) items.length 0 (items.length - 1)

def Found (comparitor : Str → Str → Int) (items : List Str) (p : Str) : Prop :=
  0 ≤ search comparitor items p ∧ items[(search comparitor items p).toNat]? = some p

theorem search_whole {items : List Str} (startsWith : Bool)
    (sorted : Descending charKey (items.map (if startsWith then id else List.reverse))) (p : Str) :
    (p ∈ items → Found (fullMatch startsWith) items p) ∧ (p ∉ items → search (fullMatch startsWith) items p < 0) := by
  cases startsWith with
  | true =>
    rw [if_pos rfl, List.map_id] at sorted
    exact searchWords_whole charKey charKey_injective sorted p
  | false =>
    rw [if_neg Bool.false_ne_true] at sorted
    have mirrored := searchWords_whole charKey charKey_injective sorted p.reverse
    have same : search (fullMatch false) items p = _ := search_reversed_eq (fun _ => false) items p
    have member : p.reverse ∈ items.map List.reverse ↔ p ∈ items := by simp
    rw [← same, member] at mirrored
    refine ⟨fun here => ?_, mirrored.2⟩
    obtain ⟨found, place⟩ := mirrored.1 here
    refine ⟨found, ?_⟩
    rw [List.getElem?_map, Option.map_eq_some_iff] at place
    obtain ⟨x, there, same⟩ := place
    rw [there, List.reverse_injective same]

theorem sortItems_descending (startsWith : Bool) (items : List Str) :
    Descending charKey ((sortItems startsWith items).map (if startsWith then id else List.reverse)) := by
  rw [sortItems_eq]
  exact sortDescending_descending charKey _ items

theorem short_descending (startsWith : Bool) {items : List Str} (short : items.length < 2) :
    Descending charKey (items.map (if startsWith then id else List.reverse)) := by
  match items, short with
  | [], _ => exact List.Pairwise.nil
  | [x], _ => exact List.pairwise_singleton _ _

section Maps
variable {κ : Type} [DecidableEq κ] [LE κ] [LT κ] [DecidableLT κ]

def mapVisits (entries : List (κ × Str)) (key : κ) : List Int :=
  visits (fun m =>
    match entries[m.toNat]? with
    | some e => if e.1 = key then 0 else if e.1 < key then -1 else 1
    | none => 1) entries.length 0 (entries.length - 1)

def searchEntries {β : Type} (entries : List (κ × β)) (key : κ) : Option β :=
  let probe := fun m : Int =>
    match entries[m.toNat]? with
    | some e => if e.1 = key then 0 else if e.1 < key then -1 else 1
    | none => 1
  let r := bisect probe entries.length 0 (entries.length - 1)
  if r ≥ 0 then (entries[r.toNat]?).map Prod.snd else none

omit [LE κ] in
theorem searchMap_eq (entries : List (κ × Str)) (key : κ) : searchMap entries key = searchEntries entries key := by
  have alike : ∀ f g : Int → Int, (∀ m, f m = g m) →
      (if bisect f entries.length 0 (entries.length - 1) ≥ 0 then
        (entries[(bisect f entries.length 0 (entries.length - 1)).toNat]?).map Prod.snd else none) =
      if bisect g entries.length 0 (entries.length - 1) ≥ 0 then
        (entries[(bisect g entries.length 0 (entries.length - 1)).toNat]?).map Prod.snd else none := by
    intro f g same
    rw [funext same]
  refine alike _ _ fun m => ?_
  cases entries[m.toNat]? <;> rfl

variable [Std.IsLinearOrder κ] [Std.LawfulOrderLT κ]

theorem searchEntries_sorted {β : Type} {entries : List (κ × β)} (sorted : entries.Pairwise fun a b => a.1 ≤ b.1) (key : κ) :
    ((searchEntries entries key).isSome = true ↔ ∃ e ∈ entries, e.1 = key) ∧
      ∀ group, searchEntries entries key = some group → (key, group) ∈ entries := by
  let probe := fun m : Int =>
    match entries[m.toNat]? with
    | some e => if e.1 = key then (0 : Int) else if e.1 < key then -1 else 1
    | none => 1
  have answers : ThreeWay probe := by
    intro m
    simp only [probe]
    split
    · split
      · exact .inr (.inl rfl)
      · split
        · exact .inl rfl
        · exact .inr (.inr rfl)
    · exact .inr (.inr rfl)
  have cell : ∀ (k : Nat) (inside : k < entries.length), probe k =
      if entries[k].1 = key then 0 else if entries[k].1 < key then -1 else 1 := by
    intro k inside
    simp only [probe, Int.toNat_natCast, List.getElem?_eq_getElem inside]
  have order : ∀ {i j : Nat} (less : i < j) (inside : j < entries.length), entries[i].1 ≤ entries[j].1 := by
    intro i j less inside
    exact List.pairwise_iff_getElem.mp sorted i j (by omega) inside less
  have sound : ∀ r, bisect probe entries.length 0 (entries.length - 1) = r → 0 ≤ r →
      ∃ group, entries[r.toNat]? = some (key, group) := by
    intro r same found
    have hit := bisect_sound probe entries.length 0 (entries.length - 1) (by omega) (by omega)
    rw [same] at hit
    have inside : r.toNat < entries.length := by omega
    have back : ((r.toNat : Nat) : Int) = r := by omega
    have zero := cell r.toNat inside
    rw [back, hit.2.2] at zero
    refine ⟨entries[r.toNat].2, ?_⟩
    rw [List.getElem?_eq_getElem inside]
    split at zero
    · rename_i equal
      rw [← equal]
    · split at zero <;> cases zero
  have complete : (∃ e ∈ entries, e.1 = key) → 0 ≤ bisect probe entries.length 0 (entries.length - 1) := by
    rintro ⟨e, member, equal⟩
    obtain ⟨k, inside, there⟩ := List.getElem_of_mem member
    have here : entries[k].1 = key := by rw [there, equal]
    refine bisect_of_hit (k := k) answers entries.length (by omega) (by omega) (by omega) (by omega)
      (by rw [cell k inside, if_pos here]) ?_ ?_
    · -- behind an entry with the key no entry has a smaller key
      intro i m low less high hit up
      have insideI : i.toNat < entries.length := by omega
      have insideM : m.toNat < entries.length := by omega
      have zero := cell i.toNat insideI
      have less' := cell m.toNat insideM
      rw [show ((i.toNat : Nat) : Int) = i by omega, hit] at zero
      rw [show ((m.toNat : Nat) : Int) = m by omega, up] at less'
      have equal : entries[i.toNat].1 = key := by
        by_contra other
        rw [if_neg other] at zero
        split at zero <;> cases zero
      split at less'
      · cases less'
      · split at less'
        · rename_i smaller
          have up := order (i := i.toNat) (j := m.toNat) (by omega) insideM
          rw [equal] at up
          exact Std.not_le.mpr smaller up
        · cases less'
    · intro m low less down
      have insideM : m.toNat < entries.length := by omega
      have more := cell m.toNat insideM
      rw [show ((m.toNat : Nat) : Int) = m by omega, down] at more
      have up := order (i := m.toNat) (j := k) (by omega) inside
      rw [here] at up
      split at more
      · cases more
      · rename_i other
        split at more
        · cases more
        · rename_i notSmaller
          exact other (Std.le_antisymm up (Std.not_lt.mp notSmaller))
  have unfolded : searchEntries entries key =
      if bisect probe entries.length 0 (entries.length - 1) ≥ 0 then
        (entries[(bisect probe entries.length 0 (entries.length - 1)).toNat]?).map Prod.snd
      else none := rfl
  rw [unfolded]
  by_cases found : bisect probe entries.length 0 (entries.length - 1) ≥ 0
  · obtain ⟨group, place⟩ := sound _ rfl found
    rw [if_pos found, place]
    have member := List.mem_of_getElem? place
    refine ⟨iff_of_true rfl ⟨_, member, rfl⟩, ?_⟩
    intro other same
    rw [← Option.some.inj same]
    exact member
  · rw [if_neg found]
    refine ⟨iff_of_false Bool.false_ne_true fun there => found (complete there), ?_⟩
    intro group same
    cases same

theorem searchMap_sorted {entries : List (κ × Str)} (sorted : entries.Pairwise fun a b => a.1 ≤ b.1) (key : κ) :
    ((searchMap entries key).isSome = true ↔ ∃ e ∈ entries, e.1 = key) ∧
      ∀ group, searchMap entries key = some group → (key, group) ∈ entries := by
  rw [searchMap_eq]
  exact searchEntries_sorted sorted key

end Maps

theorem insertionSort_sorted {κ β : Type} [LE κ] [DecidableLE κ] [Std.IsLinearOrder κ] (entries : List (κ × β)) :
    (entries.insertionSort fun a b => a.1 ≤ b.1).Pairwise fun a b => a.1 ≤ b.1 := by
  have total : Std.Total fun a b : κ × β => a.1 ≤ b.1 := ⟨fun a b => Std.le_total⟩
  have trans : IsTrans (κ × β) fun a b => a.1 ≤ b.1 := ⟨fun a b c first second => Std.le_trans first second⟩
  exact List.pairwise_insertionSort _ entries

/-- A search of a map finds an entry with the key exactly when there is one, and looks at entries only. -/
def MapExact {κ : Type} [DecidableEq κ] [LT κ] [DecidableLT κ] (sorted entries : List (κ × Str)) : Prop :=
  ∀ key : κ, ((searchMap sorted key).isSome = true ↔ ∃ e ∈ entries, e.1 = key) ∧
    (∀ group, searchMap sorted key = some group → (key, group) ∈ entries) ∧
    ∀ m ∈ mapVisits sorted key, 0 ≤ m ∧ m < sorted.length

theorem mapExact_sorted {κ : Type} [DecidableEq κ] [LE κ] [LT κ] [DecidableLT κ] [DecidableLE κ] [Std.IsLinearOrder κ]
    [Std.LawfulOrderLT κ] (entries : List (κ × Str)) : MapExact (entries.insertionSort fun a b => a.1 ≤ b.1) entries := by
  intro key
  have perm := List.perm_insertionSort (fun a b : κ × Str => a.1 ≤ b.1) entries
  obtain ⟨some_, group⟩ := searchMap_sorted (insertionSort_sorted entries) key
  refine ⟨?_, fun g found => perm.mem_iff.mp (group g found), ?_⟩
  · simpa only [perm.mem_iff] using some_
  · intro m looked
    have inside := visits_inside _ _ _ _ m looked
    omega

/-- The searches for a whole item, key or address after doSort: they find what is there and nothing else, and never
leave the vector. -/
theorem whole_search_exact (kind : Kind) (startsWith : Bool) (k : Contents) (fresh : k.issorted = false) :
    (kind.isip = false → kind.ismap = false → ∀ p,
      (p ∈ k.items → Found (fullMatch startsWith) (sortOwn kind startsWith k).items p) ∧
      (p ∉ k.items → search (fullMatch startsWith) (sortOwn kind startsWith k).items p < 0) ∧
      ∀ m ∈ searchVisits (fullMatch startsWith) (sortOwn kind startsWith k).items p,
        0 ≤ m ∧ m < (sortOwn kind startsWith k).items.length) ∧
    (kind.isip = true → kind.ismap = true → MapExact (sortOwn kind startsWith k).ipmaplist k.ipmaplist) ∧
    (kind.isip = false → kind.ismap = true → MapExact (sortOwn kind startsWith k).datamaplist k.datamaplist) := by
  refine ⟨?_, ?_, ?_⟩
  · intro noIp noMap p
    have items : (sortOwn kind startsWith k).items = sortItems startsWith k.items := by
      rw [sortOwn, if_neg (by simp [noIp]), if_neg (by simp [noMap])]
      split
      · rename_i short
        exact (sortItems_short startsWith (short.resolve_right (by simp [fresh]))).symm
      · rfl
    rw [items]
    have exact_ := search_whole startsWith (sortItems_descending startsWith k.items) p
    simp only [(sortItems_perm startsWith k.items).mem_iff] at exact_
    refine ⟨exact_.1, exact_.2, ?_⟩
    intro m looked
    have inside := visits_inside _ _ _ _ m looked
    omega
  · intro ip map
    rw [sortOwn, if_pos ip, if_pos map]
    exact mapExact_sorted k.ipmaplist
  · intro noIp map
    rw [sortOwn, if_neg (by simp [noIp]), if_pos map]
    exact mapExact_sorted k.datamaplist

theorem sites_searched : str "b.org" ∈ [str "a.com", str "b.org"] ∧
    Found greaterThanEWF (sortOwn ⟨false, false, false⟩ false { Contents.empty with items := [str "a.com", str "b.org"] }).items
      (str "b.org") :=
  have member : str "b.org" ∈ [str "a.com", str "b.org"] := List.mem_cons_of_mem _ List.mem_cons_self
  ⟨member, ((whole_search_exact ⟨false, false, false⟩ false { Contents.empty with items := [str "a.com", str "b.org"] } rfl).1
    rfl rfl (str "b.org")).1 member⟩

end GuardianExactSearch
