import E2Guardian.ExactSearch

/- ListMeta::inSiteList: the lookup of a host, of its parent domains and of its top level domain. -/
namespace GuardianSiteList
open GuardianString GuardianTime GuardianItemList GuardianExactSearch PrefixSearch

/-- The loop over the host and its parent domains: what was found, else what is left of the host. -/
def inSiteListLoop (now : Clock) (list : ItemList) : Nat → Str → Option (Str × Str) × Str
  | 0, url => (none, url)
  | fuel + 1, url =>
    if contains url (str ".") then
      match findInList now list (cstr url) with
      | some i => (some i, url)
      | none => inSiteListLoop now list fuel (after url (str ".")) -- higher level domains
    else (none, url)

def inSiteList (now : Clock) (list : ItemList) (urlp : Str) (site_wild : Bool) : Option (Str × Str) :=
  let r := if site_wild then inSiteListLoop now list urlp.length urlp else (none, urlp)
  match r with
  | (some i, _) => some i
  | (none, url) =>
    -- allows matching of .tld
    let url := if contains url (str ".") = false ∧ url.length > 1 then str "." ++ url else url
    if url.length > 2 then findInList now list (cstr url) else none

/- The lookup of a whole item. -/
mutual

theorem findInList_isSome_iff (now : Clock) (startsWith : Bool) (q : Str) :
    ∀ t, Unsorted t → ((findInList now (doSort startsWith t) q).isSome = true ↔ ∃ items ∈ liveLists now t, q ∈ items)
  | .node items limit category isSW issorted morelists, fresh => by
    have more := findInListMore_isSome_iff now startsWith q morelists fresh.2
    have exact_ : ∀ (order : Bool) (sorted : List Str), sorted.Perm items →
        Descending charKey (sorted.map (if order then id else List.reverse)) →
        ((findWith (fun isSW => if isSW then greaterThanSWF else greaterThanEWF) now q
          (.node sorted limit category order issorted (doSortAll startsWith morelists))).isSome = true ↔
            ∃ found ∈ liveLists now (.node items limit category isSW issorted morelists), q ∈ found) := by
      intro order sorted perm descending
      have whole := search_whole order descending q
      rw [fullMatch] at whole
      simp only [findWith, liveLists]
      split
      · simp only [List.mem_cons, exists_eq_or_imp, ← more]
        by_cases member : q ∈ sorted
        · have found := whole.1 member
          rw [if_pos ⟨List.length_pos_of_mem member, found.1⟩]
          exact iff_of_true rfl (.inl (perm.mem_iff.mp member))
        · have missed := whole.2 member
          rw [if_neg fun found => absurd found.2 (by omega), or_iff_right (mt perm.mem_iff.mpr member)]
      · simp
    rw [findInList, doSort]
    split
    · rename_i short
      exact exact_ isSW items (.refl _) (short_descending isSW (short.resolve_right (by simp [fresh.1])))
    · exact exact_ startsWith (sortItems startsWith items) (sortItems_perm startsWith items)
        (sortItems_descending startsWith items)

theorem findInListMore_isSome_iff (now : Clock) (startsWith : Bool) (q : Str) :
    ∀ ts, UnsortedMore ts → ((findWithMore (fun isSW => if isSW then greaterThanSWF else greaterThanEWF) now q
        (doSortAll startsWith ts)).isSome = true ↔ ∃ items ∈ liveListsMore now ts, q ∈ items)
  | [], _ => by simp [findWithMore, doSortAll, liveListsMore]
  | t :: ts, fresh => by
    have head := findInList_isSome_iff now startsWith q t fresh.1
    have tail := findInListMore_isSome_iff now startsWith q ts fresh.2
    rw [findInList] at head
    simp only [findWithMore, doSortAll, liveListsMore, List.mem_append, or_and_right, exists_or]
    rw [← head, ← tail]
    cases findWith (fun isSW => if isSW then greaterThanSWF else greaterThanEWF) now q (doSort startsWith t) <;> simp

end

/- A host name as its labels. -/
def hostName (labels : List Str) : Str := [ch '.'].intercalate labels

theorem hostName_cons (l m : Str) (rest : List Str) : hostName (l :: m :: rest) = l ++ ch '.' :: hostName (m :: rest) := by
  rw [hostName, List.intercalate_cons_cons]
  exact List.append_assoc l [ch '.'] _

theorem hostName_single (l : Str) : hostName [l] = l := List.intercalate_singleton

theorem after_label {l : Str} (dotless : ch '.' ∉ l) (rest : Str) : after (l ++ ch '.' :: rest) (str ".") = rest := by
  have body : ∀ b ∈ l, (b != ch '.') = true := by
    intro b member
    have other : b ≠ ch '.' := fun same => dotless (same ▸ member)
    simp [other]
  rw [show str "." = [ch '.'] from rfl, after_byte, List.dropWhile_append_of_pos body, List.dropWhile_cons_of_neg (by simp)]
  rfl

theorem mem_hostName {b : UInt8} {labels : List Str} (member : b ∈ hostName labels) : b = ch '.' ∨ ∃ l ∈ labels, b ∈ l := by
  induction labels with
  | nil => cases member
  | cons l rest ih =>
    cases rest with
    | nil =>
      rw [hostName_single] at member
      exact .inr ⟨l, List.mem_cons_self, member⟩
    | cons m rest =>
      rw [hostName_cons] at member
      rcases List.mem_append.mp member with here | later
      · exact .inr ⟨l, List.mem_cons_self, here⟩
      · rcases List.mem_cons.mp later with dot | below
        · exact .inl dot
        · rcases ih below with dot | ⟨k, listed, inside⟩
          · exact .inl dot
          · exact .inr ⟨k, List.mem_cons_of_mem _ listed, inside⟩

/-- The labels of a host name: they have neither dots nor NULs. -/
def Labels (labels : List Str) : Prop := ∀ l ∈ labels, ch '.' ∉ l ∧ 0 ∉ l

theorem Labels.nul_free {labels : List Str} (ok : Labels labels) : 0 ∉ hostName labels := by
  intro member
  rcases mem_hostName member with dot | ⟨l, listed, inside⟩
  · exact absurd dot (by decide)
  · exact (ok l listed).2 inside

theorem Labels.tail {l : Str} {labels : List Str} (ok : Labels (l :: labels)) : Labels labels := fun k member =>
  ok k (List.mem_cons_of_mem _ member)

/-- The loop finds what one of the domains with a dot finds, and otherwise leaves the last label. -/
theorem inSiteListLoop_iff (now : Clock) (list : ItemList) (labels : List Str) (ok : Labels labels) (some_ : labels ≠ [])
    (fuel : Nat) (enough : (hostName labels).length ≤ fuel) :
    ((inSiteListLoop now list fuel (hostName labels)).1.isSome = true ↔
      ∃ n, n + 2 ≤ labels.length ∧ (findInList now list (hostName (labels.drop n))).isSome = true) ∧
    ((inSiteListLoop now list fuel (hostName labels)).1 = none →
      (inSiteListLoop now list fuel (hostName labels)).2 = labels.getLast some_) := by
  induction labels generalizing fuel with
  | nil => exact absurd rfl some_
  | cons l rest ih =>
    cases rest with
    | nil =>
      have single : contains l (str ".") = false := by
        rw [Bool.eq_false_iff]
        exact fun dot => (ok l List.mem_cons_self).1 ((contains_byte_iff l (ch '.')).mp dot)
      have stop : inSiteListLoop now list fuel (hostName [l]) = (none, l) := by
        rw [hostName_single]
        cases fuel with
        | zero => rfl
        | succ fuel => rw [inSiteListLoop, single, if_neg Bool.false_ne_true]
      rw [stop]
      refine ⟨iff_of_false Bool.false_ne_true ?_, fun _ => rfl⟩
      rintro ⟨n, bound, -⟩
      rw [List.length_singleton] at bound
      omega
    | cons m rest =>
      have dot : contains (hostName (l :: m :: rest)) (str ".") = true := by
        rw [show str "." = [ch '.'] from rfl, contains_byte_iff, hostName_cons]
        simp
      have next := after_label (ok l List.mem_cons_self).1 (hostName (m :: rest))
      rw [← hostName_cons] at next
      have whole := cstr_of_nul_free ok.nul_free
      have room : ∃ fuel', fuel = fuel' + 1 ∧ (hostName (m :: rest)).length ≤ fuel' := by
        rw [hostName_cons, List.length_append, List.length_cons] at enough
        exact ⟨fuel - 1, by omega, by omega⟩
      obtain ⟨fuel, rfl, room⟩ := room
      have below := ih ok.tail (List.cons_ne_nil _ _) fuel room
      rw [inSiteListLoop, if_pos dot, whole, next]
      cases found : findInList now list (hostName (l :: m :: rest)) with
      | some i =>
        refine ⟨iff_of_true rfl ⟨0, by simp, by rw [List.drop_zero, found]; rfl⟩, ?_⟩
        intro none_
        cases none_
      | none =>
        refine ⟨below.1.trans ?_, below.2⟩
        constructor
        · rintro ⟨n, bound, here⟩
          exact ⟨n + 1, by simpa using bound, here⟩
        · rintro ⟨n, bound, here⟩
          cases n with
          | zero =>
            rw [List.drop_zero, found] at here
            cases here
          | succ n => exact ⟨n, by simpa using bound, here⟩

theorem inSiteList_isSome_iff (now : Clock) (list : ItemList) {labels : List Str} (ok : Labels labels) (some_ : labels ≠ []) :
    (inSiteList now list (hostName labels) true).isSome = true ↔
      (∃ n, n + 2 ≤ labels.length ∧ (findInList now list (hostName (labels.drop n))).isSome = true) ∨
        (2 ≤ (labels.getLast some_).length ∧ (findInList now list (ch '.' :: labels.getLast some_)).isSome = true) := by
  obtain ⟨loop, left⟩ := inSiteListLoop_iff now list labels ok some_ _ (le_refl _)
  obtain ⟨dotless, nulFree⟩ := ok _ (List.getLast_mem some_)
  have single : contains (labels.getLast some_) (str ".") = false := by
    rw [Bool.eq_false_iff]
    exact fun dot => dotless ((contains_byte_iff _ (ch '.')).mp dot)
  unfold inSiteList
  dsimp only
  rw [if_pos rfl, ← loop]
  cases run : inSiteListLoop now list (hostName labels).length (hostName labels) with
  | mk found url =>
    cases found with
    | some i => simp
    | none =>
      rw [run] at left
      obtain rfl : url = labels.getLast some_ := left rfl
      simp only [single, true_and, Option.isSome_none, Bool.false_eq_true, false_or]
      by_cases long : 2 ≤ (labels.getLast some_).length
      · have whole : cstr (ch '.' :: labels.getLast some_) = ch '.' :: labels.getLast some_ := by
          refine cstr_of_nul_free ?_
          rw [List.mem_cons, not_or]
          exact ⟨by decide, nulFree⟩
        have top : str "." ++ labels.getLast some_ = ch '.' :: labels.getLast some_ := rfl
        have longer : (ch '.' :: labels.getLast some_).length > 2 := by
          rw [List.length_cons]
          omega
        have more : (labels.getLast some_).length > 1 := by omega
        rw [if_pos more, top, if_pos longer, whole]
        exact (and_iff_right long).symm
      · have short : ¬ (labels.getLast some_).length > 1 := by omega
        have shorter : ¬ (labels.getLast some_).length > 2 := by omega
        rw [if_neg short, if_neg shorter]
        simp [long]

/-- An item that should match the host: the host, one of its parent domains with a dot, or its top level domain. -/
def Matches (labels : List Str) (x : Str) : Prop :=
  (∃ n, n + 2 ≤ labels.length ∧ x = hostName (labels.drop n)) ∨
    ∃ last ∈ labels.getLast?, 2 ≤ last.length ∧ x = ch '.' :: last

/-- A host with two labels or more is found exactly when an item of the list matches it, or of the lists it includes, each
while it is in time. -/
theorem site_found_iff (now : Clock) (startsWith : Bool) (t : ItemList) (fresh : Unsorted t) (labels : List Str)
    (two : 2 ≤ labels.length) (ok : Labels labels) :
    (inSiteList now (doSort startsWith t) (hostName labels) true).isSome = true ↔
      ∃ items ∈ liveLists now t, ∃ x ∈ items, Matches labels x := by
  have some_ : labels ≠ [] := by
    rintro rfl
    cases two
  simp only [inSiteList_isSome_iff now _ ok some_, findInList_isSome_iff now startsWith _ t fresh, Matches,
    List.getLast?_eq_some_getLast some_, Option.mem_def, Option.some.injEq, exists_eq_left']
  constructor
  · rintro (⟨n, bound, items, live, member⟩ | ⟨long, items, live, member⟩)
    · exact ⟨items, live, _, member, .inl ⟨n, bound, rfl⟩⟩
    · exact ⟨items, live, _, member, .inr ⟨long, rfl⟩⟩
  · rintro ⟨items, live, x, member, ⟨n, bound, rfl⟩ | ⟨long, rfl⟩⟩
    · exact .inl ⟨n, bound, items, live, member⟩
    · exact .inr ⟨long, items, live, member⟩

def siteList : ItemList := .node [str "example.org", str ".com"] none [] false false []

theorem parent_domain_found :
    (inSiteList noon (doSort false siteList) (hostName [str "www", str "example", str "org"]) true).isSome = true :=
  (site_found_iff noon false siteList ⟨rfl, trivial⟩ [str "www", str "example", str "org"] (by decide)
    (by unfold Labels; decide)).mpr ⟨_, List.mem_cons_self, _, List.mem_cons_self, .inl ⟨1, by decide, by decide⟩⟩

/-- The items of a list, in time or not, and of its includes that are in time. -/
def listedItems (now : Clock) : ItemList → List (List Str)
  | .node items _ _ _ _ morelists => items :: liveListsMore now morelists

def tuesdayList : ItemList := .node [str "example.org"] (some ⟨0, 0, 23, 59, str "1", str "0 0 23 59 1"⟩) [] false false []

theorem not_found_out_of_time : ¬ ∀ (now : Clock) (startsWith : Bool) (t : ItemList) (labels : List Str), Unsorted t →
    2 ≤ labels.length → Labels labels →
    ((inSiteList now (doSort startsWith t) (hostName labels) true).isSome = true ↔
      ∃ items ∈ listedItems now t, ∃ x ∈ items, Matches labels x) := by
  intro always
  have found := (always noon false tuesdayList [str "example", str "org"] ⟨rfl, trivial⟩ (by decide)
    (by unfold Labels; decide)).mpr ⟨_, List.mem_cons_self, _, List.mem_cons_self, .inl ⟨0, by decide, by decide⟩⟩
  have nothing : (inSiteList noon (doSort false tuesdayList) (hostName [str "example", str "org"]) true).isSome = false := by
    decide
  rw [nothing] at found
  cases found

end GuardianSiteList
