import E2Guardian.ItemList

/- ListMeta::inURLList: normalisation of the URL and the walk over its parent domains, on
   top of the prefix lookup of item lists. -/
namespace GuardianUrlList
open GuardianString GuardianTime GuardianItemList PrefixSearch

def resolve (urlp : Str) : Str :=
  if contains urlp (str "/") then
    before urlp (str "/") ++ realPath (hexDecode (str "/" ++ after urlp (str "/")))
  else urlp

def normalise (urlp : Str) : Str :=
  if endsWith (resolve urlp) (str "/") then chop (resolve urlp) else resolve urlp

def inURLListLoop (now : Clock) (list : ItemList) (site_wild : Bool) :
    Nat → Str → Option (Str × Str)
  | 0, _ => none
  | fuel + 1, url =>
    let next := if site_wild then inURLListLoop now list site_wild fuel (after url (str "."))
      else none
    if contains (before url (str "/")) (str ".") then
      match findStartsWith now list (cstr url) with
      | some (i, lc) =>
        let fl := i.length
        if url.length > fl then
          -- matches /blah/ or /blah/foo but not /blahfoo
          if isSeparator (url.getD fl 0) then some (i, lc) else next
        else some (i, lc)
      | none => next
    else none

def inURLList (now : Clock) (list : ItemList) (urlp : Str) (site_wild : Bool) :
    Option (Str × Str) :=
  inURLListLoop now list site_wild ((normalise urlp).length + 1) (normalise urlp)

inductive HostTail : Str → Str → Prop where
  | whole (url : Str) : HostTail url url
  | strip {url v : Str} (dot : contains (before url (str "/")) (str ".") = true)
      (rest : HostTail (after url (str ".")) v) : HostTail url v

/-- The forms of the URL that are looked up: the host still has a dot. -/
def LookedUp (urlp v : Str) : Prop :=
  HostTail (normalise urlp) v ∧ contains (before v (str "/")) (str ".") = true

/-- The C string of the normalised URL goes on after its first slash. -/
def HasPath (urlp : Str) : Prop := after (cstr (normalise urlp)) (str "/") ≠ []

instance (urlp : Str) : Decidable (HasPath urlp) := inferInstanceAs (Decidable (_ ≠ _))

theorem hexDecode_slash (t : Str) : hexDecode (str "/" ++ t) = ch '/' :: hexDecode t := by
  have notPercent : ¬ ch '/' = ch '%' := by decide
  match t with
  | [] => rfl
  | [a] => rfl
  | a :: b :: t =>
    change hexDecode (ch '/' :: a :: b :: t) = _
    rw [hexDecode, if_neg (by simp [notPercent])]

theorem realPath_nul_free {s : Str} (long : 3 ≤ s.length) : 0 ∉ realPath s := by
  rw [realPath, if_neg (by omega)]
  exact cstr_nul_free _

theorem after_eq_nil_of_not_mem {s : Str} {c : UInt8} (absent : c ∉ s) : after s [c] = [] := by
  unfold after
  rw [find_byte, if_neg absent]

theorem normalise_isPrefix (urlp : Str) : normalise urlp <+: resolve urlp := by
  unfold normalise
  split
  · exact List.dropLast_prefix _
  · exact List.prefix_rfl

theorem not_mem_before (s : Str) (c : UInt8) : c ∉ before s [c] := by
  rw [before_byte]
  split
  · intro member
    simpa using List.mem_takeWhile_imp member
  · simp

theorem resolve_of_slash {urlp : Str} (has : contains urlp (str "/") = true) :
    resolve urlp = before urlp (str "/") ++ realPath (ch '/' :: hexDecode (after urlp (str "/"))) := by
  rw [resolve, if_pos has, hexDecode_slash]

/-- A path of a NUL alone is no path. -/
theorem no_path_of_nul {urlp : Str} (host : 0 ∉ before urlp (str "/"))
    (parts : resolve urlp = before urlp (str "/") ++ [ch '/', 0]) : ¬ HasPath urlp := by
  have last : endsWith (resolve urlp) (str "/") = false := by
    rw [parts, endsWith, ← Bool.not_eq_true, List.isSuffixOf_iff_suffix]
    rintro ⟨t, ends⟩
    have lasts := congrArg List.getLast? ends
    simp only [show str "/" = [ch '/'] from rfl, List.getLast?_append, List.getLast?_singleton,
      List.getLast?_cons_cons, Option.some_or] at lasts
    exact absurd lasts (by decide)
  have keep : normalise urlp = before urlp (str "/") ++ [ch '/', 0] := by
    rw [normalise, if_neg (by simp [last]), parts]
  have hostClean : ∀ b ∈ before urlp (str "/"), (b != ch '/') = true := by
    intro b member
    simp only [bne_iff_ne, ne_eq]
    rintro rfl
    exact not_mem_before urlp (ch '/') member
  intro path
  apply path
  rw [keep, cstr_append host, show cstr [ch '/', 0] = [ch '/'] from by decide]
  change after _ [ch '/'] = []
  rw [after_byte, List.dropWhile_append_of_pos hostClean]
  rfl

/-- A NUL byte can only stand in the normalised URL where it cuts off the path. -/
theorem normalise_nul_free {urlp : Str} (path : HasPath urlp) : 0 ∉ normalise urlp := by
  intro nul
  have slash : ch '/' ∈ cstr (normalise urlp) := by
    by_contra absent
    exact path (after_eq_nil_of_not_mem absent)
  have seen : cstr (normalise urlp) <+: resolve urlp :=
    (cstr_isPrefix _).trans (normalise_isPrefix urlp)
  have has : contains urlp (str "/") = true := by
    by_contra none_
    have plain : resolve urlp = urlp := by rw [resolve, if_neg none_]
    exact none_ ((contains_byte_iff _ _).mpr (plain ▸ seen.subset slash))
  have parts := resolve_of_slash has
  -- The C string reaches the slash, so the host in front of it has no NUL.
  have host : 0 ∉ before urlp (str "/") := by
    rcases List.prefix_or_prefix_of_prefix seen (parts ▸ List.prefix_append _ _) with short | long
    · exact absurd (short.subset slash) (not_mem_before urlp _)
    · exact fun h => cstr_nul_free _ (long.subset h)
  have later : 0 ∈ realPath (ch '/' :: hexDecode (after urlp (str "/"))) := by
    have inside := (normalise_isPrefix urlp).subset nul
    rw [parts] at inside
    exact (List.mem_append.mp inside).resolve_left host
  -- Only a path too short for realPath keeps a NUL: a slash and the NUL itself.
  match tail : hexDecode (after urlp (str "/")) with
  | [] =>
    rw [tail] at later
    exact absurd later (by decide)
  | [c] =>
    rw [tail, realPath, if_pos (by simp)] at later parts
    have zero : c = 0 := by
      have := List.mem_cons.mp later
      simpa [show ¬ (0 : UInt8) = ch '/' from by decide, eq_comm] using this
    exact no_path_of_nul host (zero ▸ parts) path
  | c :: d :: t =>
    rw [tail] at later
    exact realPath_nul_free (by simp) later

theorem contains_of_before {url a b : Str} (h : contains (before url a) b = true) :
    contains url b = true := by
  rw [contains_iff_occurs] at h ⊢
  exact h.trans (before_isPrefix url a).isInfix

theorem separator_after_found {url x : Str} (hit : Ends isSeparator url x)
    (longer : url.length > x.length) : isSeparator (url.getD x.length 0) = true := by
  apply hit.2
  rw [List.head?_drop, List.getElem?_eq_getElem longer, List.getD_eq_getElem?_getD,
    List.getElem?_eq_getElem longer]
  rfl

theorem findStartsWith_ends {now : Clock} {list : ItemList} {url : Str} {rc : Str × Str}
    (found : findStartsWith now list url = some rc) : Ends isSeparator url rc.1 := by
  obtain ⟨items, _, positive, same⟩ := findWith_sound greaterThanSW now url list rc found
  rw [search_startsWith_eq] at positive same
  rw [same]
  exact (searchWords_sound charKey charKey_injective isSeparator positive).2

/-- With a NUL-free URL and fuel to strip every label, the loop succeeds exactly when the
    prefix lookup does for one of the forms looked up. -/
theorem inURLListLoop_isSome_iff (now : Clock) (list : ItemList) (fuel : Nat) :
    ∀ url : Str, 0 ∉ url → url.length < fuel →
      ((inURLListLoop now list true fuel url).isSome = true ↔
        ∃ v, HostTail url v ∧ contains (before v (str "/")) (str ".") = true ∧
          (findStartsWith now list v).isSome = true) := by
  induction fuel with
  | zero => intro url _ budget; omega
  | succ fuel ih =>
    intro url clean budget
    simp only [inURLListLoop, ↓reduceIte, cstr_of_nul_free clean]
    by_cases dot : contains (before url (str "/")) (str ".") = true
    · have shorter := after_length_lt (contains_of_before dot) (by decide)
      have tail := ih (after url (str ".")) (fun h => clean ((after_suffix _ _).subset h)) (by omega)
      rw [if_pos dot]
      cases found : findStartsWith now list url with
      | some rc =>
        have hit := findStartsWith_ends found
        have here : ∃ v, HostTail url v ∧ contains (before v (str "/")) (str ".") = true ∧
            (findStartsWith now list v).isSome = true := ⟨url, .whole url, dot, by simp [found]⟩
        simp only [here, iff_true]
        split
        · rename_i longer
          rw [if_pos (separator_after_found hit longer)]
          rfl
        · rfl
      | none =>
        rw [tail]
        constructor
        · rintro ⟨v, below, rest⟩
          exact ⟨v, .strip dot below, rest⟩
        · rintro ⟨v, below, rest⟩
          cases below with
          | whole => simp [found] at rest
          | strip _ lower => exact ⟨v, lower, rest⟩
    · rw [if_neg dot]
      simp only [Option.isSome_none, Bool.false_eq_true, false_iff]
      rintro ⟨v, below, rest⟩
      cases below with
      | whole => exact dot rest.1
      | strip dot' _ => exact dot dot'

/-- The list has an item, at some place of its sorted order, that matches the URL and that no
    item met by the binary search on its way there shadows: none of them is a longer item
    beginning with it that compares below the URL. -/
def StartsWithUnshadowed (items : List Str) (v : Str) : Prop :=
  ∃ k, Unshadowed charKey isSeparator (sortItems true items) v k

theorem findStartsWith_isSome_iff (now : Clock) {t : ItemList} (fresh : Unsorted t) (v : Str) :
    (findStartsWith now (doSort true t) v).isSome = true ↔
      ∃ items ∈ liveLists now t, StartsWithUnshadowed items v := by
  have sorted : ∀ items, Descending charKey (sortItems true items) := by
    intro items
    have sorted := sortDescending_descending charKey id items
    rwa [List.map_id] at sorted
  rw [findStartsWith, findWith_isSome_iff, doSort_liveLists now true t fresh]
  simp only [List.mem_map, exists_exists_and_eq_and, search_startsWith_eq]
  simp only [searchWords_succeeds_iff charKey charKey_injective isSeparator (sorted _) v,
    StartsWithUnshadowed]

/-- Some item within reach is a prefix of the URL, or of the URL with leading labels removed,
    that ends with it or just before a separator. -/
def UrlMatch (now : Clock) (t : ItemList) (urlp : Str) : Prop :=
  ∃ v, LookedUp urlp v ∧ ∃ items ∈ liveLists now t, ∃ x ∈ items, Ends isSeparator v x

theorem startsWithUnshadowed_match {items : List Str} {v : Str}
    (h : StartsWithUnshadowed items v) : ∃ x ∈ items, Ends isSeparator v x := by
  obtain ⟨k, bound, hit, _⟩ := h
  rw [List.getD_eq_getElem?_getD, List.getElem?_eq_getElem bound] at hit
  exact ⟨_, (sortItems_perm true items).mem_iff.mp (List.getElem_mem bound), hit⟩

/-- A lookup of the URL with wildcards reports a match exactly when there is one. -/
def UrlListExact (now : Clock) (t : ItemList) (urlp : Str) : Prop :=
  (inURLList now (doSort true t) urlp true).isSome = true ↔ UrlMatch now t urlp

/-- The URL lookup is exact unless every matching item, for every form of the URL looked up,
    is shadowed in its own list. -/
theorem url_list_exact_iff_unshadowed (now : Clock) (t : ItemList) (fresh : Unsorted t)
    (urlp : Str) (path : HasPath urlp) :
    UrlListExact now t urlp ↔
      (UrlMatch now t urlp → ∃ v, LookedUp urlp v ∧
        ∃ items ∈ liveLists now t, StartsWithUnshadowed items v) := by
  have found : (inURLList now (doSort true t) urlp true).isSome = true ↔
      ∃ v, LookedUp urlp v ∧ ∃ items ∈ liveLists now t, StartsWithUnshadowed items v := by
    rw [inURLList, inURLListLoop_isSome_iff now _ _ _ (normalise_nul_free path) (by omega)]
    simp only [findStartsWith_isSome_iff now fresh, LookedUp, and_assoc]
  have sound : (∃ v, LookedUp urlp v ∧
      ∃ items ∈ liveLists now t, StartsWithUnshadowed items v) → UrlMatch now t urlp := by
    rintro ⟨v, lookedUp, items, live, clear_⟩
    exact ⟨v, lookedUp, items, live, startsWithUnshadowed_match clear_⟩
  rw [UrlListExact, found]
  exact ⟨fun exact_ some_match => exact_.mpr some_match, fun complete => ⟨sound, complete⟩⟩

def siteAndFolder : ItemList :=
  .node [str "a.com", str "a.com/foo"] none [] false false []

theorem lookedUp_parent_domain : LookedUp (str "www.a.com/bar") (str "a.com/bar") := by
  have url : normalise (str "www.a.com/bar") = str "www.a.com/bar" := by decide +kernel
  have parent : after (str "www.a.com/bar") (str ".") = str "a.com/bar" := by decide
  refine ⟨?_, by decide⟩
  rw [url]
  exact .strip (by decide) (parent ▸ .whole _)

theorem url_list_exact_folder :
    (Unsorted siteAndFolder ∧ HasPath (str "www.a.com/bar")) ∧
      UrlListExact noon siteAndFolder (str "www.a.com/bar") :=
  ⟨⟨⟨rfl, trivial⟩, by decide +kernel⟩,
    (url_list_exact_iff_unshadowed noon siteAndFolder ⟨rfl, trivial⟩ (str "www.a.com/bar")
      (by decide +kernel)).mpr fun _ =>
        ⟨str "a.com/bar", lookedUp_parent_domain,
          [str "a.com", str "a.com/foo"], by decide +kernel, 1, by decide +kernel⟩⟩

/-- The banned folder a.com/foo hides the banned site a.com from the URL a.com/foobar. -/
theorem url_list_misses_site :
    HasPath (str "a.com/foobar") ∧ ¬ UrlListExact noon siteAndFolder (str "a.com/foobar") := by
  refine ⟨by decide +kernel, fun exact_ => ?_⟩
  have miss : (inURLList noon (doSort true siteAndFolder) (str "a.com/foobar") true).isSome =
      false := by decide +kernel
  have url : normalise (str "a.com/foobar") = str "a.com/foobar" := by decide +kernel
  have some_match : UrlMatch noon siteAndFolder (str "a.com/foobar") :=
    ⟨str "a.com/foobar", ⟨by rw [url]; exact .whole _, by decide +kernel⟩,
      [str "a.com", str "a.com/foo"], by decide, str "a.com", by decide,
      by decide⟩
  rw [exact_.mpr some_match] at miss
  exact Bool.noConfusion miss

end GuardianUrlList
