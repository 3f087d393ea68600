import E2Guardian.IpGroups

/- The IP authentication plugin and the IP map list, asked for the same address: both take the first single
   address, then the first subnet, then the first range, and so they give the same answer as far as the lines
   of the file are the same to them. -/
namespace GuardianTwoReaders
open GuardianString GuardianItemFile GuardianStoryRun GuardianExactSearch GuardianGatewaySpecs GuardianIpLists
open GuardianGroupLabels GuardianIpGroups GuardianTime

/- The first entry for an address. -/

inductive Breadth where
  | single
  | subnet
  | range
  deriving DecidableEq, Repr

def coversAs (w : Breadth) (ip : UInt32) (a : Address) : Bool :=
  match w, a with
  | .single, .single addr => addr == ip
  | .subnet, .subnet addr mask => addr &&& mask == ip &&& mask
  | .range, .range startaddr endaddr => decide (startaddr ≤ ip) && decide (ip ≤ endaddr)
  | _, _ => false

theorem covers_iff (ip : UInt32) (a : Address) : (∃ w, coversAs w ip a = true) ↔ holds ip a := by
  constructor
  · rintro ⟨w, covers⟩
    cases w <;> cases a <;> simp_all [coversAs, holds]
  · intro held
    cases a with
    | single addr => exact ⟨.single, by simpa [coversAs, holds] using held⟩
    | subnet addr mask => exact ⟨.subnet, beq_iff_eq.mpr held.symm⟩
    | range startaddr endaddr => exact ⟨.range, by simpa [coversAs, holds] using held⟩

section First
variable {α : Type}

def firstOf (w : Breadth) (ip : UInt32) (es : List (Address × α)) : Option α :=
  (es.find? fun e => coversAs w ip e.1).map Prod.snd

def answer (ip : UInt32) (es : List (Address × α)) : Option α :=
  (firstOf .single ip es).or ((firstOf .subnet ip es).or (firstOf .range ip es))

theorem firstOf_cons (w : Breadth) (ip : UInt32) (e : Address × α) (es : List (Address × α)) :
    firstOf w ip (e :: es) = if coversAs w ip e.1 then some e.2 else firstOf w ip es := by
  rw [firstOf, List.find?_cons]
  cases coversAs w ip e.1 <;> rfl

theorem firstOf_append (w : Breadth) (ip : UInt32) (es fs : List (Address × α)) :
    firstOf w ip (es ++ fs) = (firstOf w ip es).or (firstOf w ip fs) := by
  rw [firstOf, List.find?_append, Option.map_or]
  rfl

theorem firstOf_entry (w : Breadth) (ip : UInt32) (a : Address) (stored : Option α) :
    firstOf w ip (((some a).bind fun a => stored.map fun v => (a, v)).toList) = if coversAs w ip a then stored else none := by
  cases stored with
  | none => simp [firstOf]
  | some v =>
    rw [Option.bind_some, Option.map_some, Option.toList_some, firstOf_cons]
    rfl

theorem firstOf_filterMap_cons {γ : Type} (w : Breadth) (ip : UInt32) (f : γ → Option (Address × α)) (l : γ) (ls : List γ) :
    firstOf w ip ((l :: ls).filterMap f) = (firstOf w ip (f l).toList).or (firstOf w ip (ls.filterMap f)) := by
  rw [← firstOf_append, List.filterMap_cons]
  cases f l <;> rfl

theorem firstOf_none {w : Breadth} {ip : UInt32} {es : List (Address × α)} :
    firstOf w ip es = none ↔ ∀ e ∈ es, coversAs w ip e.1 = false := by
  rw [firstOf, Option.map_eq_none_iff, List.find?_eq_none]
  simp only [Bool.not_eq_true]

theorem singles_first (ip : UInt32) (es : List (Address × α)) :
    ((singlesOf es).find? fun e => e.1 == ip).map Prod.snd = firstOf .single ip es := by
  induction es with
  | nil => rfl
  | cons e es ih =>
    obtain ⟨a, v⟩ := e
    rw [firstOf_cons, ← ih]
    cases a with
    | single addr =>
      have parts : singlesOf ((Address.single addr, v) :: es) = (addr, v) :: singlesOf es := rfl
      cases same : addr == ip with
      | false => simp [parts, coversAs, same]
      | true => simp [parts, coversAs, same]
    | subnet addr mask => rfl
    | range startaddr endaddr => rfl

theorem subnets_first {β : Type} {mk : UInt32 → UInt32 → α → β} {test : β → Bool} {value : β → α} {ip : UInt32}
    (tests : ∀ masked mask v, test (mk masked mask v) = (masked == ip &&& mask))
    (values : ∀ masked mask v, value (mk masked mask v) = v) (es : List (Address × α)) :
    ((subnetsOf mk es).find? test).map value = firstOf .subnet ip es := by
  induction es with
  | nil => rfl
  | cons e es ih =>
    obtain ⟨a, v⟩ := e
    rw [firstOf_cons, ← ih]
    cases a with
    | single addr => rfl
    | subnet addr mask =>
      have parts : subnetsOf mk ((Address.subnet addr mask, v) :: es) = mk (addr &&& mask) mask v :: subnetsOf mk es := rfl
      have tested := tests (addr &&& mask) mask v
      cases same : addr &&& mask == ip &&& mask with
      | false =>
        rw [same] at tested
        simp [parts, coversAs, same, tested]
      | true =>
        rw [same] at tested
        simp [parts, coversAs, same, tested, values]
    | range startaddr endaddr => rfl

theorem ranges_first {β : Type} {mk : UInt32 → UInt32 → α → β} {test : β → Bool} {value : β → α} {ip : UInt32}
    (tests : ∀ startaddr endaddr v, test (mk startaddr endaddr v) = (decide (startaddr ≤ ip) && decide (ip ≤ endaddr)))
    (values : ∀ startaddr endaddr v, value (mk startaddr endaddr v) = v) (es : List (Address × α)) :
    ((rangesOf mk es).find? test).map value = firstOf .range ip es := by
  induction es with
  | nil => rfl
  | cons e es ih =>
    obtain ⟨a, v⟩ := e
    rw [firstOf_cons, ← ih]
    cases a with
    | single addr => rfl
    | subnet addr mask => rfl
    | range startaddr endaddr =>
      have parts : rangesOf mk ((Address.range startaddr endaddr, v) :: es) = mk startaddr endaddr v :: rangesOf mk es := rfl
      have tested := tests startaddr endaddr v
      cases between : decide (startaddr ≤ ip) && decide (ip ≤ endaddr) with
      | false =>
        rw [between] at tested
        simp [parts, coversAs, between, tested]
      | true =>
        rw [between] at tested
        simp [parts, coversAs, between, tested, values]

/-- The binary search finds the entry of an address if no address has two. -/
theorem search_first {es : List (Address × α)} (once : ((singlesOf es).map Prod.fst).Nodup) (ip : UInt32) :
    searchEntries ((singlesOf es).insertionSort fun a b => a.1 ≤ b.1) ip = firstOf .single ip es := by
  have perm := List.perm_insertionSort (fun a b : UInt32 × α => a.1 ≤ b.1) (singlesOf es)
  obtain ⟨some_, found⟩ := searchEntries_sorted (insertionSort_sorted (singlesOf es)) ip
  simp only [perm.mem_iff] at some_ found
  rw [← singles_first]
  cases first : (singlesOf es).find? fun e => e.1 == ip with
  | none =>
    rw [Option.map_none, ← Option.not_isSome_iff_eq_none, some_]
    rintro ⟨e, member, same⟩
    have apart := List.find?_eq_none.mp first e member
    simp [same] at apart
  | some e =>
    have member := List.mem_of_find?_eq_some first
    have same : e.1 = ip := by simpa using List.find?_some first
    obtain ⟨v, value⟩ := Option.isSome_iff_exists.mp (some_.mpr ⟨e, member, same⟩)
    have other := found v value
    have one := List.inj_on_of_nodup_map once member other same
    rw [value, one]
    rfl

end First

/- What both answer. -/

/-- The text of an address has nothing in it that is trimmed. -/
def Plain (ip : Str) : Prop := ∀ b ∈ ip, b ≠ 0 ∧ isSpace b = false

theorem trim_copy_plain {ip : Str} (plain : Plain ip) : cstr (trimCopy ip) = ip := by
  have kept : ∀ t : Str, (∀ b ∈ t, isSpace b = false) → t.dropWhile isSpace = t := by
    intro t free
    cases t with
    | nil => rfl
    | cons b t => exact List.dropWhile_cons_of_neg (by simp [free b List.mem_cons_self])
  rw [trimCopy, kept ip fun b member => (plain b member).2, kept _ fun b member => (plain b (List.mem_reverse.mp member)).2,
    List.reverse_reverse]
  exact cstr_of_nul_free fun member => (plain 0 member).1 rfl

theorem removeWhiteSpace_plain {ip : Str} (plain : Plain ip) : removeWhiteSpace (cstr ip) = ip := by
  rw [cstr_of_nul_free fun member => (plain 0 member).1 rfl]
  apply removeWhiteSpace_of_none
  intro b member
  by_contra white
  have space := GuardianHeaderVariants.space_of_white b (by simpa using white)
  rw [(plain b member).2] at space
  cases space

theorem verdictOf_missing (found : Option Int) : verdictOf (found.getD (-1)) = found.bind verdictOf := by
  cases found with
  | none => decide
  | some g => rfl

theorem verdictOf_valid {g : Int} (valid : g = kHiddenExceptionGroup ∨ g = kHiddenBannedGroup ∨ 0 ≤ g) :
    ∃ v, verdictOf g = some v := by
  rcases valid with rfl | rfl | natural
  · exact ⟨_, rfl⟩
  · exact ⟨_, rfl⟩
  · have plain : decodeHiddenGroup g = none := by
      unfold decodeHiddenGroup kHiddenExceptionGroup kHiddenBannedGroup
      rw [if_neg (by omega), if_neg (by omega)]
    exact ⟨.ok g, by rw [verdictOf, plain]; exact if_pos natural⟩

section Answers
variable {host : Host} {ip : Str}

theorem melangeEntry_valid {line : Str} {a : Address} {g : Int} (entry : melangeEntry host line = some (a, g)) :
    ∃ v, verdictOf g = some v := by
  obtain ⟨a', -, stored⟩ := Option.bind_eq_some_iff.mp entry
  obtain ⟨g', code, pair⟩ := Option.map_eq_some_iff.mp stored
  obtain ⟨-, rfl⟩ := Prod.mk.inj pair
  exact verdictOf_valid (groupCode_valid code)

theorem determineGroup_eq (plain : Plain ip) (lines : List Str)
    (once : ((singlesOf ((linesRead lines).filterMap (melangeEntry host))).map Prod.fst).Nodup) :
    determineGroup host (readIPMelangeList host lines) ip =
      (((host.inet_aton ip).bind fun addr => answer addr ((linesRead lines).filterMap (melangeEntry host))).bind
        verdictOf).getD .nomatch := by
  obtain ⟨g, held, read⟩ := readIPMelangeList_holds host lines
  rw [read, determineGroup, trim_copy_plain plain]
  cases host.inet_aton ip with
  | none => rfl
  | some addr =>
    have single : inList { g with iplist := g.iplist.insertionSort fun a b => a.1 ≤ b.1 } addr =
        (firstOf .single addr ((linesRead lines).filterMap (melangeEntry host))).getD (-1) := by
      rw [inList, held.iplist, search_first once]
    have subnet : inSubnet { g with iplist := g.iplist.insertionSort fun a b => a.1 ≤ b.1 } addr =
        (firstOf .subnet addr ((linesRead lines).filterMap (melangeEntry host))).getD (-1) := by
      rw [inSubnet, held.ipsubnetlist, subnets_first (fun _ _ _ => rfl) (fun _ _ _ => rfl)]
    have range : inRange { g with iplist := g.iplist.insertionSort fun a b => a.1 ≤ b.1 } addr =
        (firstOf .range addr ((linesRead lines).filterMap (melangeEntry host))).getD (-1) := by
      rw [inRange, held.iprangelist, ranges_first (fun _ _ _ => rfl) (fun _ _ _ => rfl)]
    have valid : ∀ w g, firstOf w addr ((linesRead lines).filterMap (melangeEntry host)) = some g →
        ∃ v, verdictOf g = some v := by
      intro w g first
      obtain ⟨e, here, rfl⟩ := Option.map_eq_some_iff.mp first
      obtain ⟨line, -, entry⟩ := List.mem_filterMap.mp (List.mem_of_find?_eq_some here)
      exact melangeEntry_valid entry
    simp only [single, subnet, range, verdictOf_missing, Option.bind_some, answer]
    congr 1
    cases one : firstOf .single addr ((linesRead lines).filterMap (melangeEntry host)) with
    | some g =>
      obtain ⟨v, verdict⟩ := valid _ _ one
      simp [verdict]
    | none =>
      cases two : firstOf .subnet addr ((linesRead lines).filterMap (melangeEntry host)) with
      | some g =>
        obtain ⟨v, verdict⟩ := valid _ _ two
        simp [verdict]
      | none => simp

theorem getIPMapData_eq {k : Contents} {es : List (Address × Str)} (held : MapHolds k es) (plain : Plain ip)
    (once : ((singlesOf es).map Prod.fst).Nodup) :
    getIPMapData host (sortRead ipMap k) ip = (host.inet_aton ip).bind fun addr => answer addr es := by
  rw [getIPMapData, removeWhiteSpace_plain plain]
  cases host.inet_aton ip with
  | none => rfl
  | some addr =>
    have single : searchMap (sortRead ipMap k).ipmaplist addr = firstOf .single addr es := by
      rw [searchMap_eq, ← search_first once, ← held.ipmaplist]
      rfl
    have subnet : inSubnets (sortRead ipMap k).ipmapsubnetlist addr = firstOf .subnet addr es := by
      have found : ((subnetsOf SubnetEntry.mk es).find? fun s => s.maskedaddr == addr &&& s.mask).map SubnetEntry.group =
          firstOf .subnet addr es := subnets_first (fun _ _ _ => rfl) (fun _ _ _ => rfl) es
      rwa [← held.ipmapsubnetlist] at found
    have range : inRanges (sortRead ipMap k).ipmaprangelist addr = firstOf .range addr es := by
      have found : ((rangesOf RangeEntry.mk es).find? fun r => decide (r.startaddr ≤ addr) && decide (addr ≤ r.endaddr)).map
          RangeEntry.group = firstOf .range addr es := ranges_first (fun _ _ _ => rfl) (fun _ _ _ => rfl) es
      rwa [← held.ipmaprangelist] at found
    show (searchMap _ addr <|> (inSubnets _ addr <|> inRanges _ addr)) = _
    rw [single, subnet, range, Option.bind_some, answer]
    simp

end Answers

/- Lines that are the same to both. -/

/-- What the plugin says and what the list says are the same. The list has the empty text for both special groups. -/
def Agrees : Verdict → Option Str → Prop
  | .nomatch, none => True
  | .ok rfg, some group => toInteger group = rfg + 1
  | _, _ => False

/-- A stored code and a stored text are those of the same group. -/
def SameGroup (g : Int) (v : Str) : Prop := 0 ≤ g ∧ toInteger v = g + 1

section Relation
variable {α β : Type} {R : α → β → Prop}

theorem rel_or {a c : Option α} {b d : Option β} (first : Option.Rel R a b) (second : Option.Rel R c d) :
    Option.Rel R (a.or c) (b.or d) := by
  cases first with
  | none => exact second
  | some same => exact Option.Rel.some same

theorem rel_filterMap {γ : Type} {f : γ → Option (Address × α)} {h : γ → Option (Address × β)} {w : Breadth}
    {ip : UInt32}
    (ls : List γ) (alike : ∀ l ∈ ls, Option.Rel R (firstOf w ip (f l).toList) (firstOf w ip (h l).toList)) :
    Option.Rel R (firstOf w ip (ls.filterMap f)) (firstOf w ip (ls.filterMap h)) := by
  induction ls with
  | nil => exact Option.Rel.none
  | cons l ls ih =>
    rw [firstOf_filterMap_cons, firstOf_filterMap_cons]
    exact rel_or (alike l List.mem_cons_self) (ih fun other member => alike other (List.mem_cons_of_mem _ member))

theorem rel_answer {es : List (Address × α)} {fs : List (Address × β)} {ip : UInt32}
    (alike : ∀ w, Option.Rel R (firstOf w ip es) (firstOf w ip fs)) : Option.Rel R (answer ip es) (answer ip fs) :=
  rel_or (alike .single) (rel_or (alike .subnet) (alike .range))

end Relation

theorem agrees_of_rel {a : Option Int} {b : Option Str} (same : Option.Rel SameGroup a b) :
    Agrees ((a.bind verdictOf).getD .nomatch) b := by
  cases same with
  | none => exact trivial
  | @some g v group =>
    have plain : decodeHiddenGroup g = none := by
      unfold decodeHiddenGroup kHiddenExceptionGroup kHiddenBannedGroup
      have natural := group.1
      rw [if_neg (by omega), if_neg (by omega)]
    have verdict : verdictOf g = some (.ok g) := by
      rw [verdictOf, plain]
      exact if_pos group.1
    rw [Option.bind_some, verdict]
    exact group.2

/-- The labels of an entry are the same to both: neither has a special group, and a number of a group stands in front of
    the comment. -/
def SameReading (host : Host) (line : Str) : Prop :=
  ∀ a, keyAddress host line = some a → (∃ ip, holds ip a) →
    isSpecialGroup (labelOf line) = false ∧ isSpecialGroup (listLabel line) = false ∧
      (number host (labelOf line) ≠ none → firstDigits (listLabel line) ≠ [])

/-- The list makes an entry of the line that covers some address. -/
def GivesEntry (host : Host) (line : Str) : Prop :=
  (cstr line).length ≤ 2048 ∧ ∃ a, keyAddress host line = some a ∧ (∃ ip, holds ip a) ∧
    (isSpecialGroup (listLabel line) = true ∨ number host (listLabel line) ≠ none)

section Lines
variable {host : Host} (shapes : Shapes host)
include shapes

theorem number_same {line : Str} {a : Address} (key : keyAddress host line = some a)
    (digits : firstDigits (listLabel line) ≠ []) :
    number host (labelOf line) = number host (listLabel line) := by
  obtain ⟨q, parts, stop⟩ := label_parts ((key_iff shapes line a).mp key).2.1
  rw [number, number, parts, firstDigits_front digits stop]

omit shapes in
theorem number_iff {label : Str} {n : Int} :
    number host label = some n ↔ toInteger (firstDigits label) = n ∧ 1 ≤ n ∧ n ≤ host.filter_groups := by
  rw [number]
  constructor
  · intro found
    split at found
    · obtain rfl := Option.some.inj found
      exact ⟨rfl, by assumption⟩
    · cases found
  · rintro ⟨rfl, group⟩
    exact if_pos group

omit shapes in
theorem number_of_none {label : Str} (none_ : firstDigits label = []) : number host label = none := by
  rw [number, none_]
  exact if_neg fun group => absurd group.1 (by decide)

omit shapes in
theorem plain_class {label : Str} (plain : isSpecialGroup label = false) : classifySpecialGroup label = none := by
  rw [isSpecialGroup_eq] at plain
  simpa using plain

theorem sameReading_alike {line : Str} (same : SameReading host line) (short : (cstr line).length ≤ 2048) (w : Breadth)
    (ip : UInt32) :
    Option.Rel SameGroup (firstOf w ip (melangeEntry host line).toList) (firstOf w ip (mapEntry host line).toList) := by
  have entry : mapEntry host line = (keyAddress host line).bind fun a => (mapGroup host (listLabel line)).map fun v => (a, v) :=
    if_neg (by omega)
  rw [entry, melangeEntry]
  cases key : keyAddress host line with
  | none => exact Option.Rel.none
  | some a =>
    rw [firstOf_entry, firstOf_entry]
    by_cases covers : coversAs w ip a = true
    · obtain ⟨plain, listPlain, kept⟩ := same a key ⟨ip, (covers_iff ip a).mp ⟨w, covers⟩⟩
      have listPlain' : ¬isSpecialGroup (listLabel line) = true := by simp [listPlain]
      rw [if_pos covers, if_pos covers, groupCode, plain_class plain, mapGroup, if_neg listPlain']
      dsimp only
      by_cases digits : firstDigits (listLabel line) = []
      · have none_ : number host (labelOf line) = none := by
          by_contra some_
          exact kept some_ digits
        rw [none_, number_of_none digits]
        exact Option.Rel.none
      · rw [number_same shapes key digits]
        cases num : number host (listLabel line) with
        | none => exact Option.Rel.none
        | some n =>
          obtain ⟨value, low, -⟩ := number_iff.mp num
          refine Option.Rel.some (show SameGroup (n - 1) _ from ⟨by omega, ?_⟩)
          rw [toInteger_groupOf (listLabel_nul_free line) listPlain, value]
          omega
    · rw [if_neg covers, if_neg covers]
      exact Option.Rel.none

end Lines

/- Files. -/

/-- No single address has two entries, for either of the readers. -/
def Once (host : Host) (lines : List Str) : Prop :=
  ((singlesOf ((linesRead lines).filterMap (melangeEntry host))).map Prod.fst).Nodup ∧
    ((singlesOf (lines.filterMap (mapEntry host))).map Prod.fst).Nodup

/-- The file is loaded as a list, and the list says the same of the address as the plugin. -/
def SameAnswer (host : Host) (source : Source) (filters : Int) (another : Str → Contents → Option (Bool × Contents))
    (lines : List Str) (ip : Str) : Prop :=
  ∃ k, loadIpMap host source filters another lines = some k ∧
    Agrees (determineGroup host (readIPMelangeList host lines) ip) (getIPMapData host k ip)

theorem mapEntry_gives {host : Host} {line : Str} {a : Address} {v : Str} (entry : mapEntry host line = some (a, v))
    (held : ∃ ip, holds ip a) : GivesEntry host line := by
  rw [mapEntry] at entry
  split at entry
  · cases entry
  · rename_i short
    obtain ⟨a', key, stored⟩ := Option.bind_eq_some_iff.mp entry
    obtain ⟨v', group, pair⟩ := Option.map_eq_some_iff.mp stored
    obtain ⟨rfl, rfl⟩ := Prod.mk.inj pair
    refine ⟨by omega, a', key, held, ?_⟩
    rw [mapGroup] at group
    split at group
    · rename_i special
      exact Or.inl special
    · obtain ⟨n, found, -⟩ := Option.map_eq_some_iff.mp group
      exact Or.inr (by simp [found])

theorem firstOf_nothing {host : Host} {lines : List Str} (nothing : ∀ line ∈ lines, ¬GivesEntry host line) (w : Breadth)
    (ip : UInt32) : firstOf w ip (lines.filterMap (mapEntry host)) = none := by
  apply firstOf_none.mpr
  rintro ⟨a, v⟩ member
  obtain ⟨line, inside, entry⟩ := List.mem_filterMap.mp member
  by_contra covers
  exact nothing line inside (mapEntry_gives entry ⟨ip, (covers_iff ip a).mp ⟨w, by simpa using covers⟩⟩)

theorem answer_nothing {host : Host} {lines : List Str} (nothing : ∀ line ∈ lines, ¬GivesEntry host line) {ip : UInt32} :
    answer ip (lines.filterMap (mapEntry host)) = none := by
  rw [answer, firstOf_nothing nothing, firstOf_nothing nothing, firstOf_nothing nothing]
  rfl

section Files
variable {host : Host} (shapes : Shapes host) {source : Source} (file : source.stdin = false)
include shapes file

theorem loadIpMap_eq (filters : Int) (another : Str → Contents → Option (Bool × Contents)) {lines : List Str}
    (readable : ∀ line ∈ lines, Readable source line) {ip : Str} (plain : Plain ip) (once : Once host lines) :
    ∃ k, loadIpMap host source filters another lines = some k ∧
      getIPMapData host k ip = (host.inet_aton ip).bind fun addr => answer addr (lines.filterMap (mapEntry host)) := by
  have empty : MapHolds Contents.empty [] := ⟨rfl, rfl, rfl⟩
  obtain ⟨k, run, held⟩ := readLines_holds shapes file filters another lines readable empty
  refine ⟨sortRead ipMap k, ?_, getIPMapData_eq held plain once.2⟩
  rw [loadIpMap, run]

/-- Without a line that is too long for the plugin, or without any entry, both say the same. -/
theorem same_answer (filters : Int) (another : Str → Contents → Option (Bool × Contents)) {lines : List Str}
    (readable : ∀ line ∈ lines, Readable source line) (same : ∀ line ∈ lines, line.length < 2048 → SameReading host line)
    (long : (∃ line ∈ lines, 2048 ≤ line.length) → ∀ other ∈ lines, ¬GivesEntry host other) {ip : Str} (plain : Plain ip)
    (once : Once host lines) : SameAnswer host source filters another lines ip := by
  obtain ⟨k, loaded, data⟩ := loadIpMap_eq shapes file filters another readable plain once
  refine ⟨k, loaded, ?_⟩
  rw [data, determineGroup_eq plain lines once.1]
  cases host.inet_aton ip with
  | none => exact trivial
  | some addr =>
    have read : ∀ line ∈ linesRead lines, line ∈ lines ∧ line.length < 2048 := by
      intro line member
      exact ⟨(List.takeWhile_prefix _).subset member, by simpa using List.mem_takeWhile_imp member⟩
    have alike : Option.Rel SameGroup (answer addr ((linesRead lines).filterMap (melangeEntry host)))
        (answer addr ((linesRead lines).filterMap (mapEntry host))) := by
      apply rel_answer
      intro w
      apply rel_filterMap
      intro line member
      obtain ⟨inside, short⟩ := read line member
      have shorter := (cstr_isPrefix line).length_le
      exact sameReading_alike shapes (same line inside short) (by omega) w addr
    have all : answer addr ((linesRead lines).filterMap (mapEntry host)) = answer addr (lines.filterMap (mapEntry host)) := by
      by_cases any : ∃ line ∈ lines, 2048 ≤ line.length
      · have nothing := long any
        rw [answer_nothing nothing, answer_nothing fun line member => nothing line (read line member).1]
      · have whole : linesRead lines = lines := by
          apply List.takeWhile_eq_self_iff.mpr
          intro line member
          by_contra other
          exact any ⟨line, member, by simpa using other⟩
        rw [whole]
    rw [all] at alike
    exact agrees_of_rel alike

omit shapes file in
/-- A file of one line is only loaded if the line is read. -/
theorem readable_of_loaded {filters : Int} {another : Str → Contents → Option (Bool × Contents)} {line : Str} {k : Contents}
    (alone : ∀ inc, parseLine source line ≠ .another inc)
    (loaded : loadIpMap host source filters another [line] = some k) : Readable source line := by
  refine ⟨?_, ?_, alone⟩
  · by_contra long
    rw [loadIpMap, readLines, if_pos (by omega)] at loaded
    cases loaded
  · intro temp timed none_
    have failed : addLine host ipMap filters (.timeTag temp) Contents.empty = none := by
      rw [addLine, none_]
      rfl
    rw [loadIpMap, readLines] at loaded
    split at loaded
    · rename_i ok rest k' run
      split at run
      · cases run
      · rw [timed] at run
        dsimp only at run
        rw [failed] at run
        cases run
    · cases loaded

omit file in
theorem covered_text {line : Str} {a : Address} (key : keyAddress host line = some a) (held : ∃ ip, holds ip a) :
    ∃ ip addr, Plain ip ∧ host.inet_aton ip = some addr ∧ holds addr a := by
  have plain : ∀ {s : Str}, isDotted s = true → Plain s := by
    intro s dotted b member
    rcases dotted_byte dotted member with digit | rfl
    · exact ⟨digit_ne digit (by decide), digit_not_space digit⟩
    · decide
  have parsed := ((key_iff shapes line a).mp key).2.2
  obtain ⟨e, text⟩ := parse_some shapes parsed
  rw [text, parse_entry shapes] at parsed
  cases e with
  | single t dotted =>
    obtain ⟨addr, read, rfl⟩ := Option.map_eq_some_iff.mp parsed
    exact ⟨t, addr, plain dotted, read, rfl⟩
  | masked t mask dotted dottedMask =>
    obtain ⟨addr, read, rest⟩ := Option.bind_eq_some_iff.mp parsed
    obtain ⟨bits, -, made⟩ := Option.bind_eq_some_iff.mp rest
    obtain rfl := Option.some.inj made
    exact ⟨t, addr, plain dotted, read, rfl⟩
  | prefixed t digits dotted few =>
    rw [Entry.address] at parsed
    split at parsed
    · obtain ⟨addr, read, rfl⟩ := Option.map_eq_some_iff.mp parsed
      exact ⟨t, addr, plain dotted, read, rfl⟩
    · cases parsed
  | between t t' dotted dottedEnd =>
    obtain ⟨startaddr, read, rest⟩ := Option.bind_eq_some_iff.mp parsed
    obtain ⟨endaddr, -, made⟩ := Option.bind_eq_some_iff.mp rest
    obtain rfl := Option.some.inj made
    obtain ⟨ip, low, high⟩ := held
    exact ⟨t, startaddr, plain dotted, read, UInt32.le_refl _, UInt32.le_trans low high⟩

omit shapes file in
theorem nodup_short {α : Type} {l : List α} (short : l.length ≤ 1) : l.Nodup := by
  cases l with
  | nil => exact List.nodup_nil
  | cons a l =>
    rw [List.length_cons] at short
    have none_ : l = [] := List.eq_nil_of_length_eq_zero (by omega)
    rw [none_]
    exact List.nodup_singleton a

omit shapes file in
theorem singles_short {α : Type} (f : Str → Option (Address × α)) (lines : List Str) :
    ((singlesOf (lines.filterMap f)).map Prod.fst).length ≤ lines.length := by
  rw [List.length_map]
  exact (List.length_filterMap_le _ _).trans (List.length_filterMap_le _ _)

omit shapes file in
theorem once_single (line : Str) : Once host [line] := by
  have read : (linesRead [line]).length ≤ 1 := (List.takeWhile_prefix _).length_le
  exact ⟨nodup_short ((singles_short _ _).trans read), nodup_short (singles_short _ _)⟩

omit shapes file in
/-- The only entry that covers an address is the answer. -/
theorem answer_entry {α : Type} {ip : UInt32} {a : Address} (held : holds ip a) (stored : Option α) (es : List (Address × α))
    (rest : ∀ w, firstOf w ip es = none) :
    answer ip (es ++ ((some a).bind fun a => stored.map fun v => (a, v)).toList) = stored := by
  obtain ⟨w, covers⟩ := (covers_iff ip a).mpr held
  rw [answer, firstOf_append, firstOf_append, firstOf_append, rest, rest, rest, firstOf_entry, firstOf_entry, firstOf_entry]
  cases w <;> cases a <;> simp_all [coversAs]

omit shapes file in
theorem filterMap_one {γ β : Type} (f : γ → Option β) (a : γ) : [a].filterMap f = (f a).toList := by
  rw [List.filterMap_cons]
  cases f a <;> rfl

omit shapes file in
theorem filterMap_pair {γ β : Type} (f : γ → Option β) (a b : γ) : [a, b].filterMap f = (f a).toList ++ (f b).toList := by
  rw [List.filterMap_cons, filterMap_one]
  cases f a <;> rfl

omit shapes file in
theorem linesRead_cons (line : Str) (lines : List Str) :
    linesRead (line :: lines) = if line.length < 2048 then line :: linesRead lines else [] := by
  rw [linesRead, List.takeWhile_cons]
  by_cases short : line.length < 2048
  · rw [if_pos short, if_pos (decide_eq_true short), linesRead]
  · rw [if_neg short, if_neg (by simpa using short)]

/-- A file of one entry that covers something gives the groups of its two labels. -/
theorem agrees_alone {filters : Int} {another : Str → Contents → Option (Bool × Contents)} {line : Str} {a : Address}
    (key : keyAddress host line = some a) (held : ∃ ip, holds ip a) (alone : ∀ inc, parseLine source line ≠ .another inc)
    (answers : ∀ ip, Plain ip → SameAnswer host source filters another [line] ip) :
    Agrees (((if line.length < 2048 then groupCode host (labelOf line) else none).bind verdictOf).getD .nomatch)
      (if (cstr line).length > 2048 then none else mapGroup host (listLabel line)) := by
  obtain ⟨ip, addr, plain, read, covers⟩ := covered_text shapes key held
  obtain ⟨k, loaded, agrees⟩ := answers ip plain
  have readable : ∀ l ∈ [line], Readable source l := by
    intro l member
    rw [List.mem_singleton.mp member]
    exact readable_of_loaded alone loaded
  obtain ⟨k', loaded', data⟩ := loadIpMap_eq shapes file filters another readable plain (once_single line)
  rw [loaded] at loaded'
  obtain rfl := Option.some.inj loaded'
  rw [data, determineGroup_eq plain _ (once_single line).1, read, Option.bind_some, Option.bind_some] at agrees
  have code : answer addr ((linesRead [line]).filterMap (melangeEntry host)) =
      if line.length < 2048 then groupCode host (labelOf line) else none := by
    rw [linesRead_cons]
    split
    · have entry := answer_entry covers (groupCode host (labelOf line)) [] fun _ => rfl
      rw [List.nil_append] at entry
      rw [show linesRead [] = [] from rfl, filterMap_one, melangeEntry, key, entry]
    · rfl
  have group : answer addr ([line].filterMap (mapEntry host)) =
      if (cstr line).length > 2048 then none else mapGroup host (listLabel line) := by
    rw [filterMap_one, mapEntry]
    split
    · rfl
    · have entry := answer_entry covers (mapGroup host (listLabel line)) [] fun _ => rfl
      rw [List.nil_append] at entry
      rw [key, entry]
  rwa [code, group] at agrees

omit shapes file in
theorem agrees_labels {label label' : Str}
    (agrees : Agrees (((groupCode host label).bind verdictOf).getD .nomatch) (mapGroup host label')) :
    isSpecialGroup label = false ∧ isSpecialGroup label' = false ∧ (number host label ≠ none → firstDigits label' ≠ []) := by
  have nothing : toInteger [] = 0 := by decide
  rw [groupCode] at agrees
  cases class_ : classifySpecialGroup label with
  | some special =>
    exfalso
    rw [class_] at agrees
    cases special <;> cases mapGroup host label' <;> exact agrees
  | none =>
    rw [class_] at agrees
    dsimp only at agrees
    have plain : isSpecialGroup label = false := by
      rw [isSpecialGroup_eq, class_]
      rfl
    cases num : number host label with
    | none =>
      rw [num, Option.map_none, Option.bind_none, Option.getD_none] at agrees
      refine ⟨plain, ?_, fun some_ => absurd rfl some_⟩
      by_contra special
      rw [mapGroup, if_pos (by simpa using special)] at agrees
      exact agrees
    | some n =>
      obtain ⟨-, low, -⟩ := number_iff.mp num
      have verdict : verdictOf (n - 1) = some (.ok (n - 1)) := by
        have hidden : decodeHiddenGroup (n - 1) = none := by
          unfold decodeHiddenGroup kHiddenExceptionGroup kHiddenBannedGroup
          rw [if_neg (by omega), if_neg (by omega)]
        rw [verdictOf, hidden]
        exact if_pos (by omega)
      rw [num, Option.map_some, Option.bind_some, verdict, Option.getD_some, mapGroup] at agrees
      by_cases special : isSpecialGroup label' = true
      · exfalso
        rw [if_pos special] at agrees
        have same : toInteger [] = n - 1 + 1 := agrees
        omega
      · refine ⟨plain, Bool.eq_false_of_not_eq_true special, fun _ none_ => ?_⟩
        rw [if_neg special, number_of_none none_] at agrees
        exact agrees

omit shapes file in
theorem mapGroup_some {label : Str} (given : isSpecialGroup label = true ∨ number host label ≠ none) :
    ∃ v, mapGroup host label = some v := by
  rw [mapGroup]
  split
  · exact ⟨[], rfl⟩
  · rename_i plain
    rcases given with special | some_
    · exact absurd special plain
    · obtain ⟨n, found⟩ := Option.ne_none_iff_exists'.mp some_
      exact ⟨_, by rw [found]; rfl⟩

omit shapes file in
/-- A line without an entry that covers something has no single address. -/
theorem singles_nothing {line : Str} (nothing : ¬GivesEntry host line) : singlesOf (mapEntry host line).toList = [] := by
  cases entry : mapEntry host line with
  | none => rfl
  | some e =>
    obtain ⟨a, v⟩ := e
    cases a with
    | single addr => exact absurd (mapEntry_gives entry ⟨addr, rfl⟩) nothing
    | subnet addr mask => rfl
    | range startaddr endaddr => rfl

/-- An entry behind a line that is too long for the plugin is only known to the list. -/
theorem long_disagrees {filters : Int} {another : Str → Contents → Option (Bool × Contents)} {line other : Str}
    (readable : ∀ l ∈ [line, other], Readable source l) (long : 2048 ≤ line.length) (nothing : ¬GivesEntry host line)
    (gives : GivesEntry host other)
    (answers : Once host [line, other] → ∀ ip, Plain ip → SameAnswer host source filters another [line, other] ip) : False := by
  obtain ⟨short, a, key, held, given⟩ := gives
  obtain ⟨v, group⟩ := mapGroup_some given
  obtain ⟨ip, addr, plain, read, covers⟩ := covered_text shapes key held
  have unread : linesRead [line, other] = [] := by rw [linesRead_cons, if_neg (by omega)]
  have once : Once host [line, other] := by
    refine ⟨by rw [unread]; exact List.nodup_nil, nodup_short ?_⟩
    rw [filterMap_pair, singlesOf, List.filterMap_append, ← singlesOf, singles_nothing nothing, List.nil_append, List.length_map]
    refine (List.length_filterMap_le _ _).trans ?_
    cases mapEntry host other <;> simp
  obtain ⟨k, loaded, agrees⟩ := answers once ip plain
  obtain ⟨k', loaded', data⟩ := loadIpMap_eq shapes file filters another readable plain once
  rw [loaded] at loaded'
  obtain rfl := Option.some.inj loaded'
  have none_ : ∀ w, firstOf w addr (mapEntry host line).toList = none := by
    intro w
    have alone : firstOf w addr ([line].filterMap (mapEntry host)) = none := firstOf_nothing (by simpa using nothing) w addr
    rwa [filterMap_one] at alone
  have entry : mapEntry host other = (some a).bind fun a => (mapGroup host (listLabel other)).map fun v => (a, v) := by
    rw [mapEntry, if_neg (by omega), key]
  have said : answer addr ([line, other].filterMap (mapEntry host)) = some v := by
    rw [filterMap_pair, entry, answer_entry covers _ _ none_, group]
  rw [data, determineGroup_eq plain _ once.1, unread, read, Option.bind_some, Option.bind_some, said] at agrees
  exact agrees

end Files

/-- What a line may be for the plugin and the list to say the same, when it stands among such lines. -/
structure SameLine (host : Host) (source : Source) (allowed : Str → Prop) (line : Str) : Prop where
  fits : line.length < 20000
  timed : ∀ temp, parseLine source line = .timeTag temp → readTimeTag temp ≠ none
  same : line.length < 2048 → SameReading host line
  long : 2048 ≤ line.length → ∀ other, allowed other → ¬GivesEntry host other

/-- The plugin and the list say the same of every address for all files of such lines exactly if each line is the same to
    both, and no line that is too long for the plugin stands with an entry. -/
theorem same_answers_iff {host : Host} (shapes : Shapes host) {source : Source} (file : source.stdin = false) (filters : Int)
    (another : Str → Contents → Option (Bool × Contents)) {allowed : Str → Prop}
    (alone : ∀ line, allowed line → ∀ inc, parseLine source line ≠ .another inc) :
    (∀ lines, (∀ line ∈ lines, allowed line) → Once host lines → ∀ ip, Plain ip →
      SameAnswer host source filters another lines ip) ↔ ∀ line, allowed line → SameLine host source allowed line := by
  constructor
  · intro all
    have single : ∀ line, allowed line → ∀ ip, Plain ip → SameAnswer host source filters another [line] ip := by
      intro line ok ip plain
      apply all [line] _ (once_single line) ip plain
      intro l member
      rwa [List.mem_singleton.mp member]
    have readable : ∀ line, allowed line → Readable source line := by
      intro line ok
      have empty : Plain [] := fun b member => absurd member List.not_mem_nil
      obtain ⟨k, loaded, -⟩ := single line ok [] empty
      exact readable_of_loaded (alone line ok) loaded
    have longGives : ∀ line, allowed line → 2048 ≤ line.length → ¬GivesEntry host line := by
      rintro line ok long ⟨short, a, key, held, given⟩
      obtain ⟨v, group⟩ := mapGroup_some given
      have agrees := agrees_alone shapes file key held (alone line ok) (single line ok)
      rw [if_neg (by omega), if_neg (by omega), group] at agrees
      exact agrees
    intro line ok
    refine ⟨(readable line ok).fits, (readable line ok).timed, ?_, ?_⟩
    · intro short a key held
      have shorter := (cstr_isPrefix line).length_le
      have agrees := agrees_alone shapes file key held (alone line ok) (single line ok)
      rw [if_pos short, if_neg (by omega)] at agrees
      exact agrees_labels agrees
    · intro long other okOther gives
      have both : ∀ l ∈ [line, other], allowed l := by
        intro l member
        rcases List.mem_cons.mp member with rfl | last
        · exact ok
        · rwa [List.mem_singleton.mp last]
      exact long_disagrees shapes file (fun l member => readable l (both l member)) long (longGives line ok long) gives
        (all [line, other] both)
  · intro each lines member once ip plain
    have readable : ∀ line ∈ lines, Readable source line := by
      intro line inside
      obtain ⟨fits, timed, -, -⟩ := each line (member line inside)
      exact ⟨fits, timed, alone line (member line inside)⟩
    apply same_answer shapes file filters another readable (fun line inside => (each line (member line inside)).same) _ plain once
    rintro ⟨line, inside, long⟩ other here
    exact (each line (member line inside)).long long other (member other here)

def groupHost : Host := { plainHost with filter_groups := 3 }

theorem groupHost_shapes : Shapes groupHost :=
  ⟨plainHost_shapes.ip, plainHost_shapes.subnet, plainHost_shapes.cidr, plainHost_shapes.range⟩

def groupsFile : Source := ⟨str "/lists/", str "/lists/", false⟩

def noFile : Str → Contents → Option (Bool × Contents) := fun _ _ => none

def staffLines : List Str := [str "10.0.0.5=filter2 # room 3", str "10.1.0.0/16=group3"]

theorem staff_alone : ∀ line ∈ staffLines, ∃ temp, parseLine groupsFile line = .entry temp := by
  have entries : ∀ line ∈ staffLines, parseLine groupsFile line = .entry (stripped line) := by decide
  exact fun line member => ⟨_, entries line member⟩

theorem staff_same : ∀ line ∈ staffLines, line.length < 2048 ∧ isSpecialGroup (labelOf line) = false ∧
    isSpecialGroup (listLabel line) = false ∧ firstDigits (listLabel line) ≠ [] := by decide

theorem staff_lines_agree : SameAnswer groupHost groupsFile 0 noFile staffLines (str "10.1.2.3") := by
  have alone : ∀ line, line ∈ staffLines → ∀ inc, parseLine groupsFile line ≠ .another inc := by
    intro line member inc names
    obtain ⟨temp, entry⟩ := staff_alone line member
    rw [entry] at names
    cases names
  have same : ∀ line, line ∈ staffLines → SameLine groupHost groupsFile (· ∈ staffLines) line := by
    intro line member
    obtain ⟨short, plain, listPlain, digits⟩ := staff_same line member
    obtain ⟨temp, entry⟩ := staff_alone line member
    refine ⟨by omega, ?_, fun _ _ _ _ => ⟨plain, listPlain, fun _ => digits⟩, fun long => absurd long (by omega)⟩
    intro tag timed
    rw [entry] at timed
    cases timed
  have once : Once groupHost staffLines := by
    unfold Once
    decide
  have plain : Plain (str "10.1.2.3") := by
    unfold Plain
    decide +kernel
  exact (same_answers_iff groupHost_shapes rfl 0 noFile alone).mpr same staffLines (fun _ member => member) once _ plain

/-- The class of a special group is lost in the list, and the plugin reads the number in a comment. -/
theorem special_lost_comment_read :
    ¬SameAnswer groupHost groupsFile 0 noFile [str "10.0.0.9=bannedip"] (str "10.0.0.9") ∧
      ¬SameAnswer groupHost groupsFile 0 noFile [str "10.0.0.7=staff # room 2"] (str "10.0.0.7") := by
  constructor
  · rintro ⟨k, loaded, agrees⟩
    have data : (loadIpMap groupHost groupsFile 0 noFile [str "10.0.0.9=bannedip"]).map
        (fun k => getIPMapData groupHost k (str "10.0.0.9")) = some (some []) := by decide
    have verdict : determineGroup groupHost (readIPMelangeList groupHost [str "10.0.0.9=bannedip"]) (str "10.0.0.9") =
        .special .banned := by decide
    rw [loaded, Option.map_some, Option.some_inj] at data
    rw [data, verdict] at agrees
    exact agrees
  · rintro ⟨k, loaded, agrees⟩
    have data : (loadIpMap groupHost groupsFile 0 noFile [str "10.0.0.7=staff # room 2"]).map
        (fun k => getIPMapData groupHost k (str "10.0.0.7")) = some none := by decide
    have verdict : determineGroup groupHost (readIPMelangeList groupHost [str "10.0.0.7=staff # room 2"]) (str "10.0.0.7") =
        .ok 1 := by decide
    rw [loaded, Option.map_some, Option.some_inj] at data
    rw [data, verdict] at agrees
    exact agrees

end GuardianTwoReaders
