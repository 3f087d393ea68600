import E2Guardian.GroupLabels
import E2Guardian.IpLists

/- The groups of client addresses: the IP authentication plugin reads their file with a reader of its own and
   searches what it has read. -/
namespace GuardianIpGroups
open GuardianString GuardianUrls GuardianItemFile GuardianStoryRun GuardianExactSearch GuardianGatewaySpecs GuardianIpLists
open GuardianGroupLabels GuardianTime

inductive SpecialIpGroup where
  | exception
  | banned
  deriving DecidableEq, Repr

def classifySpecialGroup (token : Str) : Option SpecialIpGroup :=
  let token := removePunctuation (removeWhiteSpace (toLower token))
  let token := removeChar (removeChar token (ch '_')) (ch '-')
  if token.length = 0 then none
  else if token = str "exceptioniplist" ∨ token = str "exceptionlist" ∨ token = str "exceptionip" then some .exception
  else if token = str "bannediplist" ∨ token = str "bannedlist" ∨ token = str "bannedip" then some .banned
  else none

def kHiddenExceptionGroup : Int := -2

def kHiddenBannedGroup : Int := -3

def decodeHiddenGroup (group : Int) : Option SpecialIpGroup :=
  if group = kHiddenExceptionGroup then some .exception
  else if group = kHiddenBannedGroup then some .banned
  else none

/-- The label in lower case without white space around it and without the words that are cut off its start. -/
def normalisedGroup (value : Str) : Str :=
  let normalised := removeWhiteSpace (toLower value)
  let normalised := dropLabel (dropLabel normalised (str "filter")) (str "group")
  removeWhiteSpace normalised

def groupNumber (value : Str) : Int :=
  let normalised := normalisedGroup value
  let digits := firstDigits (cstr normalised)
  let numeric := if digits.length > 0 then digits else normalised
  toInteger numeric

def parseFilterGroup (filter_groups : Int) (value : Str) : Int × Option SpecialIpGroup :=
  match classifySpecialGroup value with
  | some .exception => (kHiddenExceptionGroup, some .exception)
  | some .banned => (kHiddenBannedGroup, some .banned)
  | none =>
    let group := groupNumber value
    if group < 1 ∨ group > filter_groups then (-1, none) else (group - 1, none)

structure IpSubnetEntry where
  maskedaddr : UInt32
  mask : UInt32
  group : Int

structure IpRangeEntry where
  startaddr : UInt32
  endaddr : UInt32
  group : Int

structure IpGroups where
  iplist : List (UInt32 × Int)
  ipsubnetlist : List IpSubnetEntry
  iprangelist : List IpRangeEntry

def store (group : Int) (g : IpGroups) : Address → IpGroups
  | .single addr => { g with iplist := g.iplist ++ [(addr, group)] }
  | .subnet addr mask => { g with ipsubnetlist := g.ipsubnetlist ++ [⟨addr &&& mask, mask, group⟩] }
  | .range startaddr endaddr => { g with iprangelist := g.iprangelist ++ [⟨startaddr, endaddr, group⟩] }

def addMelangeLine (host : Host) (buffer : Str) (g : IpGroups) : IpGroups :=
  let line := cstr buffer
  if startsWith line (str "#") then g
  else if (removeWhiteSpace line).length = 0 then g
  else if contains line (str "=") then
    let key := removeWhiteSpace (before line (str "="))
    let value := removeWhiteSpace (after line (str "="))
    let (group, special) := parseFilterGroup host.filter_groups value
    if group < 0 ∧ special = none then g
    else
      match parseAddress host key with
      | some address => store group g address
      | none => g
  else g -- no filter group given

/-- The line loop. A line that does not fit the buffer sets failbit, and the loop ends. -/
def readMelangeLines (host : Host) : List Str → IpGroups → IpGroups
  | [], g => g
  | buffer :: rest, g => if buffer.length ≥ 2048 then g else readMelangeLines host rest (addMelangeLine host buffer g)

def readIPMelangeList (host : Host) (lines : List Str) : IpGroups :=
  let g := readMelangeLines host lines ⟨[], [], []⟩
  { g with iplist := g.iplist.insertionSort fun a b => a.1 ≤ b.1 }

def inList (g : IpGroups) (ip : UInt32) : Int := (searchEntries g.iplist ip).getD (-1)

def inSubnet (g : IpGroups) (ip : UInt32) : Int :=
  ((g.ipsubnetlist.find? fun i => i.maskedaddr == ip &&& i.mask).map IpSubnetEntry.group).getD (-1)

def inRange (g : IpGroups) (ip : UInt32) : Int :=
  ((g.iprangelist.find? fun i => decide (i.startaddr ≤ ip) && decide (ip ≤ i.endaddr)).map IpRangeEntry.group).getD (-1)

/-- What the plugin makes of a client: a group, a special group or no match. -/
inductive Verdict where
  | ok (rfg : Int)
  | special (group : SpecialIpGroup)
  | nomatch
  deriving DecidableEq, Repr

def verdictOf (fg : Int) : Option Verdict :=
  match decodeHiddenGroup fg with
  | some special => some (.special special)
  | none => if fg ≥ 0 then some (.ok fg) else none

def trimCopy (value : Str) : Str := ((value.dropWhile isSpace).reverse.dropWhile isSpace).reverse

def determineGroup (host : Host) (g : IpGroups) (user : Str) : Verdict :=
  match host.inet_aton (cstr (trimCopy user)) with
  | none => .nomatch
  | some addr =>
    ((verdictOf (inList g addr) <|> verdictOf (inSubnet g addr)) <|> verdictOf (inRange g addr)).getD .nomatch

def loadIpMap (host : Host) (source : Source) (filters : Int) (another : Str → Contents → Option (Bool × Contents))
    (lines : List Str) : Option Contents :=
  match readLines source (addLine host ⟨true, false, true⟩ filters) another lines Contents.empty with
  | some (true, _, k) => some (sortRead ⟨true, false, true⟩ k)
  | _ => none

/- The key and the label of a line. -/

def keyAddress (host : Host) (line : Str) : Option Address :=
  let t := cstr line
  if startsWith t (str "#") || !contains t (str "=") then none
  else parseAddress host (removeWhiteSpace (before t (str "=")))

def labelOf (line : Str) : Str := after (cstr line) (str "=")

/-- A line as an entry of a list: without its comment and trimmed. -/
def stripped (line : Str) : Str := removeWhiteSpace (stripComment (cstr line))

def listLabel (line : Str) : Str := after (stripped line) (str "=")

def number (host : Host) (label : Str) : Option Int :=
  let n := toInteger (firstDigits label)
  if 1 ≤ n ∧ n ≤ host.filter_groups then some n else none

section Keys
variable {host : Host} (shapes : Shapes host)
include shapes

theorem parse_bytes {text : Str} {a : Address} (parsed : parseAddress host text = some a) :
    ch '.' ∈ text ∧ ∀ b ∈ text, isDigit b = true ∨ b = ch '.' ∨ b = ch '/' ∨ b = ch '-' := by
  have dotted_bytes : ∀ {s : Str}, isDotted s = true →
      ∀ b ∈ s, isDigit b = true ∨ b = ch '.' ∨ b = ch '/' ∨ b = ch '-' := by
    intro s dotted b member
    rcases dotted_byte dotted member with digit | dot
    · exact Or.inl digit
    · exact Or.inr (Or.inl dot)
  have both : ∀ {s t : Str} {c : UInt8}, isDotted s = true → (c = ch '/' ∨ c = ch '-') →
      (∀ b ∈ t, isDigit b = true ∨ b = ch '.' ∨ b = ch '/' ∨ b = ch '-') →
      ch '.' ∈ s ++ c :: t ∧ ∀ b ∈ s ++ c :: t, isDigit b = true ∨ b = ch '.' ∨ b = ch '/' ∨ b = ch '-' := by
    intro s t c dotted sign rest
    refine ⟨List.mem_append_left _ (dotted_dot dotted), ?_⟩
    intro b member
    rcases List.mem_append.mp member with front | back
    · exact dotted_bytes dotted b front
    · rcases List.mem_cons.mp back with rfl | back
      · exact Or.inr (Or.inr sign)
      · exact rest b back
  obtain ⟨e, rfl⟩ := parse_some shapes parsed
  cases e with
  | single a dotted => exact ⟨dotted_dot dotted, dotted_bytes dotted⟩
  | masked a mask dotted dottedMask => exact both dotted (Or.inl rfl) (dotted_bytes dottedMask)
  | prefixed a digits dotted few => exact both dotted (Or.inl rfl) fun b member => Or.inl (prefix_digit few b member)
  | between a b dotted dottedEnd => exact both dotted (Or.inr rfl) (dotted_bytes dottedEnd)

theorem parse_free {text : Str} {a : Address} (parsed : parseAddress host text = some a) {c : UInt8} (digit : isDigit c = false)
    (signs : c ≠ ch '.' ∧ c ≠ ch '/' ∧ c ≠ ch '-') : c ∉ text := by
  intro member
  rcases (parse_bytes shapes parsed).2 c member with one | dot | slash | dash
  · rw [digit] at one
    cases one
  · exact signs.1 dot
  · exact signs.2.1 slash
  · exact signs.2.2 dash

theorem parse_some_mark {text : Str} {a : Address} (parsed : parseAddress host (removeWhiteSpace text) = some a) :
    ¬text.all isWhiteSpace = true := by
  intro white
  have same : removeWhiteSpace text = text := if_pos white
  rw [same] at parsed
  have dot := List.all_eq_true.mp white _ (parse_bytes shapes parsed).1
  exact absurd dot (by decide)

end Keys

theorem stripComment_cut (temp : Str) : temp = stripComment temp ∨
    ∃ u r, stripComment temp = u ++ [ch ' '] ∧ temp = u ++ ch ' ' :: ch '#' :: r := by
  induction temp with
  | nil => exact Or.inl rfl
  | cons a rest ih =>
    cases rest with
    | nil => exact Or.inl rfl
    | cons b rest =>
      rw [stripComment]
      split
      · rename_i comment
        exact Or.inr ⟨[], rest, by rw [comment.1]; rfl, by rw [comment.1, comment.2]; rfl⟩
      · rcases ih with same | ⟨u, r, cut, whole⟩
        · exact Or.inl (congrArg (List.cons a) same)
        · exact Or.inr ⟨a :: u, r, by rw [cut]; rfl, by rw [whole]; rfl⟩

/-- A line is what the list takes of it with white space before it, and behind it white space and a comment. -/
theorem line_parts (line : Str) : ∃ p q, cstr line = p ++ (stripped line ++ q) ∧ (∀ b ∈ p, isWhiteSpace b = true) ∧
    (∀ b ∈ q.head?, isDigit b = false) ∧
    ((∀ b ∈ q, isWhiteSpace b = true) ∨ ∃ gap r, q = gap ++ ch '#' :: r ∧ ∀ b ∈ gap, isWhiteSpace b = true) := by
  obtain ⟨p, w, whole, front, back⟩ := removeWhiteSpace_between (stripComment (cstr line))
  have blank : ∀ b ∈ w.head?, isDigit b = false := fun b first => white_not_digit b (back b (List.mem_of_mem_head? first))
  rcases stripComment_cut (cstr line) with same | ⟨u, r, cut, text⟩
  · exact ⟨p, w, same.trans whole, front, blank, Or.inl back⟩
  · refine ⟨p, w ++ ch '#' :: r, ?_, front, ?_, Or.inr ⟨w, r, rfl, back⟩⟩
    · have halves : cstr line = (u ++ [ch ' ']) ++ ch '#' :: r := by rw [text, List.append_assoc, List.singleton_append]
      rw [halves, ← cut, stripped]
      rw [congrArg (· ++ ch '#' :: r) whole, List.append_assoc, List.append_assoc]
    · intro b first
      cases w with
      | nil =>
        obtain rfl := Option.some.inj first
        decide
      | cons c w => exact blank b first

theorem mem_removeWhiteSpace {s : Str} {b : UInt8} (member : b ∈ s) (mark : isWhiteSpace b = false) :
    b ∈ removeWhiteSpace s := by
  obtain ⟨p, q, whole, front, back⟩ := removeWhiteSpace_between s
  rw [whole, List.mem_append, List.mem_append] at member
  rcases member with white | inside | white
  · rw [front b white] at mark
    cases mark
  · exact inside
  · rw [back b white] at mark
    cases mark

theorem removeWhiteSpace_front {p s : Str} (white : ∀ b ∈ p, isWhiteSpace b = true) (some_ : ¬s.all isWhiteSpace = true) :
    removeWhiteSpace (p ++ s) = removeWhiteSpace s := by
  have more : ¬(p ++ s).all isWhiteSpace = true := by
    rw [List.all_append, Bool.and_eq_true]
    exact fun both => some_ both.2
  rw [removeWhiteSpace, if_neg more, removeWhiteSpace, if_neg some_, List.dropWhile_append_of_pos white]

theorem before_behind {u : Str} {c : UInt8} (free : c ∉ u) (s : Str) :
    before (u ++ s) [c] = if c ∈ s then u ++ before s [c] else [] := by
  have skip : (u ++ s).takeWhile (· != c) = u ++ s.takeWhile (· != c) := by
    apply List.takeWhile_append_of_pos
    intro b member
    simp only [bne_iff_ne, ne_eq]
    exact fun same => free (same ▸ member)
  by_cases inside : c ∈ s
  · rw [before_byte, if_pos (List.mem_append_right _ inside), if_pos inside, skip, before_byte, if_pos inside]
  · rw [before_byte, if_neg (by simp [free, inside]), if_neg inside]

theorem before_front {s : Str} {c : UInt8} (inside : c ∈ s) (t : Str) : before (s ++ t) [c] = before s [c] := by
  obtain ⟨u, v, rfl, free⟩ := List.eq_append_cons_of_mem inside
  have alone : before (u ++ ([c] ++ v)) [c] = u := before_at rfl free v
  have longer : before (u ++ ([c] ++ (v ++ t))) [c] = u := before_at rfl free (v ++ t)
  rw [List.append_assoc, List.cons_append]
  exact longer.trans alone.symm

section Lines
variable {host : Host} (shapes : Shapes host)
include shapes

theorem key_iff (line : Str) (a : Address) : keyAddress host line = some a ↔ startsWith (cstr line) (str "#") = false ∧
    ch '=' ∈ stripped line ∧ parseAddress host (removeWhiteSpace (before (stripped line) (str "="))) = some a := by
  obtain ⟨p, q, whole, front, -, behind⟩ := line_parts line
  have noSign : ∀ {w : Str}, (∀ b ∈ w, isWhiteSpace b = true) → ch '=' ∉ w :=
    fun white member => absurd (white _ member) (by decide)
  have address : keyAddress host line = some a ↔ startsWith (cstr line) (str "#") = false ∧ ch '=' ∈ cstr line ∧
      parseAddress host (removeWhiteSpace (before (cstr line) (str "="))) = some a := by
    have sign : contains (cstr line) (str "=") = true ↔ ch '=' ∈ cstr line := contains_byte_iff _ _
    rw [keyAddress]
    by_cases comment : startsWith (cstr line) (str "#") = true
    · simp [comment]
    · by_cases given : ch '=' ∈ cstr line
      · simp [comment, given, sign.mpr given]
      · have missing : contains (cstr line) (str "=") = false := by
          rw [← Bool.not_eq_true, sign]
          exact given
        simp [comment, given, missing]
  rw [address]
  by_cases sign : ch '=' ∈ stripped line
  · have cut : before (cstr line) (str "=") = p ++ before (stripped line) (str "=") := by
      rw [whole, show str "=" = [ch '='] from rfl, before_behind (noSign front), if_pos (List.mem_append_left _ sign),
        before_front sign]
    have inside : ch '=' ∈ cstr line := by
      rw [whole]
      exact List.mem_append_right _ (List.mem_append_left _ sign)
    have same : parseAddress host (removeWhiteSpace (before (cstr line) (str "="))) = some a ↔
        parseAddress host (removeWhiteSpace (before (stripped line) (str "="))) = some a := by
      rw [cut]
      constructor
      · intro parsed
        have some_ : ¬(before (stripped line) (str "=")).all isWhiteSpace = true := by
          intro white
          apply parse_some_mark shapes parsed
          rw [List.all_append, white, Bool.and_true]
          exact List.all_eq_true.mpr front
        rwa [removeWhiteSpace_front front some_] at parsed
      · intro parsed
        rwa [removeWhiteSpace_front front (parse_some_mark shapes parsed)]
    simp only [inside, sign, same]
  · constructor
    · rintro ⟨-, given, parsed⟩
      exfalso
      rw [whole] at given
      have last : ch '=' ∈ q := by
        rcases List.mem_append.mp given with white | rest
        · exact absurd white (noSign front)
        · rcases List.mem_append.mp rest with kept | last
          · exact absurd kept sign
          · exact last
      rcases behind with white | ⟨gap, r, rfl, blank⟩
      · exact noSign white last
      · have hash : ch '#' ∈ before (cstr line) (str "=") := by
          have later : ch '=' ∈ r := by
            rcases List.mem_append.mp last with white | rest
            · exact absurd white (noSign blank)
            · rcases List.mem_cons.mp rest with same | later
              · exact absurd same (by decide)
              · exact later
          have free : ch '=' ∉ p ++ (stripped line ++ (gap ++ [ch '#'])) := by
            simp only [List.mem_append, not_or]
            exact ⟨noSign front, sign, noSign blank, by decide⟩
          have parts : cstr line = p ++ (stripped line ++ (gap ++ [ch '#'])) ++ r := by
            rw [whole]
            simp
          rw [parts, show str "=" = [ch '='] from rfl, before_behind free, if_pos later]
          simp
        exact parse_free shapes parsed (by decide) (by decide) (mem_removeWhiteSpace hash (by decide))
    · exact fun entry => absurd entry.2.1 sign

omit shapes in
/-- The list's label is the start of the plugin's, up to a byte that is no digit. -/
theorem label_parts {line : Str} (sign : ch '=' ∈ stripped line) : ∃ q, labelOf line = listLabel line ++ q ∧
    ∀ b ∈ q.head?, isDigit b = false := by
  obtain ⟨p, q, whole, front, stop, -⟩ := line_parts line
  obtain ⟨u, v, parts, free⟩ := List.eq_append_cons_of_mem sign
  have noSign : ch '=' ∉ p ++ u := by
    rw [List.mem_append, not_or]
    exact ⟨fun member => absurd (front _ member) (by decide), free⟩
  have given : labelOf line = v ++ q := by
    rw [labelOf, whole, parts, List.append_assoc, ← List.append_assoc p u]
    exact after_at rfl noSign (v ++ q)
  have kept : listLabel line = v := by
    rw [listLabel, parts]
    exact after_at rfl free v
  exact ⟨q, by rw [given, kept], stop⟩

end Lines

/- Labels. -/

theorem toInteger_free {s : Str} (free : DigitFree s) : toInteger s = 0 := by
  have unread : ∀ t : Str, t <:+ s → decimal t = 0 := by
    intro t inside
    rw [decimal, takeWhile_free fun b member => free b (inside.subset member)]
    rfl
  have zero : signedDecimal (s.dropWhile isSpace) = 0 := by
    have inside := List.dropWhile_suffix (l := s) isSpace
    cases rest : s.dropWhile isSpace with
    | nil => rfl
    | cons b t =>
      rw [rest] at inside
      have tail := unread t ((List.suffix_cons b t).trans inside)
      have all := unread (b :: t) inside
      rw [signedDecimal, tail, all]
      simp
  rw [toInteger, zero]
  rfl

theorem classify_trimmed (label : Str) : classifySpecialGroup (removeWhiteSpace label) = classifySpecialGroup label := by
  have trimmed : removeWhiteSpace (toLower (removeWhiteSpace label)) = removeWhiteSpace (toLower label) := by
    rw [removeWhiteSpace_toLower, removeWhiteSpace_toLower, removeWhiteSpace_trimmed]
  rw [classifySpecialGroup, trimmed]
  rfl

theorem isSpecialGroup_eq (label : Str) : isSpecialGroup label = (classifySpecialGroup label).isSome := by
  unfold isSpecialGroup classifySpecialGroup
  dsimp only
  generalize removeChar (removeChar (removePunctuation (removeWhiteSpace (toLower label))) (ch '_')) (ch '-') = token
  by_cases empty : token.length = 0
  · rw [if_pos empty, List.length_eq_zero_iff.mp empty]
    decide
  · rw [if_neg empty, Bool.eq_iff_iff]
    have either : ∀ (P Q : Prop) [Decidable P] [Decidable Q],
        (if P then some SpecialIpGroup.exception else if Q then some SpecialIpGroup.banned else none).isSome = true ↔
          P ∨ Q := by
      intro P Q _ _
      by_cases first : P
      · simp [first]
      · by_cases second : Q <;> simp [first, second]
    simp only [Bool.or_eq_true, beq_iff_eq, either, or_assoc]

def groupCode (host : Host) (label : Str) : Option Int :=
  match classifySpecialGroup label with
  | some .exception => some kHiddenExceptionGroup
  | some .banned => some kHiddenBannedGroup
  | none => (number host label).map (· - 1)

theorem groupCode_valid {host : Host} {label : Str} {g : Int} (code : groupCode host label = some g) :
    g = kHiddenExceptionGroup ∨ g = kHiddenBannedGroup ∨ 0 ≤ g := by
  unfold groupCode number at code
  split at code
  · exact Or.inl (Option.some.inj code).symm
  · exact Or.inr (Or.inl (Option.some.inj code).symm)
  · obtain ⟨n, found, rfl⟩ := Option.map_eq_some_iff.mp code
    dsimp only at found
    split at found
    · obtain rfl := Option.some.inj found
      right
      right
      omega
    · cases found

theorem groupNumber_eq {label : Str} (nulFree : 0 ∉ label) :
    groupNumber (removeWhiteSpace label) = toInteger (firstDigits label) := by
  have inner : normalisedGroup (removeWhiteSpace label) = trimmedLabel label := by
    rw [normalisedGroup, removeWhiteSpace_toLower, removeWhiteSpace_trimmed, trimmedLabel]
  rw [groupNumber, inner, cstr_of_nul_free (trimmed_nul_free nulFree), firstDigits_trimmed]
  split
  · rfl
  · rename_i none_
    have empty : firstDigits label = [] := by
      by_contra some_
      exact none_ (List.length_pos_iff.mpr some_)
    have free : DigitFree (trimmedLabel label) := digitFree_of_none (by rw [firstDigits_trimmed, empty])
    rw [toInteger_free free, empty, toInteger_free fun _ member => absurd member List.not_mem_nil]

theorem parseFilterGroup_eq (host : Host) {label : Str} (nulFree : 0 ∉ label) :
    (if (parseFilterGroup host.filter_groups (removeWhiteSpace label)).1 < 0 ∧
        (parseFilterGroup host.filter_groups (removeWhiteSpace label)).2 = none then none
      else some (parseFilterGroup host.filter_groups (removeWhiteSpace label)).1) = groupCode host label := by
  unfold parseFilterGroup groupCode
  rw [classify_trimmed]
  cases classifySpecialGroup label with
  | some special => cases special <;> rfl
  | none =>
    dsimp only
    rw [groupNumber_eq nulFree, number]
    by_cases group : 1 ≤ toInteger (firstDigits label) ∧ toInteger (firstDigits label) ≤ host.filter_groups
    · have inside : ¬(toInteger (firstDigits label) < 1 ∨ toInteger (firstDigits label) > host.filter_groups) := by omega
      simp only [if_neg inside, if_pos group, Option.map_some]
      rw [if_neg (by omega)]
    · have outside : toInteger (firstDigits label) < 1 ∨ toInteger (firstDigits label) > host.filter_groups := by omega
      simp only [if_pos outside, if_neg group, Option.map_none]
      rfl

/- What the two readers store. -/

def singlesOf {α : Type} (es : List (Address × α)) : List (UInt32 × α) :=
  es.filterMap fun e =>
    match e.1 with
    | .single addr => some (addr, e.2)
    | _ => none

def subnetsOf {α β : Type} (mk : UInt32 → UInt32 → α → β) (es : List (Address × α)) : List β :=
  es.filterMap fun e =>
    match e.1 with
    | .subnet addr mask => some (mk (addr &&& mask) mask e.2)
    | _ => none

def rangesOf {α β : Type} (mk : UInt32 → UInt32 → α → β) (es : List (Address × α)) : List β :=
  es.filterMap fun e =>
    match e.1 with
    | .range startaddr endaddr => some (mk startaddr endaddr e.2)
    | _ => none

def melangeEntry (host : Host) (line : Str) : Option (Address × Int) :=
  (keyAddress host line).bind fun a => (groupCode host (labelOf line)).map fun g => (a, g)

def mapGroup (host : Host) (label : Str) : Option Str :=
  if isSpecialGroup label then some [] else (number host label).map fun _ => groupOf label

def mapEntry (host : Host) (line : Str) : Option (Address × Str) :=
  if (cstr line).length > 2048 then none
  else (keyAddress host line).bind fun a => (mapGroup host (listLabel line)).map fun v => (a, v)

structure PluginHolds (g : IpGroups) (es : List (Address × Int)) : Prop where
  iplist : g.iplist = singlesOf es
  ipsubnetlist : g.ipsubnetlist = subnetsOf IpSubnetEntry.mk es
  iprangelist : g.iprangelist = rangesOf IpRangeEntry.mk es

structure MapHolds (k : Contents) (es : List (Address × Str)) : Prop where
  ipmaplist : k.ipmaplist = singlesOf es
  ipmapsubnetlist : k.ipmapsubnetlist = subnetsOf SubnetEntry.mk es
  ipmaprangelist : k.ipmaprangelist = rangesOf RangeEntry.mk es

theorem store_holds {g : IpGroups} {es : List (Address × Int)} (held : PluginHolds g es) (a : Address) (n : Int) :
    PluginHolds (store n g a) (es ++ [(a, n)]) := by
  obtain ⟨singles, subnets, ranges⟩ := held
  cases a <;> constructor <;> simp [store, singles, subnets, ranges, singlesOf, subnetsOf, rangesOf, List.filterMap_append]

theorem no_entry (host : Host) {line : Str} (unsigned : contains (cstr line) (str "=") = false) :
    keyAddress host line = none := by
  rw [keyAddress]
  simp [unsigned]

theorem labelOf_nul_free (line : Str) : 0 ∉ labelOf line :=
  fun member => cstr_nul_free line ((after_suffix _ _).subset member)

theorem addMelangeLine_eq (host : Host) (line : Str) (g : IpGroups) : addMelangeLine host line g =
    match melangeEntry host line with
    | some (a, n) => store n g a
    | none => g := by
  unfold addMelangeLine
  dsimp only
  split
  · rename_i comment
    have missing : melangeEntry host line = none := by
      rw [melangeEntry, keyAddress]
      simp [comment]
    rw [missing]
  · rename_i noComment
    split
    · rename_i empty
      have nothing : cstr line = [] := by
        by_contra some_
        have white : (cstr line).all isWhiteSpace = true := by
          by_contra mark
          exact GuardianUrls.removeWhiteSpace_ne_nil mark (List.length_eq_zero_iff.mp empty)
        have same : removeWhiteSpace (cstr line) = cstr line := if_pos white
        rw [same] at empty
        exact some_ (List.length_eq_zero_iff.mp empty)
      have missing : melangeEntry host line = none := by
        rw [melangeEntry, no_entry host (by rw [nothing]; decide)]
        rfl
      rw [missing]
    · split
      · rename_i sign
        have code := parseFilterGroup_eq host (labelOf_nul_free line)
        have key : keyAddress host line = parseAddress host (removeWhiteSpace (before (cstr line) (str "="))) := by
          rw [keyAddress]
          simp [noComment, sign]
        have given : after (cstr line) (str "=") = labelOf line := rfl
        rw [melangeEntry, key, ← code, given]
        generalize parseFilterGroup host.filter_groups (removeWhiteSpace (labelOf line)) = stored
        obtain ⟨group, special⟩ := stored
        dsimp only
        split
        · cases parseAddress host (removeWhiteSpace (before (cstr line) (str "="))) <;> rfl
        · cases parseAddress host (removeWhiteSpace (before (cstr line) (str "="))) <;> rfl
      · rename_i unsigned
        have missing : melangeEntry host line = none := by
          rw [melangeEntry, no_entry host (by simpa using unsigned)]
          rfl
        rw [missing]

def linesRead (lines : List Str) : List Str := lines.takeWhile fun line => decide (line.length < 2048)

theorem readMelangeLines_holds (host : Host) (lines : List Str) {g : IpGroups} {es : List (Address × Int)}
    (held : PluginHolds g es) :
    PluginHolds (readMelangeLines host lines g) (es ++ (linesRead lines).filterMap (melangeEntry host)) := by
  induction lines generalizing g es with
  | nil =>
    rw [linesRead, List.takeWhile_nil, List.filterMap_nil, List.append_nil]
    exact held
  | cons line lines ih =>
    rw [readMelangeLines, linesRead, List.takeWhile_cons]
    by_cases short : line.length < 2048
    · rw [if_neg (by omega), if_pos (decide_eq_true short), addMelangeLine_eq, List.filterMap_cons]
      cases melangeEntry host line with
      | none => exact ih held
      | some e =>
        have more := ih (store_holds held e.1 e.2)
        rwa [List.append_assoc, List.singleton_append] at more
    · rw [if_pos (by omega), if_neg (by simpa using short), List.filterMap_nil, List.append_nil]
      exact held

theorem readIPMelangeList_holds (host : Host) (lines : List Str) :
    ∃ g, PluginHolds g ((linesRead lines).filterMap (melangeEntry host)) ∧
      readIPMelangeList host lines = { g with iplist := g.iplist.insertionSort fun a b => a.1 ≤ b.1 } :=
  have empty : PluginHolds ⟨[], [], []⟩ [] := ⟨rfl, rfl, rfl⟩
  ⟨_, readMelangeLines_holds host lines empty, rfl⟩

/- The list. -/

abbrev ipMap : Kind := ⟨true, false, true⟩

theorem toInteger_groupOf {label : Str} (nulFree : 0 ∉ label) (plain : isSpecialGroup label = false) :
    toInteger (groupOf label) = toInteger (firstDigits label) := by
  rw [groupOf_eq nulFree plain]
  split
  · rename_i none_
    have cut : DigitFree (cutLabel label) := by
      apply digitFree_of_none
      rw [cutLabel, firstDigits_dropLabel _ (by decide) filter_free, firstDigits_trimmed, none_]
    rw [none_, toInteger_free cut, toInteger_free fun _ member => absurd member List.not_mem_nil]
  · rfl

def mapStore (v : Str) (k : Contents) : Address → Contents
  | .single addr => { k with ipmaplist := k.ipmaplist ++ [(addr, v)] }
  | .subnet addr mask => { k with ipmapsubnetlist := k.ipmapsubnetlist ++ [⟨addr &&& mask, mask, v⟩] }
  | .range startaddr endaddr => { k with ipmaprangelist := k.ipmaprangelist ++ [⟨startaddr, endaddr, v⟩] }

section Maps
variable {host : Host} (shapes : Shapes host)
include shapes

omit shapes in
theorem mapStore_holds {k : Contents} {es : List (Address × Str)} (held : MapHolds k es) (a : Address) (v : Str) :
    MapHolds (mapStore v k a) (es ++ [(a, v)]) := by
  obtain ⟨singles, subnets, ranges⟩ := held
  cases a <;> constructor <;> simp [mapStore, singles, subnets, ranges, singlesOf, subnetsOf, rangesOf, List.filterMap_append]

omit shapes in
theorem addToIPMap_eq {line : Str} (sign : contains line (str "=") = true) (k : Contents) : addToIPMap host line k =
    if !isSpecialGroup (after line (str "=")) && (toInteger (groupOf (after line (str "="))) < 1 ||
        toInteger (groupOf (after line (str "="))) > host.filter_groups) then k
    else
      match parseAddress host (removeWhiteSpace (before line (str "="))) with
      | some a => mapStore (groupOf (after line (str "="))) k a
      | none => k := by
  rw [addToIPMap, if_pos sign]
  dsimp only
  congr 1
  cases parseAddress host (removeWhiteSpace (before line (str "="))) with
  | none => rfl
  | some a => cases a <;> rfl

omit shapes in
theorem listLabel_nul_free (line : Str) : 0 ∉ listLabel line := by
  obtain ⟨p, q, whole, -⟩ := line_parts line
  intro member
  apply cstr_nul_free line
  rw [whole]
  exact List.mem_append_right _ (List.mem_append_left _ ((after_suffix _ _).subset member))

theorem addToIPMap_holds {k : Contents} {es : List (Address × Str)} (held : MapHolds k es) {line : Str}
    (plain : startsWith (cstr line) (str "#") = false) (short : (cstr line).length ≤ 2048) :
    MapHolds (addToIPMap host (stripped line) k) (es ++ (mapEntry host line).toList) := by
  have entry : mapEntry host line = (keyAddress host line).bind fun a => (mapGroup host (listLabel line)).map fun v => (a, v) :=
    if_neg (by omega)
  by_cases sign : ch '=' ∈ stripped line
  · have key : keyAddress host line = parseAddress host (removeWhiteSpace (before (stripped line) (str "="))) := by
      apply Option.ext
      intro a
      rw [key_iff shapes line a]
      simp [plain, sign]
    have cut : after (stripped line) (str "=") = listLabel line := rfl
    rw [addToIPMap_eq ((contains_byte_iff _ _).mpr sign), entry, ← key, cut, mapGroup]
    have stored : ∀ v : Str, MapHolds (match keyAddress host line with
        | some a => mapStore v k a
        | none => k) (es ++ ((keyAddress host line).bind fun a => some (a, v)).toList) := by
      intro v
      cases keyAddress host line with
      | none => simpa using held
      | some a => exact mapStore_holds held a v
    by_cases special : isSpecialGroup (listLabel line) = true
    · have nothing : groupOf (listLabel line) = [] := if_pos special
      rw [if_neg (by simp [special]), if_pos special, nothing]
      exact stored []
    · have value := toInteger_groupOf (listLabel_nul_free line) (Bool.eq_false_of_not_eq_true special)
      rw [if_neg special, value, number]
      by_cases group : 1 ≤ toInteger (firstDigits (listLabel line)) ∧
          toInteger (firstDigits (listLabel line)) ≤ host.filter_groups
      · rw [if_pos group, if_neg (by simp [special]; omega)]
        exact stored _
      · rw [if_neg group, if_pos (by simp [special]; omega)]
        cases keyAddress host line <;> simpa using held
  · have missing : mapEntry host line = none := by
      have none_ : keyAddress host line = none := by
        cases found : keyAddress host line with
        | none => rfl
        | some a => exact absurd ((key_iff shapes line a).mp found).2.1 sign
      rw [entry, none_]
      rfl
    have unsigned : ¬contains (stripped line) (str "=") = true := (contains_byte_iff _ _).not.mpr sign
    rw [addToIPMap, if_neg unsigned, missing]
    simpa using held

theorem short_no_entry {line : Str} (short : (cstr line).length < 2) : keyAddress host line = none := by
  cases found : keyAddress host line with
  | none => rfl
  | some a =>
    obtain ⟨-, sign, parsed⟩ := (key_iff shapes line a).mp found
    have dot := removeWhiteSpace_subset _ (parse_bytes shapes parsed).1
    have inside := (before_isPrefix _ _).subset dot
    obtain ⟨p, q, whole, -⟩ := line_parts line
    have within : ∀ b ∈ stripped line, b ∈ cstr line := by
      intro b member
      rw [whole]
      exact List.mem_append_right _ (List.mem_append_left _ member)
    exfalso
    match cstr line, short, within _ sign, within _ inside with
    | [], _, none_, _ => exact absurd none_ List.not_mem_nil
    | [b], _, first, second =>
      rw [List.mem_singleton] at first second
      exact absurd (first.trans second.symm) (by decide)

theorem parseLine_cases {source : Source} (file : source.stdin = false) (line : Str) :
    (mapEntry host line = none ∧ (parseLine source line = .skip ∨ (∃ temp, parseLine source line = .timeTag temp) ∨
      ∃ name, parseLine source line = .category name)) ∨
    (∃ inc, parseLine source line = .another inc) ∨
    (startsWith (cstr line) (str "#") = false ∧ (cstr line).length ≤ 2048 ∧
      parseLine source line = .entry (stripped line)) := by
  have noEntry : keyAddress host line = none → mapEntry host line = none := by
    intro none_
    rw [mapEntry, none_]
    split <;> rfl
  unfold parseLine
  dsimp only
  split
  · rename_i short
    exact Or.inl ⟨noEntry (short_no_entry shapes short), Or.inl rfl⟩
  · split
    · rename_i long
      exact Or.inl ⟨if_pos long, Or.inl rfl⟩
    · rename_i fits
      split
      · rename_i comment
        have none_ : mapEntry host line = none := by
          apply noEntry
          rw [keyAddress]
          simp [comment]
        refine Or.inl ⟨none_, ?_⟩
        split
        · exact Or.inr (Or.inl ⟨_, rfl⟩)
        · split
          · exact Or.inr (Or.inr ⟨_, rfl⟩)
          · rw [file, Bool.false_and, if_neg (by decide)]
            exact Or.inl rfl
      · rename_i plain
        rw [file]
        split
        · exact Or.inr (Or.inl ⟨_, rfl⟩)
        · exact Or.inr (Or.inr ⟨Bool.eq_false_of_not_eq_true plain, by omega, rfl⟩)

/-- The line is read: it fits the buffer, a time limit in it is one, and it names no other file. -/
structure Readable (source : Source) (line : Str) : Prop where
  fits : line.length < 20000
  timed : ∀ temp, parseLine source line = .timeTag temp → readTimeTag temp ≠ none
  alone : ∀ inc, parseLine source line ≠ .another inc

omit shapes in
theorem addEntry_map (filters : Int) (temp : Str) (k : Contents) : addEntry host ipMap filters temp k =
    if temp.length = 0 then some k else some (addToIPMap host temp k) := rfl

theorem addLine_holds {source : Source} (file : source.stdin = false) {line : Str} (readable : Readable source line)
    (filters : Int) {k : Contents} {es : List (Address × Str)} (held : MapHolds k es) :
    ∃ k', addLine host ipMap filters (parseLine source line) k = some k' ∧ MapHolds k' (es ++ (mapEntry host line).toList) := by
  rcases parseLine_cases shapes file line with ⟨none_, other⟩ | ⟨inc, names⟩ | ⟨plain, short, entry⟩
  · rw [none_, Option.toList_none, List.append_nil]
    rcases other with skip | ⟨temp, timed⟩ | ⟨name, category⟩
    · exact ⟨k, by rw [skip]; rfl, held⟩
    · obtain ⟨tl, read⟩ := Option.ne_none_iff_exists'.mp (readable.timed temp timed)
      refine ⟨{ k with limit := some tl }, ?_, ⟨held.ipmaplist, held.ipmapsubnetlist, held.ipmaprangelist⟩⟩
      rw [timed, addLine, read]
      rfl
    · refine ⟨{ k with category := name }, ?_, ⟨held.ipmaplist, held.ipmapsubnetlist, held.ipmaprangelist⟩⟩
      rw [category]
      rfl
  · exact absurd names (readable.alone inc)
  · have stored := addToIPMap_holds shapes held plain short
    rw [entry]
    by_cases empty : (stripped line).length = 0
    · have unsigned : ¬contains (stripped line) (str "=") = true := by
        rw [List.length_eq_zero_iff.mp empty]
        decide
      rw [addToIPMap, if_neg unsigned] at stored
      exact ⟨k, by rw [addLine, addEntry_map, if_pos empty], stored⟩
    · exact ⟨_, by rw [addLine, addEntry_map, if_neg empty], stored⟩

theorem readLines_holds {source : Source} (file : source.stdin = false) (filters : Int)
    (another : Str → Contents → Option (Bool × Contents)) (lines : List Str)
    (readable : ∀ line ∈ lines, Readable source line)
    {k : Contents} {es : List (Address × Str)} (held : MapHolds k es) :
    ∃ k', readLines source (addLine host ipMap filters) another lines k = some (true, [], k') ∧
      MapHolds k' (es ++ lines.filterMap (mapEntry host)) := by
  induction lines generalizing k es with
  | nil => exact ⟨k, rfl, by simpa using held⟩
  | cons line lines ih =>
    obtain ⟨fits, timed, alone⟩ := readable line List.mem_cons_self
    obtain ⟨k', added, held'⟩ := addLine_holds shapes file ⟨fits, timed, alone⟩ filters held
    obtain ⟨k'', run, held''⟩ := ih (fun other member => readable other (List.mem_cons_of_mem _ member)) held'
    refine ⟨k'', ?_, ?_⟩
    · rw [readLines, if_neg (by omega)]
      split
      · rename_i ends
        exact absurd ends (not_endlist file line)
      · rename_i inc names
        exact absurd names (alone inc)
      · rw [added]
        exact run
    · have parts : (line :: lines).filterMap (mapEntry host) =
          (mapEntry host line).toList ++ lines.filterMap (mapEntry host) := by
        rw [List.filterMap_cons]
        cases mapEntry host line <;> rfl
      rwa [parts, ← List.append_assoc]

end Maps

end GuardianIpGroups
