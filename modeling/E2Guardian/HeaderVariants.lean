import E2Guardian.HeaderFields

/- White space and letter case. A line may be sent with other white space behind its colon and its
   name in other letters, and some values in other letters. What a header object derives should be
   the same for all of these; here stands for which headers it is. -/
namespace GuardianHeaderVariants
open GuardianString GuardianHttp GuardianHeaderPointers GuardianHeaderIndex GuardianLineWrites GuardianUrls GuardianHeaderFields
open GuardianSockets

def isBlank (c : UInt8) : Bool := c == ch ' ' || c == ch '\t'

/-- The names of the lines whose values are compared without regard to case. -/
def caseless : List Str := [str "connection", str "proxy-connection", str "transfer-encoding", str "expect"]

inductive Variant : Str → Str → Prop where
  | field (name name' gap gap' value value' : Str) (single : ch ':' ∉ name) (names : toLower name' = toLower name)
      (blanks : ∀ c ∈ gap, isBlank c = true) (blanks' : ∀ c ∈ gap', isBlank c = true)
      (values : value' = value ∨ (toLower name ∈ caseless ∧ toLower value' = toLower value)) :
      Variant (name ++ ch ':' :: (gap ++ value)) (name' ++ ch ':' :: (gap' ++ value'))
  | same (line : Str) : Variant line line

/-- The same header but for white space and case. -/
structure Varied (h g : HTTPHeader) : Prop where
  front : g.front = h.front
  kind : g.is_response = h.is_response
  icap : g.icap = h.icap
  lines : List.Forall₂ Variant (fields h) (fields g)

structure Derived where
  url : Str
  hosturl : Str
  contentType : Str
  contentEncoding : Str
  transferEncoding : Str
  disposition : Str
  contentLength : Int
  chunked : Bool
  expects_100 : Bool
  persistent : Bool
  deriving DecidableEq

def derived (h : HTTPHeader) : Derived where
  url := (h.getUrl false false).1
  hosturl := (h.getUrl true false).1
  contentType := h.getContentType
  contentEncoding := h.contentEncoding
  transferEncoding := h.transferEncoding
  disposition := h.disposition
  contentLength := h.contentLength
  chunked := h.chunked
  expects_100 := h.expects_100
  persistent := h.isPersistent

/-- White space and case make no difference to what is derived. -/
def Steady (o : Options) (allowpersistent : Bool) (h : HTTPHeader) : Prop :=
  ∀ g, Unread g → Varied h g → derived (g.checkheader o allowpersistent) = derived (h.checkheader o allowpersistent)

/- Lines. -/

def valueOf (line : Str) : Str := (after line (str ":")).dropWhile isBlank

theorem byte_facts : ∀ c, isBlank (tolower c) = isBlank c ∧ (tolower c = ch ':' ↔ c = ch ':') ∧
    tolower (tolower c) = tolower c ∧ (isWhiteSpace c = true → isSpace c = true) := byte_cases (by decide +kernel)

theorem tolower_blank (c : UInt8) : isBlank (tolower c) = isBlank c := (byte_facts c).1

theorem tolower_colon (c : UInt8) : tolower c = ch ':' ↔ c = ch ':' := (byte_facts c).2.1

theorem tolower_twice (c : UInt8) : tolower (tolower c) = tolower c := (byte_facts c).2.2.1

theorem colonless_toLower {name : Str} (single : ch ':' ∉ name) : ch ':' ∉ toLower name := by
  intro member
  obtain ⟨c, inside, lower⟩ := List.mem_map.mp member
  exact single ((tolower_colon c).mp lower ▸ inside)

theorem toLower_append (a b : Str) : toLower (a ++ b) = toLower a ++ toLower b := List.map_append

theorem toLower_dropWhile (s : Str) : toLower (s.dropWhile isBlank) = (toLower s).dropWhile isBlank := by
  unfold toLower
  rw [List.dropWhile_map]
  have same : isBlank ∘ tolower = isBlank := funext tolower_blank
  rw [same]

theorem blanks_of {gap : Str} (all : gap.all isBlank = true) : ∀ c ∈ gap, isBlank c = true := List.all_eq_true.mp all

theorem dropWhile_blanks {gap : Str} (blanks : ∀ c ∈ gap, isBlank c = true) (value : Str) :
    (gap ++ value).dropWhile isBlank = value.dropWhile isBlank := List.dropWhile_append_of_pos blanks

theorem after_colon {name : Str} (single : ch ':' ∉ name) (rest : Str) : after (name ++ ch ':' :: rest) (str ":") = rest := by
  have parts : name ++ ch ':' :: rest = name ++ (str ":" ++ rest) := rfl
  rw [parts]
  exact after_at rfl single rest

theorem valueOf_field {name gap : Str} (single : ch ':' ∉ name) (blanks : ∀ c ∈ gap, isBlank c = true) (value : Str) :
    valueOf (name ++ ch ':' :: (gap ++ value)) = value.dropWhile isBlank := by
  rw [valueOf, after_colon single, dropWhile_blanks blanks]

structure Colon (name : String) (word : Str) : Prop where
  text : str name = word ++ [ch ':']
  single : ch ':' ∉ word

theorem named_field {name : String} {word front : Str} (colon : Colon name word) (single : ch ':' ∉ front) (rest : Str) :
    named (front ++ ch ':' :: rest) name = decide (toLower front = word) := by
  have lower : toLower (front ++ ch ':' :: rest) = toLower front ++ ([ch ':'] ++ toLower rest) := by
    rw [toLower_append]
    rfl
  rw [Bool.eq_iff_iff, named_iff, colon.text, lower, decide_eq_true_iff]
  constructor
  · rintro ⟨more, whole⟩
    rw [List.append_assoc] at whole
    exact ((cut_unique colon.single (colonless_toLower single)).mp whole).1.symm
  · rintro rfl
    exact ⟨toLower rest, by rw [List.append_assoc]⟩

theorem line_parts {line word : Str} {name : String} (colon : Colon name word) (here : named line name = true) :
    ∃ front gap, line = front ++ ch ':' :: (gap ++ valueOf line) ∧ ch ':' ∉ front ∧ toLower front = word ∧
      ∀ c ∈ gap, isBlank c = true := by
  obtain ⟨more, whole⟩ := (named_iff line name).mp here
  rw [colon.text] at whole
  obtain ⟨head, rest, rfl, lower, -⟩ := List.map_eq_append_iff.mp whole.symm
  obtain ⟨front, last, rfl, lower', lower''⟩ := List.map_eq_append_iff.mp lower
  obtain ⟨c, rfl, sign⟩ := List.map_eq_singleton_iff.mp lower''
  have sign' := (tolower_colon c).mp sign
  subst sign'
  have single : ch ':' ∉ front := by
    intro member
    refine colon.single ?_
    rw [← lower']
    exact List.mem_map.mpr ⟨ch ':', member, sign⟩
  have parts : front ++ [ch ':'] ++ rest = front ++ ch ':' :: rest := by simp
  refine ⟨front, rest.takeWhile isBlank, ?_, single, lower', fun c member => List.mem_takeWhile_imp member⟩
  rw [parts, valueOf, after_colon single, List.takeWhile_append_dropWhile]

theorem Variant.named_eq {line line' word : Str} (variant : Variant line line') {name : String} (colon : Colon name word) :
    named line' name = named line name := by
  cases variant with
  | field front front' gap gap' value value' single names blanks blanks' values =>
    have single' : ch ':' ∉ front' := by
      intro member
      refine colonless_toLower single ?_
      rw [← names]
      exact List.mem_map.mpr ⟨ch ':', member, rfl⟩
    rw [named_field colon single, named_field colon single', names]
  | same => rfl

theorem Variant.value {line line' word : Str} (variant : Variant line line') {name : String} (colon : Colon name word)
    (here : named line name = true) : toLower (valueOf line') = toLower (valueOf line) ∧
      (word ∉ caseless → valueOf line' = valueOf line) := by
  cases variant with
  | field front front' gap gap' value value' single names blanks blanks' values =>
    have single' : ch ':' ∉ front' := by
      intro member
      refine colonless_toLower single ?_
      rw [← names]
      exact List.mem_map.mpr ⟨ch ':', member, rfl⟩
    rw [named_field colon single, decide_eq_true_iff] at here
    rw [valueOf_field single blanks, valueOf_field single' blanks']
    rcases values with rfl | ⟨listed, lower⟩
    · exact ⟨rfl, fun _ => rfl⟩
    · refine ⟨?_, fun other => absurd (here ▸ listed) other⟩
      rw [toLower_dropWhile, toLower_dropWhile, lower]
  | same => exact ⟨rfl, fun _ => rfl⟩

/- What the getters read of a line. -/

theorem front_free {front word : Str} (lower : toLower front = word) {c : UInt8} (absent : tolower c ∉ word) : c ∉ front := by
  intro member
  refine absent ?_
  rw [← lower]
  exact List.mem_map.mpr ⟨c, member, rfl⟩

/-- A search for a text that does not begin in the name is one in the value. -/
theorem search_value {line word : Str} {name : String} (colon : Colon name word) (here : named line name = true) {bs : Str}
    {c : UInt8} (begins : bs.head? = some c) (absent : tolower c ∉ word) (sign : c ≠ ch ':') (plain : isBlank c = false) :
    after line bs = after (valueOf line) bs ∧ contains line bs = contains (valueOf line) bs := by
  obtain ⟨front, gap, whole, single, lower, blanks⟩ := line_parts colon here
  have outside : c ∉ front ++ ch ':' :: gap := by
    intro member
    rcases List.mem_append.mp member with inside | inside
    · exact front_free lower absent inside
    · rcases List.mem_cons.mp inside with same | inside
      · exact sign same
      · rw [blanks c inside] at plain
        cases plain
  have parts : line = (front ++ ch ':' :: gap) ++ valueOf line := by
    rw [List.append_assoc]
    exact whole
  generalize valueOf line = value at parts
  have found := find_behind begins outside value
  rw [← parts] at found
  constructor
  · unfold after
    rw [found]
    cases find bs value with
    | none => rfl
    | some i =>
      have places : i + (front ++ ch ':' :: gap).length + bs.length =
          (front ++ ch ':' :: gap).length + (i + bs.length) := by omega
      simp only [Option.map_some]
      rw [parts, places, List.drop_length_add_append]
  · rw [contains, contains, found, Option.isSome_map]

theorem colon_disposition : Colon "content-disposition:" (str "content-disposition") := ⟨by decide, by decide⟩

def dispositionOf (line : Str) : Str :=
  let filename := after (after line (str "filename")) (str "=")
  let filename := if contains filename (str ";") then before filename (str ";") else filename
  let filename := removeWhiteSpace filename
  if contains filename (str "\"") then before (after filename (str "\"")) (str "\"") else filename

theorem dispositionOf_variant {line line' : Str} (variant : Variant line line')
    (here : named line "content-disposition:" = true) :
    dispositionOf line' = dispositionOf line := by
  have here' : named line' "content-disposition:" = true := (variant.named_eq colon_disposition).trans here
  have value := (variant.value colon_disposition here).2 (by decide)
  have cut := (@search_value _ _ _ colon_disposition here (str "filename") _ rfl (by decide) (by decide) (by decide)).1
  have cut' := (@search_value _ _ _ colon_disposition here' (str "filename") _ rfl (by decide) (by decide) (by decide)).1
  unfold dispositionOf
  rw [cut, cut', value]

theorem colon_length : Colon "content-length:" (str "content-length") := ⟨by decide, by decide⟩

theorem white_of_blank {c : UInt8} (blank : isBlank c = true) : isWhiteSpace c = true := by
  revert c
  intro c blank
  rcases Bool.or_eq_true_iff.mp blank with same | same
  · rw [beq_iff_eq.mp same]
    rfl
  · rw [beq_iff_eq.mp same]
    rfl

theorem space_of_white (c : UInt8) : isWhiteSpace c = true → isSpace c = true := (byte_facts c).2.2.2

/-- White space in front of a text does not matter to what is left when it is trimmed. -/
theorem removeWhiteSpace_behind {gap value : Str} (blanks : ∀ c ∈ gap, isBlank c = true)
    (some_ : ¬ value.all isWhiteSpace = true) :
    removeWhiteSpace (gap ++ value) = removeWhiteSpace value := by
  have more : ¬ (gap ++ value).all isWhiteSpace = true := by
    rw [List.all_append, Bool.and_eq_true]
    exact fun both => some_ both.2
  unfold removeWhiteSpace
  rw [if_neg some_, if_neg more, List.dropWhile_append_of_pos fun c member => white_of_blank (blanks c member)]

theorem toOffset_white {s : Str} (white : s.all isWhiteSpace = true) : toOffset s = 0 := by
  have none_ : s.dropWhile isSpace = [] := by
    rw [List.dropWhile_eq_nil_iff]
    exact fun c member => space_of_white c (List.all_eq_true.mp white c member)
  have same : removeWhiteSpace s = s := if_pos white
  unfold toOffset
  rw [same, none_]
  split
  · rfl
  · rfl

/-- A length line reads the same whatever white space it has, unless nothing at all is behind it. -/
theorem lengthOf_value {line : Str} (here : named line "content-length:" = true) (some_ : valueOf line ≠ []) :
    lengthOf line = some (if (valueOf line).all isWhiteSpace then 0 else toOffset (removeWhiteSpace (valueOf line))) := by
  obtain ⟨front, gap, whole, single, _, blanks⟩ := line_parts colon_length here
  have behind : after line (str ":") = gap ++ valueOf line := by
    have cut := after_colon single (gap ++ valueOf line)
    rw [← whole] at cut
    exact cut
  unfold lengthOf headerVal
  rw [if_pos here, behind]
  generalize valueOf line = value at some_
  by_cases white : value.all isWhiteSpace = true
  · have all : (gap ++ value).all isWhiteSpace = true := by
      rw [List.all_append, white, Bool.and_true, List.all_eq_true]
      exact fun c member => white_of_blank (blanks c member)
    have same : removeWhiteSpace (gap ++ value) = gap ++ value := if_pos all
    have long : (gap ++ value).length > 0 := List.length_pos_iff.mpr fun none_ => some_ (List.append_eq_nil_iff.mp none_).2
    simp only [same]
    rw [if_pos long, if_pos white, Option.map_some, toOffset_white all]
  · have trimmed := removeWhiteSpace_behind blanks white
    have long : (removeWhiteSpace value).length > 0 := List.length_pos_iff.mpr (removeWhiteSpace_ne_nil white)
    simp only [trimmed]
    rw [if_pos long, if_neg white, Option.map_some]

theorem lengthOf_variant {line line' : Str} (variant : Variant line line')
    (some_ : named line "content-length:" = true → valueOf line ≠ []) : lengthOf line' = lengthOf line := by
  have same := variant.named_eq colon_length
  by_cases here : named line "content-length:" = true
  · have value := (variant.value colon_length here).2 (by decide)
    rw [lengthOf_value here (some_ here), lengthOf_value (same.trans here) (value ▸ some_ here), value]
  · rw [lengthOf, lengthOf, if_neg here, if_neg (same ▸ here)]

/- The condition. -/

def asksToContinue (line : Str) : Prop := named line "expect:" = true ∧ str "100-continue" <+: toLower (valueOf line)

def connectionLine (h : HTTPHeader) : Option Str := (fields h).find? (owned (!h.is_response) .pproxyconnection)

def sureLength (line : Str) : Option Int := if valueOf line = [] then none else lengthOf line

/-- A length of 0 in place of the first one that is given makes no difference: not to the length, as there is no body or 0 is
    given, and not to the connection, as it does not ask for a length or is closed anyway. -/
def LengthIdle (allowpersistent : Bool) (h : HTTPHeader) : Prop :=
  (bodiless h.is_response h.front = true ∨ (fields h).findSome? sureLength = some 0) ∧
    (unkept h.is_response h.front ((fields h).findSome? sureLength) = unkept h.is_response h.front (some 0) ∨
      allowpersistent = false ∨ (h.icap = false ∧ connectionLine h = none))

/-- No line is read by a getter that cuts it at a blank, looks for small letters or takes a blank for a length. -/
structure Unspaced (allowpersistent : Bool) (h : HTTPHeader) : Prop where
  contentType : ∀ l ∈ fields h, named l "content-type:" = false
  contentEncoding : h.is_response = true → ∀ l ∈ fields h, named l "content-encoding:" = false
  transferEncoding : ∀ l ∈ fields h, named l "transfer-encoding:" = false
  expect : ∀ l ∈ fields h, ¬ asksToContinue l
  connection : allowpersistent = true → h.icap = false →
    unkept h.is_response h.front ((fields h).findSome? lengthOf) = false →
    ∀ line ∈ connectionLine h, contains (toLower (valueOf line)) (str "lose") = false
  length : (∀ l ∈ (fields h).find? fun line => named line "content-length:", valueOf l ≠ []) ∨ LengthIdle allowpersistent h

def saysSame (https : Bool) (line : Str) : Prop :=
  validPort https (toInteger (after (valueOf line) (str " "))) = validPort https (toInteger (valueOf line))

/-- The URL in the first line has its port, or there is no URL that one could be added to. -/
def ownPort (firstline : Str) : Bool :=
  targetRead firstline = [] || isRelative firstline || contains (hostText (targetRead firstline)) (str ":")

/-- The URL is not made with a line that is cut at a blank. -/
def Shielded (h : HTTPHeader) : Prop :=
  h.is_response = true ∨ (((∀ l ∈ fields h, named l "host:" = false) ∨ isRelative h.front = false) ∧
    (ownPort h.front = true ∨ ∀ l ∈ (fields h).find? fun line => named line "port:",
      saysSame (before h.front (str " ") = str "CONNECT") l))

section Sufficient
variable {o : Options} {allowpersistent : Bool} {h g : HTTPHeader}

theorem find_variant {q : Str → Bool} {lines lines' : List Str} (varied : List.Forall₂ Variant lines lines')
    (same : ∀ l l', Variant l l' → q l' = q l) : (lines.find? q = none ∧ lines'.find? q = none) ∨
      ∃ l l', lines.find? q = some l ∧ lines'.find? q = some l' ∧ Variant l l' ∧ q l = true := by
  induction varied with
  | nil => exact .inl ⟨rfl, rfl⟩
  | @cons l l' rest rest' variant _ ih =>
    rw [List.find?_cons, List.find?_cons, same l l' variant]
    cases here : q l with
    | true => exact .inr ⟨l, l', rfl, rfl, variant, here⟩
    | false => exact ih

theorem all_variant {P : Str → Prop} {lines lines' : List Str} (varied : List.Forall₂ Variant lines lines')
    (same : ∀ l l', Variant l l' → P l → P l') (all : ∀ l ∈ lines, P l) : ∀ l ∈ lines', P l := by
  induction varied with
  | nil => simp
  | @cons l l' rest rest' variant _ ih =>
    rw [List.forall_mem_cons] at all ⊢
    exact ⟨same l l' variant all.1, ih all.2⟩

theorem none_variant {q : Str → Bool} {lines lines' : List Str} (varied : List.Forall₂ Variant lines lines')
    (same : ∀ l l', Variant l l' → q l' = q l) (none_ : ∀ l ∈ lines, q l = false) : ∀ l ∈ lines', q l = false :=
  all_variant varied (fun l l' variant no => (same l l' variant).trans no) none_

theorem findSome_variant {lines lines' : List Str} (varied : List.Forall₂ Variant lines lines')
    (valued : ∀ l ∈ lines.find? fun line => named line "content-length:", valueOf l ≠ []) :
    lines'.findSome? lengthOf = lines.findSome? lengthOf := by
  induction varied with
  | nil => rfl
  | @cons l l' rest rest' variant _ ih =>
    rw [List.find?_cons] at valued
    rw [List.findSome?_cons, List.findSome?_cons]
    cases here : named l "content-length:" with
    | true =>
      -- the lines behind it are not read
      rw [here] at valued
      have value : valueOf l ≠ [] := valued l rfl
      rw [lengthOf_variant variant fun _ => value, lengthOf_value here value]
    | false =>
      rw [here] at valued
      rw [lengthOf_variant variant fun no => absurd no (by simp [here]), ih valued]

theorem sureLength_variant {line line' : Str} (variant : Variant line line') : sureLength line' = sureLength line := by
  unfold sureLength
  by_cases here : named line "content-length:" = true
  · rw [(variant.value colon_length here).2 (by decide)]
    split
    · rfl
    · rename_i some_
      exact lengthOf_variant variant fun _ => some_
  · have here' : ¬ named line' "content-length:" = true := by rwa [variant.named_eq colon_length]
    rw [lengthOf, lengthOf, if_neg here, if_neg here', ite_self, ite_self]

theorem sureLengths_variant {lines lines' : List Str} (varied : List.Forall₂ Variant lines lines') :
    lines'.findSome? sureLength = lines.findSome? sureLength := by
  induction varied with
  | nil => rfl
  | cons variant _ ih => rw [List.findSome?_cons, List.findSome?_cons, sureLength_variant variant, ih]

/-- Of a line with nothing behind its colon but blanks, the length is missing or 0. -/
theorem lengthOf_empty {line : Str} (here : named line "content-length:" = true) (empty : valueOf line = []) :
    lengthOf line = none ∨ lengthOf line = some 0 := by
  obtain ⟨front, gap, whole, single, _, blanks⟩ := line_parts colon_length here
  have white : gap.all isWhiteSpace = true := List.all_eq_true.mpr fun c member => white_of_blank (blanks c member)
  rw [empty, List.append_nil] at whole
  have behind : after line (str ":") = gap := by
    rw [whole]
    exact after_colon single gap
  have same : removeWhiteSpace gap = gap := if_pos white
  unfold lengthOf headerVal
  rw [if_pos here, behind]
  simp only [same]
  split
  · exact .inr (congrArg some (toOffset_white white))
  · exact .inl rfl

theorem lengths_cases (lines : List Str) :
    lines.findSome? lengthOf = lines.findSome? sureLength ∨ lines.findSome? lengthOf = some 0 := by
  induction lines with
  | nil => exact .inl rfl
  | cons line lines ih =>
    rw [List.findSome?_cons, List.findSome?_cons, sureLength]
    by_cases here : named line "content-length:" = true
    · by_cases empty : valueOf line = []
      · rw [if_pos empty]
        rcases lengthOf_empty here empty with none_ | zero
        · rw [none_]
          exact ih
        · exact .inr (by rw [zero])
      · rw [if_neg empty, lengthOf_value here empty]
        exact .inl rfl
    · have none_ : lengthOf line = none := if_neg here
      rw [none_, ite_self]
      exact ih

theorem find_none {q : Str → Bool} {lines : List Str} (none_ : ∀ l ∈ lines, q l = false) : lines.find? q = none :=
  List.find?_eq_none.mpr fun l member => by simp [none_ l member]

theorem colon_type : Colon "content-type:" (str "content-type") := ⟨by decide, by decide⟩

theorem colon_encoding : Colon "content-encoding:" (str "content-encoding") := ⟨by decide, by decide⟩

theorem colon_transfer : Colon "transfer-encoding:" (str "transfer-encoding") := ⟨by decide, by decide⟩

theorem colon_expect : Colon "expect:" (str "expect") := ⟨by decide, by decide⟩

theorem colon_connection : Colon "connection:" (str "connection") := ⟨by decide, by decide⟩

theorem colon_proxyConnection : Colon "proxy-connection:" (str "proxy-connection") := ⟨by decide, by decide⟩

theorem colon_host : Colon "host:" (str "host") := ⟨by decide, by decide⟩

theorem colon_port : Colon "port:" (str "port") := ⟨by decide, by decide⟩

theorem contentType_steady (unread : Unread h) (unread' : Unread g) (varied : Varied h g)
    (unspaced : ∀ l ∈ fields h, named l "content-type:" = false) :
    (g.checkheader o allowpersistent).getContentType = (h.checkheader o allowpersistent).getContentType := by
  have none_ := none_variant varied.lines (fun _ _ variant => variant.named_eq colon_type) unspaced
  unfold HTTPHeader.getContentType
  rw [at_contenttype unread, at_contenttype unread', find_none unspaced, find_none none_]

theorem contentEncoding_steady (unread : Unread h) (unread' : Unread g) (varied : Varied h g)
    (unspaced : h.is_response = true → ∀ l ∈ fields h, named l "content-encoding:" = false) :
    (g.checkheader o allowpersistent).contentEncoding = (h.checkheader o allowpersistent).contentEncoding := by
  have mine : ∀ l ∈ fields h, (h.is_response && named l "content-encoding:") = false := by
    intro l member
    cases kind : h.is_response with
    | true => exact unspaced kind l member
    | false => rfl
  have yours : ∀ l ∈ fields g, (g.is_response && named l "content-encoding:") = false := by
    rw [varied.kind]
    refine none_variant varied.lines (fun _ _ variant => ?_) mine
    rw [variant.named_eq colon_encoding]
  unfold HTTPHeader.contentEncoding HTTPHeader.encodingOf
  rw [at_contentencoding unread, at_contentencoding unread', find_none mine, find_none yours]

theorem transferEncoding_steady (unread : Unread h) (unread' : Unread g) (varied : Varied h g)
    (unspaced : ∀ l ∈ fields h, named l "transfer-encoding:" = false) :
    (g.checkheader o allowpersistent).transferEncoding = (h.checkheader o allowpersistent).transferEncoding ∧
      (g.checkheader o allowpersistent).chunked = (h.checkheader o allowpersistent).chunked := by
  have none_ := none_variant varied.lines (fun _ _ variant => variant.named_eq colon_transfer) unspaced
  have unchunked : ∀ lines : List Str, (∀ l ∈ lines, named l "transfer-encoding:" = false) →
      lines.any (fun line => named line "transfer-encoding:" && saysChunked line) = false := by
    intro lines absent
    rw [List.any_eq_false]
    intro l member
    simp [absent l member]
  constructor
  · unfold HTTPHeader.transferEncoding HTTPHeader.encodingOf
    rw [at_transferencoding unread, at_transferencoding unread',
      find_none fun l member => unspaced l (List.mem_reverse.mp member),
      find_none fun l member => none_ l (List.mem_reverse.mp member)]
  · rw [chunked_eq unread, chunked_eq unread', unchunked _ unspaced, unchunked _ none_]

theorem disposition_steady (unread : Unread h) (unread' : Unread g) (varied : Varied h g) :
    (g.checkheader o allowpersistent).disposition = (h.checkheader o allowpersistent).disposition := by
  unfold HTTPHeader.disposition
  rw [at_contentdisposition unread, at_contentdisposition unread']
  rcases find_variant varied.lines fun _ _ variant => variant.named_eq colon_disposition with
    ⟨mine, yours⟩ | ⟨l, l', mine, yours, variant, here⟩
  · rw [mine, yours]
  · rw [mine, yours]
    exact dispositionOf_variant variant here

/-- The first length is the same in both, or the one that is sure or 0. -/
theorem lengths_steady (varied : Varied h g) (length : (∀ l ∈ (fields h).find? fun line => named line "content-length:",
    valueOf l ≠ []) ∨ LengthIdle allowpersistent h) :
    (fields g).findSome? lengthOf = (fields h).findSome? lengthOf ∨ (LengthIdle allowpersistent h ∧
      ∀ lines ∈ [fields h, fields g],
        lines.findSome? lengthOf = (fields h).findSome? sureLength ∨ lines.findSome? lengthOf = some 0) := by
  refine length.imp (findSome_variant varied.lines) fun idle => ⟨idle, ?_⟩
  intro lines listed
  have either : ∀ given, lines.findSome? sureLength = given →
      lines.findSome? lengthOf = given ∨ lines.findSome? lengthOf = some 0 := by
    rintro _ rfl
    exact lengths_cases lines
  simp only [List.mem_cons, List.not_mem_nil, or_false] at listed
  rcases listed with rfl | rfl
  · exact either _ rfl
  · exact either _ (sureLengths_variant varied.lines)

theorem length_steady (unread : Unread h) (unread' : Unread g) (varied : Varied h g) (unspaced : Unspaced allowpersistent h) :
    (g.checkheader o allowpersistent).contentlength = (h.checkheader o allowpersistent).contentlength := by
  rw [length_eq unread, length_eq unread', varied.kind, varied.front]
  rcases lengths_steady varied unspaced.length with same | ⟨idle, either⟩
  · rw [same]
  · rcases idle.1 with none_ | zero
    · rw [if_pos none_, if_pos none_]
    · have given : ∀ lines ∈ [fields h, fields g], lines.findSome? lengthOf = some 0 := by
        intro lines listed
        exact (either lines listed).elim (fun sure => sure.trans zero) id
      rw [given (fields h) (by simp), given (fields g) (by simp)]

theorem asks_of_named {line : Str} (here : named line "expect: 100-continue" = true) : asksToContinue line := by
  obtain ⟨more, whole⟩ := (named_iff line "expect: 100-continue").mp here
  have text : str "expect: 100-continue" = str "expect" ++ ch ':' :: (ch ' ' :: str "100-continue") := by decide
  have name : named line "expect:" = true := by
    rw [named_iff, ← whole]
    exact ⟨ch ' ' :: (str "100-continue" ++ more), rfl⟩
  refine ⟨name, more, ?_⟩
  obtain ⟨front, gap, parts, single, lower, blanks⟩ := line_parts colon_expect name
  have behind : after line (str ":") = gap ++ valueOf line := by
    have cut := after_colon single (gap ++ valueOf line)
    rw [← parts] at cut
    exact cut
  have lower' : toLower line = str "expect" ++ ch ':' :: toLower (after line (str ":")) := by
    rw [behind]
    conv_lhs => rw [parts]
    rw [toLower_append, lower]
    rfl
  rw [text, lower', List.append_assoc] at whole
  have rest := ((cut_unique (by decide) (by decide)).mp whole).2
  rw [valueOf, toLower_dropWhile, ← rest]
  rfl

theorem Variant.asks {line line' : Str} (variant : Variant line line') (asks : asksToContinue line') : asksToContinue line := by
  have name : named line "expect:" = true := (variant.named_eq colon_expect).symm.trans asks.1
  refine ⟨name, ?_⟩
  rw [← (variant.value colon_expect name).1]
  exact asks.2

theorem expects_steady (unread : Unread h) (unread' : Unread g) (varied : Varied h g)
    (unspaced : ∀ l ∈ fields h, ¬ asksToContinue l) :
    (g.checkheader o allowpersistent).expects_100 = (h.checkheader o allowpersistent).expects_100 := by
  have unspaced' : ∀ l ∈ fields g, ¬ asksToContinue l :=
    all_variant varied.lines (fun _ _ variant no asks => no (variant.asks asks)) unspaced
  have silent : ∀ lines : List Str, (∀ l ∈ lines, ¬ asksToContinue l) →
      lines.any (fun line => named line "expect: 100-continue") = false := by
    intro lines none_
    rw [List.any_eq_false]
    exact fun l member here => none_ l member (asks_of_named here)
  rw [expects_eq unread, expects_eq unread', silent _ unspaced, silent _ unspaced']

/-- What a Connection line says does not depend on white space. -/
theorem contains_lose {line : Str} {outgoing : Bool} (here : owned outgoing .pproxyconnection line = true) :
    contains line (str "lose") = contains (valueOf line) (str "lose") := by
  rcases Bool.or_eq_true_iff.mp here with name | name
  · exact (@search_value _ _ _ colon_proxyConnection name (str "lose") _ rfl (by decide) (by decide) (by decide)).2
  · exact (@search_value _ _ _ colon_connection name (str "lose") _ rfl (by decide) (by decide) (by decide)).2

theorem contains_lower {s : Str} (small : contains (toLower s) (str "lose") = false) : contains s (str "lose") = false := by
  rw [← Bool.not_eq_true, contains_iff_occurs] at small ⊢
  exact fun inside => small (inside.map tolower)

theorem owned_variant {line line' : Str} (variant : Variant line line') (outgoing : Bool) :
    owned outgoing .pproxyconnection line' = owned outgoing .pproxyconnection line := by
  unfold owned
  rw [variant.named_eq colon_proxyConnection, variant.named_eq colon_connection]

/-- What a Connection line says is the same in both where it has no such word. -/
theorem close_steady (varied : Varied h g)
    (small : ∀ line ∈ connectionLine h, contains (toLower (valueOf line)) (str "lose") = false) :
    saysClose h.icap ((fields g).find? (owned (!h.is_response) .pproxyconnection)) =
      saysClose h.icap ((fields h).find? (owned (!h.is_response) .pproxyconnection)) := by
  unfold connectionLine at small
  rcases find_variant varied.lines fun _ _ variant => owned_variant variant (!h.is_response) with
    ⟨mine, yours⟩ | ⟨l, l', mine, yours, variant, here⟩
  · rw [mine, yours]
  · have here' : owned (!h.is_response) .pproxyconnection l' = true := (owned_variant variant _).trans here
    have lower : toLower (valueOf l') = toLower (valueOf l) := by
      rcases Bool.or_eq_true_iff.mp here with name | name
      · exact (variant.value colon_proxyConnection name).1
      · exact (variant.value colon_connection name).1
    have mine' := small l mine
    have yours' : contains (toLower (valueOf l')) (str "lose") = false := lower ▸ mine'
    rw [mine, yours]
    simp only [saysClose, Option.map_some, contains_lose here, contains_lose here', contains_lower mine', contains_lower yours']

theorem persistent_steady (unread : Unread h) (unread' : Unread g) (varied : Varied h g)
    (unspaced : Unspaced allowpersistent h) :
    (g.checkheader o allowpersistent).ispersistent = (h.checkheader o allowpersistent).ispersistent := by
  rw [persistent_eq unread, persistent_eq unread', varied.kind, varied.front, varied.icap]
  cases allowed : allowpersistent with
  | false => rfl
  | true =>
    have alike : unkept h.is_response h.front ((fields g).findSome? lengthOf) =
        unkept h.is_response h.front ((fields h).findSome? lengthOf) →
        (saysClose h.icap ((fields g).find? (owned (!h.is_response) .pproxyconnection)) ||
            unkept h.is_response h.front ((fields g).findSome? lengthOf)) =
          (saysClose h.icap ((fields h).find? (owned (!h.is_response) .pproxyconnection)) ||
            unkept h.is_response h.front ((fields h).findSome? lengthOf)) := by
      intro same
      rw [same]
      cases icap : h.icap with
      | true => rfl
      | false =>
        cases kept : unkept h.is_response h.front ((fields h).findSome? lengthOf) with
        | true => rw [Bool.or_true, Bool.or_true]
        | false => rw [← icap, close_steady varied (unspaced.connection allowed icap kept)]
    rw [Bool.true_and, Bool.true_and, Bool.not_inj_iff]
    rcases lengths_steady varied unspaced.length with same | ⟨idle, either⟩
    · exact alike (congrArg _ same)
    · rcases idle.2 with unasked | no | ⟨icap, none_⟩
      · have given : ∀ lines ∈ [fields h, fields g], unkept h.is_response h.front (lines.findSome? lengthOf) =
            unkept h.is_response h.front (some 0) := by
          intro lines listed
          rcases either lines listed with sure | zero
          · rw [sure, unasked]
          · rw [zero]
        exact alike ((given (fields g) (by simp)).trans (given (fields h) (by simp)).symm)
      · exact absurd (allowed.symm.trans no) (by decide)
      · -- without a Connection line it is closed anyway
        have yours : (fields g).find? (owned (!h.is_response) .pproxyconnection) = none :=
          find_none (none_variant varied.lines (fun _ _ variant => owned_variant variant _)
            fun l member => by simpa using List.find?_eq_none.mp none_ l member)
        have mine : (fields h).find? (owned (!h.is_response) .pproxyconnection) = none := none_
        rw [mine, yours, icap]
        rfl

/-- A Port line is read from its value, or from the first blank in its value on. -/
theorem port_read {line : Str} (here : named line "port:" = true) : toInteger (after line (str " ")) = toInteger (valueOf line) ∨
    toInteger (after line (str " ")) = toInteger (after (valueOf line) (str " ")) := by
  obtain ⟨front, gap, whole, _, lower, blanks⟩ := line_parts colon_port here
  have blankless : ch ' ' ∉ front ++ [ch ':'] := by
    rw [List.mem_append, not_or]
    exact ⟨front_free lower (by decide), by decide⟩
  have parts : ∀ value, front ++ ch ':' :: (gap ++ value) = (front ++ [ch ':']) ++ (gap ++ value) := by simp
  rw [parts] at whole
  generalize valueOf line = value at whole ⊢
  rw [whole]
  by_cases blank : ch ' ' ∈ gap
  · obtain ⟨tabs, rest, rfl, tabless⟩ := List.eq_append_cons_of_mem blank
    left
    have cut : after ((front ++ [ch ':']) ++ (tabs ++ ch ' ' :: rest ++ value)) (str " ") = rest ++ value := by
      have text : (front ++ [ch ':']) ++ (tabs ++ ch ' ' :: rest ++ value) =
          (front ++ [ch ':'] ++ tabs) ++ (str " " ++ (rest ++ value)) := by
        simp [str]
      rw [text]
      refine after_at rfl ?_ _
      exact fun member => (List.mem_append.mp member).elim blankless tabless
    have spaces : ∀ c ∈ rest, isSpace c = true := by
      intro c member
      exact space_of_white c (white_of_blank (blanks c (List.mem_append_right _ (List.mem_cons_of_mem _ member))))
    rw [cut, toInteger, toInteger, List.dropWhile_append_of_pos spaces]
  · right
    have outside : ch ' ' ∉ front ++ [ch ':'] ++ gap := fun member => (List.mem_append.mp member).elim blankless blank
    have cut : after ((front ++ [ch ':'] ++ gap) ++ value) (str " ") = after value (str " ") := after_behind rfl outside value
    rw [← List.append_assoc, cut]

theorem portRead_variant {line line' : Str} (variant : Variant line line') (here : named line "port:" = true) {https : Bool}
    (same : saysSame https line) : portRead https (some line) = portRead https (some line') := by
  have here' : named line' "port:" = true := (variant.named_eq colon_port).trans here
  have value := (variant.value colon_port here).2 (by decide)
  have read : ∀ l, named l "port:" = true → saysSame https l →
      portRead https (some l) = validPort https (toInteger (valueOf l)) := by
    intro l here same
    unfold portRead
    rw [Option.map_some, Option.getD_some]
    rcases port_read here with whole | cut
    · rw [whole]
    · rw [cut]
      exact same
  rw [read line here same, read line' here' (by rw [saysSame, value]; exact same), value]

theorem isSome_variant {q : Str → Bool} {lines lines' : List Str} (varied : List.Forall₂ Variant lines lines')
    (same : ∀ l l', Variant l l' → q l' = q l) : (lines.find? q).isSome = (lines'.find? q).isSome := by
  rcases find_variant varied same with ⟨mine, yours⟩ | ⟨l, l', mine, yours, _⟩
  · rw [mine, yours]
  · rw [mine, yours]
    rfl

theorem url_steady (unread : Unread h) (unread' : Unread g) (varied : Varied h g) (shielded : Shielded h) (withport : Bool) :
    ((g.checkheader o allowpersistent).getUrl withport false).1 =
        ((h.checkheader o allowpersistent).getUrl withport false).1 := by
  cases kind : h.is_response with
  | true => exact (response_urls_agree unread unread' kind (varied.kind.trans kind) varied.front o allowpersistent withport).symm
  | false =>
    obtain ⟨host, port⟩ := shielded.resolve_left (by simp [kind])
    have hosts : ∀ l l', Variant l l' → named l' "host:" = named l "host:" := fun _ _ variant => variant.named_eq colon_host
    have ports : ∀ l l', Variant l l' → named l' "port:" = named l "port:" := fun _ _ variant => variant.named_eq colon_port
    refine (request_urls_agree unread unread' kind (varied.kind.trans kind) varied.front (isSome_variant varied.lines ports)
      (isSome_variant varied.lines hosts) ?_ ?_ o allowpersistent withport).symm
    · refine host.imp_left fun none_ => ?_
      rw [find_none none_, find_none (none_variant varied.lines hosts none_)]
    · unfold PortsAlike
      rcases port with own | same
      · rw [ownPort, Bool.or_eq_true, Bool.or_eq_true, decide_eq_true_iff] at own
        rcases own with (none_ | relative) | own
        · exact .inl none_
        · have none_ := host.resolve_right (by simp [relative])
          exact .inr (.inl ⟨relative, find_none none_⟩)
        · cases relative : isRelative h.front with
          | true => exact .inr (.inl ⟨rfl, find_none (host.resolve_right (by simp [relative]))⟩)
          | false => exact .inr (.inr (.inl ⟨rfl, own⟩))
      · refine .inr (.inr (.inr ?_))
        rcases find_variant varied.lines ports with ⟨mine, yours⟩ | ⟨l, l', mine, yours, variant, here⟩
        · rw [mine, yours]
        · rw [mine, yours]
          exact portRead_variant variant here (same l mine)

/-- Without such lines white space and case make no difference. -/
theorem steady_of_unspaced (unread : Unread h) (unspaced : Unspaced allowpersistent h) (shielded : Shielded h) :
    Steady o allowpersistent h := by
  intro g unread' varied
  obtain ⟨transfer, chunked⟩ := @transferEncoding_steady o allowpersistent _ _ unread unread' varied
    unspaced.transferEncoding
  unfold derived HTTPHeader.contentLength HTTPHeader.isPersistent
  rw [url_steady unread unread' varied shielded false, url_steady unread unread' varied shielded true,
    contentType_steady unread unread' varied unspaced.contentType,
    contentEncoding_steady unread unread' varied unspaced.contentEncoding, transfer, chunked,
    disposition_steady unread unread' varied, length_steady unread unread' varied unspaced,
    expects_steady unread unread' varied unspaced.expect,
    persistent_steady unread unread' varied unspaced]

end Sufficient

/- The other direction: lines that are sent in another way. -/

def retouch (f : Str → Str) (h : HTTPHeader) : HTTPHeader :=
  { h with header := match h.header with
      | [] => []
      | first :: rest => first :: rest.map fun l => { l with text := f l.text } }

section Necessary
variable {o : Options} {allowpersistent : Bool} {h : HTTPHeader}

theorem retouched (f : Str → Str) (h : HTTPHeader) :
    ids (retouch f h) = ids h ∧ fields (retouch f h) = (fields h).map f := by
  unfold ids fields retouch
  cases h.header with
  | nil => exact ⟨rfl, rfl⟩
  | cons first rest => simp [Function.comp_def]

theorem retouch_unread (f : Str → Str) (unread : Unread h) : Unread (retouch f h) := by
  have same := (retouched f h).1
  refine ⟨⟨⟨same ▸ unread.distinct.once, fun i member => unread.distinct.older i (same ▸ member)⟩, unread.unset⟩, ?_,
    unread.chunked, unread.expects, unread.length, unread.url, unread.type⟩
  exact header_ne_nil_of_ids same unread.some_

theorem retouch_varied {f : Str → Str} (variants : ∀ l ∈ fields h, Variant l (f l)) : Varied h (retouch f h) := by
  refine ⟨?_, rfl, rfl, ?_⟩
  · unfold HTTPHeader.front retouch
    cases h.header with
    | nil => rfl
    | cons first rest => rfl
  · rw [(retouched _ _).2, List.forall₂_map_right_iff, List.forall₂_same]
    exact variants

theorem steady_between {f g : Str → Str} (unread : Unread h) (steady : Steady o allowpersistent h)
    (variants : ∀ l ∈ fields h, Variant l (f l)) (variants' : ∀ l ∈ fields h, Variant l (g l)) :
    derived ((retouch f h).checkheader o allowpersistent) = derived ((retouch g h).checkheader o allowpersistent) :=
  (steady _ (retouch_unread f unread) (retouch_varied variants)).trans
    (steady _ (retouch_unread g unread) (retouch_varied variants')).symm

def spaced (name : String) (gap : Str) (line : Str) : Str :=
  if named line name then before line (str ":") ++ ch ':' :: (gap ++ valueOf line) else line

theorem spaced_variant {name : String} {word gap : Str} (colon : Colon name word) (blanks : ∀ c ∈ gap, isBlank c = true)
    (line : Str) : Variant line (spaced name gap line) := by
  unfold spaced
  split
  · rename_i here
    obtain ⟨front, gap', parts, single, _, blanks'⟩ := line_parts colon here
    have cut : before line (str ":") = front := by
      have parts' : line = front ++ (str ":" ++ (gap' ++ valueOf line)) := parts
      generalize valueOf line = value at parts'
      rw [parts']
      exact before_at rfl single _
    rw [cut]
    conv => arg 1; rw [parts]
    exact .field front front gap' gap (valueOf line) (valueOf line) single rfl blanks' blanks (.inl rfl)
  · exact .same line

theorem spaced_parts {name : String} {word : Str} (colon : Colon name word) (gap : Str) {line : Str}
    (here : named line name = true) :
    ∃ front, spaced name gap line = front ++ ch ':' :: (gap ++ valueOf line) ∧ ch ':' ∉ front ∧ toLower front = word := by
  obtain ⟨front, gap', parts, single, lower, _⟩ := line_parts colon here
  refine ⟨front, ?_, single, lower⟩
  unfold spaced
  rw [if_pos here]
  have parts' : line = front ++ (str ":" ++ (gap' ++ valueOf line)) := parts
  generalize valueOf line = value at parts' ⊢
  rw [parts', before_at rfl single]

theorem find_retouch {q : Str → Bool} {f : Str → Str} (same : ∀ l, q (f l) = q l) (lines : List Str) :
    (lines.map f).find? q = (lines.find? q).map f := by
  rw [List.find?_map]
  have equal : q ∘ f = q := funext same
  rw [equal]

theorem found_of_named {q : Str → Bool} {lines : List Str} {l : Str} (member : l ∈ lines) (here : q l = true) :
    ∃ first, lines.find? q = some first ∧ q first = true := by
  cases found : lines.find? q with
  | none => exact absurd here (List.find?_eq_none.mp found l member)
  | some first => exact ⟨first, rfl, List.find?_some found⟩

def mimeOf (text : Str) : Str :=
  if text.length < 1 then str "-"
  else
    let mimetype := chop text
    let mimetype := if contains mimetype (str " ") then before mimetype (str " ") else mimetype
    let mimetype := if contains mimetype (str ";") then before mimetype (str ";") else mimetype
    toLower mimetype

theorem mimeOf_blank (value : Str) : mimeOf (ch ' ' :: value) = [] := by
  unfold mimeOf
  rw [if_neg (by simp)]
  cases value with
  | nil => rfl
  | cons c rest =>
    have inside : contains (chop (ch ' ' :: c :: rest)) (str " ") = true :=
      @contains_at (ch ' ') (str " ") [] rfl List.not_mem_nil (chop (c :: rest))
    have front : before (chop (ch ' ' :: c :: rest)) (str " ") = [] :=
      @before_at (ch ' ') (str " ") [] rfl List.not_mem_nil (chop (c :: rest))
    simp only [inside, front, if_true]
    rfl

theorem mimeOf_tab (value : Str) : mimeOf (ch '\t' :: ch ' ' :: value) = [ch '\t'] := by
  unfold mimeOf
  rw [if_neg (by simp)]
  cases value with
  | nil => rfl
  | cons c rest =>
    have inside : contains (chop (ch '\t' :: ch ' ' :: c :: rest)) (str " ") = true :=
      @contains_at (ch ' ') (str " ") [ch '\t'] rfl (by decide) (chop (c :: rest))
    have front : before (chop (ch '\t' :: ch ' ' :: c :: rest)) (str " ") = [ch '\t'] :=
      @before_at (ch ' ') (str " ") [ch '\t'] rfl (by decide) (chop (c :: rest))
    simp only [inside, front, if_true]
    rfl

theorem after_blank {front : Str} (blankless : ch ' ' ∉ front) (rest : Str) :
    after (front ++ ch ':' :: (ch ' ' :: rest)) (str " ") = rest := by
  have parts : front ++ ch ':' :: (ch ' ' :: rest) = (front ++ str ":") ++ (str " " ++ rest) := by simp [str]
  rw [parts]
  refine after_at rfl ?_ rest
  intro member
  rcases List.mem_append.mp member with inside | sign
  · exact blankless inside
  · revert sign
    decide

theorem contentType_needed (unread : Unread h) (steady : Steady o allowpersistent h) :
    ∀ l ∈ fields h, named l "content-type:" = false := by
  intro l member
  rw [← Bool.not_eq_true]
  intro here
  obtain ⟨first, found, name⟩ := found_of_named (q := fun line => named line "content-type:") member here
  have variants : ∀ gap : Str, (∀ c ∈ gap, isBlank c = true) → ∀ l ∈ fields h, Variant l (spaced "content-type:" gap l) :=
    fun gap blanks l _ => spaced_variant colon_type blanks l
  have type : ∀ gap rest : Str, (∀ c ∈ gap, isBlank c = true) → gap ++ valueOf first = ch ' ' :: rest →
      ((retouch (spaced "content-type:" gap) h).checkheader o allowpersistent).getContentType = mimeOf rest := by
    intro gap rest blanks behind
    obtain ⟨front, parts, _, lower⟩ := spaced_parts colon_type gap name
    have blankless : ch ' ' ∉ front := front_free lower (by decide)
    unfold HTTPHeader.getContentType
    rw [at_contenttype (retouch_unread _ unread), (retouched _ _).2,
      find_retouch (fun l => (spaced_variant colon_type blanks l).named_eq colon_type), found, Option.map_some]
    simp only
    rw [parts, behind, after_blank blankless]
    rfl
  have same := steady_between unread steady (variants (str "  ") (blanks_of rfl)) (variants (str " \t ") (blanks_of rfl))
  have same' := congrArg Derived.contentType same
  simp only [derived] at same'
  rw [type (str "  ") (ch ' ' :: valueOf first) (blanks_of rfl) rfl,
    type (str " \t ") (ch '\t' :: ch ' ' :: valueOf first) (blanks_of rfl) rfl, mimeOf_blank, mimeOf_tab] at same'
  cases same'

theorem after_colonBlank {front : Str} (single : ch ':' ∉ front) (rest : Str) :
    after (front ++ ch ':' :: (ch ' ' :: rest)) (str ": ") = rest := by
  have parts : front ++ ch ':' :: (ch ' ' :: rest) = front ++ (str ": " ++ rest) := by simp [str]
  rw [parts]
  exact after_at rfl single rest

theorem encodingOf_spaced {line word : Str} {name : String} (colon : Colon name word) (here : named line name = true) :
    toLower (after (spaced name (str " ") line) (str ": ")) ≠ toLower (after (spaced name (str "  ") line) (str ": ")) := by
  obtain ⟨front, parts, single, _⟩ := spaced_parts colon (str " ") here
  obtain ⟨front', parts', single', _⟩ := spaced_parts colon (str "  ") here
  have one := after_colonBlank single (valueOf line)
  have two := after_colonBlank single' (ch ' ' :: valueOf line)
  intro same
  rw [parts, parts'] at same
  have same' : toLower (valueOf line) = toLower (ch ' ' :: valueOf line) :=
    (congrArg toLower one).symm.trans (same.trans (congrArg toLower two))
  have lengths := congrArg List.length same'
  simp [toLower] at lengths

theorem contentEncoding_needed (unread : Unread h) (steady : Steady o allowpersistent h) (response : h.is_response = true) :
    ∀ l ∈ fields h, named l "content-encoding:" = false := by
  intro l member
  rw [← Bool.not_eq_true]
  intro here
  obtain ⟨first, found, name⟩ := found_of_named (q := fun line => named line "content-encoding:") member here
  have encoding : ∀ gap : Str, (∀ c ∈ gap, isBlank c = true) →
      ((retouch (spaced "content-encoding:" gap) h).checkheader o allowpersistent).contentEncoding =
        toLower (after (spaced "content-encoding:" gap first) (str ": ")) := by
    intro gap blanks
    have kind : (retouch (spaced "content-encoding:" gap) h).is_response = true := response
    unfold HTTPHeader.contentEncoding HTTPHeader.encodingOf
    rw [at_contentencoding (retouch_unread _ unread), (retouched _ _).2, kind]
    simp only [Bool.true_and]
    rw [find_retouch (fun l => (spaced_variant colon_encoding blanks l).named_eq colon_encoding), found]
    rfl
  have same := steady_between (f := spaced "content-encoding:" (str " "))
      (g := spaced "content-encoding:" (str "  ")) unread steady
    (fun l _ => spaced_variant colon_encoding (blanks_of rfl) l) (fun l _ => spaced_variant colon_encoding (blanks_of rfl) l)
  have same' := congrArg Derived.contentEncoding same
  simp only [derived] at same'
  rw [encoding (str " ") (blanks_of rfl), encoding (str "  ") (blanks_of rfl)] at same'
  exact encodingOf_spaced colon_encoding name same'

theorem transferEncoding_needed (unread : Unread h) (steady : Steady o allowpersistent h) :
    ∀ l ∈ fields h, named l "transfer-encoding:" = false := by
  intro l member
  rw [← Bool.not_eq_true]
  intro here
  obtain ⟨last, found, name⟩ := found_of_named (q := fun line => named line "transfer-encoding:")
      (List.mem_reverse.mpr member) here
  have encoding : ∀ gap : Str, (∀ c ∈ gap, isBlank c = true) →
      ((retouch (spaced "transfer-encoding:" gap) h).checkheader o allowpersistent).transferEncoding =
        toLower (after (spaced "transfer-encoding:" gap last) (str ": ")) := by
    intro gap blanks
    unfold HTTPHeader.transferEncoding HTTPHeader.encodingOf
    rw [at_transferencoding (retouch_unread _ unread), (retouched _ _).2, ← List.map_reverse,
      find_retouch (fun l => (spaced_variant colon_transfer blanks l).named_eq colon_transfer), found]
    rfl
  have same := steady_between (f := spaced "transfer-encoding:" (str " "))
      (g := spaced "transfer-encoding:" (str "  ")) unread steady
    (fun l _ => spaced_variant colon_transfer (blanks_of rfl) l) (fun l _ => spaced_variant colon_transfer (blanks_of rfl) l)
  have same' := congrArg Derived.transferEncoding same
  simp only [derived] at same'
  rw [encoding (str " ") (blanks_of rfl), encoding (str "  ") (blanks_of rfl)] at same'
  exact encodingOf_spaced colon_transfer name same'

theorem valueOf_head {line : Str} {c : UInt8} {rest : Str} (whole : valueOf line = c :: rest) : isBlank c = false := by
  have plain := List.head?_dropWhile_not isBlank (after line (str ":"))
  unfold valueOf at whole
  rw [whole] at plain
  simpa using plain

theorem expect_needed (unread : Unread h) (steady : Steady o allowpersistent h) : ∀ l ∈ fields h, ¬ asksToContinue l := by
  intro l member asks
  have expects : ∀ gap : Str, ((retouch (spaced "expect:" gap) h).checkheader o allowpersistent).expects_100 =
      (fields h).any fun line => named (spaced "expect:" gap line) "expect: 100-continue" := by
    intro gap
    rw [expects_eq (retouch_unread _ unread), (retouched _ _).2, List.any_map]
    rfl
  have same := steady_between (f := spaced "expect:" (str " ")) (g := spaced "expect:" []) unread steady
    (fun l _ => spaced_variant colon_expect (blanks_of rfl) l) (fun l _ => spaced_variant colon_expect (blanks_of rfl) l)
  have same' := congrArg Derived.expects_100 same
  simp only [derived, expects] at same'
  have one : ((fields h).any fun line => named (spaced "expect:" (str " ") line) "expect: 100-continue") = true := by
    rw [List.any_eq_true]
    refine ⟨l, member, ?_⟩
    obtain ⟨front, parts, _, lower⟩ := spaced_parts colon_expect (str " ") asks.1
    obtain ⟨more, whole⟩ := asks.2
    rw [parts, named_iff, toLower_append, lower]
    refine ⟨more, ?_⟩
    have rest : toLower (ch ':' :: (str " " ++ valueOf l)) = ch ':' :: ch ' ' :: toLower (valueOf l) := rfl
    rw [rest, ← whole]
    rfl
  have none_ : ((fields h).any fun line => named (spaced "expect:" [] line) "expect: 100-continue") = false := by
    rw [List.any_eq_false]
    intro line _ here
    have asks' := asks_of_named here
    have name : named line "expect:" = true :=
      ((spaced_variant colon_expect (by simp) line).named_eq colon_expect).symm.trans asks'.1
    obtain ⟨front, parts, single, lower⟩ := spaced_parts colon_expect [] name
    rw [parts, named_iff, toLower_append, lower] at here
    obtain ⟨more, whole⟩ := here
    have text : str "expect: 100-continue" = str "expect" ++ ch ':' :: (ch ' ' :: str "100-continue") := by decide
    rw [text, List.append_assoc] at whole
    have rest := (List.cons.inj (List.append_cancel_left whole)).2
    cases value : valueOf line with
    | nil =>
      rw [value] at rest
      cases rest
    | cons c tail =>
      rw [value] at rest
      have blank : ch ' ' = tolower c := (List.cons.inj rest).1
      have plain := valueOf_head value
      rw [← tolower_blank, ← blank] at plain
      cases plain
  rw [one, none_] at same'
  cases same'

def recased (f : UInt8 → UInt8) (line : Str) : Str :=
  if named line "connection:" || named line "proxy-connection:" then
    before line (str ":") ++ ch ':' :: (after line (str ":")).map f
  else line

theorem recased_variant {f : UInt8 → UInt8} (letters : ∀ c, tolower (f c) = tolower c) (line : Str) :
    Variant line (recased f line) := by
  unfold recased
  split
  · rename_i here
    have colon : ∃ name word, Colon name word ∧ named line name = true ∧ word ∈ caseless := by
      rcases Bool.or_eq_true_iff.mp here with name | name
      · exact ⟨_, _, colon_connection, name, by decide⟩
      · exact ⟨_, _, colon_proxyConnection, name, by decide⟩
    obtain ⟨name, word, colon, named_, listed⟩ := colon
    obtain ⟨front, gap, parts, single, lower, _⟩ := line_parts colon named_
    generalize gap ++ valueOf line = value at parts
    have cut : before line (str ":") = front := by
      rw [parts]
      exact @before_at (ch ':') (str ":") _ rfl single value
    have behind : after line (str ":") = value := by
      rw [parts]
      exact after_colon single value
    rw [cut, behind, parts]
    refine .field front front [] [] value (value.map f) single rfl (by simp) (by simp) (.inr ⟨lower ▸ listed, ?_⟩)
    unfold toLower
    rw [List.map_map]
    exact List.map_congr_left fun c _ => letters c
  · exact .same line

def shout (c : UInt8) : UInt8 := if c = ch 'l' then ch 'L' else c

theorem tolower_shout (c : UInt8) : tolower (shout c) = tolower c := by
  rw [shout]
  split
  · rename_i small
    rw [small]
    rfl
  · rfl

theorem shout_ne (c : UInt8) : shout c ≠ ch 'l' := by
  rw [shout]
  split
  · decide
  · assumption

theorem owned_names {line : Str} {outgoing : Bool} (here : owned outgoing .pproxyconnection line = true) :
    (named line "connection:" || named line "proxy-connection:") = true := by
  rw [Bool.or_comm]
  exact here

theorem recased_value {f : UInt8 → UInt8} {line : Str} {outgoing : Bool} (here : owned outgoing .pproxyconnection line = true) :
    valueOf (recased f line) = ((after line (str ":")).map f).dropWhile isBlank := by
  have colon : ∃ name word, Colon name word ∧ named line name = true := by
    rcases Bool.or_eq_true_iff.mp here with name | name
    · exact ⟨_, _, colon_proxyConnection, name⟩
    · exact ⟨_, _, colon_connection, name⟩
  obtain ⟨name, word, colon, named_⟩ := colon
  obtain ⟨front, gap, parts, single, _, _⟩ := line_parts colon named_
  generalize gap ++ valueOf line = value at parts
  unfold recased
  rw [if_pos (owned_names here)]
  have cut : before line (str ":") = front := by
    rw [parts]
    exact @before_at (ch ':') (str ":") _ rfl single value
  rw [cut]
  exact @valueOf_field _ [] single (by simp) _

theorem shout_quiet {line : Str} {outgoing : Bool} (here : owned outgoing .pproxyconnection line = true) :
    contains (valueOf (recased shout line)) (str "lose") = false := by
  rw [recased_value here, ← Bool.not_eq_true, contains_iff_occurs]
  intro inside
  have member := (List.dropWhile_suffix _).subset (inside.subset (by decide : ch 'l' ∈ str "lose"))
  obtain ⟨c, _, same⟩ := List.mem_map.mp member
  exact shout_ne c same

theorem recased_length (f : UInt8 → UInt8) (letters : ∀ c, tolower (f c) = tolower c) (line : Str) :
    lengthOf (recased f line) = lengthOf line := by
  by_cases here : (named line "connection:" || named line "proxy-connection:") = true
  · have other : named line "content-length:" = false := by
      rcases Bool.or_eq_true_iff.mp here with name | name
      · exact named_other name (by decide)
      · exact named_other name (by decide)
    have other' := ((recased_variant letters line).named_eq colon_length).trans other
    unfold lengthOf
    rw [other, other']
    rfl
  · unfold recased
    rw [if_neg here]

theorem connection_needed (unread : Unread h) (steady : Steady o true h) (icap : h.icap = false)
    (kept : unkept h.is_response h.front ((fields h).findSome? lengthOf) = false) :
    ∀ line ∈ connectionLine h, contains (toLower (valueOf line)) (str "lose") = false := by
  intro line found
  have here : owned (!h.is_response) .pproxyconnection line = true := List.find?_some found
  have persistent : ∀ f, (∀ c, tolower (f c) = tolower c) → ((retouch (recased f) h).checkheader o true).ispersistent =
      !contains (valueOf (recased f line)) (str "lose") := by
    intro f letters
    have lengths : ((fields h).map (recased f)).findSome? lengthOf = (fields h).findSome? lengthOf := by
      rw [List.findSome?_map]
      have same : lengthOf ∘ recased f = lengthOf := funext (recased_length f letters)
      rw [same]
    have kind : (retouch (recased f) h).is_response = h.is_response := rfl
    have icap' : (retouch (recased f) h).icap = false := icap
    have front := (retouch_varied fun l (_ : l ∈ fields h) => recased_variant letters l).front
    have here' : owned (!h.is_response) .pproxyconnection (recased f line) = true :=
      (owned_variant (recased_variant letters line) _).trans here
    have line' : ((fields h).map (recased f)).find? (owned (!h.is_response) .pproxyconnection) = some (recased f line) := by
      rw [find_retouch fun l => owned_variant (recased_variant letters l) _]
      exact congrArg (Option.map (recased f)) found
    rw [persistent_eq (retouch_unread _ unread), (retouched _ _).2, lengths, kind, icap', front, kept, line',
        ← contains_lose here']
    simp [saysClose]
  rw [← Bool.not_eq_true]
  intro loses
  have same := steady_between (f := recased tolower) (g := recased shout) unread steady
    (fun l _ => recased_variant tolower_twice l) (fun l _ => recased_variant tolower_shout l)
  have same' := congrArg Derived.persistent same
  simp only [derived, HTTPHeader.isPersistent, persistent tolower tolower_twice, persistent shout tolower_shout,
    recased_value here] at same'
  have small : contains (((after line (str ":")).map tolower).dropWhile isBlank) (str "lose") = true := by
    have lower := toLower_dropWhile (after line (str ":"))
    unfold toLower at lower
    rw [← lower]
    exact loses
  have large := shout_quiet here
  rw [recased_value here] at large
  rw [small, large] at same'
  cases same'

theorem lengthOf_tight (line : Str) : lengthOf (spaced "content-length:" [] line) = sureLength line := by
  have variant := @spaced_variant _ _ [] colon_length (by simp) line
  unfold sureLength
  by_cases here : named line "content-length:" = true
  · by_cases empty : valueOf line = []
    · obtain ⟨front, parts, single, _⟩ := spaced_parts colon_length [] here
      rw [if_pos empty, parts, lengthOf, ← parts, if_pos ((variant.named_eq colon_length).trans here), parts, empty, headerVal,
        after_colon single]
      rfl
    · rw [if_neg empty, lengthOf_variant variant fun _ => empty]
  · have none_ : lengthOf line = none := if_neg here
    rw [none_, ite_self, spaced, if_neg here, none_]

theorem lengthOf_blank {line : Str} (here : named line "content-length:" = true) (empty : valueOf line = []) :
    lengthOf (spaced "content-length:" (str " ") line) = some 0 := by
  have variant := @spaced_variant _ _ (str " ") colon_length (blanks_of rfl) line
  obtain ⟨front, parts, single, _⟩ := spaced_parts colon_length (str " ") here
  rw [parts, lengthOf, ← parts, if_pos ((variant.named_eq colon_length).trans here), parts, empty, headerVal, after_colon single]
  rfl

/-- The first length line with nothing in it is read as 0 with a blank. -/
theorem lengths_blank {lines : List Str} {first : Str}
    (found : lines.find? (fun line => named line "content-length:") = some first) (empty : valueOf first = []) :
    (lines.map (spaced "content-length:" (str " "))).findSome? lengthOf = some 0 := by
  obtain ⟨here, before_, behind, rfl, others⟩ := List.find?_eq_some_iff_append.mp found
  rw [List.findSome?_map, List.findSome?_eq_some_iff]
  refine ⟨before_, first, behind, rfl, lengthOf_blank here empty, fun line member => ?_⟩
  have other : ¬ named line "content-length:" = true := by simpa using others line member
  rw [Function.comp_apply, spaced, if_neg other]
  exact if_neg other

theorem lengths_tight (lines : List Str) :
    (lines.map (spaced "content-length:" [])).findSome? lengthOf = lines.findSome? sureLength := by
  rw [List.findSome?_map]
  have same : lengthOf ∘ spaced "content-length:" [] = sureLength := funext lengthOf_tight
  rw [same]

/-- White space behind the length lines, and connection lines without small letters. -/
def lengthTouched (gap line : Str) : Str := recased shout (spaced "content-length:" gap line)

theorem lengthTouched_variant {gap : Str} (blanks : ∀ c ∈ gap, isBlank c = true) (line : Str) :
    Variant line (lengthTouched gap line) := by
  unfold lengthTouched
  by_cases here : named line "content-length:" = true
  · have here' := ((spaced_variant colon_length blanks line).named_eq colon_length).trans here
    have other : ¬ (named (spaced "content-length:" gap line) "connection:" ||
        named (spaced "content-length:" gap line) "proxy-connection:") = true := by
      rw [named_other here' (by decide), named_other here' (by decide)]
      decide
    rw [recased, if_neg other]
    exact spaced_variant colon_length blanks line
  · rw [spaced, if_neg here]
    exact recased_variant tolower_shout line

theorem lengthTouched_lengths (gap : Str) (lines : List Str) :
    (lines.map (lengthTouched gap)).findSome? lengthOf = (lines.map (spaced "content-length:" gap)).findSome? lengthOf := by
  rw [List.findSome?_map, List.findSome?_map]
  exact congrArg (List.findSome? · lines) (funext fun line => recased_length shout tolower_shout _)

theorem lengthTouched_open {gap : Str} (blanks : ∀ c ∈ gap, isBlank c = true) (kept : h.icap = false → connectionLine h ≠ none) :
    saysClose h.icap (((fields h).map (lengthTouched gap)).find? (owned (!h.is_response) .pproxyconnection)) = false := by
  have same := find_retouch (fun l => owned_variant (lengthTouched_variant blanks l) (!h.is_response)) (fields h)
  rw [same]
  cases icap : h.icap with
  | true => rfl
  | false =>
    cases found : (fields h).find? (owned (!h.is_response) .pproxyconnection) with
    | none => exact absurd found (kept icap)
    | some line =>
      have here : owned (!h.is_response) .pproxyconnection line = true := List.find?_some found
      have other : spaced "content-length:" gap line = line := by
        refine if_neg ?_
        rcases Bool.or_eq_true_iff.mp here with name | name
        · rw [named_other name (by decide)]
          exact Bool.false_ne_true
        · rw [named_other name (by decide)]
          exact Bool.false_ne_true
      have here' := (owned_variant (recased_variant tolower_shout line) (!h.is_response)).trans here
      simp only [saysClose, Option.map_some, lengthTouched, other, contains_lose here', shout_quiet here]
      rfl

theorem length_needed (unread : Unread h) (steady : Steady o allowpersistent h) :
    (∀ l ∈ (fields h).find? fun line => named line "content-length:", valueOf l ≠ []) ∨ LengthIdle allowpersistent h := by
  by_cases given : ∀ l ∈ (fields h).find? fun line => named line "content-length:", valueOf l ≠ []
  · exact .inl given
  · obtain ⟨first, some_⟩ := not_forall.mp given
    obtain ⟨found, filled⟩ := Classical.not_imp.mp some_
    have empty : valueOf first = [] := not_not.mp filled
    have blank : ∀ c ∈ str " ", isBlank c = true := blanks_of rfl
    have none_ : ∀ c ∈ ([] : Str), isBlank c = true := by simp
    have same := steady_between (f := lengthTouched []) (g := lengthTouched (str " ")) unread steady
      (fun l _ => lengthTouched_variant none_ l) (fun l _ => lengthTouched_variant blank l)
    have front : ∀ gap, (∀ c ∈ gap, isBlank c = true) → (retouch (lengthTouched gap) h).front = h.front :=
      fun gap blanks => (retouch_varied fun l (_ : l ∈ fields h) => lengthTouched_variant blanks l).front
    have kind : ∀ gap, (retouch (lengthTouched gap) h).is_response = h.is_response := fun _ => rfl
    have icap : ∀ gap, (retouch (lengthTouched gap) h).icap = h.icap := fun _ => rfl
    refine .inr ⟨?_, ?_⟩
    · have lengths := congrArg Derived.contentLength same
      simp only [derived, HTTPHeader.contentLength] at lengths
      rw [length_eq (retouch_unread _ unread), length_eq (retouch_unread _ unread), (retouched _ _).2, (retouched _ _).2, kind,
        kind, front _ none_, front _ blank, lengthTouched_lengths, lengthTouched_lengths, lengths_tight,
        lengths_blank found empty] at lengths
      by_cases bodiless_ : bodiless h.is_response h.front = true
      · exact .inl bodiless_
      · rw [if_neg bodiless_, if_neg bodiless_] at lengths
        right
        cases sure : (fields h).findSome? sureLength with
        | none =>
          rw [sure] at lengths
          exact absurd lengths (by decide)
        | some n =>
          rw [sure] at lengths
          exact congrArg some lengths
    · by_contra asked
      rw [not_or, not_or, not_and, Bool.not_eq_false] at asked
      obtain ⟨differ, allowed, kept⟩ := asked
      have persistent := congrArg Derived.persistent same
      simp only [derived, HTTPHeader.isPersistent] at persistent
      rw [persistent_eq (retouch_unread _ unread), persistent_eq (retouch_unread _ unread), (retouched _ _).2, (retouched _ _).2,
        kind, kind, icap, icap, front _ none_, front _ blank, lengthTouched_lengths, lengthTouched_lengths, lengths_tight,
        lengths_blank found empty, lengthTouched_open none_ kept, lengthTouched_open blank kept, allowed] at persistent
      exact differ (by simpa using persistent)

/-- The lines that getters cut at blanks have to be missing; so has a connection that is to be closed and a length line with
nothing in it where a length counts. -/
theorem unspaced_of_steady (unread : Unread h) (steady : Steady o allowpersistent h) : Unspaced allowpersistent h where
  contentType := contentType_needed unread steady
  contentEncoding := contentEncoding_needed unread steady
  transferEncoding := transferEncoding_needed unread steady
  expect := expect_needed unread steady
  connection := by
    rintro rfl icap kept
    exact connection_needed unread steady icap kept
  length := length_needed unread steady

end Necessary

/- The result. -/

theorem linesRead_unread {h : HTTPHeader} (ready : Ready h) {o : Options} {allowpersistent : Bool} {sock : BaseSocket}
    (accepted : (h.in_ o allowpersistent sock).1 = true) : Unread (linesRead o sock h) := by
  have kept := readLines_notes o sock { h.reset with dirty := true }
  have blank : h.reset.chunked = false ∧ h.reset.expects_100 = false ∧ h.reset.contentlength = -1 ∧ h.reset.cachedurl = [] ∧
      h.reset.requesttype = [] := by
    rcases ready with dirty | ⟨is_response, ident, rfl⟩
    · unfold HTTPHeader.reset
      rw [if_pos dirty]
      exact ⟨rfl, rfl, rfl, rfl, rfl⟩
    · exact ⟨rfl, rfl, rfl, rfl, rfl⟩
  obtain ⟨index, url, type⟩ := kept
  obtain ⟨chunked, expects, length, url', type'⟩ := blank
  exact ⟨linesRead_unchecked ready o sock, (in_accepted accepted).2, (congrArg Index.chunked index).trans chunked,
    (congrArg Index.expects_100 index).trans expects, (congrArg Index.contentlength index).trans length, url.trans url',
    type.trans type'⟩

/-- White space and case make no difference to a header without the lines that are cut at blanks or searched for small
letters or with which a blank is a length; and where they make none, there are no such lines but Host and Port lines. -/
theorem steady_when_unspaced {h : HTTPHeader} (ready : Ready h) (o : Options) (allowpersistent : Bool) (sock : BaseSocket)
    (accepted : (h.in_ o allowpersistent sock).1 = true) :
    (Unspaced allowpersistent (linesRead o sock h) ∧ Shielded (linesRead o sock h) →
      Steady o allowpersistent (linesRead o sock h)) ∧
      (Steady o allowpersistent (linesRead o sock h) → Unspaced allowpersistent (linesRead o sock h)) := by
  have unread := linesRead_unread ready accepted
  exact ⟨fun both => steady_of_unspaced unread both.1 both.2, unspaced_of_steady unread⟩

def settings : Options := ⟨8192, 200, [], false⟩

def arriving (header : String) : BaseSocket := ⟨[], [.bytes (str header)], false, false⟩

theorem arriving_ofList (l : List Char) : arriving (String.ofList l) = ⟨[], [.bytes (l.map ch)], false, false⟩ := by
  rw [arriving, str_ofList]

def plainRequest : BaseSocket := arriving
  "POST http://a:81/ HTTP/1.1\r\nHost: a\r\nPort: 82\r\nConnection: keep-alive\r\nContent-Length: 5\r\nContent-Length:\n\r\nhello"

theorem plain_request_steady :
    Steady settings true (linesRead settings plainRequest (.made false none)) := by
  have facts : ((HTTPHeader.made false none).in_ settings true plainRequest).1 = true ∧
      (∀ l ∈ fields (linesRead settings plainRequest (.made false none)), named l "content-type:" = false ∧
        named l "content-encoding:" = false ∧ named l "transfer-encoding:" = false ∧ named l "expect:" = false) ∧
      (∀ l ∈ (fields (linesRead settings plainRequest (.made false none))).find? fun line => named line "content-length:",
        valueOf l ≠ []) ∧
      (∀ l ∈ connectionLine (linesRead settings plainRequest (.made false none)),
        contains (toLower (valueOf l)) (str "lose") = false) ∧
      isRelative (linesRead settings plainRequest (.made false none)).front = false ∧
      ownPort (linesRead settings plainRequest (.made false none)).front = true := by
    rw [plainRequest, arriving_ofList]
    decide +kernel
  obtain ⟨accepted, lines, length, kept, absolute, own⟩ := facts
  refine (steady_when_unspaced (.inr ⟨false, none, rfl⟩) settings true plainRequest accepted).1 ⟨⟨?_, ?_, ?_, ?_, ?_, ?_⟩, ?_⟩
  · exact fun l member => (lines l member).1
  · exact fun _ l member => (lines l member).2.1
  · exact fun l member => (lines l member).2.2.1
  · intro l member asks
    have here := asks.1
    rw [(lines l member).2.2.2] at here
    cases here
  · exact fun _ _ _ => kept
  · exact .inl length
  · exact .inr ⟨.inr absolute, .inl own⟩

/-- A response and a request, with and without blanks, and in other letters. -/
def spacedResponse : HTTPHeader := linesRead settings
  (arriving
    "HTTP/1.1 200 OK\r\nContent-Type: text/html\r\nContent-Encoding: gzip\r\nTransfer-Encoding: chunked\r\n\r\n")
  (.made true none)

def tightResponse : HTTPHeader := linesRead settings
  (arriving
    "HTTP/1.1 200 OK\r\nContent-Type:text/html\r\nContent-Encoding:gzip\r\nTransfer-Encoding:Chunked\r\n\r\n")
  (.made true none)

def spacedRequest : HTTPHeader := linesRead settings
  (arriving "GET /x HTTP/1.1\r\nHost: a.org\r\nConnection: close\r\nExpect: 100-continue\r\n\r\n") (.made false none)

def tightRequest : HTTPHeader := linesRead settings
  (arriving "GET /x HTTP/1.1\r\nhost:a.org\r\nConnection: CLOSE\r\nExpect:100-continue\r\n\r\n") (.made false none)

theorem response_varied : Varied spacedResponse tightResponse := by
  have facts : tightResponse.front = spacedResponse.front ∧ tightResponse.is_response = spacedResponse.is_response ∧
      tightResponse.icap = spacedResponse.icap ∧
      fields spacedResponse = [str "Content-Type: text/html\r", str "Content-Encoding: gzip\r",
          str "Transfer-Encoding: chunked\r"] ∧
      fields tightResponse = [str "Content-Type:text/html\r", str "Content-Encoding:gzip\r",
          str "Transfer-Encoding:Chunked\r"] := by
    rw [spacedResponse, tightResponse, arriving_ofList, arriving_ofList]
    decide
  obtain ⟨front, kind, icap, lines, lines'⟩ := facts
  refine ⟨front, kind, icap, ?_⟩
  rw [lines, lines']
  refine .cons ?_ (.cons ?_ (.cons ?_ .nil))
  · exact .field (str "Content-Type") (str "Content-Type") (str " ") [] (str "text/html\r") (str "text/html\r") (by decide) rfl
      (blanks_of rfl) (blanks_of rfl) (.inl rfl)
  · exact .field (str "Content-Encoding") (str "Content-Encoding") (str " ") [] (str "gzip\r") (str "gzip\r") (by decide) rfl
      (blanks_of rfl) (blanks_of rfl) (.inl rfl)
  · exact .field (str "Transfer-Encoding") (str "Transfer-Encoding") (str " ") [] (str "chunked\r")
        (str "Chunked\r") (by decide) rfl
      (blanks_of rfl) (blanks_of rfl) (.inr (by decide))

theorem request_varied : Varied spacedRequest tightRequest := by
  have facts : tightRequest.front = spacedRequest.front ∧ tightRequest.is_response = spacedRequest.is_response ∧
      tightRequest.icap = spacedRequest.icap ∧
      fields spacedRequest = [str "Host: a.org\r", str "Connection: close\r", str "Expect: 100-continue\r"] ∧
      fields tightRequest = [str "host:a.org\r", str "Connection: CLOSE\r", str "Expect:100-continue\r"] := by
    rw [spacedRequest, tightRequest, arriving_ofList, arriving_ofList]
    decide
  obtain ⟨front, kind, icap, lines, lines'⟩ := facts
  refine ⟨front, kind, icap, ?_⟩
  rw [lines, lines']
  refine .cons ?_ (.cons ?_ (.cons ?_ .nil))
  · exact .field (str "Host") (str "host") (str " ") [] (str "a.org\r") (str "a.org\r") (by decide) (by decide)
      (blanks_of rfl) (blanks_of rfl) (.inl rfl)
  · exact .field (str "Connection") (str "Connection") (str " ") (str " ") (str "close\r") (str "CLOSE\r") (by decide) rfl
      (blanks_of rfl) (blanks_of rfl) (.inr (by decide))
  · exact .field (str "Expect") (str "Expect") (str " ") [] (str "100-continue\r") (str "100-continue\r") (by decide) rfl
      (blanks_of rfl) (blanks_of rfl) (.inl rfl)

/-- Without the blank the type, the encodings, the host and the wish to continue are lost, and in large letters the rest. -/
theorem headers_read_in_other_ways :
    ¬ Steady settings true spacedResponse ∧ ¬ Steady settings true spacedRequest ∧
      (tightResponse.checkheader settings true).getContentType = str "-" ∧
      (tightResponse.checkheader settings true).chunked = false ∧
      ((tightRequest.checkheader settings true).getUrl false false).1 = str "http:///x" ∧
      (tightRequest.checkheader settings true).isPersistent = true := by
  have facts : (tightResponse.checkheader settings true).getContentType = str "-" ∧
      (spacedResponse.checkheader settings true).getContentType = str "text/html" ∧
      (tightResponse.checkheader settings true).chunked = false ∧
      ((tightRequest.checkheader settings true).getUrl false false).1 = str "http:///x" ∧
      (tightRequest.checkheader settings true).isPersistent = true ∧
      (spacedRequest.checkheader settings true).isPersistent = false := by
    rw [spacedResponse, tightResponse, spacedRequest, tightRequest, arriving_ofList, arriving_ofList,
        arriving_ofList, arriving_ofList]
    decide
  obtain ⟨type, type', chunked, url, kept, closed⟩ := facts
  refine ⟨fun steady => ?_, fun steady => ?_, type, chunked, url, kept⟩
  · have same := steady tightResponse
      (@linesRead_unread _ (.inr ⟨true, none, rfl⟩) settings true _ (by rw [arriving_ofList]; decide))
      response_varied
    have other := congrArg Derived.contentType same
    exact absurd (type.symm.trans (other.trans type')) (by decide)
  · have same := steady tightRequest
      (@linesRead_unread _ (.inr ⟨false, none, rfl⟩) settings true _ (by rw [arriving_ofList]; decide))
      request_varied
    have other := congrArg Derived.persistent same
    exact absurd (kept.symm.trans (other.trans closed)) (by decide)

end GuardianHeaderVariants
