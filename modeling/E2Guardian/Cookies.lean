import E2Guardian.Bypass
import E2Guardian.Urls

/- Which cookie getCookie gives: the cookies that the Cookie lines send, and what the scan of the last of these
   lines stops at. -/
namespace GuardianCookies
open GuardianString GuardianBypass GuardianUrls

structure CookieName where
  text : Str
  some_ : text ≠ []
  plain : ∀ c ∈ text, c ≠ ch ';' ∧ c ≠ ch '=' ∧ isWhiteSpace c = false

def isCookieLine (line : Str) : Bool := startsWithLower line (str "cookie:")

def trimmed (s : Str) : Str := if s.all isWhiteSpace then [] else removeWhiteSpace s

def cookiesOf (line : Str) : List (Str × Str) :=
  ((line.drop 7).splitOn (ch ';')).filterMap fun piece =>
    if ch '=' ∈ piece then some (trimmed (before piece (str "=")), trimmed (after piece (str "="))) else none

def valuesOf (header : List Str) (name : Str) : List Str :=
  (header.filter isCookieLine).flatMap fun line => ((cookiesOf line).filter fun cookie => cookie.1 == name).map (·.2)

/-- One of the values, or nothing where there are none. -/
def Answers (values : List Str) (answer : Str) : Prop := answer ∈ values ∨ (values = [] ∧ answer = [])

def lastCookieLine (header : List Str) : Option Str := (header.filter isCookieLine).getLast?

def upToSemicolon (s : Str) : Str := s.takeWhile (· != ch ';')

def scanned (cookie line : Str) : Str :=
  let text := after line (str ": ")
  if contains text cookie then
    let value := (after text cookie).tail
    if contains value (str ";") then before value (str ";") else value
  else text

theorem getCookie_last (header : List Str) (cookie : Str) :
    getCookie header cookie = removeWhiteSpace (((lastCookieLine header).map (scanned cookie)).getD []) := by
  have run : header.foldl (fun line i => if isCookieLine i then scanned cookie i else line) [] =
      ((lastCookieLine header).map (scanned cookie)).getD [] := by
    unfold lastCookieLine
    induction header using List.reverseRecOn with
    | nil => rfl
    | append_singleton header i ih =>
      rw [List.foldl_append, List.foldl_cons, List.foldl_nil, List.filter_append, ih]
      cases here : isCookieLine i with
      | true => simp [here]
      | false => simp [here]
  rw [← run]
  rfl

theorem upToSemicolon_eq (value : Str) :
    (if contains value (str ";") then before value (str ";") else value) = upToSemicolon value := by
  change (if contains value [ch ';'] = true then before value [ch ';'] else value) = _
  rw [before_byte, upToSemicolon]
  by_cases inside : ch ';' ∈ value
  · rw [if_pos ((contains_byte_iff value _).mpr inside), if_pos inside]
  · have free : ∀ c ∈ value, (c != ch ';') = true := fun c member => by
      simpa using fun same : c = ch ';' => inside (same ▸ member)
    rw [if_neg fun there => inside ((contains_byte_iff value _).mp there), List.takeWhile_eq_self_iff.mpr free]

theorem upToSemicolon_of {text back : Str} (closed : ch ';' ∉ text) (ended : ∀ c ∈ back.head?, c = ch ';') :
    upToSemicolon (text ++ back) = text := by
  have free : ∀ c ∈ text, (c != ch ';') = true := fun c member => by
    simpa using fun same : c = ch ';' => closed (same ▸ member)
  rw [upToSemicolon, List.takeWhile_append_of_pos free]
  cases rest : back with
  | nil => simp
  | cons c back =>
    have semicolon := ended c (by simp [rest])
    simp [semicolon]

/- A cookie of the name, at the place where the scan stops. -/

/-- Between the colon or a semicolon and the name there is white space only, an equals sign follows, and the value
is not made of white space only. -/
structure Hit (line name start gap value back : Str) : Prop where
  whole : line = start ++ (gap ++ (name ++ ch '=' :: (value ++ back)))
  behindColon : 7 ≤ start.length
  opened : ∀ c ∈ (start.drop 7).getLast?, c = ch ';'
  blank : gap.all isWhiteSpace = true
  closed : ch ';' ∉ value
  ended : ∀ c ∈ back.head?, c = ch ';'
  filled : value = [] ∨ value.all isWhiteSpace = false
  first : contains (after line (str ": ")) name = true
  stops : after (after line (str ": ")) name = ch '=' :: (value ++ back)

def FirstIsCookie (line name : Str) : Prop := ∃ start gap value back, Hit line name start gap value back

theorem piece_listed {start piece back : Str} (opened : ∀ c ∈ start.getLast?, c = ch ';') (closed : ch ';' ∉ piece)
    (ended : ∀ c ∈ back.head?, c = ch ';') : piece ∈ (start ++ (piece ++ back)).splitOn (ch ';') := by
  have tail : piece ∈ (piece ++ back).splitOn (ch ';') := by
    cases back with
    | nil => rw [List.append_nil, List.splitOn_eq_singleton closed, List.mem_singleton]
    | cons c back =>
      rw [ended c rfl, List.splitOn_append_cons_self_of_not_mem closed]
      exact List.mem_cons_self
  cases start using List.reverseRecOn with
  | nil => exact tail
  | append_singleton start c =>
    rw [opened c (by simp), List.append_assoc, List.singleton_append, List.splitOn_append_cons_self]
    exact List.mem_append_right _ tail

theorem white_plain {gap : Str} (blank : gap.all isWhiteSpace = true) {c : UInt8} (other : isWhiteSpace c = false) : c ∉ gap := by
  intro inside
  rw [List.all_eq_true.mp blank c inside] at other
  cases other

/-- A cookie on a line: white space only stands between the colon or a semicolon and the name, and between the name and the
equals sign. -/
structure Sent (line name start gap gap' value back : Str) : Prop where
  whole : line = start ++ (gap ++ (name ++ (gap' ++ ch '=' :: (value ++ back))))
  behindColon : 7 ≤ start.length
  opened : ∀ c ∈ (start.drop 7).getLast?, c = ch ';'
  blank : gap.all isWhiteSpace = true
  blank' : gap'.all isWhiteSpace = true
  closed : ch ';' ∉ value
  ended : ∀ c ∈ back.head?, c = ch ';'

theorem listed_piece {c : UInt8} {s piece : Str} (listed : piece ∈ s.splitOn c) : ∃ start back, s = start ++ (piece ++ back) ∧
    c ∉ piece ∧ (∀ b ∈ start.getLast?, b = c) ∧ ∀ b ∈ back.head?, b = c := by
  by_cases inside : c ∈ s
  · obtain ⟨front, rest, rfl, plain⟩ := List.eq_append_cons_of_mem inside
    rw [List.splitOn_append_cons_self_of_not_mem plain, List.mem_cons] at listed
    rcases listed with rfl | later
    · exact ⟨[], c :: rest, rfl, plain, by simp, by simp⟩
    · obtain ⟨start, back, whole, closed, opened, ended⟩ := listed_piece later
      refine ⟨front ++ c :: start, back, by rw [whole]; simp, closed, ?_, ended⟩
      intro b last
      cases start using List.reverseRecOn with
      | nil => simpa using last.symm
      | append_singleton start d =>
        rw [← List.cons_append, ← List.append_assoc, List.getLast?_concat] at last
        exact opened b (by rw [List.getLast?_concat]; exact last)
  · rw [List.splitOn_eq_singleton inside, List.mem_singleton] at listed
    exact ⟨[], [], by rw [listed]; simp, listed ▸ inside, by simp, by simp⟩
termination_by s.length

section Found
variable {line : Str} {name : CookieName} {start gap value back : Str}

theorem trimmed_name {gap' : Str} (blank : gap.all isWhiteSpace = true) (blank' : gap'.all isWhiteSpace = true) :
    trimmed (gap ++ (name.text ++ gap')) = name.text := by
  have ends {c : UInt8} (inside : c ∈ name.text) : isWhiteSpace c = false := (name.plain c inside).2.2
  obtain ⟨c, rest, text⟩ := List.exists_cons_of_ne_nil name.some_
  have filled : ¬(gap ++ (name.text ++ gap')).all isWhiteSpace = true := by
    intro all
    have white := List.all_eq_true.mp all c (by simp [text])
    rw [ends (by simp [text])] at white
    cases white
  have front : (gap ++ (name.text ++ gap')).dropWhile isWhiteSpace = name.text ++ gap' := by
    rw [List.dropWhile_append_of_pos (List.all_eq_true.mp blank), text]
    exact List.dropWhile_cons_of_neg (by simp [ends (c := c) (by simp [text])])
  have back : (name.text ++ gap').reverse.dropWhile isWhiteSpace = name.text.reverse := by
    rw [List.reverse_append, List.dropWhile_append_of_pos fun c member =>
        List.all_eq_true.mp blank' c (List.mem_reverse.mp member)]
    cases reversed : name.text.reverse with
    | nil => rfl
    | cons d others =>
      have inside : d ∈ name.text := List.mem_reverse.mp (by simp [reversed])
      exact List.dropWhile_cons_of_neg (by simp [ends inside])
  rw [trimmed, if_neg filled, removeWhiteSpace, if_neg filled, front, back, List.reverse_reverse]

theorem Hit.scanned (hit : Hit line name.text start gap value back) : scanned name.text line = value := by
  rw [GuardianCookies.scanned]
  dsimp only
  rw [if_pos hit.first, upToSemicolon_eq, hit.stops, List.tail_cons, upToSemicolon_of hit.closed hit.ended]

theorem Sent.listed {gap' : Str} (sent : Sent line name.text start gap gap' value back) :
    (name.text, trimmed value) ∈ cookiesOf line := by
  have noEquals : ch '=' ∉ gap ++ (name.text ++ gap') := by
    intro inside
    simp only [List.mem_append] at inside
    rcases inside with blank | named | blank
    · exact white_plain sent.blank (by decide) blank
    · exact (name.plain _ named).2.1 rfl
    · exact white_plain sent.blank' (by decide) blank
  have noSemicolon : ch ';' ∉ gap ++ (name.text ++ (gap' ++ ch '=' :: value)) := by
    intro inside
    simp only [List.mem_append, List.mem_cons] at inside
    rcases inside with blank | named | blank | sign | rest
    · exact white_plain sent.blank (by decide) blank
    · exact (name.plain _ named).1 rfl
    · exact white_plain sent.blank' (by decide) blank
    · exact absurd sign (by decide)
    · exact sent.closed rest
  have split : line.drop 7 = start.drop 7 ++ ((gap ++ (name.text ++ (gap' ++ ch '=' :: value))) ++ back) := by
    rw [sent.whole, List.drop_append_of_le_length sent.behindColon]
    simp
  have listed := piece_listed sent.opened noSemicolon sent.ended
  have sign : ch '=' ∈ gap ++ (name.text ++ (gap' ++ ch '=' :: value)) := by simp
  have halves : gap ++ (name.text ++ (gap' ++ ch '=' :: value)) = (gap ++ (name.text ++ gap')) ++ ch '=' :: value := by simp
  have apart : ∀ c ∈ gap ++ (name.text ++ gap'), (c != ch '=') = true := fun c member => by
    simpa using fun same : c = ch '=' => noEquals (same ▸ member)
  have front : before (gap ++ (name.text ++ (gap' ++ ch '=' :: value))) [ch '='] = gap ++ (name.text ++ gap') := by
    rw [before_byte, if_pos sign, halves, List.takeWhile_append_of_pos apart]
    simp
  have behind : after (gap ++ (name.text ++ (gap' ++ ch '=' :: value))) [ch '='] = value := by
    rw [after_byte, halves, List.dropWhile_append_of_pos apart]
    simp
  rw [cookiesOf, split]
  refine List.mem_filterMap.mpr ⟨_, listed, ?_⟩
  change (if _ then some (trimmed (before _ [ch '=']), trimmed (after _ [ch '='])) else none) = _
  rw [if_pos sign, front, behind, trimmed_name sent.blank sent.blank']

theorem Hit.sent (hit : Hit line name.text start gap value back) : Sent line name.text start gap [] value back :=
  ⟨hit.whole, hit.behindColon, hit.opened, hit.blank, rfl, hit.closed, hit.ended⟩

theorem sent_of_listed {v : Str} (cookieLine : isCookieLine line = true) (listed : (name.text, v) ∈ cookiesOf line) :
    ∃ start gap gap' value back, Sent line name.text start gap gap' value back ∧ trimmed value = v := by
  obtain ⟨piece, inside, read⟩ := List.mem_filterMap.mp listed
  split at read
  · rename_i sign
    obtain ⟨front, value, rfl, plain⟩ := List.eq_append_cons_of_mem sign
    have cut : before (front ++ ch '=' :: value) (str "=") = front := @before_at (ch '=') (str "=") _ rfl plain value
    have behind : after (front ++ ch '=' :: value) (str "=") = value := @after_at (ch '=') (str "=") _ rfl plain value
    rw [cut, behind, Option.some.injEq, Prod.mk.injEq] at read
    obtain ⟨start, back, whole, closed, opened, ended⟩ := listed_piece inside
    obtain ⟨gap, gap', parts, blank, blank'⟩ := removeWhiteSpace_between front
    have same : removeWhiteSpace front = name.text := by
      rw [trimmed] at read
      split at read
      · exact absurd read.1.symm name.some_
      · exact read.1
    rw [same] at parts
    have long : 7 ≤ line.length := by
      have prefix_ := List.isPrefixOf_iff_prefix.mp cookieLine
      have lengths := prefix_.length_le
      simp only [toLower, List.length_map] at lengths
      have seven : (str "cookie:").length = 7 := by decide
      omega
    refine ⟨line.take 7 ++ start, gap, gap', value, back, ⟨?_, ?_, ?_, List.all_eq_true.mpr blank,
        List.all_eq_true.mpr blank', ?_, ended⟩,
      read.2⟩
    · have text := (List.take_append_drop 7 line).symm
      rw [whole, parts] at text
      simpa using text
    · rw [List.length_append, List.length_take]
      omega
    · have front_ : (line.take 7).length = 7 := by
        rw [List.length_take]
        omega
      have behind : (line.take 7 ++ start).drop 7 = start := List.drop_left' front_
      rw [behind]
      exact opened
    · exact fun member => closed (List.mem_append_right _ (List.mem_cons_of_mem _ member))
  · cases read

theorem Hit.kept (hit : Hit line name.text start gap value back) : removeWhiteSpace value = trimmed value := by
  rw [trimmed]
  split
  · rename_i white
    rcases hit.filled with empty | filled
    · rw [empty]
      rfl
    · rw [filled] at white
      cases white
  · rfl

end Found

/-- What the scan is left with on a line: from one character behind the first place of the name up to the next semicolon, or
all of the line's text where the name is not on it. -/
inductive Stands (line name : Str) : Str → Prop where
  | behindName (front more text back : Str) (whole : after line (str ": ") = front ++ (name ++ more))
      (first : ∀ i < front.length, ¬ name <+: (after line (str ": ")).drop i) (behind : more.tail = text ++ back)
      (closed : ch ';' ∉ text) (ended : ∀ c ∈ back.head?, c = ch ';') : Stands line name text
  | withoutName (absent : ¬ name <:+: after line (str ": ")) : Stands line name (after line (str ": "))

/-- The lines for which the scan is right: the first place of the name on the last line is a cookie of that name; or what
stands there is the value of another one; or nothing stands there, and no cookie of that name is sent. -/
inductive Clear (header : List Str) (name : Str) : Prop where
  | lineless (none_ : ∀ line ∈ header, isCookieLine line = false)
  | cookie (line : Str) (last : lastCookieLine header = some line) (first : FirstIsCookie line name)
  | sameValue (line text : Str) (last : lastCookieLine header = some line) (stands : Stands line name text)
      (other start gap gap' value back : Str) (member : other ∈ header) (cookieLine : isCookieLine other = true)
      (sent : Sent other name start gap gap' value back) (same : removeWhiteSpace text = trimmed value)
  | nothing (line : Str) (last : lastCookieLine header = some line) (stands : Stands line name [])
      (unsent : ∀ other ∈ header, isCookieLine other = true →
        ∀ start gap gap' value back, ¬ Sent other name start gap gap' value back)

theorem mem_valuesOf {header : List Str} {name : CookieName} {v : Str} : v ∈ valuesOf header name.text ↔
    ∃ line ∈ header, isCookieLine line = true ∧ ∃ start gap gap' value back,
      Sent line name.text start gap gap' value back ∧ trimmed value = v := by
  simp only [valuesOf, List.mem_flatMap, List.mem_map, List.mem_filter, beq_iff_eq]
  constructor
  · rintro ⟨line, ⟨member, cookieLine⟩, ⟨name', v'⟩, ⟨listed, rfl⟩, rfl⟩
    exact ⟨line, member, cookieLine, sent_of_listed cookieLine listed⟩
  · rintro ⟨line, member, cookieLine, start, gap, gap', value, back, sent, rfl⟩
    exact ⟨line, ⟨member, cookieLine⟩, _, ⟨sent.listed, rfl⟩, rfl⟩

theorem stands_iff {line name text : Str} : Stands line name text ↔ scanned name line = text := by
  have missing : contains (after line (str ": ")) name = true ↔ name <:+: after line (str ": ") := contains_iff_occurs _ _
  constructor
  · intro stands
    cases stands with
    | behindName front more _ back whole first behind closed ended =>
      rw [whole] at first
      have place : find name (after line (str ": ")) = some front.length := by
        rw [whole]
        exact find_place first
      have there : contains (after line (str ": ")) name = true := by
        rw [contains, place]
        rfl
      have rest : after (after line (str ": ")) name = more := by
        rw [after, place]
        simp only
        rw [whole, ← List.append_assoc, ← List.length_append, List.drop_left]
      rw [scanned]
      dsimp only
      rw [if_pos there, upToSemicolon_eq, rest, behind, upToSemicolon_of closed ended]
    | withoutName absent =>
      rw [scanned]
      dsimp only
      rw [if_neg (mt missing.mp absent)]
  · rintro rfl
    rw [scanned]
    dsimp only
    split
    · rename_i there
      obtain ⟨i, place⟩ := Option.isSome_iff_exists.mp there
      obtain ⟨long, more, whole⟩ := find_some place
      have rest : after (after line (str ": ")) name = more := by
        rw [after, place]
        simp only
        rw [← List.drop_drop, ← whole, List.drop_left]
      rw [upToSemicolon_eq, rest]
      have parts := List.takeWhile_append_dropWhile (p := (· != ch ';')) (l := more.tail)
      refine .behindName ((after line (str ": ")).take i) more _ (more.tail.dropWhile (· != ch ';')) ?_ ?_ parts.symm ?_ ?_
      · rw [whole, List.take_append_drop]
      · intro j early
        rw [List.length_take] at early
        exact find_first place j (by omega)
      · intro inside
        simpa using List.mem_takeWhile_imp inside
      · intro c head
        have stops := List.head?_dropWhile_not (· != ch ';') more.tail
        rw [head] at stops
        simpa using stops
    · rename_i absent
      exact .withoutName (mt missing.mpr absent)

theorem bypassName_some : str "GBYPASS" ≠ [] := by decide

theorem bypassName_plain : ∀ c ∈ str "GBYPASS", c ≠ ch ';' ∧ c ≠ ch '=' ∧ isWhiteSpace c = false := by
  decide +kernel

def bypassName : CookieName := ⟨str "GBYPASS", bypassName_some, bypassName_plain⟩

end GuardianCookies
