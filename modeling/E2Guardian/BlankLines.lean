import E2Guardian.ListLoads
import E2Guardian.StoryBoard
import E2Guardian.Urls

/- Lines without a visible character, in list files and in storyboards. Both parsers trim a line and
   look at what is left, and a line of white space only is not trimmed at all. -/
namespace GuardianBlankLines
open GuardianString GuardianTime GuardianItemFile GuardianUrls

def White (line : Str) : Prop := ∀ b ∈ line, b = ch ' ' ∨ b = ch '\t' ∨ b = ch '\r'

inductive Blank (line : Str) : Prop where
  | white (some_ : line ≠ []) (only : White line)
  | comment (count : Nat) (text : Str) (shape : line = List.replicate (count + 1) (ch ' ') ++ ch '#' :: text)

def DigitFirst (host : Host) : Prop :=
  ∀ text, (host.matchIP text || host.matchSubnet text || host.matchCIDR text || host.matchRange text) = true →
    ∃ b, text.head? = some b ∧ isDigit b = true

structure SameEntries (k k' : Contents) : Prop where
  items : ∀ x, x ∈ k.items ↔ x ∈ k'.items
  iplist : ∀ x, x ∈ k.iplist ↔ x ∈ k'.iplist
  iprangelist : ∀ x, x ∈ k.iprangelist ↔ x ∈ k'.iprangelist
  ipsubnetlist : ∀ x, x ∈ k.ipsubnetlist ↔ x ∈ k'.ipsubnetlist
  ipmaplist : ∀ x, x ∈ k.ipmaplist ↔ x ∈ k'.ipmaplist
  ipmaprangelist : ∀ x, x ∈ k.ipmaprangelist ↔ x ∈ k'.ipmaprangelist
  ipmapsubnetlist : ∀ x, x ∈ k.ipmapsubnetlist ↔ x ∈ k'.ipmapsubnetlist
  datamaplist : ∀ x, x ∈ k.datamaplist ↔ x ∈ k'.datamaplist
  timelist : ∀ x, x ∈ k.timelist ↔ x ∈ k'.timelist

/-- The same answer and the same entries, or no answer in both. -/
def SameLoad {μ : Type} : Option (Bool × List Str × Contents × μ) → Option (Bool × List Str × Contents × μ) → Prop
  | none, none => True
  | some (ok, _, k, _), some (ok', _, k', _) => ok = ok' ∧ SameEntries k k'
  | _, _ => False

section Lists
variable {μ : Type} (source : Source) (host : Host) (kind : Kind) (filters : Int)
variable (another : Str → Contents × μ → Option (Bool × Contents × μ))

def storeLine (line : Line) (st : Contents × μ) : Option (Contents × μ) :=
  (addLine host kind filters line st.1).map (·, st.2)

def loadLines (lines : List Str) (st : Contents × μ) : Option (Bool × List Str × Contents × μ) :=
  readLines source (storeLine host kind filters) another lines st

end Lists

/-- The line may be put anywhere into any list file of this kind. -/
def KeepsList (source : Source) (host : Host) (kind : Kind) (filters : Int) (line : Str) : Prop :=
  ∀ (μ : Type) (another : Str → Contents × μ → Option (Bool × Contents × μ)) (front back : List Str) (st : Contents × μ),
    SameLoad (loadLines source host kind filters another (front ++ line :: back) st)
      (loadLines source host kind filters another (front ++ back) st)

/-- The lines that are too short or too long to be looked at, and the kinds that drop what they do not know. -/
def Harmless (kind : Kind) (line : Str) : Prop :=
  line.length < 20000 ∧ ((cstr line).length < 2 ∨ 2048 < (cstr line).length ∨ kind.isip = true ∨
    (kind.istime = false ∧ kind.ismap = true))

theorem SameEntries.refl (k : Contents) : SameEntries k k := by
  constructor <;> intro x <;> exact Iff.rfl

theorem sameLoad_refl {μ : Type} (r : Option (Bool × List Str × Contents × μ)) : SameLoad r r := by
  cases r with
  | none => trivial
  | some r => exact ⟨rfl, SameEntries.refl _⟩

/- What a blank line is to the parser. -/

theorem White.all {line : Str} (white : White line) : line.all isWhiteSpace = true := by
  rw [List.all_eq_true]
  intro b member
  rcases white b member with rfl | rfl | rfl <;> decide

theorem White.free {line : Str} (white : White line) {b : UInt8} (other : isWhiteSpace b = false) : b ∉ line := by
  intro member
  have space := List.all_eq_true.mp white.all b member
  rw [other] at space
  cases space

theorem white_blanks (count : Nat) : White (List.replicate count (ch ' ')) :=
  fun _ member => .inl (List.eq_of_mem_replicate member)

theorem stripComment_white {line : Str} (none_ : ch '#' ∉ line) : stripComment line = line := by
  fun_induction stripComment line with
  | case1 a b rest mark => exact absurd (by simp [mark.2]) none_
  | case2 a b rest other ih =>
    rw [ih]
    exact fun member => none_ (List.mem_cons_of_mem _ member)
  | case3 => rfl

theorem stripComment_blanks (count : Nat) (text : Str) :
    stripComment (List.replicate (count + 1) (ch ' ') ++ ch '#' :: text) = List.replicate (count + 1) (ch ' ') := by
  induction count with
  | zero => simp [stripComment]
  | succ count ih =>
    rw [List.replicate_succ, List.replicate_succ, List.cons_append, List.cons_append, stripComment,
      if_neg (by decide), ← List.cons_append, ← List.replicate_succ, ih]

theorem White.starts {w : Str} (white : White w) {b : UInt8} (other : isWhiteSpace b = false) (bs : Str) :
    startsWith w (b :: bs) = false := by
  rw [← Bool.not_eq_true, startsWith, List.isPrefixOf_iff_prefix]
  intro front
  exact white.free other (front.subset List.mem_cons_self)

theorem parse_of_stripped (source : Source) {line w : Str} (long : 2 ≤ (cstr line).length)
    (short : (cstr line).length ≤ 2048) (open_ : startsWith (cstr line) (str "#") = false)
    (stripped : stripComment (cstr line) = w) (white : White w) : parseLine source line = .entry w := by
  unfold parseLine
  simp only
  rw [if_neg (by omega), if_neg (by omega), if_neg (by rw [open_]; exact Bool.false_ne_true), stripped]
  have trimmed : removeWhiteSpace w = w := if_pos white.all
  have plain : startsWith w (str ".Include<") = false := white.starts (b := ch '.') (by decide) _
  rw [trimmed, if_neg (by rw [plain]; exact Bool.false_ne_true)]

theorem blank_parsed (source : Source) {line : Str} (blank : Blank line) (long : 2 ≤ (cstr line).length)
    (short : (cstr line).length ≤ 2048) :
    ∃ w, parseLine source line = .entry w ∧ White w ∧ w ≠ [] := by
  cases blank with
  | white some_ only =>
    have whole : cstr line = line := cstr_of_nul_free (only.free (by decide))
    refine ⟨line, parse_of_stripped source long short ?_ ?_ only, only, some_⟩
    · rw [whole]
      exact only.starts (b := ch '#') (by decide) []
    · rw [whole]
      exact stripComment_white (only.free (by decide))
  | comment count text shape =>
    have whole : cstr line = List.replicate (count + 1) (ch ' ') ++ ch '#' :: cstr text := by
      rw [shape, cstr_append ((white_blanks _).free (by decide))]
      rfl
    refine ⟨List.replicate (count + 1) (ch ' '), parse_of_stripped source long short ?_ ?_ (white_blanks _),
      white_blanks _, ?_⟩
    · rw [whole]
      rfl
    · rw [whole]
      exact stripComment_blanks count _
    · simp [List.replicate_succ]

/- Harmless lines. -/

section Lists
variable {μ : Type} {source : Source} {host : Host} {kind : Kind} {filters : Int}
variable {another : Str → Contents × μ → Option (Bool × Contents × μ)}

theorem load_inserted {line : Str} (fits : line.length < 20000)
    (nothing : ∀ st : Contents × μ, ∃ l, parseLine source line = l ∧ (∀ inc, l ≠ .another inc) ∧ l ≠ .endlist ∧
      storeLine host kind filters l st = some st) (front back : List Str) :
    ∀ st, SameLoad (loadLines source host kind filters another (front ++ line :: back) st)
      (loadLines source host kind filters another (front ++ back) st) := by
  unfold loadLines
  induction front with
  | nil =>
    intro st
    obtain ⟨l, parsed, include_, end_, same⟩ := nothing st
    rw [List.nil_append, List.nil_append, readLines, if_neg (by omega), parsed]
    cases l with
    | another inc => exact absurd rfl (include_ inc)
    | endlist => exact absurd rfl end_
    | skip | timeTag temp | category name | entry temp =>
      simp only [same]
      exact sameLoad_refl _
  | cons first front ih =>
    intro st
    rw [List.cons_append, List.cons_append, readLines, readLines]
    split
    · trivial
    · cases parseLine source first with
      | endlist => exact ⟨rfl, SameEntries.refl _⟩
      | another inc =>
        simp only
        split
        · trivial
        · exact ⟨rfl, SameEntries.refl _⟩
        · exact ih _
      | skip | timeTag temp | category name | entry temp =>
        simp only
        split
        · exact ⟨rfl, SameEntries.refl _⟩
        · exact ih _

theorem tidy_white {w : Str} (white : White w) : tidy host filters w = if filters ≠ 32 then toLower w else w := by
  have slash : endsWith w (str "/") = false := by
    rw [← Bool.not_eq_true, endsWith, List.isSuffixOf_iff_suffix]
    intro back
    exact white.free (b := ch '/') (by decide) (back.subset (by decide))
  have ftp : startsWith w (str "ftp://") = false := white.starts (b := ch 'f') (by decide) _
  have port : contains (before w (str "/")) (str ":") = false := by
    have none_ : before w (str "/") = [] := by
      rw [show str "/" = [ch '/'] from rfl, before_byte, if_neg (white.free (by decide))]
    rw [none_]
    rfl
  simp only [tidy, slash, ftp, port, Bool.false_eq_true, and_false, false_and, if_false]

theorem toLower_white {w : Str} (white : White w) : toLower w = w := by
  unfold toLower
  rw [List.map_congr_left (g := id), List.map_id]
  intro b member
  rcases white b member with rfl | rfl | rfl <;> decide

theorem contains_white {w : Str} (white : White w) {b : UInt8} (other : isWhiteSpace b = false) : contains w [b] = false := by
  rw [← Bool.not_eq_true, contains_byte_iff]
  exact white.free other

theorem address_white (digits : DigitFirst host) {w : Str} (white : White w) : parseAddress host w = none := by
  have none_ : (host.matchIP w || host.matchSubnet w || host.matchCIDR w || host.matchRange w) = false := by
    rw [← Bool.not_eq_true]
    intro some_
    obtain ⟨b, head, digit⟩ := digits w some_
    have space := List.all_eq_true.mp white.all b (List.mem_of_head? head)
    rw [digit_not_whiteSpace digit] at space
    cases space
  simp only [Bool.or_eq_false_iff] at none_
  obtain ⟨⟨⟨single, subnet⟩, cidr⟩, range⟩ := none_
  simp only [parseAddress, single, subnet, cidr, range, Bool.false_eq_true, if_false]

theorem addEntry_white (digits : DigitFirst host) {w : Str} (white : White w)
    (drops : kind.isip = true ∨ (kind.istime = false ∧ kind.ismap = true)) (k : Contents) :
    addEntry host kind filters w k = some k := by
  have equals : contains w (str "=") = false := contains_white (b := ch '=') white (by decide)
  have map : addToIPMap host w k = k := by
    unfold addToIPMap
    rw [if_neg (by rw [equals]; exact Bool.false_ne_true)]
  have address : addToIPList host kind.ismap w k = k := by
    unfold addToIPList
    rw [address_white digits white]
    split
    · exact map
    · rfl
  have tidied : tidy host filters w = w := by
    rw [tidy_white white]
    split
    · exact toLower_white white
    · rfl
  have data : addToDataMap w k = k := by
    unfold addToDataMap
    rw [if_neg (by rw [equals]; exact Bool.false_ne_true)]
  unfold addEntry
  simp only [tidied, ite_self]
  split
  · rfl
  · rcases drops with isip | ⟨notime, ismap⟩
    · rw [if_pos isip, address]
    · split
      · rw [address]
      · rw [if_neg (by rw [notime]; exact Bool.false_ne_true), data]

/-- What plain lists and time lists do with an entry of white space: there is a new entry, or the load fails. -/
theorem addEntry_added {w : Str} (white : White w) (some_ : w ≠ []) (plain : kind.isip = false)
    (other : kind.istime = true ∨ kind.ismap = false) : addEntry host kind filters w .empty = none ∨
      ∃ k, addEntry host kind filters w .empty = some k ∧ ¬ SameEntries k .empty := by
  have tidied : tidy host filters w = w := by
    rw [tidy_white white]
    split
    · exact toLower_white white
    · rfl
  have long : ¬ w.length = 0 := fun none_ => some_ (List.length_eq_zero_iff.mp none_)
  unfold addEntry
  simp only [tidied, ite_self, long, plain, if_false, Bool.false_eq_true]
  cases time : kind.istime with
  | true =>
    simp only [if_true, addToTimeList]
    cases band : readTimeBand w with
    | none => exact .inl rfl
    | some tl =>
      refine .inr ⟨_, rfl, fun same => ?_⟩
      have gone := (same.timelist tl).mp (List.mem_singleton.mpr rfl)
      cases gone
  | false =>
    have map : kind.ismap = false := other.resolve_left (by rw [time]; exact Bool.false_ne_true)
    simp only [map, Bool.false_eq_true, if_false]
    refine .inr ⟨_, rfl, fun same => ?_⟩
    have gone := (same.items w).mp (List.mem_singleton.mpr rfl)
    cases gone

end Lists

theorem keeps_of_harmless {source : Source} {host : Host} (digits : DigitFirst host) {kind : Kind} {filters : Int}
    {line : Str} (blank : Blank line) (harmless : Harmless kind line) : KeepsList source host kind filters line := by
  intro μ another front back st
  refine load_inserted harmless.1 (fun st => ?_) front back st
  by_cases long : (cstr line).length < 2
  · refine ⟨.skip, ?_, nofun, nofun, rfl⟩
    unfold parseLine
    simp only
    rw [if_pos long]
  · by_cases far : 2048 < (cstr line).length
    · refine ⟨.skip, ?_, nofun, nofun, rfl⟩
      unfold parseLine
      simp only
      rw [if_neg long, if_pos far]
    · obtain ⟨w, parsed, white, some_⟩ := blank_parsed source blank (Nat.not_lt.mp long) (Nat.not_lt.mp far)
      have drops := (harmless.2.resolve_left long).resolve_left far
      refine ⟨.entry w, parsed, nofun, nofun, ?_⟩
      show (addEntry host kind filters w st.1).map (·, st.2) = some st
      rw [addEntry_white digits white drops]
      rfl

theorem harmless_of_keeps {source : Source} {host : Host} {kind : Kind} {filters : Int} {line : Str} (blank : Blank line)
    (keeps : KeepsList source host kind filters line) : Harmless kind line := by
  have alone := keeps Unit (fun _ _ => none) [] [] (.empty, ())
  unfold loadLines at alone
  rw [List.nil_append, List.nil_append, readLines, readLines] at alone
  by_contra harmful
  split at alone
  · exact alone
  · rename_i fits
    have lengths : 2 ≤ (cstr line).length ∧ (cstr line).length ≤ 2048 := by
      by_contra other
      exact harmful ⟨by omega, by omega⟩
    obtain ⟨w, parsed, white, some_⟩ := blank_parsed source blank lengths.1 lengths.2
    have plain : kind.isip = false := by
      by_contra isip
      exact harmful ⟨by omega, .inr (.inr (.inl (by simpa using isip)))⟩
    have other : kind.istime = true ∨ kind.ismap = false := by
      by_contra drops
      rw [not_or] at drops
      exact harmful ⟨by omega, .inr (.inr (.inr ⟨by simpa using drops.1, by simpa using drops.2⟩))⟩
    rw [parsed] at alone
    simp only [storeLine, addLine] at alone
    rcases addEntry_added white some_ plain other with refused | ⟨k, added, differ⟩
    · rw [refused] at alone
      exact Bool.false_ne_true alone.1
    · rw [added] at alone
      exact differ alone.2

/- Storyboards. -/

section Stories
open GuardianStoryBoard

/-- The functions of a storyboard without their line numbers. -/
def unnumbered (sb : StoryBoard) : List SBFunction :=
  sb.funct_vec.map fun f =>
    { f with file_lineno := 0, comm_dq := f.comm_dq.map fun rec => { rec with file_lineno := 0 } }

/-- The line may be put anywhere into any storyboard file. -/
def KeepsStory (line : Str) : Prop :=
  ∀ (include_ : StoryBoard → Str → Option (Bool × StoryBoard)) (filename : Str) (front back : List Str) (sb : StoryBoard),
    (GuardianStoryBoard.readLines include_ filename (front ++ line :: back) 0 .start sb).map
        (fun r => (r.1, unnumbered r.2)) =
      (GuardianStoryBoard.readLines include_ filename (front ++ back) 0 .start sb).map fun r => (r.1, unnumbered r.2)

/-- A line of white space is a command without a name. -/
theorem story_line {line : Str} (some_ : line ≠ []) (white : White line) :
    ∃ params action, GuardianStoryBoard.parseLine line = .command [] params action := by
  have whole : cstr line = line := cstr_of_nul_free (white.free (by decide))
  have trimmed : removeWhiteSpace line = line := if_pos white.all
  have dot : startsWith line (str ".") = false := white.starts (b := ch '.') (by decide) []
  have mark : startsWith line (str "#") = false := white.starts (b := ch '#') (by decide) []
  have command : before line (str "(") = [] := by
    rw [show str "(" = [ch '('] from rfl, before_byte, if_neg (white.free (by decide))]
  have long : ¬ line.length = 0 := fun none_ => some_ (List.length_eq_zero_iff.mp none_)
  unfold GuardianStoryBoard.parseLine
  simp only [long, if_false, whole, trimmed, dot, mark, Bool.false_eq_true, toLower_white white, command]
  exact ⟨_, _, rfl⟩

theorem story_refuses {line : Str} (some_ : line ≠ []) (white : White line) : ¬ KeepsStory line := by
  intro keeps
  have alone := keeps (fun _ _ => none) [] [] [] .empty
  obtain ⟨params, action, parsed⟩ := story_line some_ white
  have refused : GuardianStoryBoard.readLines (fun _ _ => none) [] [line] 0 .start .empty = some (false, .empty) := by
    rw [GuardianStoryBoard.readLines, parsed]
    rfl
  rw [List.nil_append, List.nil_append, refused] at alone
  cases alone

end Stories

/- Trimming. -/

def Trimmed (s : Str) : Prop := (∀ b ∈ s.head?, isWhiteSpace b = false) ∧ ∀ b ∈ s.getLast?, isWhiteSpace b = false

theorem trimmed_iff (s : Str) : Trimmed (removeWhiteSpace s) ↔ s = [] ∨ ¬ s.all isWhiteSpace = true := by
  constructor
  · intro trimmed
    by_contra other
    rw [not_or, not_not] at other
    have same : removeWhiteSpace s = s := if_pos other.2
    obtain ⟨b, rest, shape⟩ := List.exists_cons_of_ne_nil other.1
    rw [same, shape] at trimmed
    have space := List.all_eq_true.mp other.2 b (by simp [shape])
    rw [trimmed.1 b rfl] at space
    cases space
  · intro cond
    rcases cond with rfl | some_
    · exact ⟨nofun, nofun⟩
    · exact removeWhiteSpace_ends some_

/-- A blank line may be put into every list file if and only if it is not looked at or the list drops what it does not know;
into a storyboard it may not be put; and trimming works exactly on texts that are empty or have a visible byte. -/
theorem blank_lines_kept_iff {source : Source} {host : Host} (digits : DigitFirst host) (kind : Kind) (filters : Int)
    {line : Str} (blank : Blank line) :
    (KeepsList source host kind filters line ↔ Harmless kind line) ∧
      (White line → line ≠ [] → ¬ KeepsStory line) ∧
      ∀ s, Trimmed (removeWhiteSpace s) ↔ s = [] ∨ ¬ s.all isWhiteSpace = true :=
  ⟨⟨harmless_of_keeps blank, keeps_of_harmless digits blank⟩, fun white some_ => story_refuses some_ white, trimmed_iff⟩

def anywhere : Source := ⟨[], [], false⟩

def noAddresses : Host :=
  ⟨fun _ => false, fun _ => false, fun _ => false, fun _ => false, fun _ => false, fun _ => none, 1⟩

def plainList : Kind := ⟨false, false, false⟩

theorem cr_white : White (str "\r") := by
  intro b member
  rw [List.mem_singleton.mp member]
  exact .inr (.inr rfl)

/-- A line with only its carriage return is not looked at. -/
theorem carriage_return_kept : DigitFirst noAddresses ∧ Blank (str "\r") ∧
    KeepsList anywhere noAddresses plainList 0 (str "\r") := by
  have blank : Blank (str "\r") := .white (by decide) cr_white
  exact ⟨nofun, blank,
    (blank_lines_kept_iff (nofun : DigitFirst noAddresses) plainList 0 blank).1.mpr ⟨by decide, .inl (by decide)⟩⟩

/-- Two blanks are an item; a carriage return spoils a storyboard; a blank is not trimmed. -/
theorem blanks_are_items : ¬ KeepsList anywhere noAddresses plainList 0 (str "  ") ∧ ¬ KeepsStory (str "\r") ∧
    ¬ Trimmed (removeWhiteSpace (str " ")) := by
  refine ⟨fun keeps => ?_, story_refuses (by decide) cr_white, ?_⟩
  · have harmless := harmless_of_keeps (.white (by decide) (white_blanks 2)) keeps
    exact absurd harmless.2 (by decide)
  · rw [trimmed_iff]
    decide

end GuardianBlankLines
