import E2Guardian.Normalisation
import E2Guardian.PhraseLengths

/- NaughtyFilter::checkme as a whole: hex decoding, the loop that scans with and without case
   conversion, and the three texts that are made of a document. Every buffer has 129 bytes more
   than it needs; what a search leaves behind a text is still there in the second round. -/
namespace GuardianCheckme
open GuardianString GuardianTime GuardianPhraseList GuardianPhraseGraph GuardianPhraseSearch
open GuardianScoring GuardianTimedVerdicts GuardianNormalisation GuardianPhraseLengths OrderedMap RunCollapse

structure Options where
  preserve_case : Nat
  phrase_filter_mode : Nat
  hex_decode_content : Bool

-- The last three bytes are copied.
def hexdecode : Str → Str
  | c1 :: c2 :: c3 :: c4 :: t =>
    if c1 = ch '%' ∧ isHex c2 ∧ isHex c3 then (hexValue c2 * 16 + hexValue c3) :: hexdecode (c4 :: t)
    else c1 :: hexdecode (c2 :: c3 :: c4 :: t)
  | t => t

def spaceTags (c : UInt8) : UInt8 := if c = ch '>' ∨ c = ch '<' then 32 else c

def inTag (inhtml : Bool) (b : UInt8) : Bool := if b = ch '<' then true else if b = ch '>' then false else inhtml

def closeTag (b : UInt8) : UInt8 := if b = ch '>' then 32 else b

/-- The bytes that are copied to bodynohtml, from the byte that was copied before them. -/
def stripLoop (inhtml : Bool) (last : UInt8) : Str → Str
  | [] => []
  | b :: rest =>
    if inTag inhtml b ∨ (closeTag b = 32 ∧ last = 32) then stripLoop (inTag inhtml b) last rest
    else closeTag b :: stripLoop (inTag inhtml b) (closeTag b) rest

def stripped (bodylc : Str) : Str := 32 :: stripLoop false 32 bodylc

def opens (preserve_case : Bool) (name NAME behind : Str) : Bool :=
  name.isPrefixOf behind || (preserve_case && NAME.isPrefixOf behind)

def tagSkip (preserve_case : Bool) (bodylc : Str) (i : Nat) : Nat :=
  if bodylc.getD i 0 ≠ ch '<' then 0
  else if opens preserve_case (str "meta") (str "META") (bodylc.drop (i + 1)) then 6
  else if opens preserve_case (str "title") (str "TITLE") (bodylc.drop (i + 1)) then 7
  else 0

def copyByte (addit : Bool) (last c : UInt8) : Str :=
  if !addit then []
  else if c = ch '>' ∨ c = ch '<' then [32] -- a space before the next word
  else if c = 32 ∧ last = 32 then [] else [c]

/-- The bytes that are copied to bodymeta from the i-th byte on, and whether a tag was found. -/
def metaLoop (preserve_case : Bool) (bodylc : Str) (endhead : Nat) : Nat → Nat → Bool → UInt8 → Str × Bool
  | 0, _, _, _ => ([], false)
  | fuel + 1, i, addit, last =>
    if i + 7 < endhead then
      let skip := if addit then 0 else tagSkip preserve_case bodylc i
      let addit := addit || skip != 0
      let c := bodylc.getD (i + skip) 0
      let copied := copyByte addit last c
      let (more, found) := metaLoop preserve_case bodylc endhead fuel (i + skip + 1)
        (addit && c != ch '>' && c != ch '<') (copied.getD 0 last)
      (copied ++ more, skip != 0 || found)
    else ([], false)

-- strstr sees the buffer up to the first NUL.
def endOfHead (preserve_case : Bool) (bodylc : Str) (hexdecodedlen : Nat) : Nat :=
  let endhead := find (str "</head") (cstr bodylc) <|> find (str "<body") (cstr bodylc)
  let endhead := endhead <|> if preserve_case then
      find (str "</HEAD") (cstr bodylc) <|> find (str "<BODY") (cstr bodylc) else none
  endhead.getD hexdecodedlen

structure Loop where
  bodylc : Str
  bodynohtml : Str
  filter : Verdict

inductive Passed where
  | returned (filter : Verdict)
  | ended (st : Loop)

def decided (filter : Verdict) : Bool := filter.isItNaughty || filter.isException

section Run
variable (o : Options) (s : Settings) (limit : Int) (searchterms : Bool) (now : Clock) (g : PhraseGraph)

def checkphraseIn (cat : Int) (filter : Verdict) (file : Str) (filelen : Nat) : Option (Str × Verdict) :=
  match graphSearch g [] file filelen with
  | none => none
  | some (file, found) =>
    (scorePhrases s limit searchterms filter now g.list found cat).map fun filter => (file, filter)

def doNohtml : Bool := !searchterms && (o.phrase_filter_mode == 1 || o.phrase_filter_mode == 2)

def doRaw : Bool := o.phrase_filter_mode == 0 || o.phrase_filter_mode == 2 || o.phrase_filter_mode == 3

def onlyMeta : Bool := !searchterms && o.phrase_filter_mode == 3

def scratch (len : Nat) : Str := List.replicate (len + 128 + 1) 0

def metaText (preserve_case : Bool) (bodylc : Str) (endhead : Nat) : Option Str :=
  let found := metaLoop preserve_case bodylc endhead endhead 0 false 32
  if found.2 then some (32 :: found.1 ++ [0]) else none

/-- The file and the length that checkphrase is given of the document without tags. -/
def nohtmlText (bodylc bodynohtml : Str) : Str × Nat :=
  let copied := stripped bodylc
  (copied ++ bodynohtml.drop copied.length, copied.length - 1)

def converted (hexdecoded : Str) (preserve_case : Bool) : Str :=
  bodylc preserve_case (doNohtml o searchterms || o.phrase_filter_mode == 3) hexdecoded

def plainText (hexdecoded : Str) (preserve_case : Bool) : Str := stripped (converted o searchterms hexdecoded preserve_case)

def rawText (hexdecoded : Str) (preserve_case : Bool) : Str :=
  if doNohtml o searchterms then (converted o searchterms hexdecoded preserve_case).map spaceTags
  else converted o searchterms hexdecoded preserve_case

variable (cat : Bool → Bool → Int) -- cat of checkphrase is never set; by the round, and by whether tags are stripped

def checkMeta (hexdecoded : Str) (preserve_case : Bool) (st : Loop) : Option Verdict :=
  let buffer := converted o searchterms hexdecoded preserve_case ++ st.bodylc.drop hexdecoded.length
  let endhead := endOfHead preserve_case buffer hexdecoded.length
  match metaText preserve_case buffer endhead with
  | none => some st.filter
  | some bodymeta =>
    checkphrase s limit searchterms st.filter now g (bodymeta ++ (scratch endhead).drop bodymeta.length) bodymeta.length
      (cat preserve_case true)

def checkNohtml (hexdecoded : Str) (preserve_case : Bool) (st : Loop) : Option (Str × Verdict) :=
  if doNohtml o searchterms then
    let (file, len) := nohtmlText (converted o searchterms hexdecoded preserve_case) st.bodynohtml
    checkphraseIn s limit searchterms now g (cat preserve_case true) st.filter file len
  else some (st.bodynohtml, st.filter)

def casePass (hexdecoded : Str) (preserve_case : Bool) (st : Loop) : Option Passed :=
  if onlyMeta o searchterms then
    (checkMeta o s limit searchterms now g cat hexdecoded preserve_case st).map .returned
  else
    match checkNohtml o s limit searchterms now g cat hexdecoded preserve_case st with
    | none => none
    | some (bodynohtml, filter) =>
      if doNohtml o searchterms ∧ decided filter then some (.returned filter)
      else if doRaw o then
        match checkphraseIn s limit searchterms now g (cat preserve_case false) filter
            (rawText o searchterms hexdecoded preserve_case ++ st.bodylc.drop hexdecoded.length)
            hexdecoded.length with
        | none => none
        | some (bodylc, filter) =>
          if decided filter then some (.returned filter) else some (.ended ⟨bodylc, bodynohtml, filter⟩)
      else some (.returned filter)

def caseLoop (hexdecoded : Str) : Nat → Bool → Loop → Option Verdict
  | 0, _, st => some st.filter
  | rounds + 1, preserve_case, st =>
    match casePass o s limit searchterms now g cat hexdecoded preserve_case st with
    | none => none
    | some (.returned filter) => some filter
    | some (.ended st) => caseLoop hexdecoded rounds true st

def decodedBody (rawbody : Str) : Str := if !searchterms && o.hex_decode_content then hexdecode rawbody else rawbody

def checkme (filter : Verdict) (rawbody : Str) : Option Verdict :=
  if s.weighted_phrase_mode = 0 then some filter
  else
    let hexdecoded := decodedBody o searchterms rawbody
    let bodynohtml := if doNohtml o searchterms then scratch hexdecoded.length else []
    caseLoop o s limit searchterms now g cat hexdecoded (if o.preserve_case = 2 then 2 else 1)
      (o.preserve_case != 0 && o.preserve_case != 2) ⟨scratch hexdecoded.length, bodynohtml, filter⟩

end Run

theorem checkphraseIn_verdict (s : Settings) (limit : Int) (searchterms : Bool) (now : Clock) (g : PhraseGraph)
    (cat : Int) (filter : Verdict) (file : Str) (filelen : Nat) :
    (checkphraseIn s limit searchterms now g cat filter file filelen).map Prod.snd =
      checkphrase s limit searchterms filter now g file filelen cat := by
  unfold checkphraseIn checkphrase
  cases graphSearch g [] file filelen with
  | none => rfl
  | some result => exact (Option.map_map ..).trans Option.map_id'

/- What a search comes to, by what stands behind the document during the walk. -/
def searched (g : PhraseGraph) (doc tail : Str) : Found := (hitsBefore g doc tail).foldl (noteFound g.list) []

def Hits (s : Settings) (limit : Int) (now : Clock) (l : PhraseList) (found : Found) : Prop :=
  exceptionFound now l found ∨ bannedFound now l found ∨ weighed s now l found > limit

def searchedMap {l : PhraseList} {g : PhraseGraph} (built : Built l g) (doc tail : Str) : FoundMap g.list where
  entries := searched g doc tail
  distinct := (foldl_noteFound_ordered g.list _ List.Pairwise.nil).nodup_keys
  indexed := by
    rintro ⟨w, x, c⟩ member
    have once := (foldl_noteFound_ordered g.list (hitsBefore g doc tail) List.Pairwise.nil).nodup_keys
    have entry := foldl_noteFound_find g.list (hitsBefore g doc tail) w (rfl : find w ([] : Found) = none)
    rw [find_of_mem once member] at entry
    obtain ⟨hit, text, -, -⟩ := entry
    obtain ⟨item, there⟩ := built.merged.item (hitsBefore_entries hit)
    rw [there, Option.map_some, ← text, getItemAtInt, there]
    rfl
  counted := by
    rintro ⟨w, x, c⟩ member
    have once := (foldl_noteFound_ordered g.list (hitsBefore g doc tail) List.Pairwise.nil).nodup_keys
    have entry := foldl_noteFound_find g.list (hitsBefore g doc tail) w (rfl : find w ([] : Found) = none)
    rw [find_of_mem once member] at entry
    exact entry.2.2.1

theorem endLocals_naughty (s : Settings) (now : Clock) {l : PhraseList} (found : FoundMap l) (cat : Int) :
    (endLocals s now found true cat).isItNaughty = true := by
  rw [endLocals, (singles_naughty _ _).2, chains_isItNaughty found.counted _ (startLocals_carried true cat)]
  rfl

theorem scorePhrases_decided {l : PhraseList} (loaded : Loaded l) (found : FoundMap l) (s : Settings) (limit : Int)
    (searchterms : Bool) (filter : Verdict) (now : Clock) (cat : Int) :
    ∃ v, scorePhrases s limit searchterms filter now l found.entries cat = some v ∧
      (decided v = true ↔ decided filter = true ∨ Hits s limit now l found.entries) := by
  have outcome := scanPhrases_eq s now found loaded filter.isItNaughty cat
  unfold scorePhrases Hits
  split at outcome
  · rename_i exception
    obtain ⟨phrase, categories, combination, stopped⟩ := outcome
    rw [stopped]
    exact ⟨_, rfl, iff_of_true rfl (.inr (.inl exception))⟩
  · rename_i none_
    rw [outcome]
    refine ⟨_, rfl, ?_⟩
    obtain ⟨exception, naughty, -⟩ :=
      finalVerdict_flags s limit searchterms filter (endLocals s now found filter.isItNaughty cat)
    have weight : (endLocals s now found filter.isItNaughty cat).weighting = weighed s now l found.entries :=
      endLocals_weighting s now found filter.isItNaughty cat
    simp only [decided, exception, naughty, weight, Bool.or_eq_true, decide_eq_true_eq]
    cases before : filter.isItNaughty with
    | true => simp [endLocals_naughty]
    | false =>
      have banned := endLocals_banned s now found loaded cat none_
      rw [Bool.or_eq_true] at banned
      simp only [banned, none_, Bool.false_eq_true, false_or]
      tauto

/- The buffers. A search writes behind a text what it writes behind every text of that length, so a
   buffer that is used again is as good as a new one. -/
structure Untouched (len m : Nat) (buf : Str) : Prop where
  length_eq : buf.length = (scratch len).length
  behind : buf.drop m = (scratch len).drop m

def reach (g : PhraseGraph) (textlen n : Nat) : Nat := max textlen (n + (stamp g.list n g.slowgraph).length)

def foundFresh (g : PhraseGraph) (len : Nat) (text : Str) (n : Nat) : Found :=
  searched g (text.take n) (marked g n (text.drop n ++ (scratch len).drop text.length))

section Buffer
variable {l : PhraseList} {g : PhraseGraph} {len n : Nat} {text buf : Str}

theorem marked_buffer (inside : n ≤ text.length) (fit : Untouched len (reach g text.length n) buf) :
    marked g n (text.drop n ++ buf.drop text.length) =
      marked g n (text.drop n ++ (scratch len).drop text.length) := by
  have place : text.length + ((stamp g.list n g.slowgraph).length - (text.drop n).length) =
      reach g text.length n := by
    rw [reach, List.length_drop]
    omega
  rw [marked, marked, stampOn, stampOn, List.drop_append, List.drop_append, List.drop_drop (l := buf),
    List.drop_drop (l := scratch len), place, fit.behind]

theorem marked_untouched (inside : n ≤ text.length) (fit : Untouched len (reach g text.length n) buf)
    (room : text.length + 126 ≤ buf.length) :
    Untouched len (reach g text.length n)
      (text.take n ++ marked g n (text.drop n ++ buf.drop text.length)) := by
  have low := stamp_length g.list n g.slowgraph
  have front : (text.take n).length = n := List.length_take_of_le inside
  constructor
  · rw [← fit.length_eq, marked, stampOn, List.length_append, List.length_append, List.length_drop, front,
      List.length_append, List.length_drop, List.length_drop]
    omega
  · have far : n + (stamp g.list n g.slowgraph).length ≤ reach g text.length n := le_max_right _ _
    have whole : text.length ≤ reach g text.length n := le_max_left _ _
    have rest : text.length + ((stamp g.list n g.slowgraph).length +
        (reach g text.length n - n - (stamp g.list n g.slowgraph).length) - (text.drop n).length) =
          reach g text.length n := by
      rw [List.length_drop]
      omega
    rw [List.drop_append, front, List.drop_eq_nil_of_le (by rw [front]; omega), List.nil_append, marked, stampOn,
      List.drop_append, List.drop_eq_nil_of_le (by omega), List.nil_append, List.drop_drop, List.drop_append,
      List.drop_eq_nil_of_le (by rw [List.length_drop]; omega), List.nil_append, List.drop_drop, rest, fit.behind]

theorem search_in_buffer (loaded : Loaded l) {fqs : Bool} (made : makeGraph fqs l = some g) (s : Settings)
    (limit : Int) (searchterms : Bool) (now : Clock) (cat : Int) (filter : Verdict) (inside : n ≤ text.length)
    (room : text.length ≤ len + 2) (fit : Untouched len (reach g text.length n) buf) :
    ∃ file v, checkphraseIn s limit searchterms now g cat filter (text ++ buf.drop text.length) n = some (file, v) ∧
      Untouched len (reach g text.length n) file ∧
      (decided v = true ↔ decided filter = true ∨ Hits s limit now g.list (foundFresh g len text n)) := by
  have built := makeGraph_built (texts_nonempty loaded) made
  have front : (text.take n).length = n := List.length_take_of_le inside
  have size : buf.length = len + 129 := fit.length_eq.trans (List.length_replicate ..)
  have free : 127 ≤ (text.drop n ++ buf.drop text.length).length := by
    rw [List.length_append, List.length_drop, List.length_drop]
    omega
  have search := graphSearch_any built (loaded_texts_short loaded) (text.take n) free
  rw [front, ← List.append_assoc, List.take_append_drop] at search
  obtain ⟨v, scored, outcome⟩ := scorePhrases_decided (makeGraph_loaded loaded made)
    (searchedMap built (text.take n) (marked g n (text.drop n ++ buf.drop text.length))) s limit searchterms filter now cat
  refine ⟨_, v, ?_, marked_untouched inside fit (by omega), ?_⟩
  · rw [checkphraseIn, search]
    exact congrArg (Option.map _) scored
  · rw [outcome, foundFresh, ← marked_buffer inside fit]
    rfl

end Buffer

/- The lengths of the texts. -/
theorem stripLoop_length_le (text : Str) (inhtml : Bool) (last : UInt8) :
    (stripLoop inhtml last text).length ≤ text.length := by
  induction text generalizing inhtml last with
  | nil => exact Nat.le_refl _
  | cons b rest ih =>
    rw [stripLoop]
    split
    · exact (ih ..).trans (Nat.le_succ _)
    · exact Nat.succ_le_succ (ih ..)

theorem copyByte_length_le (addit : Bool) (last c : UInt8) : (copyByte addit last c).length ≤ 1 := by
  unfold copyByte
  split
  · exact Nat.zero_le _
  · split
    · exact Nat.le_refl _
    · split
      · exact Nat.zero_le _
      · exact Nat.le_refl _

theorem metaLoop_length_le (preserve_case : Bool) (text : Str) (endhead fuel i : Nat) (addit : Bool) (last : UInt8) :
    (metaLoop preserve_case text endhead fuel i addit last).1.length ≤ fuel := by
  induction fuel generalizing i addit last with
  | zero => exact Nat.le_refl _
  | succ fuel ih =>
    rw [metaLoop]
    split
    · dsimp only
      rw [List.length_append, Nat.add_comm fuel]
      exact Nat.add_le_add (copyByte_length_le ..) (ih ..)
    · exact Nat.zero_le _

/-- Case conversion moves no tag and no blank. -/
def SameMarks (b : UInt8) : Prop :=
  ∀ c ∈ [ch '<', ch '>', 32], convertByte false true b = c ↔ convertByte true true b = c

instance (b : UInt8) : Decidable (SameMarks b) := inferInstanceAs (Decidable (∀ c ∈ [ch '<', ch '>', 32], _))

theorem sameMarks (b : UInt8) : SameMarks b := byte_cases (by decide +kernel) b

theorem stripLoop_length_eq {f h : UInt8 → UInt8} (same : ∀ b, ∀ c ∈ [ch '<', ch '>', 32], f b = c ↔ h b = c)
    (text : Str) (inhtml : Bool) {last last' : UInt8} (blank : last = 32 ↔ last' = 32) :
    (stripLoop inhtml last (text.map f)).length = (stripLoop inhtml last' (text.map h)).length := by
  induction text generalizing inhtml last last' with
  | nil => rfl
  | cons b rest ih =>
    have state : inTag inhtml (f b) = inTag inhtml (h b) := by
      simp only [inTag, same b (ch '<') (by simp), same b (ch '>') (by simp)]
    have space : closeTag (f b) = 32 ↔ closeTag (h b) = 32 := by
      simp only [closeTag, ite_eq_left_iff, same b (ch '>') (by simp), same b 32 (by simp)]
    rw [List.map_cons, List.map_cons, stripLoop, stripLoop, state]
    simp only [space, blank]
    split
    · exact ih _ blank
    · exact congrArg Nat.succ (ih _ space)

section Rounds
variable (o : Options) (s : Settings) (limit : Int) (searchterms : Bool) (now : Clock) (g : PhraseGraph)

def newBuffer (hexdecoded : Str) (preserve_case : Bool) : Str :=
  converted o searchterms hexdecoded preserve_case ++ (scratch hexdecoded.length).drop hexdecoded.length

def RoundFinds (hexdecoded : Str) (preserve_case : Bool) : Prop :=
  let hits len text n := Hits s limit now g.list (foundFresh g len text n)
  if onlyMeta o searchterms then
    let buffer := newBuffer o searchterms hexdecoded preserve_case
    let endhead := endOfHead preserve_case buffer hexdecoded.length
    ∃ bodymeta, metaText preserve_case buffer endhead = some bodymeta ∧ hits endhead bodymeta bodymeta.length
  else
    (doNohtml o searchterms = true ∧ hits hexdecoded.length (plainText o searchterms hexdecoded preserve_case)
      ((plainText o searchterms hexdecoded preserve_case).length - 1)) ∨
      (doRaw o = true ∧
        hits hexdecoded.length (rawText o searchterms hexdecoded preserve_case) hexdecoded.length)

def goesOn : Bool := doRaw o && !onlyMeta o searchterms

/-- What stands in the buffers before a round makes no difference to it. -/
structure Fit (hexdecoded : Str) (st : Loop) : Prop where
  raw : Untouched hexdecoded.length (reach g hexdecoded.length hexdecoded.length) st.bodylc
  nohtml : doNohtml o searchterms = true → ∀ preserve_case,
    Untouched hexdecoded.length (reach g (plainText o searchterms hexdecoded preserve_case).length
      ((plainText o searchterms hexdecoded preserve_case).length - 1)) st.bodynohtml
  new : onlyMeta o searchterms = true → st.bodylc = scratch hexdecoded.length

variable {o s limit searchterms now g} {hexdecoded : Str}

theorem converted_length (preserve_case : Bool) :
    (converted o searchterms hexdecoded preserve_case).length = hexdecoded.length := List.length_map _

theorem rawText_length (preserve_case : Bool) :
    (rawText o searchterms hexdecoded preserve_case).length = hexdecoded.length := by
  unfold rawText
  split
  · rw [List.length_map, converted_length]
  · exact converted_length _

theorem stripped_length_le (preserve_case : Bool) :
    (plainText o searchterms hexdecoded preserve_case).length ≤ hexdecoded.length + 1 := by
  have copied := stripLoop_length_le (converted o searchterms hexdecoded preserve_case) false 32
  rw [converted_length] at copied
  exact Nat.succ_le_succ copied

theorem stripped_length_eq (nohtml : doNohtml o searchterms = true) (preserve_case : Bool) :
    (plainText o searchterms hexdecoded preserve_case).length =
      (plainText o searchterms hexdecoded false).length := by
  cases preserve_case with
  | false => rfl
  | true =>
    unfold plainText stripped converted bodylc
    rw [nohtml]
    exact congrArg Nat.succ (stripLoop_length_eq (fun b c member => (sameMarks b c member).symm) hexdecoded false Iff.rfl)

theorem metaText_length {preserve_case : Bool} {text bodymeta : Str} {endhead : Nat}
    (some_ : metaText preserve_case text endhead = some bodymeta) : bodymeta.length ≤ endhead + 2 := by
  unfold metaText at some_
  dsimp only at some_
  split at some_
  · obtain rfl := Option.some.inj some_
    have copied := metaLoop_length_le preserve_case text endhead endhead 0 false 32
    rw [List.length_append, List.length_cons]
    exact Nat.succ_le_succ (Nat.succ_le_succ copied)
  · cases some_

inductive RoundSpec (o : Options) (s : Settings) (limit : Int) (searchterms : Bool) (now : Clock) (g : PhraseGraph)
    (hexdecoded : Str) (preserve_case : Bool) (st : Loop) : Passed → Prop
  | found (v : Verdict) : decided v = true →
      (decided st.filter = true ∨ RoundFinds o s limit searchterms now g hexdecoded preserve_case) →
      RoundSpec o s limit searchterms now g hexdecoded preserve_case st (.returned v)
  | last (v : Verdict) : decided v = false → goesOn o searchterms = false →
      ¬ (decided st.filter = true ∨ RoundFinds o s limit searchterms now g hexdecoded preserve_case) →
      RoundSpec o s limit searchterms now g hexdecoded preserve_case st (.returned v)
  | next (st' : Loop) : decided st'.filter = false → goesOn o searchterms = true →
      Fit o searchterms g hexdecoded st' →
      ¬ (decided st.filter = true ∨ RoundFinds o s limit searchterms now g hexdecoded preserve_case) →
      RoundSpec o s limit searchterms now g hexdecoded preserve_case st (.ended st')

theorem RoundSpec.of_returned {preserve_case : Bool} {st : Loop} {v : Verdict}
    (outcome : decided v = true ↔
      decided st.filter = true ∨ RoundFinds o s limit searchterms now g hexdecoded preserve_case)
    (last : decided v = false → goesOn o searchterms = false) :
    RoundSpec o s limit searchterms now g hexdecoded preserve_case st (.returned v) := by
  cases flag : decided v with
  | true => exact .found v flag (outcome.mp flag)
  | false =>
    refine .last v flag (last flag) fun found => ?_
    rw [outcome.mpr found] at flag
    cases flag

theorem roundFinds_iff (s : Settings) (limit : Int) (now : Clock) (g : PhraseGraph) (hexdecoded : Str)
    (preserve_case : Bool) (only : onlyMeta o searchterms = false) :
    RoundFinds o s limit searchterms now g hexdecoded preserve_case ↔
      (doNohtml o searchterms = true ∧ Hits s limit now g.list
        (foundFresh g hexdecoded.length (plainText o searchterms hexdecoded preserve_case)
          ((plainText o searchterms hexdecoded preserve_case).length - 1))) ∨
      (doRaw o = true ∧ Hits s limit now g.list
        (foundFresh g hexdecoded.length (rawText o searchterms hexdecoded preserve_case) hexdecoded.length)) := by
  unfold RoundFinds
  rw [if_neg (by simp [only])]

section Step
variable (s limit now) {l : PhraseList} (loaded : Loaded l) {fqs : Bool} (made : makeGraph fqs l = some g)
variable (cat : Bool → Bool → Int) (preserve_case : Bool) {st : Loop} (fit : Fit o searchterms g hexdecoded st)
include loaded made fit

theorem checkMeta_spec (only : onlyMeta o searchterms = true) :
    ∃ v, checkMeta o s limit searchterms now g cat hexdecoded preserve_case st = some v ∧
      (decided v = true ↔
        decided st.filter = true ∨ RoundFinds o s limit searchterms now g hexdecoded preserve_case) := by
  have same : converted o searchterms hexdecoded preserve_case ++ st.bodylc.drop hexdecoded.length =
      newBuffer o searchterms hexdecoded preserve_case := by
    rw [fit.new only, newBuffer]
  unfold checkMeta RoundFinds
  rw [if_pos only, same]
  dsimp only
  split
  · rename_i none_
    exact ⟨_, rfl, by simp [none_]⟩
  · rename_i bodymeta some_
    obtain ⟨file, v, search, -, outcome⟩ := search_in_buffer loaded made s limit searchterms now
      (cat preserve_case true) st.filter (Nat.le_refl bodymeta.length) (metaText_length some_) ⟨rfl, rfl⟩
    rw [← checkphraseIn_verdict, search]
    refine ⟨v, rfl, outcome.trans ?_⟩
    simp [some_]

theorem checkNohtml_spec :
    ∃ bodynohtml v, checkNohtml o s limit searchterms now g cat hexdecoded preserve_case st = some (bodynohtml, v) ∧
      Fit o searchterms g hexdecoded ⟨st.bodylc, bodynohtml, v⟩ ∧
      (decided v = true ↔ decided st.filter = true ∨ (doNohtml o searchterms = true ∧ Hits s limit now g.list
        (foundFresh g hexdecoded.length (plainText o searchterms hexdecoded preserve_case)
          ((plainText o searchterms hexdecoded preserve_case).length - 1)))) := by
  unfold checkNohtml nohtmlText
  cases nohtml : doNohtml o searchterms with
  | false => exact ⟨_, _, rfl, ⟨fit.raw, fun on => absurd on (by simp [nohtml]), fit.new⟩, by simp⟩
  | true =>
    have low := @stripped_length_le o searchterms hexdecoded preserve_case
    obtain ⟨file, v, search, after_, outcome⟩ := search_in_buffer loaded made s limit searchterms now
      (cat preserve_case true) st.filter (Nat.sub_le _ 1) (by omega) (fit.nohtml nohtml preserve_case)
    refine ⟨file, v, search, ⟨fit.raw, fun _ preserve => ?_, fit.new⟩, by simpa using outcome⟩
    rw [stripped_length_eq nohtml preserve, ← stripped_length_eq nohtml preserve_case]
    exact after_

theorem casePass_spec : ∃ p, casePass o s limit searchterms now g cat hexdecoded preserve_case st = some p ∧
    RoundSpec o s limit searchterms now g hexdecoded preserve_case st p := by
  unfold casePass
  cases only : onlyMeta o searchterms with
  | true =>
    obtain ⟨v, checked, outcome⟩ := checkMeta_spec s limit now loaded made cat preserve_case fit only
    rw [if_pos rfl, checked]
    exact ⟨_, rfl, .of_returned outcome fun _ => by simp [goesOn, only]⟩
  | false =>
    obtain ⟨bodynohtml, v, checked, fit', outcome⟩ := checkNohtml_spec s limit now loaded made cat preserve_case fit
    have finds := roundFinds_iff s limit now g hexdecoded preserve_case only
    rw [if_neg (by simp), checked]
    dsimp only
    by_cases early : doNohtml o searchterms = true ∧ decided v = true
    · rw [if_pos early]
      exact ⟨_, rfl, .of_returned (by tauto) fun flag => by simp [early] at flag⟩
    · rw [if_neg early]
      cases raw : doRaw o with
      | false =>
        have off : goesOn o searchterms = false := by simp [goesOn, raw]
        simp only [raw, Bool.false_eq_true, false_and, or_false] at finds
        exact ⟨_, rfl, .of_returned (by tauto) fun _ => off⟩
      | true =>
        have on : goesOn o searchterms = true := by simp [goesOn, raw, only]
        have size := @rawText_length o searchterms hexdecoded preserve_case
        have buffer : Untouched hexdecoded.length
            (reach g (rawText o searchterms hexdecoded preserve_case).length hexdecoded.length) st.bodylc := by
          rw [size]
          exact fit'.raw
        obtain ⟨file, v', search, after_, outcome'⟩ := search_in_buffer loaded made s limit searchterms now
          (cat preserve_case false) v size.ge (size.le.trans (Nat.le_add_right _ 2)) buffer
        rw [size] at search after_
        rw [if_pos rfl, search]
        dsimp only
        simp only [raw, true_and] at finds
        have whole : decided v' = true ↔
            decided st.filter = true ∨ RoundFinds o s limit searchterms now g hexdecoded preserve_case := by tauto
        cases flag : decided v' with
        | true =>
          exact ⟨_, if_pos rfl, .found v' flag (whole.mp flag)⟩
        | false =>
          refine ⟨_, if_neg Bool.false_ne_true, ?_⟩
          refine .next _ flag on ⟨after_, fit'.nohtml, fun here => ?_⟩ fun found => ?_
          · rw [only] at here
            cases here
          · rw [whole.mpr found] at flag
            cases flag

end Step

/-- What the rounds find, the first of them with or without case conversion. -/
def LoopFinds (o : Options) (s : Settings) (limit : Int) (searchterms : Bool) (now : Clock) (g : PhraseGraph)
    (hexdecoded : Str) : Nat → Bool → Prop
  | 0, _ => False
  | rounds + 1, preserve_case => RoundFinds o s limit searchterms now g hexdecoded preserve_case ∨
      (goesOn o searchterms = true ∧ LoopFinds o s limit searchterms now g hexdecoded rounds true)

theorem caseLoop_spec {l : PhraseList} (loaded : Loaded l) {fqs : Bool} (made : makeGraph fqs l = some g)
    (cat : Bool → Bool → Int) (rounds : Nat) (preserve_case : Bool) {st : Loop}
    (fit : Fit o searchterms g hexdecoded st) :
    ∃ v, caseLoop o s limit searchterms now g cat hexdecoded rounds preserve_case st = some v ∧
      (decided v = true ↔
        decided st.filter = true ∨ LoopFinds o s limit searchterms now g hexdecoded rounds preserve_case) := by
  induction rounds generalizing preserve_case st with
  | zero => exact ⟨_, rfl, by simp [LoopFinds]⟩
  | succ rounds ih =>
    obtain ⟨p, passed, spec⟩ := casePass_spec s limit now loaded made cat preserve_case fit
    rw [caseLoop, passed, LoopFinds]
    cases spec with
    | found v flag finds => exact ⟨v, rfl, iff_of_true flag (finds.imp_right .inl)⟩
    | last v flag off none_ =>
      refine ⟨v, rfl, iff_of_false (by simp [flag]) ?_⟩
      rw [off]
      simpa using none_
    | next st' flag on fit' none_ =>
      obtain ⟨v, rest, outcome⟩ := ih true fit'
      refine ⟨v, rest, outcome.trans ?_⟩
      rw [flag, on]
      tauto

/-- Whether a document is decided on: by what each round finds in new buffers. -/
theorem checkme_decided {l : PhraseList} (loaded : Loaded l) {fqs : Bool} (made : makeGraph fqs l = some g)
    (o : Options) (s : Settings) (limit : Int) (searchterms : Bool) (now : Clock) (cat : Bool → Bool → Int)
    (filter : Verdict) (rawbody : Str) :
    ∃ v, checkme o s limit searchterms now g cat filter rawbody = some v ∧
      (decided v = true ↔ decided filter = true ∨ (s.weighted_phrase_mode ≠ 0 ∧
        LoopFinds o s limit searchterms now g (decodedBody o searchterms rawbody)
          (if o.preserve_case = 2 then 2 else 1) (o.preserve_case != 0 && o.preserve_case != 2))) := by
  unfold checkme
  by_cases off : s.weighted_phrase_mode = 0
  · rw [if_pos off]
    exact ⟨filter, rfl, by simp [off]⟩
  · rw [if_neg off]
    have fit : Fit o searchterms g (decodedBody o searchterms rawbody)
        ⟨scratch (decodedBody o searchterms rawbody).length,
          if doNohtml o searchterms then scratch (decodedBody o searchterms rawbody).length else [], filter⟩ :=
      ⟨⟨rfl, rfl⟩, fun nohtml _ => by rw [if_pos nohtml]; exact ⟨rfl, rfl⟩, fun _ => rfl⟩
    obtain ⟨v, looped, outcome⟩ := caseLoop_spec loaded made cat _ _ fit
    exact ⟨v, looped, outcome.trans (by simp only [ne_eq, off, not_false_eq_true, true_and])⟩

end Rounds

/-- Whatever one of the two scans alone decides on, both together decide on. -/
def AsksMore (o : Options) (s : Settings) (searchterms : Bool) : Prop :=
  ∀ (l : PhraseList) (fqs : Bool) (g : PhraseGraph) (limit : Int) (now : Clock) (cat cat' : Bool → Bool → Int)
    (filter : Verdict) (rawbody : Str) (alone : Nat), Loaded l → makeGraph fqs l = some g → alone = 0 ∨ alone = 1 →
    ∀ v, checkme { o with preserve_case := alone } s limit searchterms now g cat filter rawbody = some v →
      decided v = true →
      ∃ v', checkme { o with preserve_case := 2 } s limit searchterms now g cat' filter rawbody = some v' ∧
        decided v' = true

theorem second_round_or_nothing {o : Options} {s : Settings} {limit : Int} {searchterms : Bool} {now : Clock}
    {g : PhraseGraph} {hexdecoded : Str}
    (modes : searchterms = true ∨ (o.phrase_filter_mode ≠ 1 ∧ o.phrase_filter_mode ≠ 3)) :
    goesOn o searchterms = true ∨
      ∀ preserve_case, ¬ RoundFinds o s limit searchterms now g hexdecoded preserve_case := by
  have only : onlyMeta o searchterms = false := by
    unfold onlyMeta
    rcases modes with terms | ⟨-, other⟩
    · simp [terms]
    · simp [other]
  cases raw : doRaw o with
  | true => exact .inl (by simp [goesOn, raw, only])
  | false =>
    refine .inr fun preserve_case finds => ?_
    have none_ : doNohtml o searchterms = false := by
      unfold doNohtml
      rcases modes with terms | ⟨other, -⟩
      · simp [terms]
      · have second : o.phrase_filter_mode ≠ 2 := fun two => by simp [doRaw, two] at raw
        simp [other, second]
    rw [roundFinds_iff s limit now g hexdecoded preserve_case only, raw, none_] at finds
    simp at finds

-- A phrase and a title of two accented capitals, which case conversion makes small in the title only.
def capitals : PhraseList := load [.phrases (str "<" ++ [192, 192] ++ str ">") false (-1) (-1) 100]

def titled : Str := str "<title>" ++ [192, 192] ++ str "</title> z"

theorem capitals_made : makeGraph true capitals = some (quickGraph capitals) := by decide

theorem capitals_hit (s : Settings) :
    Hits s 0 noon (quickGraph capitals).list [([192, 192], 0, 1)] ∧ ¬ Hits s 0 noon (quickGraph capitals).list [] := by
  have facts : chains (quickGraph capitals).list = [] ∧
      (singleOf noon (quickGraph capitals).list 0 ([192, 192], 0, 1)).isSome = true := by decide
  refine ⟨.inr (.inl (.inr ⟨_, List.mem_singleton.mpr rfl, facts.2⟩)), ?_⟩
  simp [Hits, exceptionFound, bannedFound, weighed, totalWeight, shortfall, facts.1, undercut]

/-- Without the raw text only the round without case conversion finds the phrase. -/
theorem titled_rounds (s : Settings) {o : Options} (modes : o.phrase_filter_mode = 1 ∨ o.phrase_filter_mode = 3)
    (preserve_case : Bool) :
    RoundFinds o s 0 false noon (quickGraph capitals) titled preserve_case ↔ preserve_case = true := by
  obtain ⟨preserving, mode, hex⟩ := o
  have hits := capitals_hit s
  have texts : ∀ preserve_case : Bool,
      plainText ⟨0, 1, false⟩ false titled preserve_case =
        (if preserve_case then [32, 192, 192, 32, 122] else [32, 224, 224, 32, 122]) ∧
      endOfHead preserve_case (newBuffer ⟨0, 3, false⟩ false titled preserve_case) titled.length = 19 ∧
      metaText preserve_case (newBuffer ⟨0, 3, false⟩ false titled preserve_case) 19 =
        some (if preserve_case then [32, 192, 192, 32, 0] else [32, 224, 224, 32, 0]) := by decide
  have found : ∀ preserve_case : Bool,
      foundFresh (quickGraph capitals) 19 (if preserve_case then [32, 192, 192, 32, 122] else [32, 224, 224, 32, 122]) 4 =
        (if preserve_case then [([192, 192], 0, 1)] else []) ∧
      foundFresh (quickGraph capitals) 19 (if preserve_case then [32, 192, 192, 32, 0] else [32, 224, 224, 32, 0]) 5 =
        if preserve_case then [([192, 192], 0, 1)] else [] := by decide
  rcases modes with one | three
  · obtain rfl : mode = 1 := one
    have size : (plainText ⟨preserving, 1, hex⟩ false titled preserve_case).length - 1 = 4 := by
      rw [show plainText ⟨preserving, 1, hex⟩ false titled preserve_case = _ from (texts preserve_case).1]
      cases preserve_case <;> rfl
    rw [roundFinds_iff s 0 noon _ titled preserve_case rfl, size,
      show plainText ⟨preserving, 1, hex⟩ false titled preserve_case = _ from (texts preserve_case).1,
      show titled.length = 19 from rfl, (found preserve_case).1]
    cases preserve_case with
    | true => exact iff_of_true (.inl ⟨rfl, hits.1⟩) rfl
    | false => exact iff_of_false (by rintro (⟨-, found⟩ | ⟨raw, -⟩); exacts [hits.2 found, nomatch raw]) nofun
  · obtain rfl : mode = 3 := three
    have endhead : endOfHead preserve_case (newBuffer ⟨preserving, 3, hex⟩ false titled preserve_case)
      titled.length = 19 := (texts preserve_case).2.1
    have copied : metaText preserve_case (newBuffer ⟨preserving, 3, hex⟩ false titled preserve_case) 19 = _ :=
      (texts preserve_case).2.2
    have size : (if preserve_case then [32, 192, 192, 32, 0] else [32, 224, 224, 32, 0] : Str).length = 5 := by
      cases preserve_case <;> rfl
    unfold RoundFinds
    dsimp only
    have only : onlyMeta ⟨preserving, 3, hex⟩ false = true := rfl
    rw [if_pos only, endhead, copied]
    simp only [Option.some.injEq, exists_eq_left', size, (found preserve_case).2]
    cases preserve_case with
    | true => exact iff_of_true hits.1 rfl
    | false => exact iff_of_false hits.2 nofun

/-- What a round finds does not depend on the rounds that are asked for. -/
theorem roundFinds_case (asked : Nat) {o : Options} {s : Settings} {limit : Int} {searchterms : Bool} {now : Clock}
    {g : PhraseGraph} {hexdecoded : Str} {preserve_case : Bool} :
    RoundFinds o s limit searchterms now g hexdecoded preserve_case =
      RoundFinds { o with preserve_case := asked } s limit searchterms now g hexdecoded preserve_case := rfl

/-- What the scan with case preserved decides on is missed by both together if only that scan finds it and the round with
    case preserved is left out. -/
theorem both_scans_decide_iff {l : PhraseList} (loaded : Loaded l) {fqs : Bool} {g : PhraseGraph}
    (made : makeGraph fqs l = some g)
    (o : Options) (s : Settings) (limit : Int) (searchterms : Bool) (now : Clock) (cat cat' : Bool → Bool → Int)
    (filter : Verdict) (rawbody : Str) :
    ∃ v v', checkme { o with preserve_case := 1 } s limit searchterms now g cat filter rawbody = some v ∧
      checkme { o with preserve_case := 2 } s limit searchterms now g cat' filter rawbody = some v' ∧
      ((decided v = true → decided v' = true) ↔ s.weighted_phrase_mode = 0 ∨ decided filter = true ∨ goesOn o searchterms = true ∨
        RoundFinds o s limit searchterms now g (decodedBody o searchterms rawbody) false ∨
          ¬ RoundFinds o s limit searchterms now g (decodedBody o searchterms rawbody) true) := by
  obtain ⟨v, alone, decision⟩ :=
    checkme_decided loaded made { o with preserve_case := 1 } s limit searchterms now cat filter rawbody
  obtain ⟨v', both, decision'⟩ :=
    checkme_decided loaded made { o with preserve_case := 2 } s limit searchterms now cat' filter rawbody
  refine ⟨v, v', alone, both, ?_⟩
  rw [show decodedBody { o with preserve_case := 1 } searchterms rawbody = decodedBody o searchterms rawbody from rfl] at decision
  rw [show decodedBody { o with preserve_case := 2 } searchterms rawbody =
      decodedBody o searchterms rawbody from rfl] at decision'
  generalize decodedBody o searchterms rawbody = hexdecoded at decision decision' ⊢
  have one : decided v = true ↔ decided filter = true ∨ s.weighted_phrase_mode ≠ 0 ∧
      RoundFinds o s limit searchterms now g hexdecoded true := by
    rw [decision, roundFinds_case 1]
    exact or_congr_right (and_congr_right fun _ => or_iff_left fun more => more.2)
  have two : decided v' = true ↔ decided filter = true ∨ s.weighted_phrase_mode ≠ 0 ∧
      (RoundFinds o s limit searchterms now g hexdecoded false ∨
        goesOn o searchterms = true ∧ RoundFinds o s limit searchterms now g hexdecoded true) := by
    rw [decision', roundFinds_case 2, roundFinds_case 2]
    exact or_congr_right (and_congr_right fun _ =>
      or_congr_right (and_congr_right fun _ => or_iff_left fun more => more.2))
  rw [one, two]
  clear alone both decision decision' one two
  generalize RoundFinds o s limit searchterms now g hexdecoded false = first
  generalize RoundFinds o s limit searchterms now g hexdecoded true = second
  tauto

/- The text without tags. A byte is left out if the last mark of a tag up to it is an opening one. -/
def isMark (b : UInt8) : Bool := b == ch '<' || b == ch '>'

def tagOpen (front : Str) : Bool := front.reverse.find? isMark == some (ch '<')

def outsideTags (front : Str) : Str → Str
  | [] => []
  | b :: rest => (if tagOpen (front ++ [b]) then [] else [closeTag b]) ++ outsideTags (front ++ [b]) rest

/-- A space and what is outside of the tags, without the spaces that follow a space. -/
def strippedText (bodylc : Str) : Str := 32 :: squeeze 32 true (outsideTags [] bodylc)

theorem tagOpen_append (front : Str) (b : UInt8) : tagOpen (front ++ [b]) = inTag (tagOpen front) b := by
  unfold tagOpen inTag
  rw [List.reverse_append, List.reverse_singleton, List.singleton_append]
  by_cases opening : b = ch '<'
  · have mark : isMark b = true := by simp [isMark, opening]
    rw [List.find?_cons_of_pos mark, if_pos opening, opening]
    rfl
  · by_cases closing : b = ch '>'
    · have mark : isMark b = true := by simp [isMark, closing]
      rw [List.find?_cons_of_pos mark, if_neg opening, if_pos closing, closing]
      rfl
    · have plain : ¬ isMark b = true := by simp [isMark, opening, closing]
      rw [List.find?_cons_of_neg plain, if_neg opening, if_neg closing]

theorem stripLoop_eq (text front : Str) (last : UInt8) :
    stripLoop (tagOpen front) last text = squeeze 32 (last == 32) (outsideTags front text) := by
  induction text generalizing front last with
  | nil => rfl
  | cons b rest ih =>
    have later := ih (front ++ [b])
    rw [stripLoop, outsideTags, tagOpen_append] at *
    cases inside : inTag (tagOpen front) b with
    | true =>
      rw [inside] at later
      simpa using later last
    | false =>
      rw [inside] at later
      simp only [Bool.false_eq_true, false_or, if_false, List.singleton_append, squeeze]
      by_cases space : closeTag b = 32
      · by_cases behind : last = 32
        · simpa [space, behind] using later 32
        · simpa [space, behind] using later 32
      · have kept := later (closeTag b)
        rw [beq_false_of_ne space] at kept
        simpa [space] using kept

theorem stripped_eq (bodylc : Str) : stripped bodylc = strippedText bodylc :=
  congrArg (32 :: ·) (stripLoop_eq bodylc [] 32)

structure WholePassed (bodylc file : Str) (filelen : Nat) : Prop where
  text : file.take filelen = strippedText bodylc
  counted : filelen = (strippedText bodylc).length

theorem nohtmlText_eq (text bodynohtml : Str) :
    ∃ behind, nohtmlText text bodynohtml = (strippedText text ++ behind, (strippedText text).length - 1) := by
  refine ⟨bodynohtml.drop (stripped text).length, ?_⟩
  rw [← stripped_eq]
  rfl

/-- The buffer holds the whole text without tags, and the length that goes with it is always one byte short. -/
theorem stripped_text_cut (o : Options) (searchterms : Bool) (rawbody : Str) (preserve_case : Bool) (bodynohtml : Str) :
    let text := converted o searchterms (decodedBody o searchterms rawbody) preserve_case
    let (file, filelen) := nohtmlText text bodynohtml
    (∃ behind, file = strippedText text ++ behind) ∧ file.take filelen = (strippedText text).dropLast ∧
      ¬ WholePassed text file filelen := by
  dsimp only
  generalize converted o searchterms (decodedBody o searchterms rawbody) preserve_case = text
  obtain ⟨behind, passed⟩ := nohtmlText_eq text bodynohtml
  rw [passed]
  have some_ : 0 < (strippedText text).length := Nat.succ_pos _
  refine ⟨⟨behind, rfl⟩, ?_, fun whole => ?_⟩
  · rw [List.take_append_of_le_length (Nat.sub_le _ 1), List.dropLast_eq_take]
  · have short := whole.counted
    dsimp only at short
    omega

-- A page that ends with a banned word, and the same words the other way round.
def wordLast : Str := str "<b>all</b> bad"

def wordFirst : Str := str "<b>bad</b> all"

def badWord : PhraseList := load [.phrases (str "<bad>") false (-1) (-1) 100]

theorem last_word_missed :
    ¬ (∀ (o : Options) (searchterms : Bool) (rawbody : Str) (preserve_case : Bool) (bodynohtml : Str),
        let text := converted o searchterms (decodedBody o searchterms rawbody) preserve_case
        WholePassed text (nohtmlText text bodynohtml).1 (nohtmlText text bodynohtml).2) ∧
      [wordFirst, wordLast].map (fun rawbody => (checkme ⟨0, 1, false⟩ everyOccurrence 0 false noon (quickGraph badWord)
        (fun _ _ => 0) clearVerdict rawbody).map decided) = [some true, some false] := by
  constructor
  · intro always
    have whole := always ⟨0, 1, false⟩ false wordLast false (scratch wordLast.length)
    have lengths : (nohtmlText (converted ⟨0, 1, false⟩ false (decodedBody ⟨0, 1, false⟩ false wordLast) false)
          (scratch wordLast.length)).2 = 7 ∧
        (strippedText (converted ⟨0, 1, false⟩ false (decodedBody ⟨0, 1, false⟩ false wordLast) false)).length = 8 := by
      decide
    have same := whole.counted
    rw [lengths.1, lengths.2] at same
    cases same
  · decide +kernel

end GuardianCheckme
