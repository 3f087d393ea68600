import E2Guardian.ItemList

/- What one item list file holds: the line loop of ifsreadItemList, the entries of plain item
   lists, IP lists, IP maps, data maps and time lists, the final sort, and the lookup of one
   list in its own entries. The entry expressions, inet_aton and the number of filter groups
   come from outside. The list files that a line names are loaded by a call back. -/
namespace GuardianItemFile
open GuardianString GuardianTime GuardianItemList ThreeWayBisection

structure Kind where
  isip : Bool
  istime : Bool
  ismap : Bool
  deriving DecidableEq, Repr

/-- The expressions that IP entries and ports are recognised with, the C library's address
    conversion and the configured number of filter groups. -/
structure Host where
  matchIP : Str → Bool
  matchSubnet : Str → Bool
  matchCIDR : Str → Bool
  matchRange : Str → Bool
  matchPort : Str → Bool
  inet_aton : Str → Option UInt32
  filter_groups : Int

structure SubnetEntry where
  maskedaddr : UInt32
  mask : UInt32
  group : Str
  deriving DecidableEq, Repr

structure RangeEntry where
  startaddr : UInt32
  endaddr : UInt32
  group : Str
  deriving DecidableEq, Repr

/-- The entries of a list. The plain IP lists have no groups. A list without a time limit has
    none in `limit`; a limit that was never read has no days and is never in time. -/
structure Contents where
  items : List Str
  iplist : List UInt32
  iprangelist : List RangeEntry
  ipsubnetlist : List SubnetEntry
  ipmaplist : List (UInt32 × Str)
  ipmaprangelist : List RangeEntry
  ipmapsubnetlist : List SubnetEntry
  datamaplist : List (Str × Str)
  timelist : List TimeLimit
  category : Str
  limit : Option TimeLimit
  isSW : Bool
  issorted : Bool
  deriving DecidableEq, Repr

def Contents.empty : Contents := ⟨[], [], [], [], [], [], [], [], [], [], none, false, false⟩

def baseDir (filename : Str) : Str :=
  match filename.findIdx? (· == ch '/') with
  | none => []
  | some _ =>
    let upTo := (filename.reverse.dropWhile (· != ch '/')).reverse
    -- A slash that is the first byte of the name is taken for none at all.
    if upTo.length = 1 then filename else upTo

def fullPath (name base_dir : Str) : Str :=
  if startsWith name (str "/") then name else base_dir ++ name

def stripComment : Str → Str
  | a :: b :: rest => if a = ch ' ' ∧ b = ch '#' then [a] else a :: stripComment (b :: rest)
  | temp => temp

def includedFile (basedir list_pwd temp : Str) : Str :=
  let inc := before (after temp (str ".Include<")) (str ">")
  let inc := if contains inc (str "__LISTDIR__") then
      before inc (str "__LISTDIR__") ++ list_pwd ++ after inc (str "__LISTDIR__")
    else inc
  fullPath inc basedir

inductive Line where
  | skip
  | endlist
  | timeTag (temp : Str)
  | category (name : Str)
  | another (inc : Str)
  | entry (temp : Str)
  deriving DecidableEq, Repr

/-- How the text being read is framed: a file with includes, or a part of stdin without. -/
structure Source where
  basedir : Str
  list_pwd : Str
  stdin : Bool

def parseLine (source : Source) (linebuffer : Str) : Line :=
  let temp := cstr linebuffer
  if temp.length < 2 then .skip -- its jibberish
  else if temp.length > 2048 then .skip
  else if startsWith temp (str "#") then
    if startsWith temp (str "#time: ") then .timeTag temp
    else if startsWith temp (str "#listcategory:") then
      .category (before (after temp (str "\"")) (str "\""))
    else if source.stdin && startsWith temp (str "#ENDLIST") then .endlist
    else .skip -- it's a comment
  else
    let temp := removeWhiteSpace (stripComment temp)
    if startsWith temp (str ".Include<") then
      if source.stdin then .skip else .another (includedFile source.basedir source.list_pwd temp)
    else .entry temp

def tidy (host : Host) (filters : Int) (temp : Str) : Str :=
  let temp := if filters ≠ 32 ∧ endsWith temp (str "/") then chop temp else temp
  let temp := if filters ≠ 32 ∧ startsWith temp (str "ftp://") then after temp (str "ftp://")
    else temp
  let temp := if filters = 1 ∧ contains (before temp (str "/")) (str ":") ∧ host.matchPort temp then
      before temp (str ":") ++ str "/" ++ after temp (str "/")
    else temp
  if filters ≠ 32 then toLower temp else temp

def removeChar (s : Str) (old : UInt8) : Str := cstr (s.filter (· != old))

/-- Whether the label names one of the special groups, the exception or the banned addresses. -/
def isSpecialGroup (token : Str) : Bool :=
  let token := removePunctuation (removeWhiteSpace (toLower token))
  let token := removeChar (removeChar token (ch '_')) (ch '-')
  token == str "exceptioniplist" || token == str "exceptionlist" || token == str "exceptionip" ||
    token == str "bannediplist" || token == str "bannedlist" || token == str "bannedip"

def dropLabel (s label : Str) : Str := if startsWith s label then after s label else s

/-- The group that is stored for a label: nothing for a special group, else the first number in
    it, else the label without its prefixes. -/
def groupOf (group_value : Str) : Str :=
  if isSpecialGroup group_value then []
  else
    let normalised := toLower (removeWhiteSpace group_value)
    let normalised := dropLabel (dropLabel normalised (str "filter")) (str "group")
    let normalised := removeWhiteSpace normalised
    let digits := ((cstr normalised).dropWhile fun b => !isDigit b).takeWhile isDigit
    let normalised := if digits.length > 0 then digits else normalised
    dropLabel (removeWhiteSpace normalised) (str "filter")

def cidrMask (m : Int) : UInt32 := if m = 0 then 0 else 0xFFFFFFFF <<< (32 - m).toNat.toUInt32

/-- An address, a subnet or a range; what matches no expression or does not convert is dropped. -/
inductive Address where
  | single (addr : UInt32)
  | subnet (addr mask : UInt32)
  | range (startaddr endaddr : UInt32)
  deriving DecidableEq, Repr

def parseAddress (host : Host) (text : Str) : Option Address :=
  if host.matchIP text then (host.inet_aton text).map .single
  else if host.matchSubnet text then do
    let addr ← host.inet_aton (before text (str "/"))
    let mask ← host.inet_aton (after text (str "/"))
    some (.subnet addr mask)
  else if host.matchCIDR text then
    let m := toInteger (after text (str "/"))
    if m < 0 ∨ m > 32 then none
    else (host.inet_aton (before text (str "/"))).map fun addr => .subnet addr (cidrMask m)
  else if host.matchRange text then do
    let startaddr ← host.inet_aton (before text (str "-"))
    let endaddr ← host.inet_aton (after text (str "-"))
    some (.range startaddr endaddr)
  else none

def addToIPMap (host : Host) (line : Str) (k : Contents) : Contents :=
  if contains line (str "=") then
    let key := removeWhiteSpace (before line (str "="))
    let value := groupOf (after line (str "="))
    if !isSpecialGroup (after line (str "=")) &&
        (toInteger value < 1 || toInteger value > host.filter_groups) then k
    else
      match parseAddress host key with
      | some (.single addr) => { k with ipmaplist := k.ipmaplist ++ [(addr, value)] }
      | some (.subnet addr mask) =>
        { k with ipmapsubnetlist := k.ipmapsubnetlist ++ [⟨addr &&& mask, mask, value⟩] }
      | some (.range startaddr endaddr) =>
        { k with ipmaprangelist := k.ipmaprangelist ++ [⟨startaddr, endaddr, value⟩] }
      | none => k
  else k -- no filter group given

def addToIPList (host : Host) (ismap : Bool) (line : Str) (k : Contents) : Contents :=
  if ismap then addToIPMap host line k
  else
    match parseAddress host line with
    | some (.single addr) => { k with iplist := k.iplist ++ [addr] }
    | some (.subnet addr mask) =>
      { k with ipsubnetlist := k.ipsubnetlist ++ [⟨addr &&& mask, mask, []⟩] }
    | some (.range startaddr endaddr) =>
      { k with iprangelist := k.iprangelist ++ [⟨startaddr, endaddr, []⟩] }
    | none => k

def addToDataMap (line : Str) (k : Contents) : Contents :=
  if contains line (str "=") then
    let key := toLower (removeWhiteSpace (before line (str "=")))
    { k with datamaplist := k.datamaplist ++ [(key, groupOf (after line (str "=")))] }
  else k

def neverLimit : TimeLimit := ⟨0, 0, 0, 0, [], []⟩

def addToTimeList (line : Str) (k : Contents) : Option Contents :=
  (readTimeBand line).map fun tl =>
    { k with timelist := k.timelist ++ [tl], limit := some (k.limit.getD neverLimit) }

def addEntry (host : Host) (kind : Kind) (filters : Int) (temp : Str) (k : Contents) :
    Option Contents :=
  let temp := if kind.isip || kind.istime then temp else tidy host filters temp
  if temp.length = 0 then some k
  else if kind.isip then some (addToIPList host kind.ismap temp k)
  else if kind.istime then addToTimeList temp k
  else if kind.ismap then some (addToDataMap temp k)
  else some { k with items := k.items ++ [temp] }

/-- What a line other than an include does to the list; none ends the reading with an error. -/
def addLine (host : Host) (kind : Kind) (filters : Int) (line : Line) (k : Contents) :
    Option Contents :=
  match line with
  | .timeTag temp => (readTimeTag temp).map fun tl => { k with limit := some tl }
  | .category name => some { k with category := name }
  | .entry temp => addEntry host kind filters temp k
  | _ => some k

def sortRead (kind : Kind) (k : Contents) : Contents :=
  if kind.isip then
    if kind.ismap then
      { k with ipmaplist := k.ipmaplist.insertionSort (fun a b => a.1 ≤ b.1), issorted := true }
    else { k with iplist := k.iplist.insertionSort (· ≤ ·), issorted := true }
  else if kind.ismap then
    { k with datamaplist := k.datamaplist.insertionSort (fun a b => a.1 ≤ b.1), issorted := true }
  else k

def sortOwn (kind : Kind) (startsWith : Bool) (k : Contents) : Contents :=
  if kind.isip then
    if kind.ismap then { k with ipmaplist := k.ipmaplist.insertionSort (fun a b => a.1 ≤ b.1) }
    else { k with iplist := k.iplist.insertionSort (· ≤ ·) }
  else if kind.ismap then
    { k with datamaplist := k.datamaplist.insertionSort (fun a b => a.1 ≤ b.1) }
  else if k.items.length < 2 ∨ k.issorted then k
  else { k with items := sortItems startsWith k.items, isSW := startsWith, issorted := true }

theorem insertionSort_twice {α β : Type} [LE β] [DecidableLE β] [Std.Total fun a b : β => a ≤ b]
    [IsTrans β fun a b => a ≤ b] (key : α → β) (l : List α) :
    (l.insertionSort fun a b => key a ≤ key b).insertionSort (fun a b => key a ≤ key b) =
      l.insertionSort fun a b => key a ≤ key b := by
  have total : Std.Total fun a b : α => key a ≤ key b := ⟨fun a b => Std.Total.total (key a) (key b)⟩
  have trans : IsTrans α fun a b => key a ≤ key b := ⟨fun a b c => IsTrans.trans (key a) (key b) (key c)⟩
  exact (List.pairwise_insertionSort (fun a b => key a ≤ key b) l).insertionSort_eq

theorem sortOwn_twice (kind : Kind) (startsWith : Bool) (k : Contents) :
    sortOwn kind startsWith (sortOwn kind startsWith k) = sortOwn kind startsWith k := by
  unfold sortOwn
  cases kind.isip with
  | true =>
    cases kind.ismap with
    | true => simp [insertionSort_twice]
    | false =>
      have twice := insertionSort_twice (id : UInt32 → UInt32) k.iplist
      simpa using twice
  | false =>
    cases kind.ismap with
    | true => simp [insertionSort_twice]
    | false =>
      by_cases done : k.items.length < 2 ∨ k.issorted
      · simp only [done, Bool.false_eq_true, if_false, if_true]
      · simp only [done, Bool.false_eq_true, if_false, or_true, if_true]

section Reader
variable {σ : Type} (source : Source)
variable (store : Line → σ → Option σ) (another : Str → σ → Option (Bool × σ))

/-- The line loop: the answer, the lines that are left and the state. A line that does not fit
    the buffer sets failbit; no more is read then and the end of file is never seen. -/
def readLines : List Str → σ → Option (Bool × List Str × σ)
  | [], st => some (true, [], st)
  | linebuffer :: rest, st =>
    if linebuffer.length ≥ 20000 then none
    else
      match parseLine source linebuffer with
      | .endlist => some (true, rest, st)
      | .another inc =>
        match another inc st with
        | none => none
        | some (false, st) => some (false, rest, st)
        | some (true, st) => readLines rest st
      | line =>
        match store line st with
        | none => some (false, rest, st)
        | some st => readLines rest st

def includesIn (lines : List Str) : List Str :=
  lines.filterMap fun linebuffer =>
    match parseLine source linebuffer with
    | .another inc => some inc
    | _ => none

theorem readLines_keeps {P : σ → Prop} (stored : ∀ line st st', P st → store line st = some st' → P st')
    (lines : List Str) (included : ∀ inc ∈ includesIn source lines, ∀ st ok st', P st →
      another inc st = some (ok, st') → P st') {st : σ} (start : P st) {ok : Bool} {rest : List Str}
    {st' : σ} (done : readLines source store another lines st = some (ok, rest, st')) : P st' := by
  induction lines generalizing st with
  | nil =>
    simp only [readLines, Option.some.injEq, Prod.mk.injEq] at done
    exact done.2.2 ▸ start
  | cons linebuffer lines ih =>
    have later : ∀ inc ∈ includesIn source lines, ∀ st ok st', P st →
        another inc st = some (ok, st') → P st' := by
      intro inc mem
      apply included
      simp only [includesIn, List.mem_filterMap, List.mem_cons] at mem ⊢
      obtain ⟨line, mem, names⟩ := mem
      exact ⟨line, .inr mem, names⟩
    rw [readLines] at done
    split at done
    · simp at done
    · split at done
      · simp only [Option.some.injEq, Prod.mk.injEq] at done
        exact done.2.2 ▸ start
      · rename_i inc names
        have here : inc ∈ includesIn source (linebuffer :: lines) := by
          simp [includesIn, names]
        split at done
        · simp at done
        · rename_i st₁ answer
          simp only [Option.some.injEq, Prod.mk.injEq] at done
          exact done.2.2 ▸ included inc here _ _ _ start answer
        · rename_i st₁ answer
          exact ih later (included inc here _ _ _ start answer) done
      · split at done
        · simp only [Option.some.injEq, Prod.mk.injEq] at done
          exact done.2.2 ▸ start
        · rename_i st₁ answer
          exact ih later (stored _ _ _ start answer) done

/-- The line loop ends if every line fits the buffer and every include is loaded; what is left
    of the lines was among them. -/
theorem readLines_ends {P : σ → Prop} {another : Nat → Str → σ → Option (Bool × σ)}
    (stored : ∀ line st st', P st → store line st = some st' → P st') (lines : List Str)
    (short : ∀ line ∈ lines, line.length < 20000)
    (included : ∀ inc ∈ includesIn source lines, ∀ st, P st →
      ∃ enough r, P r.2 ∧ ∀ depth ≥ enough, another depth inc st = some r) {st : σ} (start : P st) :
    ∃ enough r, P r.2.2 ∧ (∀ line ∈ r.2.1, line ∈ lines) ∧
      ∀ depth ≥ enough, readLines source store (another depth) lines st = some r := by
  induction lines generalizing st with
  | nil => exact ⟨0, (true, [], st), start, by simp, fun _ _ => rfl⟩
  | cons linebuffer lines ih =>
    have fits : ¬ linebuffer.length ≥ 20000 := by
      have := short linebuffer (List.mem_cons_self ..)
      omega
    have later : ∀ inc ∈ includesIn source lines, ∀ st, P st →
        ∃ enough r, P r.2 ∧ ∀ depth ≥ enough, another depth inc st = some r := by
      intro inc mem
      apply included
      simp only [includesIn, List.mem_filterMap, List.mem_cons] at mem ⊢
      obtain ⟨line, mem, names⟩ := mem
      exact ⟨line, .inr mem, names⟩
    have onward : ∀ line ∈ lines, line ∈ linebuffer :: lines := fun _ => List.mem_cons_of_mem _
    have ih := fun {st} => @ih (fun line mem => short line (List.mem_cons_of_mem _ mem)) later st
    simp only [readLines, fits, if_false]
    cases parsed : parseLine source linebuffer with
    | endlist => exact ⟨0, (true, lines, st), start, onward, fun _ _ => rfl⟩
    | another inc =>
      have here : inc ∈ includesIn source (linebuffer :: lines) := by simp [includesIn, parsed]
      obtain ⟨enough, ⟨ok, st₁⟩, kept, answer⟩ := included inc here st start
      cases ok with
      | false =>
        refine ⟨enough, (false, lines, st₁), kept, onward, ?_⟩
        intro depth deep
        simp only [answer depth deep]
      | true =>
        obtain ⟨enough', r, keptAll, left, rest⟩ := ih kept
        refine ⟨max enough enough', r, keptAll, fun line mem => onward line (left line mem), ?_⟩
        intro depth deep
        simp only [answer depth (by omega), rest depth (by omega)]
    | skip | timeTag temp | category name | entry temp =>
      simp only
      split
      · exact ⟨0, (false, lines, st), start, onward, fun _ _ => rfl⟩
      · rename_i st₁ answer
        obtain ⟨enough, r, keptAll, left, rest⟩ := ih (stored _ _ _ start answer)
        exact ⟨enough, r, keptAll, fun line mem => onward line (left line mem), rest⟩

/-- The line loop is followed by another one on a second state. R relates the states while the
    reading goes well; Q holds of the first state in any case. -/
theorem readLines_follows {τ : Type} {R : σ → τ → Prop} {Q : σ → Prop} {store' : Line → τ → Option τ}
    {another' : Nat → Str → τ → Option (Bool × τ)} (weaker : ∀ s t, R s t → Q s)
    (stored : ∀ line s t, R s t → (store line s = none ∧ store' line t = none) ∨
      ∃ s' t', store line s = some s' ∧ store' line t = some t' ∧ R s' t')
    (lines : List Str) (included : ∀ inc ∈ includesIn source lines, ∀ s t ok s', R s t →
      another inc s = some (ok, s') → ∃ enough t', Q s' ∧ (ok = true → R s' t') ∧
        ∀ depth ≥ enough, another' depth inc t = some (ok, t')) {s s' : σ} {t : τ} {ok : Bool} {rest : List Str}
    (related : R s t) (done : readLines source store another lines s = some (ok, rest, s')) :
    ∃ enough t', Q s' ∧ (ok = true → R s' t') ∧
      ∀ depth ≥ enough, readLines source store' (another' depth) lines t = some (ok, rest, t') := by
  induction lines generalizing s t with
  | nil =>
    simp only [readLines, Option.some.injEq, Prod.mk.injEq] at done
    obtain ⟨rfl, rfl, rfl⟩ := done
    exact ⟨0, t, weaker s t related, fun _ => related, fun _ _ => rfl⟩
  | cons linebuffer lines ih =>
    have later : ∀ inc ∈ includesIn source lines, inc ∈ includesIn source (linebuffer :: lines) := by
      intro inc mem
      simp only [includesIn, List.mem_filterMap, List.mem_cons] at mem ⊢
      obtain ⟨line, mem, names⟩ := mem
      exact ⟨line, .inr mem, names⟩
    have ih := fun {s t} => @ih (fun inc mem => included inc (later inc mem)) s t
    by_cases long : linebuffer.length ≥ 20000
    · simp [readLines, long] at done
    · simp only [readLines, long, if_false] at done ⊢
      have each := stored (parseLine source linebuffer) s t related
      cases parsed : parseLine source linebuffer with
      | endlist =>
        simp only [parsed, Option.some.injEq, Prod.mk.injEq] at done
        obtain ⟨rfl, rfl, rfl⟩ := done
        exact ⟨0, t, weaker s t related, fun _ => related, fun _ _ => rfl⟩
      | another inc =>
        have here : inc ∈ includesIn source (linebuffer :: lines) := by simp [includesIn, parsed]
        simp only [parsed] at done
        split at done
        · simp at done
        · rename_i s₁ answer
          simp only [Option.some.injEq, Prod.mk.injEq] at done
          obtain ⟨rfl, rfl, rfl⟩ := done
          obtain ⟨enough, t₁, kept, _, answers⟩ := included inc here s t false _ related answer
          refine ⟨enough, t₁, kept, by simp, ?_⟩
          intro depth deep
          simp only [answers depth deep]
        · rename_i s₁ answer
          obtain ⟨enough, t₁, _, related₁, answers⟩ := included inc here s t true s₁ related answer
          obtain ⟨enough', t₂, kept, related₂, rest'⟩ := ih (related₁ rfl) done
          refine ⟨max enough enough', t₂, kept, related₂, ?_⟩
          intro depth deep
          simp only [answers depth (by omega), rest' depth (by omega)]
      | skip | timeTag temp | category name | entry temp =>
        simp only [parsed] at done each ⊢
        obtain ⟨stop, stop'⟩ | ⟨s₁, t₁, go, go', related₁⟩ := each
        · simp only [stop, Option.some.injEq, Prod.mk.injEq] at done
          obtain ⟨rfl, rfl, rfl⟩ := done
          exact ⟨0, t, weaker s t related, by simp, fun _ _ => by simp only [stop']⟩
        · simp only [go, go'] at done ⊢
          exact ih related₁ done

theorem readLines_congr {source' : Source} {another' : Str → σ → Option (Bool × σ)} (lines : List Str)
    (alike : ∀ line ∈ lines, parseLine source line = parseLine source' line)
    (included : ∀ inc ∈ includesIn source lines, ∀ st, another inc st = another' inc st) (st : σ) :
    readLines source store another lines st = readLines source' store another' lines st := by
  induction lines generalizing st with
  | nil => rfl
  | cons linebuffer lines ih =>
    have later : ∀ inc ∈ includesIn source lines, ∀ st, another inc st = another' inc st := by
      intro inc mem
      apply included
      simp only [includesIn, List.mem_filterMap, List.mem_cons] at mem ⊢
      obtain ⟨line, mem, names⟩ := mem
      exact ⟨line, .inr mem, names⟩
    have ih := ih (fun line mem => alike line (List.mem_cons_of_mem _ mem)) later
    have first := alike linebuffer (List.mem_cons_self ..)
    simp only [readLines, ← first, ih]
    cases parsed : parseLine source linebuffer with
    | another inc => simp only [included inc (by simp [includesIn, parsed]) st]
    | _ => rfl

end Reader

/-- The list directory only matters for the names of includes. -/
theorem parseLine_list_pwd (basedir pwd pwd' : Str) (stdin : Bool) (linebuffer : Str) :
    (∃ inc inc', parseLine ⟨basedir, pwd, stdin⟩ linebuffer = .another inc ∧
      parseLine ⟨basedir, pwd', stdin⟩ linebuffer = .another inc') ∨
    parseLine ⟨basedir, pwd, stdin⟩ linebuffer = parseLine ⟨basedir, pwd', stdin⟩ linebuffer ∧
      ∀ inc, parseLine ⟨basedir, pwd', stdin⟩ linebuffer ≠ .another inc := by
  simp only [parseLine]
  split_ifs
  all_goals simp

theorem parseLine_of_includesIn {basedir pwd pwd' : Str} {stdin : Bool} (lines : List Str)
    (same : includesIn ⟨basedir, pwd, stdin⟩ lines = includesIn ⟨basedir, pwd', stdin⟩ lines) :
    ∀ line ∈ lines, parseLine ⟨basedir, pwd, stdin⟩ line = parseLine ⟨basedir, pwd', stdin⟩ line := by
  induction lines with
  | nil => simp
  | cons linebuffer lines ih =>
    have here : parseLine ⟨basedir, pwd, stdin⟩ linebuffer = parseLine ⟨basedir, pwd', stdin⟩ linebuffer ∧
        includesIn ⟨basedir, pwd, stdin⟩ lines = includesIn ⟨basedir, pwd', stdin⟩ lines := by
      obtain ⟨inc, inc', one, two⟩ | ⟨alike, other⟩ := parseLine_list_pwd basedir pwd pwd' stdin linebuffer
      · simp only [includesIn, List.filterMap_cons, one, two, List.cons.injEq] at same
        exact ⟨by rw [one, two, same.1], same.2⟩
      · refine ⟨alike, ?_⟩
        simpa only [includesIn, List.filterMap_cons, alike] using same
    intro line mem
    obtain rfl | later := List.mem_cons.mp mem
    · exact here.1
    · exact ih here.2 line later

theorem includesIn_stdin (basedir list_pwd : Str) (lines : List Str) :
    includesIn ⟨basedir, list_pwd, true⟩ lines = [] := by
  unfold includesIn
  rw [List.filterMap_eq_nil_iff]
  intro linebuffer _
  split
  · rename_i inc names
    simp only [parseLine] at names
    split at names
    · simp at names
    · split at names
      · simp at names
      · split at names
        · split at names
          · simp at names
          · split at names
            · simp at names
            · split at names <;> simp at names
        · split at names <;> simp at names
  · rfl

/- The lookups in the entries of the list itself. -/

def searchMap {κ : Type} [DecidableEq κ] [LT κ] [DecidableLT κ] (entries : List (κ × Str))
    (key : κ) : Option Str :=
  let probe := fun m : Int =>
    match entries[m.toNat]? with
    | some e => if e.1 = key then 0 else if e.1 < key then -1 else 1
    | none => 1
  let r := bisect probe entries.length 0 (entries.length - 1)
  if r ≥ 0 then (entries[r.toNat]?).map Prod.snd else none

def inSubnets (subnets : List SubnetEntry) (ip : UInt32) : Option Str :=
  (subnets.find? fun s => s.maskedaddr == ip &&& s.mask).map SubnetEntry.group

def inRanges (ranges : List RangeEntry) (ip : UInt32) : Option Str :=
  (ranges.find? fun r => decide (r.startaddr ≤ ip) && decide (ip ≤ r.endaddr)).map RangeEntry.group

def getIPMapData (host : Host) (k : Contents) (ip : Str) : Option Str := do
  let addr ← host.inet_aton (removeWhiteSpace (cstr ip))
  searchMap k.ipmaplist addr <|> inSubnets k.ipmapsubnetlist addr <|> inRanges k.ipmaprangelist addr

def getMapData (k : Contents) (key : Str) : Option Str := searchMap k.datamaplist key

def inIPList (host : Host) (k : Contents) (ipstr : Str) : Bool :=
  match host.inet_aton (removeWhiteSpace (cstr ipstr)) with
  | none => false
  | some ip =>
    k.iplist.contains ip || (inRanges k.iprangelist ip).isSome || (inSubnets k.ipsubnetlist ip).isSome

/-- A text that was found, and the category if the lookup reports one. -/
abbrev Found := Str × Option Str

def searchOwn (comparitor : Str → Str → Int) (k : Contents) (string : Str) : Option Found :=
  let r := search comparitor k.items string
  if k.items.length > 0 ∧ r ≥ 0 then some (k.items.getD r.toNat [], some k.category) else none

def findOwn (host : Host) (kind : Kind) (k : Contents) (string : Str) : Option Found :=
  if kind.isip then
    if kind.ismap then (getIPMapData host k string).map (·, none)
    else if inIPList host k string then some ([], some k.category) else none
  else if kind.ismap then (getMapData k string).map (·, none)
  else searchOwn (if k.isSW then greaterThanSWF else greaterThanEWF) k string

def isNowInTimelist (now : Clock) (k : Contents) : Bool := k.timelist.any (isNow now)

end GuardianItemFile
