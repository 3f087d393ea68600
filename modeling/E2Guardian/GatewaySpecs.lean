import E2Guardian.Addresses
import Mathlib.Data.List.Sort

/- The binary search of a sorted range: a window that is halved until its start is the first entry that is
   not below the key. -/
namespace SortedSearch

theorem places_ordered {α : Type} [LE α] [Std.IsLinearOrder α] {l : List α} (sorted : l.Pairwise (· ≤ ·)) {i j : Nat} {x y : α}
    (below : i ≤ j) (atI : l[i]? = some x) (atJ : l[j]? = some y) : x ≤ y := by
  obtain ⟨insideI, rfl⟩ := List.getElem?_eq_some_iff.mp atI
  obtain ⟨insideJ, rfl⟩ := List.getElem?_eq_some_iff.mp atJ
  rcases Nat.lt_or_eq_of_le below with less | rfl
  · exact List.pairwise_iff_getElem.mp sorted i j insideI insideJ less
  · exact Std.le_refl _

variable {α : Type} [LT α] [DecidableLT α]

def lowerBound (l : List α) (key : α) (first len : Nat) : Nat :=
  if len = 0 then first
  else
    match l[first + len / 2]? with
    | none => first
    | some x =>
      if x < key then lowerBound l key (first + len / 2 + 1) (len - len / 2 - 1) else lowerBound l key first (len / 2)
termination_by len
decreasing_by all_goals omega

def binarySearch (l : List α) (key : α) : Bool :=
  match l[lowerBound l key 0 l.length]? with
  | none => false
  | some x => !decide (key < x)

variable [LE α] [Std.IsLinearOrder α] [Std.LawfulOrderLT α]

theorem lowerBound_splits {l : List α} (sorted : l.Pairwise (· ≤ ·)) (key : α) (first len : Nat)
    (room : first + len ≤ l.length) (low : ∀ i x, i < first → l[i]? = some x → x < key)
    (high : ∀ i x, first + len ≤ i → l[i]? = some x → ¬ x < key) :
    (∀ i x, i < lowerBound l key first len → l[i]? = some x → x < key) ∧
      ∀ i x, lowerBound l key first len ≤ i → l[i]? = some x → ¬ x < key := by
  induction first, len using lowerBound.induct l key with
  | case1 first =>
    rw [lowerBound, if_pos rfl]
    exact ⟨low, high⟩
  | case2 first len some_ outside =>
    have := List.getElem?_eq_none_iff.mp outside
    omega
  | case3 first len some_ x middle below ih =>
    rw [lowerBound, if_neg some_, middle]
    simp only [if_pos below]
    refine ih (by omega) ?_ ?_
    · intro i y inside atI
      exact Std.lt_of_le_of_lt (places_ordered sorted (Nat.lt_succ_iff.mp inside) atI middle) below
    · intro i y behind
      exact high i y (by omega)
  | case4 first len some_ x middle above ih =>
    rw [lowerBound, if_neg some_, middle]
    simp only [if_neg above]
    refine ih (by omega) low ?_
    intro i y behind atI less
    exact above (Std.lt_of_le_of_lt (places_ordered sorted behind middle atI) less)

theorem binarySearch_iff {l : List α} (sorted : l.Pairwise (· ≤ ·)) (key : α) : binarySearch l key = true ↔ key ∈ l := by
  obtain ⟨low, high⟩ := lowerBound_splits sorted key 0 l.length (by omega) (by omega) fun i x outside found => by
    rw [List.getElem?_eq_none (by omega)] at found
    cases found
  unfold binarySearch
  split
  · rename_i outside
    refine iff_of_false Bool.false_ne_true fun member => ?_
    obtain ⟨i, inside, rfl⟩ := List.getElem_of_mem member
    have bound := List.getElem?_eq_none_iff.mp outside
    exact Std.lt_irrefl (low i l[i] (by omega) (List.getElem?_eq_getElem inside))
  · rename_i x found
    have above := high _ x (Nat.le_refl _) found
    simp only [Bool.not_eq_true', decide_eq_false_iff_not]
    constructor
    · intro notBelow
      have same : x = key := Std.le_antisymm (Std.not_lt.mp notBelow) (Std.not_lt.mp above)
      exact same ▸ List.mem_of_getElem? found
    · intro member below
      obtain ⟨i, inside, same⟩ := List.getElem_of_mem member
      have place : l[i]? = some key := same ▸ List.getElem?_eq_getElem inside
      by_cases early : i < lowerBound l key 0 l.length
      · exact Std.lt_irrefl (low i key early place)
      · exact Std.lt_irrefl (Std.lt_of_lt_of_le below (places_ordered sorted (Nat.le_of_not_lt early) found place))

end SortedSearch

/- The IP lists in gateway rules: split_tokens, parse_ip_spec_list and match_ip_spec. inet_aton is a parameter,
   of which the dotted addresses are known. -/
namespace GuardianGatewaySpecs
open GuardianString GuardianUrls GuardianItemFile GuardianAddresses

def trim (s : Str) : Str := ((s.dropWhile isWhiteSpace).reverse.dropWhile isWhiteSpace).reverse

def pushToken (tok : Str) : List Str := if tok.isEmpty then [] else [tok]

def splitTokens (delims s : Str) : List Str :=
  if s.isEmpty then []
  else
    let tok := trim (s.takeWhile fun b => !delims.contains b)
    match _found : s.dropWhile fun b => !delims.contains b with
    | [] => pushToken tok
    | _ :: rest => pushToken tok ++ splitTokens delims rest
termination_by s.length
decreasing_by
  have shorter := (List.dropWhile_suffix (l := s) fun b => !delims.contains b).length_le
  rw [_found] at shorter
  exact shorter

structure RangeStruct where
  startaddr : UInt32
  endaddr : UInt32

structure SubnetStruct where
  maskedaddr : UInt32
  mask : UInt32

structure IpSpec where
  ips : List UInt32
  ranges : List RangeStruct
  subnets : List SubnetStruct

section Specs
variable (inet_aton : Str → Option UInt32)

def tokenEntry (tok : Str) : Option Address :=
  if contains tok (str "/") then
    let ip_part := trim (before tok (str "/"))
    let mask_part := trim (after tok (str "/"))
    (inet_aton (cstr ip_part)).bind fun host_ip =>
      if contains mask_part (str ".") then (inet_aton (cstr mask_part)).map fun mask => .subnet host_ip mask
      else
        let cidr := toInteger mask_part
        if cidr < 0 ∨ cidr > 32 then none else some (.subnet host_ip (cidrMask cidr))
  else if contains tok (str "-") then
    let start_part := trim (before tok (str "-"))
    let end_part := trim (after tok (str "-"))
    (inet_aton (cstr start_part)).bind fun startaddr => (inet_aton (cstr end_part)).map fun endaddr =>
      if startaddr > endaddr then .range endaddr startaddr else .range startaddr endaddr
  else (inet_aton (cstr tok)).map .single

def addToken (s : IpSpec) (tok : Str) : IpSpec :=
  match tokenEntry inet_aton tok with
  | some (.single addr) => { s with ips := s.ips ++ [addr] }
  | some (.subnet addr mask) => { s with subnets := s.subnets ++ [⟨addr &&& mask, mask⟩] }
  | some (.range startaddr endaddr) => { s with ranges := s.ranges ++ [⟨startaddr, endaddr⟩] }
  | none => s

def parseIpSpecList (spec : Str) : IpSpec :=
  let s := (splitTokens (str ",; ") spec).foldl (addToken inet_aton) ⟨[], [], []⟩
  { s with ips := s.ips.insertionSort (· ≤ ·) }

def matchIpSpec (ip_str : Str) (s : IpSpec) : Bool :=
  if ip_str.isEmpty then false
  else match inet_aton (cstr ip_str) with
    | none => false
    | some ip => SortedSearch.binarySearch s.ips ip || s.ranges.any (fun r => r.startaddr ≤ ip && ip ≤ r.endaddr) ||
        s.subnets.any fun t => ip &&& t.mask == t.maskedaddr

end Specs

/- What the entries hold. -/

def holds (ip : UInt32) : Address → Prop
  | .single addr => addr = ip
  | .subnet addr mask => ip &&& mask = addr &&& mask
  | .range startaddr endaddr => startaddr ≤ ip ∧ ip ≤ endaddr

def IpSpec.Has (s : IpSpec) (ip : UInt32) : Prop :=
  ip ∈ s.ips ∨ (∃ r ∈ s.ranges, r.startaddr ≤ ip ∧ ip ≤ r.endaddr) ∨ ∃ t ∈ s.subnets, ip &&& t.mask = t.maskedaddr

section Specs
variable (inet_aton : Str → Option UInt32)

theorem addToken_has (s : IpSpec) (tok : Str) (ip : UInt32) : (addToken inet_aton s tok).Has ip ↔
    s.Has ip ∨ ∃ e, tokenEntry inet_aton tok = some e ∧ holds ip e := by
  unfold addToken IpSpec.Has
  cases tokenEntry inet_aton tok with
  | none => simp
  | some e =>
    cases e with
    | single addr =>
      simp only [List.mem_append, List.mem_singleton, Option.some.injEq, exists_eq_left', holds, eq_comm (a := ip)]
      grind
    | subnet addr mask =>
      simp only [List.mem_append, List.mem_singleton, or_and_right, exists_or, exists_eq_left, Option.some.injEq,
        exists_eq_left', holds]
      grind
    | range startaddr endaddr =>
      simp only [List.mem_append, List.mem_singleton, or_and_right, exists_or, exists_eq_left, Option.some.injEq,
        exists_eq_left', holds]
      grind

theorem addTokens_has (toks : List Str) (s : IpSpec) (ip : UInt32) : (toks.foldl (addToken inet_aton) s).Has ip ↔
    s.Has ip ∨ ∃ tok ∈ toks, ∃ e, tokenEntry inet_aton tok = some e ∧ holds ip e := by
  induction toks generalizing s with
  | nil => simp
  | cons tok toks ih =>
    rw [List.foldl_cons, ih, addToken_has, List.exists_mem_cons_iff, or_assoc]

theorem matchIpSpec_iff {ip_str : Str} (some_ : ip_str ≠ []) {ip : UInt32} (reads : inet_aton (cstr ip_str) = some ip)
    (spec : Str) : matchIpSpec inet_aton ip_str (parseIpSpecList inet_aton spec) = true ↔
      ∃ tok ∈ splitTokens (str ",; ") spec, ∃ e, tokenEntry inet_aton tok = some e ∧ holds ip e := by
  let s := (splitTokens (str ",; ") spec).foldl (addToken inet_aton) ⟨[], [], []⟩
  have parsed : s.Has ip ↔ _ := addTokens_has inet_aton _ ⟨[], [], []⟩ ip
  have empty : ¬ IpSpec.Has ⟨[], [], []⟩ ip := by simp [IpSpec.Has]
  rw [or_iff_right empty] at parsed
  rw [← parsed, matchIpSpec, if_neg (by simpa using some_), reads]
  have sorted : (s.ips.insertionSort (· ≤ ·)).Pairwise (· ≤ ·) := List.pairwise_insertionSort _ _
  have found := SortedSearch.binarySearch_iff sorted ip
  rw [(List.perm_insertionSort _ _).mem_iff] at found
  simp only [Bool.or_eq_true, List.any_eq_true, Bool.and_eq_true, decide_eq_true_eq, beq_iff_eq, or_assoc]
  exact or_congr_left found

end Specs

/- The tokens of a specification. -/

def tokens (spec : Str) : List Str :=
  ((spec.splitOnP fun b => (str ",; ").contains b).map trim).filter fun tok => !tok.isEmpty

theorem pushToken_filter (tok : Str) : pushToken tok = [tok].filter fun tok => !tok.isEmpty := by
  rw [pushToken, List.filter_singleton]
  cases tok.isEmpty <;> rfl

theorem splitTokens_eq (spec : Str) : splitTokens (str ",; ") spec = tokens spec := by
  induction spec using splitTokens.induct (str ",; ") with
  | case1 spec empty =>
    rw [splitTokens, if_pos empty, List.isEmpty_iff.mp empty]
    rfl
  | case2 spec some_ last =>
    have plain := List.dropWhile_eq_nil_iff.mp last
    rw [splitTokens, if_neg some_, tokens, List.splitOnP_eq_singleton fun b inside => by simpa using plain b inside]
    split
    · rw [List.takeWhile_eq_self_iff.mpr plain, pushToken_filter]
      rfl
    · rename_i found
      rw [last] at found
      cases found
  | case3 spec some_ d rest found ih =>
    have parts : spec.takeWhile (fun b => !(str ",; ").contains b) ++ d :: rest = spec := by
      rw [← found]
      exact List.takeWhile_append_dropWhile
    have delimiter : (str ",; ").contains d = true := by
      have stops := List.head?_dropWhile_not (fun b => !(str ",; ").contains b) spec
      rw [found] at stops
      simpa using stops
    have plain : ∀ b ∈ spec.takeWhile (fun b => !(str ",; ").contains b), (str ",; ").contains b = false :=
      fun b inside => by simpa using List.mem_takeWhile_imp inside
    have pieces : spec.splitOnP (fun b => (str ",; ").contains b) =
        spec.takeWhile (fun b => !(str ",; ").contains b) :: rest.splitOnP fun b => (str ",; ").contains b := by
      rw [← List.splitOnP_append_cons_of_forall_mem plain d delimiter rest, parts]
    rw [splitTokens, if_neg some_, tokens, pieces, List.map_cons]
    split
    · rename_i none_
      rw [found] at none_
      cases none_
    · rename_i d' rest' found'
      rw [found] at found'
      obtain ⟨-, rfl⟩ := List.cons.inj found'
      rw [ih]
      show pushToken (trim (spec.takeWhile fun b => !(str ",; ").contains b)) ++ tokens rest = _
      rw [pushToken_filter, tokens, ← List.filter_append]
      rfl

inductive Token where
  | address (q : Quad)
  | masked (q mask : Quad)
  | prefixed (q : Quad) (digits : Str) (some_ : digits ≠ []) (only : ∀ b ∈ digits, isDigit b = true) (low : decimal digits ≤ 32)
  | between (q r : Quad)

def Token.text : Token → Str
  | .address q => q.text
  | .masked q mask => q.text ++ ch '/' :: mask.text
  | .prefixed q digits _ _ _ => q.text ++ ch '/' :: digits
  | .between q r => q.text ++ ch '-' :: r.text

/-- Equal to the address, equal under the mask, equal in the leading bits, or between the two ends. -/
def Token.covers (ip : UInt32) : Token → Prop
  | .address q => ip = q.value
  | .masked q mask => ip &&& mask.value = q.value &&& mask.value
  | .prefixed q digits _ _ _ => ip.toNat / 2 ^ (32 - decimal digits) = q.value.toNat / 2 ^ (32 - decimal digits)
  | .between q r => (q.value ≤ ip ∧ ip ≤ r.value) ∨ (r.value ≤ ip ∧ ip ≤ q.value)

theorem dropWhile_plain {s : Str} (plain : ∀ b ∈ s, isWhiteSpace b = false) : s.dropWhile isWhiteSpace = s := by
  cases s with
  | nil => rfl
  | cons b s => exact List.dropWhile_cons_of_neg (by simp [plain b List.mem_cons_self])

theorem trim_plain {s : Str} (plain : ∀ b ∈ s, isWhiteSpace b = false) : trim s = s := by
  have back := dropWhile_plain (s := s.reverse) fun b inside => plain b (List.mem_reverse.mp inside)
  rw [trim, dropWhile_plain plain, back, List.reverse_reverse]

theorem text_not_mem (q : Quad) {c : UInt8} (digit : isDigit c = false) (dot : c ≠ ch '.') : c ∉ q.text := by
  intro inside
  rcases text_byte inside with one | other
  · rw [digit] at one
    cases one
  · exact dot other

theorem trim_text (q : Quad) : trim q.text = q.text := by
  refine trim_plain fun b inside => ?_
  rcases text_byte inside with digit | dot
  · exact digit_not_whiteSpace digit
  · rw [dot]
    decide

theorem cstr_text (q : Quad) : cstr q.text = q.text := cstr_of_nul_free (text_not_mem q (by decide) (by decide))

theorem text_dot (q : Quad) : contains q.text (str ".") = true :=
  (contains_byte_iff q.text (ch '.')).mpr (by rw [text_eq]; simp)

theorem between_slashless (q r : Quad) : ch '/' ∉ (Token.between q r).text := by
  rw [Token.text, List.mem_append, List.mem_cons]
  rintro (inside | mark | inside)
  · exact text_not_mem q (by decide) (by decide) inside
  · exact absurd mark (by decide)
  · exact text_not_mem r (by decide) (by decide) inside

theorem text_ne_nil (q : Quad) : q.text ≠ [] := by
  rw [text_eq]
  simp

/-- An address with a slash behind it is not well formed. -/
theorem slash_malformed (q : Quad) (t : Token) : q.text ++ [ch '/'] ≠ t.text := by
  have absent := text_not_mem q (c := ch '/') (by decide) (by decide)
  have slash : ch '/' ∈ q.text ++ [ch '/'] := by simp
  intro same
  cases t with
  | address q' => exact text_not_mem q' (by decide) (by decide) (same ▸ slash)
  | masked q' mask =>
    have parts := (cut_unique absent (text_not_mem q' (c := ch '/') (by decide) (by decide))).mp same
    exact text_ne_nil mask parts.2.symm
  | prefixed q' digits some_ only low =>
    have parts := (cut_unique absent (text_not_mem q' (c := ch '/') (by decide) (by decide))).mp same
    exact some_ parts.2.symm
  | between q' r => exact between_slashless q' r (same ▸ slash)

theorem between_holds {first last ip : UInt32} :
    holds ip (if first > last then .range last first else .range first last) ↔
      (first ≤ ip ∧ ip ≤ last) ∨ (last ≤ ip ∧ ip ≤ first) := by
  split
  · rename_i back
    simp only [holds, gt_iff_lt, UInt32.le_iff_toNat_le, UInt32.lt_iff_toNat_lt] at back ⊢
    omega
  · rename_i forth
    simp only [holds, gt_iff_lt, UInt32.le_iff_toNat_le, UInt32.lt_iff_toNat_lt] at forth ⊢
    omega

section Reading
variable {inet_aton : Str → Option UInt32}

theorem slash_entry {left : Str} (absent : ch '/' ∉ left) (right : Str) :
    tokenEntry inet_aton (left ++ ch '/' :: right) = (inet_aton (cstr (trim left))).bind fun host_ip =>
      if contains (trim right) (str ".") then (inet_aton (cstr (trim right))).map fun mask => .subnet host_ip mask
      else if toInteger (trim right) < 0 ∨ toInteger (trim right) > 32 then none
      else some (.subnet host_ip (cidrMask (toInteger (trim right)))) := by
  have slash : contains (left ++ ch '/' :: right) (str "/") = true := contains_at rfl absent right
  have first : before (left ++ ch '/' :: right) (str "/") = left := before_at rfl absent right
  have second : after (left ++ ch '/' :: right) (str "/") = right := after_at rfl absent right
  rw [tokenEntry, if_pos slash, first, second]

theorem dash_entry {left right : Str} (noSlash : ch '/' ∉ left ++ ch '-' :: right) (absent : ch '-' ∉ left) :
    tokenEntry inet_aton (left ++ ch '-' :: right) =
      (inet_aton (cstr (trim left))).bind fun startaddr => (inet_aton (cstr (trim right))).map fun endaddr =>
        if startaddr > endaddr then .range endaddr startaddr else .range startaddr endaddr := by
  have slash : ¬ contains (left ++ ch '-' :: right) (str "/") = true := mt (contains_byte_iff _ (ch '/')).mp noSlash
  have dash : contains (left ++ ch '-' :: right) (str "-") = true := contains_at rfl absent right
  have first : before (left ++ ch '-' :: right) (str "-") = left := before_at rfl absent right
  have second : after (left ++ ch '-' :: right) (str "-") = right := after_at rfl absent right
  rw [tokenEntry, if_neg slash, if_pos dash, first, second]

theorem plain_entry {tok : Str} (noSlash : ch '/' ∉ tok) (noDash : ch '-' ∉ tok) :
    tokenEntry inet_aton tok = (inet_aton (cstr tok)).map .single := by
  have slash : ¬ contains tok (str "/") = true := mt (contains_byte_iff _ (ch '/')).mp noSlash
  have dash : ¬ contains tok (str "-") = true := mt (contains_byte_iff _ (ch '-')).mp noDash
  rw [tokenEntry, if_neg slash, if_neg dash]

variable (reads : ReadsQuads inet_aton)
include reads

theorem read_text (q : Quad) : inet_aton (cstr (trim q.text)) = some q.value := by
  rw [trim_text, cstr_text]
  exact reads q

theorem prefix_entry (q : Quad) {junk : Str} (noDot : ch '.' ∉ trim junk) (low : 0 ≤ toInteger (trim junk))
    (high : toInteger (trim junk) ≤ 32) :
    tokenEntry inet_aton (q.text ++ ch '/' :: junk) = some (.subnet q.value (cidrMask (toInteger (trim junk)))) := by
  have noPoint : ¬ contains (trim junk) (str ".") = true := mt (contains_byte_iff _ (ch '.')).mp noDot
  rw [slash_entry (text_not_mem q (by decide) (by decide)), read_text reads, Option.bind_some, if_neg noPoint,
    if_neg (by omega)]

theorem token_read (t : Token) : ∃ e, tokenEntry inet_aton t.text = some e ∧ ∀ ip, holds ip e ↔ t.covers ip := by
  cases t with
  | address q =>
    refine ⟨.single q.value, ?_, fun ip => eq_comm⟩
    rw [Token.text, plain_entry (text_not_mem q (by decide) (by decide)) (text_not_mem q (by decide) (by decide)),
      cstr_text, reads q]
    rfl
  | masked q mask =>
    refine ⟨.subnet q.value mask.value, ?_, fun ip => Iff.rfl⟩
    rw [Token.text, slash_entry (text_not_mem q (by decide) (by decide)), read_text reads, Option.bind_some, trim_text,
      if_pos (text_dot mask), cstr_text, reads mask]
    rfl
  | prefixed q digits some_ only low =>
    have plain : trim digits = digits := trim_plain fun b inside => digit_not_whiteSpace (only b inside)
    have noDot : ch '.' ∉ trim digits := fun dot => absurd (only _ (plain ▸ dot)) (by decide)
    have value : toInteger (trim digits) = decimal digits := by
      have read := signedDecimal_digits some_ only (r := []) (by simp)
      rw [List.append_nil] at read
      rw [plain, toInteger, read, Int.bmod_def]
      omega
    refine ⟨.subnet q.value (cidrMask (decimal digits)), ?_, fun ip => ?_⟩
    · rw [Token.text, prefix_entry reads q noDot (by omega) (by omega), value]
    · exact same_prefix_iff (by omega) (by omega) ip q.value
  | between q r =>
    have noSlash := between_slashless q r
    have entry : tokenEntry inet_aton (Token.between q r).text =
        some (if q.value > r.value then .range r.value q.value else .range q.value r.value) := by
      rw [Token.text, dash_entry noSlash (text_not_mem q (by decide) (by decide)), read_text reads, read_text reads]
      rfl
    exact ⟨_, entry, fun ip => between_holds⟩

end Reading

def behindSign : Str → Str
  | [] => []
  | b :: t => if b = ch '-' ∨ b = ch '+' then t else b :: t

/-- There is no digit where a number would begin. -/
def Numberless (s : Str) : Prop := ∀ b ∈ (behindSign (s.dropWhile isSpace)).head?, isDigit b = false

/-- The texts that are taken for something that covers an address, well formed or not: whatever inet_aton reads, with blanks
    around it, and behind a slash no number at all or one that junk may follow. -/
inductive Taken (inet_aton : Str → Option UInt32) (ip : UInt32) : Str → Prop where
  | address (tok : Str) (slashless : ch '/' ∉ tok) (dashless : ch '-' ∉ tok) (read : inet_aton (cstr tok) = some ip) :
      Taken inet_aton ip tok
  | between (left right : Str) (first last : UInt32) (slashless : ch '/' ∉ left ++ ch '-' :: right) (dashless : ch '-' ∉ left)
      (read : inet_aton (cstr (trim left)) = some first) (read' : inet_aton (cstr (trim right)) = some last)
      (inside : (first ≤ ip ∧ ip ≤ last) ∨ (last ≤ ip ∧ ip ≤ first)) : Taken inet_aton ip (left ++ ch '-' :: right)
  | masked (left right : Str) (addr mask : UInt32) (slashless : ch '/' ∉ left) (dot : ch '.' ∈ trim right)
      (read : inet_aton (cstr (trim left)) = some addr) (read' : inet_aton (cstr (trim right)) = some mask)
      (same : ip &&& mask = addr &&& mask) : Taken inet_aton ip (left ++ ch '/' :: right)
  -- every address
  | noNumber (left right : Str) (addr : UInt32) (slashless : ch '/' ∉ left) (dotless : ch '.' ∉ trim right)
      (read : inet_aton (cstr (trim left)) = some addr) (none_ : Numberless (trim right)) :
      Taken inet_aton ip (left ++ ch '/' :: right)
  | prefixed (left right : Str) (addr : UInt32) (slashless : ch '/' ∉ left) (dotless : ch '.' ∉ trim right)
      (read : inet_aton (cstr (trim left)) = some addr) (low : 0 ≤ toInteger (trim right)) (high : toInteger (trim right) ≤ 32)
      (same : ip.toNat / 2 ^ (32 - (toInteger (trim right)).toNat) = addr.toNat / 2 ^ (32 - (toInteger (trim right)).toNat)) :
      Taken inet_aton ip (left ++ ch '/' :: right)

theorem decimal_numberless {s : Str} (none_ : ∀ b ∈ s.head?, isDigit b = false) : decimal s = 0 := by
  cases s with
  | nil => rfl
  | cons b s => rw [decimal, List.takeWhile_cons_of_neg (by simp [none_ b rfl]), List.foldl_nil]

theorem toInteger_numberless {s : Str} (none_ : Numberless s) : toInteger s = 0 := by
  have zero : signedDecimal (s.dropWhile isSpace) = 0 := by
    unfold Numberless at none_
    cases text : s.dropWhile isSpace with
    | nil => rfl
    | cons b t =>
      rw [text, behindSign] at none_
      by_cases sign : b = ch '-' ∨ b = ch '+'
      · rw [if_pos sign] at none_
        rw [signedDecimal, decimal_numberless none_]
        rcases sign with rfl | rfl <;> rfl
      · rw [if_neg sign] at none_
        rw [not_or] at sign
        rw [signedDecimal, if_neg sign.1, if_neg sign.2, decimal_numberless none_]
        rfl
  rw [toInteger, zero]
  rfl

theorem same_prefix_holds {addr ip : UInt32} {cidr : Int} (low : 0 ≤ cidr) (high : cidr ≤ 32) :
    holds ip (.subnet addr (cidrMask cidr)) ↔ ip.toNat / 2 ^ (32 - cidr.toNat) = addr.toNat / 2 ^ (32 - cidr.toNat) :=
  same_prefix_iff low high ip addr

theorem has_dot (s : Str) : contains s (str ".") = true ↔ ch '.' ∈ s := contains_byte_iff s (ch '.')

theorem taken_iff (inet_aton : Str → Option UInt32) (ip : UInt32) (tok : Str) :
    Taken inet_aton ip tok ↔ ∃ e, tokenEntry inet_aton tok = some e ∧ holds ip e := by
  constructor
  · intro taken
    cases taken with
    | address _ slashless dashless read => exact ⟨.single ip, by rw [plain_entry slashless dashless, read]; rfl, rfl⟩
    | between left right first last slashless dashless read read' inside =>
      refine ⟨_, ?_, between_holds.mpr inside⟩
      rw [dash_entry slashless dashless, read, read']
      rfl
    | masked left right addr mask slashless dot read read' same =>
      refine ⟨.subnet addr mask, ?_, same⟩
      rw [slash_entry slashless, read, Option.bind_some, if_pos ((has_dot _).mpr dot), read']
      rfl
    | noNumber left right addr slashless dotless read none_ =>
      have zero := toInteger_numberless none_
      refine ⟨.subnet addr (cidrMask 0), ?_, ?_⟩
      · rw [slash_entry slashless, read, Option.bind_some, if_neg (mt (has_dot _).mp dotless), zero,
          if_neg (by omega)]
      · have all : cidrMask 0 = 0 := rfl
        rw [all, holds, UInt32.and_zero, UInt32.and_zero]
    | prefixed left right addr slashless dotless read low high same =>
      refine ⟨_, ?_, (same_prefix_holds low high).mpr same⟩
      rw [slash_entry slashless, read, Option.bind_some, if_neg (mt (has_dot _).mp dotless),
        if_neg (by omega)]
  · rintro ⟨e, entry, held⟩
    by_cases slash : ch '/' ∈ tok
    · obtain ⟨left, right, rfl, slashless⟩ := List.eq_append_cons_of_mem slash
      rw [slash_entry slashless] at entry
      obtain ⟨addr, read, entry⟩ := Option.bind_eq_some_iff.mp entry
      split at entry
      · rename_i dot
        obtain ⟨mask, read', rfl⟩ := Option.map_eq_some_iff.mp entry
        exact .masked left right addr mask slashless ((has_dot _).mp dot) read read' held
      · rename_i dotless
        split at entry
        · cases entry
        · rename_i inside
          obtain rfl := Option.some.inj entry
          exact .prefixed left right addr slashless (mt (has_dot _).mpr dotless) read (by omega) (by omega)
            ((same_prefix_holds (by omega) (by omega)).mp held)
    · by_cases dash : ch '-' ∈ tok
      · obtain ⟨left, right, rfl, dashless⟩ := List.eq_append_cons_of_mem dash
        rw [dash_entry slash dashless] at entry
        obtain ⟨first, read, entry⟩ := Option.bind_eq_some_iff.mp entry
        obtain ⟨last, read', rfl⟩ := Option.map_eq_some_iff.mp entry
        exact .between left right first last slash dashless read read' (between_holds.mp held)
      · rw [plain_entry slash dash] at entry
        obtain ⟨addr, read, rfl⟩ := Option.map_eq_some_iff.mp entry
        have same : addr = ip := held
        exact .address tok slash dash (same ▸ read)

/-- A token that is not well formed, but is taken for something all the same. -/
def Accident (inet_aton : Str → Option UInt32) (ip : UInt32) (tok : Str) : Prop :=
  (∀ t : Token, tok ≠ t.text) ∧ Taken inet_aton ip tok

/-- The list decides by its well-formed tokens exactly where no accident covers an address that none of them does. -/
theorem well_formed_decide_iff (inet_aton : Str → Option UInt32) (reads : ReadsQuads inet_aton) (spec : Str) (q : Quad) :
    (matchIpSpec inet_aton q.text (parseIpSpecList inet_aton spec) = true ↔
      ∃ t : Token, t.text ∈ tokens spec ∧ t.covers q.value) ↔
    ((∃ tok ∈ tokens spec, Accident inet_aton q.value tok) → ∃ t : Token, t.text ∈ tokens spec ∧ t.covers q.value) := by
  have read : inet_aton (cstr q.text) = some q.value := by
    rw [cstr_text]
    exact reads q
  rw [matchIpSpec_iff inet_aton (text_ne_nil q) read, splitTokens_eq]
  have complete : (∃ t : Token, t.text ∈ tokens spec ∧ t.covers q.value) →
      ∃ tok ∈ tokens spec, ∃ e, tokenEntry inet_aton tok = some e ∧ holds q.value e := by
    rintro ⟨t, inside, covers⟩
    obtain ⟨e, entry, same⟩ := token_read reads t
    exact ⟨t.text, inside, e, entry, (same _).mpr covers⟩
  constructor
  · rintro sound ⟨tok, inside, -, taken⟩
    exact sound.mp ⟨tok, inside, (taken_iff _ _ _).mp taken⟩
  · intro accidents
    refine ⟨?_, complete⟩
    rintro ⟨tok, inside, e, entry, held⟩
    by_cases formed : ∃ t : Token, tok = t.text
    · obtain ⟨t, rfl⟩ := formed
      obtain ⟨e', entry', same⟩ := token_read reads t
      rw [entry] at entry'
      obtain rfl := Option.some.inj entry'
      exact ⟨t, inside, (same _).mp held⟩
    · exact accidents ⟨tok, inside, fun t text => formed ⟨t, text⟩, (taken_iff _ _ _).mpr ⟨e, entry, held⟩⟩

theorem slash_alone_decides : (matchIpSpec plainAton (Quad.text ⟨192, 168, 1, 1⟩) (parseIpSpecList plainAton (str "10.0.0.0/")) =
    true ↔ ∃ t : Token, t.text ∈ tokens (str "10.0.0.0/") ∧ t.covers (Quad.value ⟨192, 168, 1, 1⟩)) ↔
    ((∃ tok ∈ tokens (str "10.0.0.0/"), Accident plainAton (Quad.value ⟨192, 168, 1, 1⟩) tok) →
      ∃ t : Token, t.text ∈ tokens (str "10.0.0.0/") ∧ t.covers (Quad.value ⟨192, 168, 1, 1⟩)) :=
  well_formed_decide_iff plainAton plainAton_reads (str "10.0.0.0/") ⟨192, 168, 1, 1⟩

/-- `10.0.0.0/` lets 192.168.1.1 in. -/
theorem slash_alone_covers : ¬ (matchIpSpec plainAton (Quad.text ⟨192, 168, 1, 1⟩)
    (parseIpSpecList plainAton (str "10.0.0.0/")) = true ↔
      ∃ t : Token, t.text ∈ tokens (str "10.0.0.0/") ∧ t.covers (Quad.value ⟨192, 168, 1, 1⟩)) := by
  have only : tokens (str "10.0.0.0/") = [Quad.text ⟨10, 0, 0, 0⟩ ++ [ch '/']] := by decide
  have read : plainAton (cstr (Quad.text ⟨192, 168, 1, 1⟩)) = some (Quad.value ⟨192, 168, 1, 1⟩) := by
    rw [cstr_text]
    exact plainAton_reads _
  have taken : Taken plainAton (Quad.value ⟨192, 168, 1, 1⟩) (Quad.text ⟨10, 0, 0, 0⟩ ++ [ch '/']) :=
    .noNumber _ [] _ (text_not_mem _ (by decide) (by decide)) (by decide) (read_text plainAton_reads _)
        (by simp [Numberless, trim, behindSign])
  rw [matchIpSpec_iff plainAton (text_ne_nil _) read, splitTokens_eq, only]
  intro sound
  obtain ⟨t, inside, -⟩ := sound.mp ⟨_, List.mem_singleton_self _, (taken_iff _ _ _).mp taken⟩
  exact slash_malformed _ t (List.mem_singleton.mp inside).symm

end GuardianGatewaySpecs
