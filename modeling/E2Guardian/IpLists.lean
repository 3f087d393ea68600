import E2Guardian.GatewaySpecs
import E2Guardian.ListCache

/- Lookup of an address in the IP lists: what a line adds, the search of a list and of its includes, and what
   the file and the files it includes say of the address. -/
namespace GuardianIpLists
open GuardianString GuardianUrls GuardianTime GuardianItemFile GuardianListManager GuardianListTrees GuardianListCache
open GuardianListCounts GuardianAddresses GuardianGatewaySpecs

def inIPList (host : Host) (k : Contents) (ipstr : Str) : Bool :=
  match host.inet_aton (removeWhiteSpace (cstr ipstr)) with
  | none => false
  | some ip => (decide (k.iplist.length > 0) && SortedSearch.binarySearch k.iplist ip) ||
      (inRanges k.iprangelist ip).isSome || (inSubnets k.ipsubnetlist ip).isSome

def findOwn (host : Host) (kind : Kind) (k : Contents) (string : Str) : Option Found :=
  if kind.isip && !kind.ismap then if inIPList host k string then some ([], some k.category) else none
  else GuardianItemFile.findOwn host kind k string

def findInList (host : Host) (now : Clock) (string : Str) : Nat → Manager → Nat → Option (Option Found) :=
  findWith (fun kind k => findOwn host kind k string) now

/- The texts of entries. -/

def isRun (s : Str) : Bool := decide (1 ≤ s.length) && decide (s.length ≤ 3) && s.all isDigit

def isDotted (s : Str) : Bool :=
  match s.splitOn (ch '.') with
  | [a, b, c, d] => isRun a && isRun b && isRun c && isRun d
  | _ => false

def isPrefixLength (s : Str) : Bool := decide (1 ≤ s.length) && decide (s.length ≤ 2) && s.all isDigit

structure Shapes (host : Host) : Prop where
  ip : ∀ s, host.matchIP s = isDotted s
  subnet : ∀ s, host.matchSubnet s = true ↔ ∃ a m, isDotted a = true ∧ isDotted m = true ∧ s = a ++ ch '/' :: m
  cidr : ∀ s, host.matchCIDR s = true ↔ ∃ a d, isDotted a = true ∧ isPrefixLength d = true ∧ s = a ++ ch '/' :: d
  range : ∀ s, host.matchRange s = true ↔ ∃ a b, isDotted a = true ∧ isDotted b = true ∧ s = a ++ ch '-' :: b

inductive Entry where
  | single (a : Str) (dotted : isDotted a = true)
  | masked (a mask : Str) (dotted : isDotted a = true) (dottedMask : isDotted mask = true)
  | prefixed (a digits : Str) (dotted : isDotted a = true) (digits_ : isPrefixLength digits = true)
  | between (a b : Str) (dotted : isDotted a = true) (dottedEnd : isDotted b = true)

def Entry.text : Entry → Str
  | .single a _ => a
  | .masked a mask _ _ => a ++ ch '/' :: mask
  | .prefixed a digits _ _ => a ++ ch '/' :: digits
  | .between a b _ _ => a ++ ch '-' :: b

/-- Equal to the address, equal under the mask, equal in the leading bits, or between the two ends. -/
def Entry.Covers (inet_aton : Str → Option UInt32) (ip : UInt32) : Entry → Prop
  | .single a _ => inet_aton a = some ip
  | .masked a mask _ _ => ∃ addr bits, inet_aton a = some addr ∧ inet_aton mask = some bits ∧ ip &&& bits = addr &&& bits
  | .prefixed a digits _ _ => decimal digits ≤ 32 ∧ ∃ addr, inet_aton a = some addr ∧
      ip.toNat / 2 ^ (32 - decimal digits) = addr.toNat / 2 ^ (32 - decimal digits)
  | .between a b _ _ => ∃ startaddr endaddr, inet_aton a = some startaddr ∧ inet_aton b = some endaddr ∧
      startaddr ≤ ip ∧ ip ≤ endaddr

theorem dotted_byte {s : Str} (dotted : isDotted s = true) {b : UInt8} (inside : b ∈ s) : isDigit b = true ∨ b = ch '.' := by
  have whole : [ch '.'].intercalate (s.splitOn (ch '.')) = s := List.intercalate_splitOn _
  unfold isDotted at dotted
  split at dotted
  · rename_i parts
    simp only [isRun, Bool.and_eq_true, List.all_eq_true] at dotted
    rw [parts] at whole
    rw [← whole] at inside
    simp only [List.intercalate_cons_cons, List.intercalate_singleton, List.mem_append, List.mem_singleton] at inside
    grind
  · cases dotted

theorem dotted_not_mem {s : Str} (dotted : isDotted s = true) {c : UInt8} (digit : isDigit c = false) (dot : c ≠ ch '.') :
    c ∉ s := by
  intro inside
  rcases dotted_byte dotted inside with one | other
  · rw [digit] at one
    cases one
  · exact dot other

theorem dotted_dot {s : Str} (dotted : isDotted s = true) : ch '.' ∈ s := by
  by_contra absent
  rw [isDotted, List.splitOn_eq_singleton absent] at dotted
  cases dotted

section parse
variable {host : Host} (shapes : Shapes host)
include shapes

def Entry.address (host : Host) : Entry → Option Address
  | .single a _ => (host.inet_aton a).map .single
  | .masked a mask _ _ => do
    let addr ← host.inet_aton a
    let bits ← host.inet_aton mask
    some (.subnet addr bits)
  | .prefixed a digits _ _ =>
    if decimal digits ≤ 32 then (host.inet_aton a).map fun addr => .subnet addr (cidrMask (decimal digits)) else none
  | .between a b _ _ => do
    let startaddr ← host.inet_aton a
    let endaddr ← host.inet_aton b
    some (.range startaddr endaddr)

omit shapes in
theorem marked_not_dotted (a rest : Str) {c : UInt8} (digit : isDigit c = false) (dot : c ≠ ch '.') :
    isDotted (a ++ c :: rest) = false := by
  by_contra dotted
  exact dotted_not_mem (Bool.eq_true_of_not_eq_false dotted) digit dot (by simp)

omit shapes in
theorem toInteger_prefix {digits : Str} (few : isPrefixLength digits = true) : toInteger digits = decimal digits := by
  simp only [isPrefixLength, Bool.and_eq_true, decide_eq_true_eq, List.all_eq_true] at few
  obtain ⟨⟨one, two⟩, only⟩ := few
  have some_ : digits ≠ [] := List.ne_nil_of_length_pos one
  have small : decimal digits < 2 ^ 31 := by
    rw [decimal, List.takeWhile_eq_self_iff.mpr only]
    obtain ⟨x, rest, rfl⟩ := List.exists_cons_of_ne_nil some_
    have low := (x - ch '0').toNat_lt
    cases rest with
    | nil =>
      simp only [List.foldl_cons, List.foldl_nil]
      omega
    | cons y rest =>
      have none_ : rest = [] := List.eq_nil_of_length_eq_zero (by simpa using two)
      have low' := (y - ch '0').toNat_lt
      rw [none_]
      simp only [List.foldl_cons, List.foldl_nil]
      omega
  have read := signedDecimal_digits some_ only (r := []) (by simp)
  rw [List.append_nil] at read
  rw [toInteger, read, Int.bmod_def]
  omega

omit shapes in
theorem prefix_digit {digits : Str} (few : isPrefixLength digits = true) : ∀ b ∈ digits, isDigit b = true := by
  simp only [isPrefixLength, Bool.and_eq_true, List.all_eq_true] at few
  exact few.2

theorem parse_entry (e : Entry) : parseAddress host e.text = e.address host := by
  cases e with
  | single a dotted =>
    have matched : host.matchIP a = true := by rw [shapes.ip, dotted]
    rw [Entry.text, parseAddress, if_pos matched]
    rfl
  | masked a mask dotted dottedMask =>
    have noSlash : ch '/' ∉ a := dotted_not_mem dotted (by decide) (by decide)
    have notIp : ¬host.matchIP (a ++ ch '/' :: mask) = true := by
      rw [shapes.ip, marked_not_dotted _ _ (by decide) (by decide)]
      decide
    have matched := (shapes.subnet (a ++ ch '/' :: mask)).mpr ⟨a, mask, dotted, dottedMask, rfl⟩
    have front : before (a ++ ch '/' :: mask) (str "/") = a := before_at rfl noSlash mask
    have back : after (a ++ ch '/' :: mask) (str "/") = mask := after_at rfl noSlash mask
    rw [Entry.text, parseAddress, if_neg notIp, if_pos matched, front, back]
    rfl
  | prefixed a digits dotted few =>
    have noSlash : ch '/' ∉ a := dotted_not_mem dotted (by decide) (by decide)
    have notIp : ¬host.matchIP (a ++ ch '/' :: digits) = true := by
      rw [shapes.ip, marked_not_dotted _ _ (by decide) (by decide)]
      decide
    have notSubnet : ¬host.matchSubnet (a ++ ch '/' :: digits) = true := by
      rw [shapes.subnet]
      rintro ⟨a', m, dotted', mask, same⟩
      obtain ⟨-, rfl⟩ := (cut_unique noSlash (dotted_not_mem dotted' (by decide) (by decide))).mp same
      exact absurd (prefix_digit few _ (dotted_dot mask)) (by decide)
    have matched := (shapes.cidr (a ++ ch '/' :: digits)).mpr ⟨a, digits, dotted, few, rfl⟩
    have front : before (a ++ ch '/' :: digits) (str "/") = a := before_at rfl noSlash digits
    have back : after (a ++ ch '/' :: digits) (str "/") = digits := after_at rfl noSlash digits
    rw [Entry.text, parseAddress, if_neg notIp, if_neg notSubnet, if_pos matched, front, back, toInteger_prefix few,
      Entry.address]
    by_cases low : decimal digits ≤ 32
    · rw [if_neg (by omega), if_pos low]
    · rw [if_pos (by omega), if_neg low]
  | between a b dotted dottedEnd =>
    have noDash : ch '-' ∉ a := dotted_not_mem dotted (by decide) (by decide)
    have noSlash : ch '/' ∉ a ++ ch '-' :: b := by
      rw [List.mem_append, List.mem_cons]
      rintro (inside | mark | inside)
      · exact dotted_not_mem dotted (by decide) (by decide) inside
      · exact absurd mark (by decide)
      · exact dotted_not_mem dottedEnd (by decide) (by decide) inside
    have notIp : ¬host.matchIP (a ++ ch '-' :: b) = true := by
      rw [shapes.ip, marked_not_dotted _ _ (by decide) (by decide)]
      decide
    have notSubnet : ¬host.matchSubnet (a ++ ch '-' :: b) = true := by
      rw [shapes.subnet]
      rintro ⟨a', m, _, _, same⟩
      exact noSlash (same ▸ by simp)
    have notCidr : ¬host.matchCIDR (a ++ ch '-' :: b) = true := by
      rw [shapes.cidr]
      rintro ⟨a', d, _, _, same⟩
      exact noSlash (same ▸ by simp)
    have matched := (shapes.range (a ++ ch '-' :: b)).mpr ⟨a, b, dotted, dottedEnd, rfl⟩
    have front : before (a ++ ch '-' :: b) (str "-") = a := before_at rfl noDash b
    have back : after (a ++ ch '-' :: b) (str "-") = b := after_at rfl noDash b
    rw [Entry.text, parseAddress, if_neg notIp, if_neg notSubnet, if_neg notCidr, if_pos matched, front, back]
    rfl

theorem parse_some {text : Str} {a : Address} (parsed : parseAddress host text = some a) : ∃ e : Entry, text = e.text := by
  unfold parseAddress at parsed
  split at parsed
  · rename_i matched
    exact ⟨.single text (by rw [← shapes.ip, matched]), rfl⟩
  · split at parsed
    · rename_i matched
      obtain ⟨a, m, dotted, mask, rfl⟩ := (shapes.subnet text).mp matched
      exact ⟨.masked a m dotted mask, rfl⟩
    · split at parsed
      · rename_i matched
        obtain ⟨a, d, dotted, digits, rfl⟩ := (shapes.cidr text).mp matched
        exact ⟨.prefixed a d dotted digits, rfl⟩
      · split at parsed
        · rename_i matched
          obtain ⟨a, b, dotted, end_, rfl⟩ := (shapes.range text).mp matched
          exact ⟨.between a b dotted end_, rfl⟩
        · cases parsed

theorem parse_empty : parseAddress host [] = none := by
  cases parsed : parseAddress host [] with
  | none => rfl
  | some a =>
    obtain ⟨e, empty⟩ := parse_some shapes parsed
    cases e with
    | single a dotted => exact absurd (dotted_dot dotted) (by rw [← show [] = a from empty]; exact List.not_mem_nil)
    | masked a mask _ _ => simp [Entry.text] at empty
    | prefixed a digits _ _ => simp [Entry.text] at empty
    | between a b _ _ => simp [Entry.text] at empty

omit shapes in
theorem address_covers (e : Entry) (ip : UInt32) : (∃ a, e.address host = some a ∧ holds ip a) ↔ e.Covers host.inet_aton ip := by
  cases e with
  | single a _ => simp [Entry.address, Entry.Covers, holds]
  | masked a mask _ _ =>
    simp only [Entry.address, Entry.Covers]
    cases host.inet_aton a <;> cases host.inet_aton mask <;> simp [holds]
  | prefixed a digits _ _ =>
    simp only [Entry.address, Entry.Covers]
    by_cases low : decimal digits ≤ 32
    · have same (addr : UInt32) := same_prefix_iff (m := decimal digits) (by omega) (by omega) ip addr
      simp only [Int.toNat_natCast] at same
      cases host.inet_aton a <;> simp [low, holds, same]
    · simp [low]
  | between a b _ _ =>
    simp only [Entry.address, Entry.Covers]
    cases host.inet_aton a <;> cases host.inet_aton b <;> simp [holds]

/-- A line of the list is read as something that holds the address if it is an entry that covers it. -/
theorem parse_covers (text : Str) (ip : UInt32) : (∃ a, parseAddress host text = some a ∧ holds ip a) ↔
    ∃ e : Entry, text = e.text ∧ e.Covers host.inet_aton ip := by
  constructor
  · rintro ⟨a, parsed, held⟩
    obtain ⟨e, rfl⟩ := parse_some shapes parsed
    rw [parse_entry shapes] at parsed
    exact ⟨e, rfl, (address_covers e ip).mp ⟨a, parsed, held⟩⟩
  · rintro ⟨e, rfl, covers⟩
    rw [parse_entry shapes]
    exact (address_covers e ip).mpr covers

theorem lines_cover (source : Source) (lines : List Str) (ip : UInt32) :
    (∃ line ∈ lines, ∃ temp a, parseLine source line = .entry temp ∧ parseAddress host temp = some a ∧ holds ip a) ↔
      ∃ line ∈ lines, ∃ e : Entry, parseLine source line = .entry e.text ∧ e.Covers host.inet_aton ip := by
  constructor
  · rintro ⟨line, inside, temp, a, read, parsed, held⟩
    obtain ⟨e, rfl, covers⟩ := (parse_covers shapes temp ip).mp ⟨a, parsed, held⟩
    exact ⟨line, inside, e, read, covers⟩
  · rintro ⟨line, inside, e, read, covers⟩
    obtain ⟨a, parsed, held⟩ := (parse_covers shapes e.text ip).mpr ⟨e, rfl, covers⟩
    exact ⟨line, inside, e.text, a, read, parsed, held⟩

end parse

/- The entries of one list. -/

def Has (k : Contents) (ip : UInt32) : Prop :=
  ip ∈ k.iplist ∨ (∃ r ∈ k.iprangelist, r.startaddr ≤ ip ∧ ip ≤ r.endaddr) ∨ ∃ s ∈ k.ipsubnetlist, s.maskedaddr = ip &&& s.mask

theorem has_empty (ip : UInt32) : ¬Has .empty ip := by
  simp [Has, Contents.empty]

theorem addToIPList_has (host : Host) (line : Str) (k : Contents) (ip : UInt32) :
    Has (addToIPList host false line k) ip ↔ Has k ip ∨ ∃ a, parseAddress host line = some a ∧ holds ip a := by
  unfold addToIPList Has
  rw [if_neg Bool.false_ne_true]
  cases parseAddress host line with
  | none => simp
  | some a =>
    cases a with
    | single addr =>
      simp only [List.mem_append, List.mem_singleton, Option.some.injEq, exists_eq_left', holds, eq_comm (a := ip)]
      grind
    | subnet addr mask =>
      simp only [List.mem_append, List.mem_singleton, or_and_right, exists_or, exists_eq_left, Option.some.injEq,
        exists_eq_left', holds]
      grind
    | range startaddr endaddr =>
      simp only [List.mem_append, List.mem_singleton, or_and_right, exists_or, exists_eq_left, Option.some.injEq,
        exists_eq_left', holds]
      grind

theorem addToIPList_limit (host : Host) (line : Str) (k : Contents) : (addToIPList host false line k).limit = k.limit := by
  unfold addToIPList
  rw [if_neg Bool.false_ne_true]
  cases parseAddress host line with
  | none => rfl
  | some a => cases a <;> rfl

theorem sortRead_has {kind : Kind} (isip : kind.isip = true) (plain : kind.ismap = false) (k : Contents) (ip : UInt32) :
    Has (sortRead kind k) ip ↔ Has k ip := by
  rw [sortRead, if_pos isip, if_neg (by simp [plain]), Has, Has, (List.perm_insertionSort _ _).mem_iff]

theorem inIPList_iff {host : Host} {k : Contents} (sorted : k.iplist.Pairwise (· ≤ ·)) {ipstr : Str} {ip : UInt32}
    (reads : host.inet_aton (removeWhiteSpace (cstr ipstr)) = some ip) : inIPList host k ipstr = true ↔ Has k ip := by
  have found := SortedSearch.binarySearch_iff sorted ip
  have some_ : ip ∈ k.iplist → k.iplist.length > 0 := List.length_pos_of_mem
  rw [inIPList, reads]
  simp only [Bool.or_eq_true, Bool.and_eq_true, decide_eq_true_eq, found, and_iff_right_of_imp some_, or_assoc, Has, inRanges,
    inSubnets, Option.isSome_map, List.find?_isSome, beq_iff_eq]

/- Reading a list file. -/

def limitAfter (limit : Option TimeLimit) : Line → Option TimeLimit
  | .timeTag temp => (readTimeTag temp).or limit
  | _ => limit

def limitOf (source : Source) (lines : List Str) (limit : Option TimeLimit) : Option TimeLimit :=
  lines.foldl (fun limit line => limitAfter limit (parseLine source line)) limit

section lines
variable {host : Host} (shapes : Shapes host) {w : Request} (isip : w.kind.isip = true) (plain : w.kind.ismap = false)
include shapes isip plain

theorem addLine_has (line : Line) {k k' : Contents} (ip : UInt32) (added : addLine host w.kind w.filters line k = some k') :
    Has k' ip ↔ Has k ip ∨ ∃ temp a, line = .entry temp ∧ parseAddress host temp = some a ∧ holds ip a := by
  cases line with
  | entry temp =>
    simp only [addLine, addEntry, isip, Bool.true_or, if_true, plain] at added
    split at added
    · rename_i none_
      obtain rfl := List.length_eq_zero_iff.mp none_
      obtain rfl := Option.some.inj added
      simp [parse_empty shapes]
    · obtain rfl := Option.some.inj added
      rw [addToIPList_has]
      simp
  | timeTag temp =>
    obtain ⟨tl, _, rfl⟩ := Option.map_eq_some_iff.mp added
    simp [Has]
  | category name =>
    obtain rfl := Option.some.inj added
    simp [Has]
  | skip =>
    obtain rfl := Option.some.inj added
    simp
  | endlist =>
    obtain rfl := Option.some.inj added
    simp
  | another inc =>
    obtain rfl := Option.some.inj added
    simp

omit shapes in
theorem addLine_limit (line : Line) {k k' : Contents} (added : addLine host w.kind w.filters line k = some k') :
    k'.limit = limitAfter k.limit line := by
  cases line with
  | entry temp =>
    simp only [addLine, addEntry, isip, Bool.true_or, if_true, plain] at added
    split at added
    · obtain rfl := Option.some.inj added
      rfl
    · obtain rfl := Option.some.inj added
      exact addToIPList_limit host temp k
  | timeTag temp =>
    obtain ⟨tl, read, rfl⟩ := Option.map_eq_some_iff.mp added
    rw [limitAfter, read]
    rfl
  | category name =>
    obtain rfl := Option.some.inj added
    rfl
  | skip =>
    obtain rfl := Option.some.inj added
    rfl
  | endlist =>
    obtain rfl := Option.some.inj added
    rfl
  | another inc =>
    obtain rfl := Option.some.inj added
    rfl

omit shapes isip plain in
theorem not_endlist {source : Source} (file : source.stdin = false) (line : Str) : parseLine source line ≠ .endlist := by
  unfold parseLine
  simp only [file, Bool.false_and, Bool.false_eq_true, if_false]
  grind

omit shapes isip plain in
theorem another_tree {load : Str → Option (Option ListTree)} {inc : Str} {st st' : Contents × List ListTree}
    (answer : anotherTree load inc st = some (true, st')) :
    ∃ t, load inc = some (some t) ∧ st' = (st.1, st.2 ++ [t]) := by
  unfold anotherTree at answer
  split at answer
  · cases answer
  · cases answer
  · rename_i t read
    simp only [Option.some.injEq, Prod.mk.injEq, true_and] at answer
    exact ⟨t, read, answer.symm⟩

structure ReadAll (host : Host) (source : Source) (load : Str → Option (Option ListTree)) (lines : List Str)
    (st st' : Contents × List ListTree) (ip : UInt32) : Prop where
  has : Has st'.1 ip ↔ Has st.1 ip ∨ ∃ line ∈ lines, ∃ temp a, parseLine source line = .entry temp ∧
    parseAddress host temp = some a ∧ holds ip a
  limit : st'.1.limit = limitOf source lines st.1.limit
  trees : ∀ t, t ∈ st'.2 ↔ t ∈ st.2 ∨ ∃ line ∈ lines, ∃ inc, parseLine source line = .another inc ∧ load inc = some (some t)
  loaded : ∀ line ∈ lines, ∀ inc, parseLine source line = .another inc → ∃ t, load inc = some (some t)

theorem readLines_all {source : Source} (file : source.stdin = false) {load : Str → Option (Option ListTree)} (ip : UInt32)
    (lines : List Str) {st st' : Contents × List ListTree} {rest : List Str}
    (done : readLines source (storeTree host w) (anotherTree load) lines st = some (true, rest, st')) :
    ReadAll host source load lines st st' ip := by
  induction lines generalizing st with
  | nil =>
    simp only [readLines, Option.some.injEq, Prod.mk.injEq, true_and] at done
    obtain ⟨-, rfl⟩ := done
    exact ⟨by simp, rfl, by simp, by simp⟩
  | cons line lines ih =>
    rw [readLines] at done
    split at done
    · cases done
    · split at done
      · rename_i ended
        exact absurd ended (not_endlist file line)
      · rename_i inc named
        split at done
        · cases done
        · cases done
        · rename_i st₁ answer
          obtain ⟨t, read, rfl⟩ := another_tree answer
          have later := ih done
          have tree (u : ListTree) : u ∈ st.2 ++ [t] ↔ u ∈ st.2 ∨ load inc = some (some u) := by
            rw [List.mem_append, List.mem_singleton, read, Option.some.injEq, Option.some.injEq, eq_comm (a := u)]
          refine ⟨?_, ?_, fun u => ?_, ?_⟩
          · simpa [named] using later.has
          · rw [later.limit, limitOf, limitOf, List.foldl_cons, named]
            rfl
          · rw [later.trees, tree, List.exists_mem_cons_iff, or_assoc]
            simp [named]
          · rw [List.forall_mem_cons]
            refine ⟨fun inc' same => ?_, later.loaded⟩
            obtain rfl := Line.another.inj (named.symm.trans same)
            exact ⟨t, read⟩
      · rename_i other named
        split at done
        · cases done
        · rename_i st₁ stored
          obtain ⟨k, added, rfl⟩ := Option.map_eq_some_iff.mp stored
          have later := ih done
          have held := addLine_has shapes isip plain (parseLine source line) ip added
          refine ⟨?_, ?_, fun u => ?_, ?_⟩
          · rw [later.has, held, List.exists_mem_cons_iff, or_assoc]
          · rw [later.limit, limitOf, limitOf, List.foldl_cons, addLine_limit isip plain _ added]
          · have none_ : ¬∃ inc, parseLine source line = .another inc ∧ load inc = some (some u) := by
              rintro ⟨inc, same, _⟩
              exact named inc same
            rw [later.trees, List.exists_mem_cons_iff, or_iff_right none_]
          · rw [List.forall_mem_cons]
            exact ⟨fun inc same => absurd same (named inc), later.loaded⟩

end lines

/- What the files say of an address. -/

def fileLines (files : Files) (name : Str) : List Str :=
  match files.getFileLength name, files.listfile name with
  | some len, some text => if len < 2 then [] else textLines text
  | _, _ => []

def InTime (files : Files) (w : Request) (now : Clock) (name : Str) : Prop :=
  GuardianItemList.inTime now (limitOf (fileSource w.list_pwd name) (fileLines files name) none) = true

/-- An entry of the file, or of a file that it includes, covers the address, and the lists up to it are in time. -/
inductive Covered (files : Files) (host : Host) (w : Request) (now : Clock) (ip : UInt32) : Str → Prop where
  | entry {name line : Str} (e : Entry) (inTime : InTime files w now name) (inside : line ∈ fileLines files name)
      (read : parseLine (fileSource w.list_pwd name) line = .entry e.text) (covers : e.Covers host.inet_aton ip) :
      Covered files host w now ip name
  | included {name line inc : Str} (inTime : InTime files w now name) (inside : line ∈ fileLines files name)
      (read : parseLine (fileSource w.list_pwd name) line = .another inc) (covered : Covered files host w now ip inc) :
      Covered files host w now ip name

theorem covered_iff (files : Files) (host : Host) (w : Request) (now : Clock) (ip : UInt32) (name : Str) :
    Covered files host w now ip name ↔ InTime files w now name ∧
      ((∃ line ∈ fileLines files name, ∃ e : Entry, parseLine (fileSource w.list_pwd name) line = .entry e.text ∧
          e.Covers host.inet_aton ip) ∨
        ∃ line ∈ fileLines files name, ∃ inc, parseLine (fileSource w.list_pwd name) line = .another inc ∧
          Covered files host w now ip inc) := by
  constructor
  · intro covered
    cases covered with
    | entry e inTime inside read covers => exact ⟨inTime, .inl ⟨_, inside, e, read, covers⟩⟩
    | included inTime inside read covered => exact ⟨inTime, .inr ⟨_, inside, _, read, covered⟩⟩
  · rintro ⟨inTime, ⟨line, inside, e, read, covers⟩ | ⟨line, inside, inc, read, covered⟩⟩
    · exact .entry e inTime inside read covers
    · exact .included inTime inside read covered

inductive Finds {α : Type} (own : Kind → Contents → Option α) (now : Clock) : ListTree → Prop where
  | here {kind k ts} (inTime : GuardianItemList.inTime now k.limit = true) (found : (own kind k).isSome = true) :
      Finds own now (.node kind k ts)
  | deeper {kind k ts t} (inTime : GuardianItemList.inTime now k.limit = true) (among : t ∈ ts) (found : Finds own now t) :
      Finds own now (.node kind k ts)

theorem finds_node {α : Type} (own : Kind → Contents → Option α) (now : Clock) (kind : Kind) (k : Contents) (ts : List ListTree) :
    Finds own now (.node kind k ts) ↔
      GuardianItemList.inTime now k.limit = true ∧ ((own kind k).isSome = true ∨ ∃ t ∈ ts, Finds own now t) := by
  constructor
  · intro found
    cases found with
    | here inTime found => exact ⟨inTime, .inl found⟩
    | deeper inTime among found => exact ⟨inTime, .inr ⟨_, among, found⟩⟩
  · rintro ⟨inTime, found | ⟨t, among, found⟩⟩
    · exact .here inTime found
    · exact .deeper inTime among found

theorem findWith_finds {α : Type} (own : Kind → Contents → Option α) (now : Clock) {m : Manager} {is : List Nat}
    {ts : List ListTree} (denotes : Denotes m is ts) : ∃ enough answer, ∀ depth ≥ enough,
      firstFound (findWith own now depth m) is = some answer ∧ (answer.isSome = true ↔ ∃ t ∈ ts, Finds own now t) := by
  induction denotes with
  | nil => exact ⟨0, none, fun _ _ => ⟨rfl, by simp⟩⟩
  | @cons i c is ts rest there _ _ ihDown ihNext =>
    obtain ⟨below, down, ihDown⟩ := ihDown
    obtain ⟨later, next, ihNext⟩ := ihNext
    let answer := if GuardianItemList.inTime now c.contents.limit then (own c.kind c.contents).or down else none
    have here (depth : Nat) (deep : depth ≥ below) : findWith own now (depth + 1) m i = some answer := by
      simp only [findWith, there, (ihDown depth deep).1, answer]
      split
      · cases own c.kind c.contents <;> rfl
      · rfl
    have found : answer.isSome = true ↔ Finds own now (.node c.kind c.contents ts) := by
      rw [finds_node, ← (ihDown below (Nat.le_refl _)).2]
      simp only [answer]
      split
      · rename_i inTime
        rw [Option.isSome_or, Bool.or_eq_true, and_iff_right inTime]
      · rename_i late
        simp [late]
    refine ⟨max (below + 1) later, answer.or next, fun depth deep => ?_⟩
    obtain ⟨depth, rfl⟩ : ∃ less, depth = less + 1 := ⟨depth - 1, by omega⟩
    have behind := ihNext (depth + 1) (by omega)
    constructor
    · simp only [firstFound, here depth (by omega), behind.1]
      cases answer <;> rfl
    · rw [Option.isSome_or, Bool.or_eq_true, found, behind.2, List.exists_mem_cons_iff]

section trees
variable {files : Files} {host : Host} (shapes : Shapes host) {w : Request} (isip : w.kind.isip = true)
variable (plain : w.kind.ismap = false) {string : Str} {ip : UInt32}
variable (reads : host.inet_aton (removeWhiteSpace (cstr string)) = some ip)
include shapes isip plain reads

omit shapes in
theorem findOwn_iff {k : Contents} (sorted : k.iplist.Pairwise (· ≤ ·)) :
    (findOwn host w.kind k string).isSome = true ↔ Has k ip := by
  rw [findOwn, if_pos (by simp [isip, plain]), ← inIPList_iff sorted reads]
  split
  · rename_i found
    simp [found]
  · rename_i missed
    simp [missed]

/-- The tree of a list file holds the addresses that the file and its includes cover. -/
theorem freshTree_finds (now : Clock) (depth : Nat) : ∀ {name : Str} {tree : ListTree},
    freshTree files host w depth name = some (some tree) →
    (Finds (fun kind k => findOwn host kind k string) now tree ↔ Covered files host w now ip name) := by
  induction depth with
  | zero =>
    intro name tree done
    cases done
  | succ depth ih =>
    intro name tree done
    rw [freshTree] at done
    split at done
    · cases done
    · split at done
      · cases done
      · rename_i len size
        split at done
        · rename_i blank
          obtain rfl := Option.some.inj (Option.some.inj done)
          have none_ : fileLines files name = [] := by
            unfold fileLines
            rw [size]
            cases files.listfile name with
            | none => rfl
            | some text => exact if_pos blank
          rw [finds_node, findOwn_iff isip plain reads .nil, covered_iff, none_]
          simp [has_empty]
        · rename_i long
          split at done
          · cases done
          · rename_i text opened
            have lines : fileLines files name = textLines text := by
              simp only [fileLines, size, opened, if_neg long]
            split at done
            · cases done
            · cases done
            · rename_i rest k ts read
              obtain rfl := Option.some.inj (Option.some.inj done)
              have all := readLines_all shapes isip plain rfl ip (textLines text) read
              have sorted : (sortRead w.kind k).iplist.Pairwise (· ≤ ·) := by
                rw [sortRead, if_pos isip, if_neg (by simp [plain])]
                exact List.pairwise_insertionSort _ _
              have limit : (sortRead w.kind k).limit = limitOf (fileSource w.list_pwd name) (textLines text) none := by
                rw [sortRead, if_pos isip, if_neg (by simp [plain])]
                exact all.limit
              have includes : (∃ t ∈ ts, Finds (fun kind k => findOwn host kind k string) now t) ↔
                  ∃ line ∈ textLines text, ∃ inc, parseLine (fileSource w.list_pwd name) line = .another inc ∧
                    Covered files host w now ip inc := by
                constructor
                · rintro ⟨t, among, found⟩
                  obtain ⟨line, inside, inc, named, loaded⟩ := ((all.trees t).mp among).resolve_left List.not_mem_nil
                  exact ⟨line, inside, inc, named, (ih loaded).mp found⟩
                · rintro ⟨line, inside, inc, named, covered⟩
                  obtain ⟨t, loaded⟩ := all.loaded line inside inc named
                  exact ⟨t, (all.trees t).mpr (.inr ⟨line, inside, inc, named, loaded⟩), (ih loaded).mpr covered⟩
              rw [finds_node, findOwn_iff isip plain reads sorted, sortRead_has isip plain, all.has,
                or_iff_right (has_empty ip), lines_cover shapes, includes, limit, covered_iff, InTime, lines]

end trees

theorem text_looked_up (q : Quad) : removeWhiteSpace (cstr q.text) = q.text := by
  rw [cstr_text]
  refine removeWhiteSpace_of_none fun b inside => ?_
  rcases text_byte inside with digit | dot
  · exact digit_not_whiteSpace digit
  · rw [dot]
    decide

theorem firstFound_single {α : Type} (f : Nat → Option (Option α)) (i : Nat) : firstFound f [i] = f i := by
  rw [firstFound]
  split <;> rename_i here
  · exact here.symm
  · exact here.symm
  · rw [here, firstFound]

/-- Every loaded IP list finds the addresses that its file and the files it includes cover. -/
theorem address_found_iff {files : Files} {host : Host} (shapes : Shapes host) (reads : ReadsQuads host.inet_aton)
    {calls : List Call} (one : OneRole files calls) {depth : Nat} {stdin : List Str} {ids : List (Option Nat)} {m : Manager}
    (ran : runCalls files host depth calls (.empty stdin) = some (ids, m)) {c : Call} {i : Nat}
    (loaded : (c, some i) ∈ calls.zip ids) (isip : c.w.kind.isip = true) (plain : c.w.kind.ismap = false) (now : Clock)
    (q : Quad) : ∃ enough answer, ∀ depth ≥ enough, findInList host now q.text depth m i = some answer ∧
      (answer ≠ none ↔ Covered files host c.w now q.value c.filename) := by
  have wanted : ∀ c ∈ calls, askedBy files calls c.w c.filename := fun c member => ⟨c, member, rfl, .refl⟩
  have delivered := (runCalls_delivers one.consistent calls (accounts_empty stdin) (allFaithful_empty stdin) wanted ran).2
  obtain ⟨fresh, ⟨deep, read⟩, delivers⟩ := List.forall₂_zip delivered loaded
  cases delivers with
  | @loaded _ tree denotes =>
    have looked : host.inet_aton (removeWhiteSpace (cstr q.text)) = some q.value := by rw [text_looked_up, reads q]
    have covered := freshTree_finds shapes isip plain looked now deep (read deep (Nat.le_refl _))
    obtain ⟨enough, answer, answers⟩ := findWith_finds (fun kind k => findOwn host kind k q.text) now denotes
    refine ⟨enough, answer, fun depth deeper => ?_⟩
    obtain ⟨found, iff_⟩ := answers depth deeper
    rw [firstFound_single] at found
    refine ⟨found, ?_⟩
    rw [Option.ne_none_iff_isSome, iff_, ← covered]
    simp

/- A host whose expressions accept the entries and nothing else. -/

def cutAt (c : UInt8) (front back : Str → Bool) (s : Str) : Bool :=
  match s.splitOn c with
  | [a, b] => front a && back b
  | _ => false

theorem cutAt_iff {c : UInt8} {front back : Str → Bool} (frontFree : ∀ s, front s = true → c ∉ s)
    (backFree : ∀ s, back s = true → c ∉ s) (s : Str) :
    cutAt c front back s = true ↔ ∃ a b, front a = true ∧ back b = true ∧ s = a ++ c :: b := by
  constructor
  · intro cut
    have whole : [c].intercalate (s.splitOn c) = s := List.intercalate_splitOn _
    unfold cutAt at cut
    split at cut
    · rename_i a b parts
      rw [parts] at whole
      rw [Bool.and_eq_true] at cut
      exact ⟨a, b, cut.1, cut.2, by rw [← whole]; simp [List.intercalate_cons_cons]⟩
    · cases cut
  · rintro ⟨a, b, first, second, rfl⟩
    rw [cutAt, List.splitOn_append_cons_self_of_not_mem (frontFree a first), List.splitOn_eq_singleton (backFree b second)]
    exact Bool.and_eq_true_iff.mpr ⟨first, second⟩

def plainHost : Host :=
  { noHost with
    matchIP := isDotted
    matchSubnet := cutAt (ch '/') isDotted isDotted
    matchCIDR := cutAt (ch '/') isDotted isPrefixLength
    matchRange := cutAt (ch '-') isDotted isDotted
    inet_aton := plainAton }

theorem plainHost_shapes : Shapes plainHost := by
  have free {c : UInt8} (digit : isDigit c = false) (dot : c ≠ ch '.') (s : Str) (dotted : isDotted s = true) : c ∉ s :=
    dotted_not_mem dotted digit dot
  constructor
  · exact fun _ => rfl
  · exact cutAt_iff (free (by decide) (by decide)) (free (by decide) (by decide))
  · refine cutAt_iff (free (by decide) (by decide)) fun s few slash => ?_
    exact absurd (prefix_digit few _ slash) (by decide)
  · exact cutAt_iff (free (by decide) (by decide)) (free (by decide) (by decide))

def addressTexts : List (Str × Str) :=
  [(str "/addresses", str "10.0.0.5\n.Include</more>\n"), (str "/more", str "10.1.0.0/16\n")]

def addressCall : Call := ⟨ipList, str "/addresses"⟩

def addressesLoaded : Manager :=
  ((runCalls (filesOf addressTexts) plainHost 4 [addressCall] (.empty [])).map Prod.snd).getD (.empty [])

theorem addresses_one_role : OneRole (filesOf addressTexts) [addressCall] := by
  have same : ∀ c ∈ [addressCall], c = addressCall := fun c member => List.mem_singleton.mp member
  constructor
  · intro c member
    rw [same c member]
    apply acyclic_filesOf
    decide
  · intro c member name leads
    rw [same c member] at leads
    have named : ∀ p ∈ addressTexts, ∀ inc ∈ includesIn (fileSource ipList.list_pwd p.1) (textLines p.2),
        isMemory inc = false := by decide
    cases leads.cases_tail with
    | inl start =>
      rw [start]
      decide
    | inr step =>
      obtain ⟨_, _, includes⟩ := step
      obtain ⟨p, known, _, inc⟩ := includes_filesOf includes
      exact named p known name inc
  · intro c member c' member' _ _ name _ _
    rw [same c member, same c' member']
    exact ⟨rfl, rfl⟩

theorem addresses_found : ∃ enough answer, answer ≠ none ∧ ∀ depth ≥ enough,
    findInList plainHost noon (⟨10, 1, 2, 3⟩ : Quad).text depth addressesLoaded 0 = some answer := by
  have ran : runCalls (filesOf addressTexts) plainHost 4 [addressCall] (.empty []) = some ([some 0], addressesLoaded) := by
    decide
  have subnet : Covered (filesOf addressTexts) plainHost ipList noon (⟨10, 1, 2, 3⟩ : Quad).value (str "/more") := by
    have line : str "10.1.0.0/16" ∈ fileLines (filesOf addressTexts) (str "/more") := by decide
    exact .entry (.prefixed (str "10.1.0.0") (str "16") (by decide) (by decide)) (by unfold InTime; decide) line (by decide)
      ⟨by decide, _, rfl, by decide⟩
  have covered : Covered (filesOf addressTexts) plainHost ipList noon (⟨10, 1, 2, 3⟩ : Quad).value (str "/addresses") := by
    have line : str ".Include</more>" ∈ fileLines (filesOf addressTexts) (str "/addresses") := by decide
    exact .included (by unfold InTime; decide) line (by decide) subnet
  obtain ⟨enough, answer, answers⟩ :=
    address_found_iff plainHost_shapes plainAton_reads addresses_one_role ran List.mem_cons_self rfl rfl noon ⟨10, 1, 2, 3⟩
  exact ⟨enough, answer, (answers enough (Nat.le_refl _)).2.mpr covered, fun depth deeper => (answers depth deeper).1⟩

end GuardianIpLists
