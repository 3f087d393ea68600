import Mathlib.Data.List.Nodup
import E2Guardian.HeaderPointers

/- What checkheader finds in the lines of a header: which line a pointer refers to, and what becomes
   of the other lines. -/
namespace GuardianHeaderIndex
open GuardianString GuardianSockets GuardianHttp GuardianHeaderPointers

/- Names. -/

theorem startsWithLower_iff (s bs : Str) : startsWithLower s bs = true ↔ bs <+: toLower s := by
  unfold startsWithLower toLower
  rw [List.isPrefixOf_iff_prefix, List.map_take]
  constructor
  · exact fun front => front.trans (List.take_prefix _ _)
  · intro front
    obtain ⟨rest, whole⟩ := front
    rw [← whole, List.take_left]

theorem named_iff (line : Str) (name : String) : named line name = true ↔ str name <+: toLower line :=
  startsWithLower_iff line (str name)

/-- A line does not have two names, unless one starts with the other. -/
theorem named_other {line : Str} {a b : String} (here : named line a = true)
    (apart : ¬ str a <+: str b ∧ ¬ str b <+: str a) : named line b = false := by
  rw [← Bool.not_eq_true]
  intro there
  rcases List.prefix_or_prefix_of_prefix ((named_iff line a).mp here) ((named_iff line b).mp there) with short | long
  · exact apart.1 short
  · exact apart.2 long

theorem named_of_front {line front : Str} {name : String} (begins : front <+: line) (whole : named front name = true) :
    named line name = true := by
  rw [named_iff] at whole ⊢
  exact whole.trans (begins.map tolower)

theorem acceptEncoding_named (line : Str) : named (acceptEncoding line) "accept-encoding:" = true := by
  refine @named_of_front _ (str "Accept-Encoding: identity") _ ?_ (by decide)
  unfold acceptEncoding modifyEncodings
  simp only [List.append_assoc]
  exact List.prefix_append _ _

/- What becomes of a line. -/

inductive Became (outgoing : Bool) (old : Str) : Str → Prop where
  | same : Became outgoing old old
  | host (sent : outgoing = true) (here : named old "host:" = true) : Became outgoing old removedHost
  | encoding (here : named old "accept-encoding:" = true) : Became outgoing old (acceptEncoding old)
  | upgrade (here : named old "upgrade-insecure-requests:" = true) : Became outgoing old removedUpgrade

theorem checkName_text (outgoing : Bool) (i : Line) (x : Index) :
    Became outgoing i.text (checkName outgoing i x).1 ∧
      ((checkName outgoing i x).1 = i.text ∨ named (checkName outgoing i x).1 "upgrade-insecure-requests:" = false) := by
  have checked := checkName_checked outgoing i x
  generalize checkName outgoing i x = result at checked ⊢
  cases checked with
  | again sent here =>
    have plain : named removedHost "upgrade-insecure-requests:" = false := by decide
    exact ⟨.host sent here, .inr plain⟩
  | encoding sent here => exact ⟨.encoding here, .inr (named_other (acceptEncoding_named _) (by decide))⟩
  | noted p name names here => exact ⟨.same, .inl rfl⟩
  | agent y here same => exact ⟨.same, .inl rfl⟩
  | length tp here value free => exact ⟨.same, .inl rfl⟩
  | transfer here => exact ⟨.same, .inl rfl⟩
  | expect here => exact ⟨.same, .inl rfl⟩
  | other => exact ⟨.same, .inl rfl⟩

theorem checkLine_became (o : Options) (outgoing : Bool) (i : Line) (x : Index) :
    Became outgoing i.text (checkLine o outgoing i x).1.text := by
  obtain ⟨became, plain⟩ := checkName_text outgoing i x
  unfold checkLine
  simp only
  split
  · rename_i upgrade
    have here := (Bool.and_eq_true_iff.mp upgrade).2
    rcases plain with same | other
    · rw [same] at here
      exact .upgrade here
    · rw [other] at here
      cases here
  · exact became

/-- A name that no line gets or loses. -/
def Steady (name : String) : Prop :=
  ∀ other ∈ ["host:", "accept-encoding:", "upgrade-insecure-requests:", "x-e2g-ignoreme:"],
    ¬ str other <+: str name ∧ ¬ str name <+: str other

instance (name : String) : Decidable (Steady name) := List.decidableBAll _ _

theorem became_steady {outgoing : Bool} {old new : Str} (became : Became outgoing old new) {name : String}
    (steady : Steady name) : named new name = named old name ∧ (named old name = true → new = old) := by
  have lost : ∀ {other : String}, other ∈ ["host:", "accept-encoding:", "upgrade-insecure-requests:", "x-e2g-ignoreme:"] →
      ∀ {line : Str}, named line other = true → named line name = false :=
    fun member _ here => named_other here (steady _ member)
  cases became with
  | same => exact ⟨rfl, fun _ => rfl⟩
  | host sent here =>
    have old_ := lost (by simp) here
    have new_ := lost (by simp) (by decide : named removedHost "x-e2g-ignoreme:" = true)
    exact ⟨new_.trans old_.symm, fun there => by rw [old_] at there; cases there⟩
  | encoding here =>
    have old_ := lost (by simp) here
    have new_ := lost (by simp) (acceptEncoding_named old)
    exact ⟨new_.trans old_.symm, fun there => by rw [old_] at there; cases there⟩
  | upgrade here =>
    have old_ := lost (by simp) here
    have new_ := lost (by simp) (by decide : named removedUpgrade "x-e2g-ignoreme:" = true)
    exact ⟨new_.trans old_.symm, fun there => by rw [old_] at there; cases there⟩

/- Where the pointers point. -/

def pointerNames : Pointer → List String
  | .phost => ["host:"]
  | .pport => ["port:"]
  | .pproxyconnection => ["proxy-connection:", "connection:"]
  | .pcontentlength => ["content-length:"]
  | _ => []

/-- A pointer is as it was, or it refers to the line that is checked, which has its name. -/
theorem checkLine_names (o : Options) (outgoing : Bool) (i : Line) (x : Index) {p : Pointer} (some_ : pointerNames p ≠ []) :
    (checkLine o outgoing i x).2.pointer p = x.pointer p ∨
      ((checkLine o outgoing i x).2.pointer p = some i.id ∧ ∃ name ∈ pointerNames p, named i.text name = true) := by
  have notIdent : p ≠ .pheaderident := by
    rintro rfl
    exact some_ rfl
  have ident : ∀ (c : Prop) [Decidable c] (y : Index),
      (if c then y.point .pheaderident (some i.id) else y).pointer p = y.pointer p := by
    intro c _ y
    split
    · simp [Index.point, notIdent]
    · rfl
  have chain : (checkLine o outgoing i x).2.pointer p = (checkName outgoing i x).2.pointer p := ident _ _
  rw [chain]
  have checked := checkName_checked outgoing i x
  generalize checkName outgoing i x = result at checked ⊢
  have point : ∀ (y : Index) (q : Pointer), y.pointer = x.pointer →
      (p = q → ∃ name ∈ pointerNames p, named i.text name = true) →
      ((y.point q (some i.id)).pointer p = x.pointer p ∨
        ((y.point q (some i.id)).pointer p = some i.id ∧ ∃ name ∈ pointerNames p, named i.text name = true)) := by
    intro y q same found
    simp only [Index.point]
    split
    · rename_i here
      exact .inr ⟨rfl, found here⟩
    · rw [same]
      exact .inl rfl
  cases checked with
  | again sent here => exact .inl rfl
  | encoding sent here => exact .inl rfl
  | noted q name names here =>
    refine point x q rfl ?_
    rintro rfl
    cases names with
    | phost => exact ⟨_, List.mem_cons_self, here⟩
    | proxyConnection => exact ⟨_, List.mem_cons_self, here⟩
    | connection => exact ⟨_, by simp [pointerNames], here⟩
    | pport => exact ⟨_, List.mem_cons_self, here⟩
    | pcontentencoding | pkeepalive | pcontenttype | pcontentdisposition | pproxyauthorization | pauthorization
    | pproxyauthenticate | pxforwardedfor | ptransfercoding => exact absurd rfl some_
  | agent y here same =>
    rcases same with same | same
    · rw [same]
      exact .inl rfl
    · rw [same]
      refine point _ _ rfl ?_
      rintro rfl
      exact absurd rfl some_
  | length tp here value free =>
    refine point _ _ rfl ?_
    rintro rfl
    exact ⟨_, List.mem_cons_self, here⟩
  | transfer here =>
    refine point x .ptransferencoding rfl ?_
    rintro rfl
    exact absurd rfl some_
  | expect here => exact .inl rfl
  | other => exact .inl rfl

theorem checkLines_names (o : Options) (outgoing : Bool) (lines : List Line) {p : Pointer} (some_ : pointerNames p ≠ []) :
    ∀ x : Index, (checkLines o outgoing lines x).2.pointer p = x.pointer p ∨
      ∃ l ∈ lines, (checkLines o outgoing lines x).2.pointer p = some l.id ∧
        ∃ name ∈ pointerNames p, named l.text name = true := by
  induction lines with
  | nil => exact fun _ => .inl rfl
  | cons i rest ih =>
    intro x
    simp only [checkLines]
    rcases ih (checkLine o outgoing i x).2 with same | ⟨l, member, refers, name⟩
    · rw [same]
      rcases checkLine_names o outgoing i x some_ with old | ⟨here, name⟩
      · exact .inl old
      · exact .inr ⟨i, List.mem_cons_self, here, name⟩
    · exact .inr ⟨l, List.mem_cons_of_mem _ member, refers, name⟩

/-- The lines with a name are not changed by the pass. -/
theorem checkLines_steady (o : Options) (outgoing : Bool) {name : String} (steady : Steady name) (lines : List Line) :
    ∀ x : Index, (checkLines o outgoing lines x).1.filter (fun l => named l.text name) =
      lines.filter fun l => named l.text name := by
  induction lines with
  | nil => exact fun _ => rfl
  | cons i rest ih =>
    intro x
    obtain ⟨same, kept⟩ := became_steady (checkLine_became o outgoing i x) steady
    have id : (checkLine o outgoing i x).1.id = i.id := rfl
    simp only [checkLines, List.filter_cons, ih, same]
    split
    · rename_i here
      have whole : (checkLine o outgoing i x).1 = i := by
        cases i
        exact congrArg₂ Line.mk id (kept here)
      rw [whole]
    · rfl

/- Identities. -/

structure Distinct (h : HTTPHeader) : Prop where
  once : (ids h).Nodup
  older : ∀ i ∈ ids h, i < h.next

theorem tail_ids_nodup {h : HTTPHeader} (distinct : Distinct h) : (h.header.tail.map (·.id)).Nodup := by
  have all := distinct.once
  unfold ids at all
  cases lines : h.header with
  | nil => simp
  | cons first rest =>
    rw [lines, List.map_cons, List.nodup_cons] at all
    exact all.2

theorem distinct_push {h : HTTPHeader} (distinct : Distinct h) (line : Str) : Distinct (h.push line) := by
  have pushed : ids (h.push line) = ids h ++ [h.next] := by simp [ids, HTTPHeader.push]
  constructor
  · rw [pushed, List.nodup_append]
    refine ⟨distinct.once, by simp, ?_⟩
    intro i old j new
    rw [List.mem_singleton.mp new]
    exact Nat.ne_of_lt (distinct.older i old)
  · intro i member
    rw [pushed, List.mem_append, List.mem_singleton] at member
    show i < h.next + 1
    rcases member with old | rfl
    · exact Nat.lt_succ_of_lt (distinct.older i old)
    · exact Nat.lt_succ_self _

theorem inLoop_distinct (o : Options) (rounds : Nat) : ∀ {h : HTTPHeader}, Distinct h → ∀ (firsttime : Bool) (sock : BaseSocket),
    Distinct (HTTPHeader.inLoop o rounds firsttime h sock).2.1 := by
  induction rounds with
  | zero => exact fun distinct _ _ => distinct
  | succ rounds ih =>
    intro h distinct firsttime sock
    have plain : Distinct { h with ispersistent := false } := ⟨distinct.once, distinct.older⟩
    rw [HTTPHeader.inLoop]
    split
    · exact plain
    · exact plain
    · simp only
      split
      · exact plain
      · split
        · exact distinct
        · split
          · exact ih distinct _ _
          · split
            · exact ih (distinct_push distinct _) _ _
            · exact distinct_push distinct _

theorem readLines_distinct {h : HTTPHeader} (distinct : Distinct h) (o : Options) (sock : BaseSocket) :
    Distinct (h.readLines o sock).2.1 := by
  have read := inLoop_distinct o (sock.pending.length + 1) distinct true sock
  unfold HTTPHeader.readLines
  split
  · rename_i h' t result
    rw [result] at read
    exact read
  · rename_i h' t result
    rw [result] at read
    have shorter : (h'.header.dropLast.map (·.id)).Sublist (ids h') := (List.dropLast_sublist _).map _
    exact ⟨read.once.sublist shorter, fun i member => read.older i (shorter.subset member)⟩

/- A header that is read and not checked yet. -/

/-- An object as it is made, or one that has read a header before. -/
def Ready (h : HTTPHeader) : Prop := h.dirty = true ∨ ∃ is_response ident, h = HTTPHeader.made is_response ident

structure Unchecked (h : HTTPHeader) : Prop where
  distinct : Distinct h
  unset : ∀ p, p ≠ .pheaderident → h.pointer p = none

theorem reset_unchecked {h : HTTPHeader} (ready : Ready h) : Unchecked h.reset := by
  have distinct : h.reset.header = [] → Distinct h.reset := by
    intro lines
    have none_ : ids h.reset = [] := by rw [ids, lines, List.map_nil]
    exact ⟨none_ ▸ List.nodup_nil, fun i member => by rw [none_] at member; cases member⟩
  rcases ready with used | ⟨is_response, ident, rfl⟩
  · refine ⟨distinct (by simp [HTTPHeader.reset, used]), fun p other => ?_⟩
    simp [HTTPHeader.reset, used, HTTPHeader.clearPointers, other]
  · exact ⟨distinct rfl, fun p other => if_neg other⟩

/-- What only reset and in change. -/
def SameFlags (h h' : HTTPHeader) : Prop := h'.is_response = h.is_response ∧ h'.dirty = h.dirty

theorem SameFlags.trans {h h' h'' : HTTPHeader} (first : SameFlags h h') (second : SameFlags h' h'') : SameFlags h h'' :=
  ⟨second.1.trans first.1, second.2.trans first.2⟩

theorem inLoop_flags (o : Options) (rounds : Nat) : ∀ (firsttime : Bool) (h : HTTPHeader) (sock : BaseSocket),
    SameFlags h (HTTPHeader.inLoop o rounds firsttime h sock).2.1 := by
  induction rounds with
  | zero => exact fun _ _ _ => ⟨rfl, rfl⟩
  | succ rounds ih =>
    intro firsttime h sock
    rw [HTTPHeader.inLoop]
    split
    · exact ⟨rfl, rfl⟩
    · exact ⟨rfl, rfl⟩
    · simp only
      split
      · exact ⟨rfl, rfl⟩
      · split
        · exact ⟨rfl, rfl⟩
        · split
          · exact ih _ _ _
          · split
            · exact ih _ (h.push _) _
            · exact ⟨rfl, rfl⟩

theorem checkheader_flags (o : Options) (allowpersistent : Bool) (h : HTTPHeader) :
    SameFlags h (h.checkheader o allowpersistent) := by
  have first : ∀ line, SameFlags h ((h.indexLines o).checkFirst line) := by
    intro line
    unfold HTTPHeader.checkFirst
    split <;> exact ⟨rfl, rfl⟩
  have connection : ∀ (line : Str) (h : HTTPHeader), SameFlags h (h.checkConnection allowpersistent line) := by
    intro line h
    unfold HTTPHeader.checkConnection HTTPHeader.forceConnection
    simp only
    split
    · exact ⟨rfl, rfl⟩
    · split <;> exact ⟨rfl, rfl⟩
  have url : ∀ h : HTTPHeader, SameFlags h (h.getUrl true false).2 := by
    intro h
    simp only [HTTPHeader.getUrl, Bool.not_true, Bool.false_eq_true, and_false, if_false, if_true]
    split
    · exact ⟨rfl, rfl⟩
    · unfold HTTPHeader.noteUrl
      split <;> exact ⟨rfl, rfl⟩
  have assigned : ∀ (p : Pointer) (line : Str) (h : HTTPHeader), SameFlags h (h.assignAt p line) := by
    intro p line h
    unfold HTTPHeader.assignAt
    split <;> exact ⟨rfl, rfl⟩
  have written : ∀ (url : Str) (h : HTTPHeader), SameFlags h (h.setURL url) := by
    intro url h
    unfold HTTPHeader.setURL
    split
    · exact ⟨rfl, rfl⟩
    · exact (assigned .phost _ (h.setFront _)).trans (assigned .pport _ _)
  unfold HTTPHeader.checkheader
  split
  · exact ⟨rfl, rfl⟩
  · have checked := (first h.front).trans (connection h.front _)
    simp only
    split
    · exact checked
    · exact checked.trans ((url _).trans (written _ _))

theorem readLines_flags (o : Options) (sock : BaseSocket) (h : HTTPHeader) : SameFlags h (h.readLines o sock).2.1 := by
  have lines := inLoop_flags o (sock.pending.length + 1) true h sock
  unfold HTTPHeader.readLines
  split
  · rename_i result
    rw [result] at lines
    exact lines
  · rename_i result
    rw [result] at lines
    exact lines

structure SameNotes (h h' : HTTPHeader) : Prop where
  index : h'.toIndex = h.toIndex
  url : h'.cachedurl = h.cachedurl
  type : h'.requesttype = h.requesttype

theorem inLoop_notes (o : Options) (rounds : Nat) : ∀ (firsttime : Bool) (h : HTTPHeader) (sock : BaseSocket),
    SameNotes h (HTTPHeader.inLoop o rounds firsttime h sock).2.1 := by
  induction rounds with
  | zero => exact fun _ _ _ => ⟨rfl, rfl, rfl⟩
  | succ rounds ih =>
    intro firsttime h sock
    rw [HTTPHeader.inLoop]
    split
    · exact ⟨rfl, rfl, rfl⟩
    · exact ⟨rfl, rfl, rfl⟩
    · simp only
      split
      · exact ⟨rfl, rfl, rfl⟩
      · split
        · exact ⟨rfl, rfl, rfl⟩
        · split
          · exact ih _ _ _
          · split
            · obtain ⟨index, url, type⟩ := ih false (h.push _) _
              exact ⟨index, url, type⟩
            · exact ⟨rfl, rfl, rfl⟩

theorem readLines_notes (o : Options) (sock : BaseSocket) (h : HTTPHeader) : SameNotes h (h.readLines o sock).2.1 := by
  have lines := inLoop_notes o (sock.pending.length + 1) true h sock
  unfold HTTPHeader.readLines
  split
  · rename_i result
    rw [result] at lines
    exact lines
  · rename_i result
    rw [result] at lines
    exact ⟨lines.index, lines.url, lines.type⟩

theorem in_flags (o : Options) (allowpersistent : Bool) (sock : BaseSocket) (h : HTTPHeader) :
    (h.in_ o allowpersistent sock).2.1.is_response = h.is_response ∧ (h.in_ o allowpersistent sock).2.1.dirty = true := by
  have kept : h.reset.is_response = h.is_response := by
    unfold HTTPHeader.reset
    split <;> rfl
  obtain ⟨response, dirty⟩ := readLines_flags o sock { h.reset with dirty := true }
  unfold HTTPHeader.in_
  split
  · rename_i result
    rw [result] at response dirty
    exact ⟨response.trans kept, dirty⟩
  · rename_i result
    rw [result] at response dirty
    rename_i read _
    obtain ⟨response', dirty'⟩ := checkheader_flags o allowpersistent read
    exact ⟨response'.trans (response.trans kept), dirty'.trans dirty⟩
theorem readLines_response (o : Options) (sock : BaseSocket) (h : HTTPHeader) :
    (h.readLines o sock).2.1.is_response = h.is_response := (readLines_flags o sock h).1

def linesRead (o : Options) (sock : BaseSocket) (h : HTTPHeader) : HTTPHeader :=
  ({ h.reset with dirty := true }.readLines o sock).2.1

theorem linesRead_unchecked {h : HTTPHeader} (ready : Ready h) (o : Options) (sock : BaseSocket) :
    Unchecked (linesRead o sock h) := by
  obtain ⟨distinct, unset⟩ := reset_unchecked ready
  have start : Distinct { h.reset with dirty := true } := ⟨distinct.once, distinct.older⟩
  refine ⟨readLines_distinct start o sock, fun p other => ?_⟩
  rw [linesRead, (readLines_keeps o sock _).pointers]
  exact unset p other

theorem linesRead_response (o : Options) (sock : BaseSocket) (h : HTTPHeader) :
    (linesRead o sock h).is_response = h.is_response :=
  (readLines_response o sock _).trans (reset_response h)

theorem readLines_some {o : Options} {sock : BaseSocket} {h : HTTPHeader} (read : (h.readLines o sock).1 = true) :
    (h.readLines o sock).2.1.header ≠ [] := by
  unfold HTTPHeader.readLines at read ⊢
  generalize HTTPHeader.inLoop o (sock.pending.length + 1) true h sock = result at read ⊢
  obtain ⟨ended, h', t⟩ := result
  cases ended with
  | false => cases read
  | true =>
    simp only [decide_eq_true_eq] at read
    exact List.length_pos_iff.mp read

theorem in_accepted {o : Options} {allowpersistent : Bool} {sock : BaseSocket} {h : HTTPHeader}
    (accepted : (h.in_ o allowpersistent sock).1 = true) :
    (h.in_ o allowpersistent sock).2.1 = (linesRead o sock h).checkheader o allowpersistent ∧
      (linesRead o sock h).header ≠ [] := by
  have some_ := @readLines_some o sock { h.reset with dirty := true }
  unfold HTTPHeader.in_ at accepted ⊢
  unfold linesRead
  generalize { h.reset with dirty := true }.readLines o sock = result at accepted some_ ⊢
  obtain ⟨read, h', t⟩ := result
  cases read with
  | false => cases accepted
  | true => exact ⟨rfl, some_ rfl⟩

/- What becomes of the lines with a name. -/

theorem checkLines_became (o : Options) (outgoing : Bool) (lines : List Line) : ∀ x : Index,
    List.Forall₂ (fun l l' => l'.id = l.id ∧ Became outgoing l.text l'.text) lines (checkLines o outgoing lines x).1 := by
  induction lines with
  | nil => exact fun _ => .nil
  | cons i rest ih => exact fun x => .cons ⟨rfl, checkLine_became o outgoing i x⟩ (ih _)

theorem became_of_mem {outgoing : Bool} {lines new : List Line}
    (became : List.Forall₂ (fun l l' => l'.id = l.id ∧ Became outgoing l.text l'.text) lines new) {l' : Line}
    (member : l' ∈ new) : ∃ l ∈ lines, l'.id = l.id ∧ Became outgoing l.text l'.text := by
  induction became with
  | nil => simp at member
  | cons first rest ih =>
    rcases List.mem_cons.mp member with rfl | later
    · exact ⟨_, List.mem_cons_self, first⟩
    · obtain ⟨l, there, same⟩ := ih later
      exact ⟨l, List.mem_cons_of_mem _ there, same⟩

/-- The line a pointer refers to has no other name. -/
def Apart (name : String) (h : HTTPHeader) : Prop :=
  ∀ p ∈ [Pointer.phost, .pport, .pproxyconnection], ∀ i, h.pointer p = some i →
    ∀ l ∈ h.header.tail, l.id = i → named l.text name = false

structure Own (name : String) : Prop where
  steady : Steady name
  apart : ∀ other ∈ ["host:", "port:", "proxy-connection:", "connection:"], ¬ str other <+: str name ∧ ¬ str name <+: str other

theorem indexLines_apart {o : Options} {h : HTTPHeader} (unset : ∀ p, p ≠ .pheaderident → h.pointer p = none)
    (distinct : Distinct h)
    {name : String} (own : Own name) : Apart name (h.indexLines o) := by
  intro p listed i refers l' member same
  have some_ : pointerNames p ≠ [] := by
    simp only [List.mem_cons, List.not_mem_nil, or_false] at listed
    rcases listed with rfl | rfl | rfl <;> decide
  have notIdent : p ≠ .pheaderident := by
    rintro rfl
    exact some_ rfl
  have tail : (h.indexLines o).header.tail = (checkLines o (!h.is_response) h.header.tail h.toIndex).1 := by
    simp only [HTTPHeader.indexLines]
    cases h.header with
    | nil => rfl
    | cons first rest => rfl
  rw [tail] at member
  obtain ⟨l, there, id, became⟩ := became_of_mem (checkLines_became o (!h.is_response) h.header.tail h.toIndex) member
  rcases checkLines_names o (!h.is_response) h.header.tail some_ h.toIndex with old | ⟨m, found, now, other, listedName, here⟩
  · have none_ : (h.indexLines o).pointer p = none := old.trans (unset p notIdent)
    rw [none_] at refers
    cases refers
  · have target : m.id = i := Option.some.inj (now.symm.trans refers)
    have once := tail_ids_nodup distinct
    have line : l = m := List.inj_on_of_nodup_map once there found (by rw [← id, same, target])
    rw [(became_steady became own.steady).1, line]
    refine named_other here (own.apart other ?_)
    simp only [List.mem_cons, List.not_mem_nil, or_false] at listed
    rcases listed with rfl | rfl | rfl <;> simp_all [pointerNames]

def linesNamed (name : String) (h : HTTPHeader) : List Line := h.header.tail.filter fun l => named l.text name

theorem tail_map_assign (id : Nat) (line : Str) (h : HTTPHeader) :
    (h.assign id line).header.tail = h.header.tail.map fun l => if l.id = id then { l with text := line } else l := by
  simp only [HTTPHeader.assign, List.map_tail]

section Writes
variable {name : String} {h : HTTPHeader}

theorem assignAt_named {p : Pointer} (listed : p ∈ [Pointer.phost, .pport, .pproxyconnection]) (apart : Apart name h)
    {line : Str} (other : named line name = false) :
    linesNamed name (h.assignAt p line) = linesNamed name h ∧ Apart name (h.assignAt p line) := by
  unfold HTTPHeader.assignAt
  split
  · exact ⟨rfl, apart⟩
  · rename_i id refers
    constructor
    · have gone := apart p listed id refers
      unfold linesNamed
      rw [tail_map_assign]
      generalize h.header.tail = tail at gone ⊢
      induction tail with
      | nil => rfl
      | cons l rest ih =>
        have rest_ := ih fun m member => gone m (List.mem_cons_of_mem _ member)
        simp only [List.map_cons, List.filter_cons, rest_]
        by_cases here : l.id = id
        · simp [here, other, gone l List.mem_cons_self here]
        · simp [here]
    · intro q there i refers' l member same
      rw [tail_map_assign] at member
      obtain ⟨m, found, rfl⟩ := List.mem_map.mp member
      by_cases here : m.id = id
      · simp [here, other]
      · rw [if_neg here] at same ⊢
        exact apart q there i refers' m found same

theorem push_named (apart : Apart name h) (distinct : Distinct h) (some_ : h.header ≠ []) {line : Str}
    (other : named line name = false) (p : Pointer) :
    linesNamed name ((h.push line).point p (some h.next)) = linesNamed name h ∧
      Apart name ((h.push line).point p (some h.next)) := by
  have tail : ((h.push line).point p (some h.next)).header.tail = h.header.tail ++ [⟨h.next, line⟩] := by
    simp only [HTTPHeader.push, HTTPHeader.point]
    exact List.tail_append_of_ne_nil some_
  constructor
  · unfold linesNamed
    rw [tail]
    simp [other]
  · intro q there i refers l member same
    rw [tail, List.mem_append, List.mem_singleton] at member
    rcases member with old | rfl
    · simp only [HTTPHeader.point, HTTPHeader.push] at refers
      split at refers
      · have below := distinct.older l.id (List.mem_map_of_mem (List.mem_of_mem_tail old))
        rw [same, ← Option.some.inj refers] at below
        exact absurd below (Nat.lt_irrefl _)
      · exact apart q there i refers l old same
    · exact other

theorem setFront_named (line : Str) (h : HTTPHeader) : linesNamed name (h.setFront line) = linesNamed name h := by
  unfold linesNamed HTTPHeader.setFront
  cases h.header with
  | nil => rfl
  | cons first rest => rfl

theorem setFront_apart (apart : Apart name h) (line : Str) : Apart name (h.setFront line) := by
  intro p listed i refers l member same
  refine apart p listed i refers l ?_ same
  unfold HTTPHeader.setFront at member
  cases lines : h.header with
  | nil => simp [lines] at member
  | cons first rest =>
    rw [lines] at member
    exact member

end Writes

theorem Own.other {name : String} (own : Own name) {line front : Str} {mine : String} (begins : front <+: line)
    (whole : named front mine = true) (listed : mine ∈ ["host:", "port:", "proxy-connection:", "connection:"]) :
    named line name = false :=
  named_other (named_of_front begins whole) (own.apart mine listed)

theorem indexLines_named {name : String} (steady : Steady name) (o : Options) (h : HTTPHeader) :
    linesNamed name (h.indexLines o) = linesNamed name h := by
  have lines := checkLines_steady o (!h.is_response) steady h.header.tail h.toIndex
  unfold linesNamed HTTPHeader.indexLines
  cases header : h.header with
  | nil => rfl
  | cons first rest =>
    rw [header] at lines
    exact lines

theorem indexLines_distinct {h : HTTPHeader} (distinct : Distinct h) (o : Options) : Distinct (h.indexLines o) := by
  have same := ids_indexLines o h
  exact ⟨same ▸ distinct.once, fun i member => distinct.older i (same ▸ member)⟩

theorem header_ne_nil_of_ids {h h' : HTTPHeader} (same : ids h' = ids h) (some_ : h.header ≠ []) : h'.header ≠ [] := by
  intro none_
  have lengths := congrArg List.length same
  simp only [ids, List.length_map, none_, List.length_nil] at lengths
  exact some_ (List.length_eq_zero_iff.mp lengths.symm)

theorem checkConnection_named {name : String} (own : Own name) {h : HTTPHeader} (apart : Apart name h) (distinct : Distinct h)
    (some_ : h.header ≠ []) (allowpersistent : Bool) (firstline : Str) :
    linesNamed name (h.checkConnection allowpersistent firstline) = linesNamed name h ∧
      Apart name (h.checkConnection allowpersistent firstline) := by
  have other : ∀ allowed : Bool,
      named (if allowed then str "Connection: keep-alive\r" else str "Connection: close\r") name = false := by
    intro allowed
    refine @Own.other name own _ (str "Connection: ") "connection:" ?_ (by decide) (by simp)
    cases allowed <;> decide
  unfold HTTPHeader.checkConnection HTTPHeader.forceConnection
  simp only
  split
  · exact ⟨rfl, apart⟩
  · split
    · exact push_named (h := { h with waspersistent := h.wasPersistent firstline }) apart
        ⟨distinct.once, distinct.older⟩ some_ (other _) _
    · rename_i id refers
      have written := @assignAt_named name { h with waspersistent := h.wasPersistent firstline } .pproxyconnection
        (by simp) apart _ (other (h.persistency allowpersistent firstline))
      simp only [HTTPHeader.assignAt, refers] at written
      exact written

theorem getUrl_named {name : String} {h : HTTPHeader} (apart : Apart name h) :
    linesNamed name (h.getUrl true false).2 = linesNamed name h ∧ Apart name (h.getUrl true false).2 := by
  simp only [HTTPHeader.getUrl, Bool.not_true, Bool.false_eq_true, and_false, if_false, if_true]
  split
  · exact ⟨rfl, apart⟩
  · simp only [HTTPHeader.noteUrl]
    split
    · exact ⟨rfl, apart⟩
    · exact ⟨setFront_named _ h, setFront_apart apart _⟩

theorem setURL_named {name : String} (own : Own name) {h : HTTPHeader} (apart : Apart name h) (url : Str) :
    linesNamed name (h.setURL url) = linesNamed name h := by
  have host : ∀ https hostname port, named (HTTPHeader.hostLine https hostname port) name = false := by
    intro https hostname port
    refine @Own.other name own _ (str "Host: ") "host:" ?_ (by decide) (by simp)
    unfold HTTPHeader.hostLine
    simp only [List.append_assoc]
    exact List.prefix_append _ _
  have portLine : ∀ port, named (HTTPHeader.portLine port) name = false := by
    intro port
    refine @Own.other name own _ (str "Port: ") "port:" ?_ (by decide) (by simp)
    rw [HTTPHeader.portLine, List.append_assoc]
    exact List.prefix_append _ _
  unfold HTTPHeader.setURL
  split
  · rfl
  · have first : ∀ line, Apart name (h.setFront line) := setFront_apart apart
    have written : ∀ line host_ port_, named host_ name = false → named port_ name = false →
        linesNamed name (h.setLines line host_ port_) = linesNamed name h := by
      intro line host_ port_ notHost notPort
      obtain ⟨same, apart'⟩ := assignAt_named (p := .phost) (by simp) (first line) notHost
      have last := (assignAt_named (p := .pport) (by simp) apart' notPort).1
      exact last.trans (same.trans (setFront_named line h))
    exact written _ _ _ (host _ _ _) (portLine _)

theorem setURL_index (url : Str) (h : HTTPHeader) :
    (h.setURL url).toIndex = h.toIndex ∧ (h.setURL url).requesttype = h.requesttype := by
  have assigned : ∀ (p : Pointer) (line : Str) (g : HTTPHeader),
      (g.assignAt p line).toIndex = g.toIndex ∧ (g.assignAt p line).requesttype = g.requesttype := by
    intro p line g
    unfold HTTPHeader.assignAt
    split
    · exact ⟨rfl, rfl⟩
    · exact ⟨rfl, rfl⟩
  have written : ∀ first host port, (h.setLines first host port).toIndex = h.toIndex ∧
      (h.setLines first host port).requesttype = h.requesttype := by
    intro first host port
    obtain ⟨index, type⟩ := assigned .phost host (h.setFront first)
    obtain ⟨index', type'⟩ := assigned .pport port ((h.setFront first).assignAt .phost host)
    exact ⟨index'.trans index, type'.trans type⟩
  unfold HTTPHeader.setURL
  split
  · exact ⟨rfl, rfl⟩
  · exact written _ _ _

theorem getUrl_index (h : HTTPHeader) :
    (h.getUrl true false).2.toIndex = h.toIndex ∧ (h.getUrl true false).2.requesttype = h.requesttype := by
  simp only [HTTPHeader.getUrl, Bool.not_true, Bool.false_eq_true, and_false, if_false, if_true]
  split
  · exact ⟨rfl, rfl⟩
  · simp only [HTTPHeader.noteUrl]
    split
    · exact ⟨rfl, rfl⟩
    · exact ⟨rfl, rfl⟩

theorem checkheader_named {name : String} (own : Own name) {h : HTTPHeader} (unset : ∀ p, p ≠ .pheaderident → h.pointer p = none)
    (distinct : Distinct h) (o : Options) (allowpersistent : Bool) :
    linesNamed name (h.checkheader o allowpersistent) = linesNamed name h := by
  unfold HTTPHeader.checkheader
  split
  · rfl
  · rename_i some_
    rw [List.length_eq_zero_iff] at some_
    have indexed : Apart name (h.indexLines o) := indexLines_apart unset distinct own
    have first : Apart name ((h.indexLines o).checkFirst h.front) ∧ Distinct ((h.indexLines o).checkFirst h.front) ∧
        linesNamed name ((h.indexLines o).checkFirst h.front) = linesNamed name h ∧
        ((h.indexLines o).checkFirst h.front).header ≠ [] := by
      have distinct' := indexLines_distinct distinct o
      have lines := indexLines_named own.steady o h
      have filled := header_ne_nil_of_ids (ids_indexLines o h) some_
      unfold HTTPHeader.checkFirst
      split
      · exact ⟨indexed, ⟨distinct'.once, distinct'.older⟩, lines, filled⟩
      · exact ⟨indexed, ⟨distinct'.once, distinct'.older⟩, lines, filled⟩
    obtain ⟨apart, distinct', lines, filled⟩ := first
    obtain ⟨connection, apart'⟩ := checkConnection_named own apart distinct' filled allowpersistent h.front
    simp only
    split
    · exact connection.trans lines
    · obtain ⟨url, apart''⟩ := getUrl_named apart'
      exact (setURL_named own apart'' _).trans (url.trans (connection.trans lines))

end GuardianHeaderIndex
