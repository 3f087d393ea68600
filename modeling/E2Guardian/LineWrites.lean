import E2Guardian.HeaderIndex

/- The lines that checkheader writes through its pointers: which they are, and what is read of a header
   after one of them is written. -/
namespace GuardianLineWrites
open GuardianString GuardianSockets GuardianHttp GuardianHeaderPointers GuardianHeaderIndex

/- What the pass over the lines finds. -/

def isHost (l : Line) : Bool := named l.text "host:"

def isPort (l : Line) : Bool := named l.text "port:"

theorem became_not_host {outgoing : Bool} {old new : Str} (became : Became outgoing old new) (other : named old "host:" = false) :
    named new "host:" = false := by
  cases became with
  | same => exact other
  | host sent here =>
    rw [other] at here
    cases here
  | encoding here => exact named_other (acceptEncoding_named old) (by decide)
  | upgrade here => decide

theorem checkLine_host_free (o : Options) {i : Line} {x : Index} (here : isHost i = true) (free : x.pointer .phost = none) :
    (checkLine o true i x).1 = i ∧ (checkLine o true i x).2.pointer .phost = some i.id := by
  have upgrade : named i.text "upgrade-insecure-requests:" = false := named_other here (by decide)
  have name : named i.text "host:" = true := here
  have chain : checkName true i x = (i.text, x.point .phost (some i.id)) := by
    simp only [checkName, name, free, Option.isNone_none, Bool.and_true, if_true]
  unfold checkLine
  rw [chain]
  simp only [upgrade, Bool.and_false, Bool.false_eq_true, if_false, true_and]
  split
  · rfl
  · rfl

theorem checkLine_host_set (o : Options) {i : Line} {x : Index} (here : isHost i = true)
    (set : (x.pointer .phost).isSome = true) :
    isHost (checkLine o true i x).1 = false ∧ (checkLine o true i x).2.pointer .phost = x.pointer .phost := by
  have name : named i.text "host:" = true := here
  have taken : (x.pointer .phost).isNone = false := by
    rw [← Option.not_isSome, set]
    rfl
  have chain : checkName true i x = (removedHost, x) := by
    simp only [checkName, name, taken, Bool.and_true, Bool.and_false, Bool.false_eq_true, if_false, Bool.not_false, if_true]
  have upgrade : named removedHost "upgrade-insecure-requests:" = false := by decide
  unfold checkLine
  rw [chain]
  simp only [upgrade, Bool.and_false, Bool.false_eq_true, if_false]
  refine ⟨(by decide : named removedHost "host:" = false), ?_⟩
  split
  · rfl
  · rfl

theorem checkLine_host_other (o : Options) {i : Line} {x : Index} (other : isHost i = false) :
    isHost (checkLine o true i x).1 = false ∧ (checkLine o true i x).2.pointer .phost = x.pointer .phost := by
  refine ⟨became_not_host (checkLine_became o true i x) other, ?_⟩
  rcases checkLine_names o true i x (by decide : pointerNames .phost ≠ []) with same | ⟨_, name, listed, here⟩
  · exact same
  · rw [List.mem_singleton.mp listed] at here
    rw [isHost, here] at other
    cases other

/-- The pointer is set to the first Host line, and the others are no Host lines any more. -/
theorem checkLines_host (o : Options) (lines : List Line) : ∀ x : Index,
    (checkLines o true lines x).2.pointer .phost = (x.pointer .phost).or ((lines.find? isHost).map (·.id)) ∧
      (checkLines o true lines x).1.filter isHost = if (x.pointer .phost).isSome then [] else (lines.find? isHost).toList := by
  induction lines with
  | nil => exact fun x => ⟨by simp [checkLines], by simp [checkLines]⟩
  | cons i rest ih =>
    intro x
    obtain ⟨pointer, kept⟩ := ih (checkLine o true i x).2
    simp only [checkLines, List.filter_cons]
    rw [pointer, kept]
    cases here : isHost i with
    | false =>
      obtain ⟨plain, same⟩ := checkLine_host_other o (x := x) here
      rw [List.find?_cons_of_neg (by simp [here]), plain, same]
      exact ⟨rfl, rfl⟩
    | true =>
      rw [List.find?_cons_of_pos here]
      cases set : x.pointer .phost with
      | none =>
        obtain ⟨whole, refers⟩ := checkLine_host_free o here set
        rw [whole, refers, here]
        exact ⟨rfl, rfl⟩
      | some j =>
        obtain ⟨plain, same⟩ := checkLine_host_set o here (by simp [set] : (x.pointer .phost).isSome = true)
        rw [plain, same, set]
        exact ⟨rfl, rfl⟩

theorem checkLine_port (o : Options) (i : Line) (x : Index) :
    (checkLine o true i x).2.pointer .pport = (x.pointer .pport).or (if isPort i then some i.id else none) := by
  cases here : isPort i with
  | false =>
    rcases checkLine_names o true i x (by decide : pointerNames .pport ≠ []) with same | ⟨_, name, listed, found⟩
    · simp [same]
    · rw [List.mem_singleton.mp listed] at found
      rw [isPort, found] at here
      cases here
  | true =>
    have name : named i.text "port:" = true := here
    have others : ∀ other ∈ ["host:", "user-agent:", "accept-encoding:", "content-type:", "content-length:",
        "content-disposition:", "proxy-authorization:", "authorization:", "proxy-authenticate:", "proxy-connection:",
        "connection:", "x-forwarded-for:", "transfer-encoding:", "transfer-coding:", "expect: 100-continue"],
        named i.text other = false := by
      intro other listed
      refine named_other name ?_
      revert listed other
      decide
    simp only [List.forall_mem_cons] at others
    obtain ⟨host, agent, accept, type, length, disposition, proxy, auth, authenticate, proxyConnection, connection, forwarded,
      encoding, coding, expect, _⟩ := others
    have chain : (checkName true i x).2.pointer .pport = (x.pointer .pport).or (some i.id) := by
      cases set : x.pointer .pport with
      | none =>
        simp [checkName, host, agent, accept, type, length, disposition, proxy, auth, authenticate, proxyConnection, connection,
          forwarded, name, set, Index.point]
      | some j =>
        simp [checkName, host, agent, accept, type, length, disposition, proxy, auth, authenticate, proxyConnection, connection,
          forwarded, name, set, encoding, coding, expect]
    rw [if_pos rfl, ← chain]
    unfold checkLine
    simp only
    generalize (if true && named (checkName true i x).1 "upgrade-insecure-requests:" then removedUpgrade
      else (checkName true i x).1) = text
    split
    · rfl
    · rfl

theorem checkLines_port (o : Options) (lines : List Line) : ∀ x : Index,
    (checkLines o true lines x).2.pointer .pport = (x.pointer .pport).or ((lines.find? isPort).map (·.id)) := by
  induction lines with
  | nil => exact fun x => by simp [checkLines]
  | cons i rest ih =>
    intro x
    simp only [checkLines]
    rw [ih, checkLine_port, List.find?_cons]
    cases isPort i <;> cases x.pointer .pport <;> simp

/- Lines that are written. -/

def writtenTo : List Pointer := [.phost, .pport, .pproxyconnection]

structure Placed (h : HTTPHeader) : Prop where
  distinct : Distinct h
  inside : ∀ p ∈ writtenTo, ∀ i, h.pointer p = some i → i ∈ h.header.tail.map (·.id)
  apart : ∀ p ∈ writtenTo, ∀ q ∈ writtenTo, p ≠ q → ∀ i, h.pointer p = some i → h.pointer q ≠ some i

/-- A line behind the first is a Host line exactly if the pointer refers to it. -/
def Sole (h : HTTPHeader) : Prop := ∀ l ∈ h.header.tail, isHost l = true ↔ h.pointer .phost = some l.id

theorem head_not_tail {h : HTTPHeader} (distinct : Distinct h) {first : Line} {rest : List Line}
    (lines : h.header = first :: rest)
    {i : Nat} (inside : i ∈ h.header.tail.map (·.id)) : first.id ≠ i := by
  have all := distinct.once
  rw [ids, lines, List.map_cons, List.nodup_cons] at all
  rw [lines] at inside
  exact fun same => all.1 (same ▸ inside)

theorem text_of_mem {h : HTTPHeader} (distinct : Distinct h) {l : Line} (member : l ∈ h.header) : h.text l.id = l.text := by
  have found : h.header.find? (·.id = l.id) = some l := by
    have once : (h.header.map (·.id)).Nodup := distinct.once
    generalize h.header = lines at member once
    induction lines with
    | nil => cases member
    | cons m rest ih =>
      rw [List.map_cons, List.nodup_cons] at once
      rcases List.mem_cons.mp member with rfl | later
      · exact List.find?_cons_of_pos (by simp)
      · have other : m.id ≠ l.id := by
          intro same
          exact once.1 (same ▸ List.mem_map_of_mem later)
        rw [List.find?_cons_of_neg (by simpa using other)]
        exact ih later once.2
  rw [HTTPHeader.text, found]
  rfl

section Writing
variable {h : HTTPHeader}

theorem text_assign_same (line : Str) {i : Nat} (inside : i ∈ ids h) : (h.assign i line).text i = line := by
  unfold HTTPHeader.text HTTPHeader.assign
  unfold ids at inside
  simp only
  generalize h.header = lines at inside
  induction lines with
  | nil => cases inside
  | cons m rest ih =>
    rw [List.map_cons, List.find?_cons]
    by_cases here : m.id = i
    · simp [here]
    · rw [List.map_cons, List.mem_cons] at inside
      have later := inside.resolve_left fun same => here same.symm
      simpa [here] using ih later

theorem text_assign_other (line : Str) {i j : Nat} (other : i ≠ j) : (h.assign i line).text j = h.text j := by
  unfold HTTPHeader.text HTTPHeader.assign
  simp only
  generalize h.header = lines
  induction lines with
  | nil => rfl
  | cons m rest ih =>
    rw [List.map_cons, List.find?_cons, List.find?_cons]
    by_cases here : m.id = i
    · have there : m.id ≠ j := fun same => other (here.symm.trans same)
      simpa [here, other] using ih
    · by_cases there : m.id = j
      · simp [there, Ne.symm other]
      · simpa [here, there] using ih

theorem front_assign (distinct : Distinct h) (line : Str) {i : Nat} (inside : i ∈ h.header.tail.map (·.id)) :
    (h.assign i line).front = h.front := by
  unfold HTTPHeader.front HTTPHeader.assign
  cases lines : h.header with
  | nil => rfl
  | cons first rest =>
    have other := head_not_tail distinct lines inside
    simp [other]

theorem mem_ids_of_tail {i : Nat} (inside : i ∈ h.header.tail.map (·.id)) : i ∈ ids h := by
  obtain ⟨l, member, rfl⟩ := List.mem_map.mp inside
  exact List.mem_map_of_mem (List.mem_of_mem_tail member)

theorem tail_ids_assign (i : Nat) (line : Str) : (h.assign i line).header.tail.map (·.id) = h.header.tail.map (·.id) := by
  rw [tail_map_assign, List.map_map]
  refine List.map_congr_left fun l _ => ?_
  simp only [Function.comp]
  split
  · rfl
  · rfl

theorem Placed.assign (placed : Placed h) (i : Nat) (line : Str) : Placed (h.assign i line) := by
  have same := ids_assign i line h
  refine ⟨⟨same ▸ placed.distinct.once, fun j member => placed.distinct.older j (same ▸ member)⟩, ?_, placed.apart⟩
  intro p listed j refers
  rw [tail_ids_assign]
  exact placed.inside p listed j refers

/-- A line that is written through another pointer is no Host line. -/
theorem Sole.assign (sole : Sole h) {i : Nat} {line : Str} (host : named line "host:" = true ↔ h.pointer .phost = some i) :
    Sole (h.assign i line) := by
  intro l member
  rw [tail_map_assign] at member
  obtain ⟨m, there, rfl⟩ := List.mem_map.mp member
  by_cases here : m.id = i
  · rw [if_pos here]
    exact here ▸ host
  · rw [if_neg here]
    exact sole m there

theorem Placed.assignAt (placed : Placed h) (p : Pointer) (line : Str) : Placed (h.assignAt p line) := by
  unfold HTTPHeader.assignAt
  split
  · exact placed
  · exact placed.assign _ _

theorem Sole.assignAt (sole : Sole h) (placed : Placed h) {p : Pointer} (listed : p ∈ writtenTo) {line : Str}
    (host : named line "host:" = true ↔ p = .phost) : Sole (h.assignAt p line) := by
  unfold HTTPHeader.assignAt
  split
  · exact sole
  · rename_i i refers
    refine sole.assign (host.trans ⟨fun same => same ▸ refers, fun this => ?_⟩)
    by_contra other
    exact placed.apart p listed .phost (by decide) other i refers this

theorem front_assignAt (placed : Placed h) {p : Pointer} (listed : p ∈ writtenTo) (line : Str) :
    (h.assignAt p line).front = h.front := by
  unfold HTTPHeader.assignAt
  split
  · rfl
  · rename_i i refers
    exact front_assign placed.distinct line (placed.inside p listed i refers)

theorem at_assignAt_same (placed : Placed h) {p : Pointer} (listed : p ∈ writtenTo) (line : Str) :
    (h.assignAt p line).at_ p = (h.at_ p).map fun _ => line := by
  unfold HTTPHeader.assignAt HTTPHeader.at_
  cases refers : h.pointer p with
  | none => simp [refers]
  | some i =>
    have inside := mem_ids_of_tail (placed.inside p listed i refers)
    have pointer : (h.assign i line).pointer p = some i := refers
    simp only [pointer, Option.map_some, text_assign_same line inside]

theorem at_assignAt_other (placed : Placed h) {p q : Pointer} (listed : p ∈ writtenTo) (listed' : q ∈ writtenTo) (other : p ≠ q)
    (line : Str) : (h.assignAt p line).at_ q = h.at_ q := by
  unfold HTTPHeader.assignAt HTTPHeader.at_
  cases refers : h.pointer p with
  | none => rfl
  | some i =>
    have pointer : (h.assign i line).pointer q = h.pointer q := rfl
    rw [pointer]
    cases there : h.pointer q with
    | none => rfl
    | some j =>
      have different : i ≠ j := by
        rintro rfl
        exact placed.apart p listed q listed' other i refers there
      rw [Option.map_some, Option.map_some, text_assign_other line different]

theorem tail_setFront (line : Str) : (h.setFront line).header.tail = h.header.tail := by
  unfold HTTPHeader.setFront
  cases h.header with
  | nil => rfl
  | cons first rest => rfl

theorem front_setFront (some_ : h.header ≠ []) (line : Str) : (h.setFront line).front = line := by
  unfold HTTPHeader.setFront HTTPHeader.front
  cases lines : h.header with
  | nil => exact absurd lines some_
  | cons first rest => rfl

theorem Placed.setFront (placed : Placed h) (line : Str) : Placed (h.setFront line) := by
  have same := ids_setFront line h
  refine ⟨⟨same ▸ placed.distinct.once, fun j member => placed.distinct.older j (same ▸ member)⟩, ?_, placed.apart⟩
  intro p listed j refers
  rw [tail_setFront]
  exact placed.inside p listed j refers

theorem Sole.setFront (sole : Sole h) (line : Str) : Sole (h.setFront line) := by
  intro l member
  rw [tail_setFront] at member
  exact sole l member

theorem at_setFront (placed : Placed h) {p : Pointer} (listed : p ∈ writtenTo) (line : Str) :
    (h.setFront line).at_ p = h.at_ p := by
  unfold HTTPHeader.at_
  have pointer : (h.setFront line).pointer p = h.pointer p := rfl
  rw [pointer]
  cases refers : h.pointer p with
  | none => rfl
  | some i =>
    have inside := placed.inside p listed i refers
    rw [Option.map_some, Option.map_some]
    congr 1
    unfold HTTPHeader.text HTTPHeader.setFront
    cases lines : h.header with
    | nil => rfl
    | cons first rest =>
      have other := head_not_tail placed.distinct lines inside
      simp only
      rw [List.find?_cons_of_neg (by simpa using other), List.find?_cons_of_neg (by simpa using other)]

structure Written (h h' : HTTPHeader) (first host port : Str) : Prop where
  placed : Placed h'
  sole : Sole h'
  front : h'.front = first
  host_ : h'.at_ .phost = (h.at_ .phost).map fun _ => host
  port_ : h'.at_ .pport = (h.at_ .pport).map fun _ => port

theorem setLines_written (placed : Placed h) (sole : Sole h) (some_ : h.header ≠ []) {first host port : Str}
    (isHost_ : named host "host:" = true) (notHost : named port "host:" = false) :
    Written h (h.setLines first host port) first host port := by
  have placed₁ := placed.setFront first
  have placed₂ := placed₁.assignAt .phost host
  have placed₃ := placed₂.assignAt .pport port
  have sole₂ : Sole ((h.setFront first).assignAt .phost host) :=
    (sole.setFront first).assignAt placed₁ (by decide) (by simp [isHost_])
  have sole₃ : Sole (((h.setFront first).assignAt .phost host).assignAt .pport port) :=
    sole₂.assignAt placed₂ (by decide) (by simp [notHost])
  refine ⟨⟨⟨placed₃.distinct.once, placed₃.distinct.older⟩, placed₃.inside, placed₃.apart⟩, sole₃, ?_, ?_, ?_⟩
  · exact (front_assignAt placed₂ (by decide) port).trans
      ((front_assignAt placed₁ (by decide) host).trans (front_setFront some_ first))
  · refine (at_assignAt_other placed₂ (by decide) (by decide) (by decide) port).trans ?_
    rw [at_assignAt_same placed₁ (by decide), at_setFront placed (by decide)]
  · refine (at_assignAt_same placed₂ (by decide) port).trans ?_
    rw [at_assignAt_other placed₁ (by decide) (by decide) (by decide), at_setFront placed (by decide)]

theorem header_assignAt_same (distinct : Distinct h) {p : Pointer} {line : Str} (same : ∀ t ∈ h.at_ p, t = line) :
    (h.assignAt p line).header = h.header := by
  unfold HTTPHeader.assignAt
  split
  · rfl
  · rename_i i refers
    have text : h.text i = line := same _ (by simp [HTTPHeader.at_, refers])
    unfold HTTPHeader.assign
    simp only
    refine (List.map_congr_left fun l member => ?_).trans (List.map_id _)
    split
    · rename_i here
      subst here
      rw [text_of_mem distinct member] at text
      cases l
      simp only at text
      rw [text]
      rfl
    · rfl

theorem header_setFront_same : (h.setFront h.front).header = h.header := by
  unfold HTTPHeader.setFront HTTPHeader.front
  cases h.header with
  | nil => rfl
  | cons first rest => rfl

theorem at_of_header {h' : HTTPHeader} (lines : h'.header = h.header) (pointers : h'.pointer = h.pointer) (p : Pointer) :
    h'.at_ p = h.at_ p := by
  unfold HTTPHeader.at_ HTTPHeader.text
  rw [lines, pointers]

/-- No line is changed exactly if what is written is what is there. -/
theorem setLines_same_iff (placed : Placed h) (sole : Sole h) (some_ : h.header ≠ []) {first host port : Str}
    (isHost_ : named host "host:" = true) (notHost : named port "host:" = false) :
    (h.setLines first host port).header = h.header ↔
      h.front = first ∧ (∀ t ∈ h.at_ .phost, t = host) ∧ ∀ t ∈ h.at_ .pport, t = port := by
  constructor
  · intro lines
    have written : Written h (h.setLines first host port) first host port := setLines_written placed sole some_ isHost_ notHost
    have pointers : (h.setLines first host port).pointer = h.pointer := (setLines_keeps first host port h).pointers
    have host_ := written.host_
    have port_ := written.port_
    rw [at_of_header lines pointers] at host_ port_
    refine ⟨?_, ?_, ?_⟩
    · rw [← written.front, HTTPHeader.front, HTTPHeader.front, lines]
    · intro t member
      rw [member] at host_
      exact Option.some.inj host_
    · intro t member
      rw [member] at port_
      exact Option.some.inj port_
  · intro same
    obtain ⟨rfl, hosts, ports⟩ := same
    have placed₁ := placed.setFront h.front
    have hosts₁ : ∀ t ∈ (h.setFront h.front).at_ .phost, t = host := by
      rw [at_setFront placed (by decide)]
      exact hosts
    have ports₂ : ∀ t ∈ ((h.setFront h.front).assignAt .phost host).at_ .pport, t = port := by
      rw [at_assignAt_other placed₁ (by decide) (by decide) (by decide), at_setFront placed (by decide)]
      exact ports
    exact (header_assignAt_same (placed₁.assignAt .phost host).distinct ports₂).trans
      ((header_assignAt_same placed₁.distinct hosts₁).trans header_setFront_same)

end Writing

/- What checkheader leaves before it writes the URL. -/

section Checked
variable {h : HTTPHeader}

theorem line_of_id {lines : List Line} (once : (lines.map (·.id)).Nodup) {l m : Line} (first : l ∈ lines) (second : m ∈ lines)
    (same : l.id = m.id) : l = m :=
  List.inj_on_of_nodup_map once first second same

theorem tail_indexLines (request : h.is_response = false) (o : Options) :
    (h.indexLines o).header.tail = (checkLines o true h.header.tail h.toIndex).1 := by
  unfold HTTPHeader.indexLines
  rw [request]
  cases h.header with
  | nil => rfl
  | cons first rest => rfl

theorem pointer_indexLines (request : h.is_response = false) (o : Options) :
    (h.indexLines o).pointer = (checkLines o true h.header.tail h.toIndex).2.pointer := by
  unfold HTTPHeader.indexLines
  rw [request]
  rfl

theorem indexLines_placed (unchecked : Unchecked h) (request : h.is_response = false) (o : Options) :
    Placed (h.indexLines o) := by
  have once := tail_ids_nodup unchecked.distinct
  have found : ∀ p ∈ writtenTo, ∀ i, (h.indexLines o).pointer p = some i →
      ∃ l ∈ h.header.tail, l.id = i ∧ ∃ name ∈ pointerNames p, named l.text name = true := by
    intro p listed i refers
    have all : ∀ p ∈ writtenTo, pointerNames p ≠ [] := by decide
    have names := all p listed
    have other : p ≠ .pheaderident := by
      rintro rfl
      exact names rfl
    rw [pointer_indexLines request] at refers
    rcases checkLines_names o true h.header.tail names h.toIndex with same | ⟨l, member, now, name⟩
    · rw [same, unchecked.unset p other] at refers
      cases refers
    · exact ⟨l, member, Option.some.inj (now.symm.trans refers), name⟩
  refine ⟨indexLines_distinct unchecked.distinct o, ?_, ?_⟩
  · intro p listed i refers
    obtain ⟨l, member, rfl, _⟩ := found p listed i refers
    rw [tail_indexLines request, checkLines_ids]
    exact List.mem_map_of_mem member
  · intro p listed q listed' other i refers refers'
    obtain ⟨l, member, id, name, mine, here⟩ := found p listed i refers
    obtain ⟨m, member', id', name', yours, there⟩ := found q listed' i refers'
    obtain rfl := line_of_id once member member' (id.trans id'.symm)
    have exclusive : ∀ p ∈ writtenTo, ∀ q ∈ writtenTo, p ≠ q → ∀ a ∈ pointerNames p, ∀ b ∈ pointerNames q,
        ¬ str a <+: str b ∧ ¬ str b <+: str a := by decide
    rw [named_other here (exclusive p listed q listed' other name mine name' yours)] at there
    cases there

theorem hostLines_indexLines (unchecked : Unchecked h) (request : h.is_response = false) (o : Options) :
    (h.indexLines o).pointer .phost = (h.header.tail.find? isHost).map (·.id) ∧
      (h.indexLines o).header.tail.filter isHost = (h.header.tail.find? isHost).toList := by
  have free : h.toIndex.pointer .phost = none := unchecked.unset .phost (by decide)
  obtain ⟨pointer, kept⟩ := checkLines_host o h.header.tail h.toIndex
  rw [free] at pointer kept
  rw [pointer_indexLines request, tail_indexLines request]
  exact ⟨pointer, kept⟩

theorem indexLines_sole (unchecked : Unchecked h) (request : h.is_response = false) (o : Options) : Sole (h.indexLines o) := by
  obtain ⟨pointer, kept⟩ := hostLines_indexLines unchecked request o
  have once := tail_ids_nodup (indexLines_distinct unchecked.distinct o)
  intro l member
  rw [pointer]
  cases found : h.header.tail.find? isHost with
  | none =>
    rw [found] at kept
    have none_ : isHost l = false := by
      rw [← Bool.not_eq_true]
      intro here
      have inside := List.mem_filter.mpr ⟨member, here⟩
      rw [kept] at inside
      cases inside
    simp [none_]
  | some m =>
    rw [found] at kept
    have first : m ∈ (h.indexLines o).header.tail.filter isHost := by simp [kept]
    obtain ⟨there, name⟩ := List.mem_filter.mp first
    constructor
    · intro here
      have inside := List.mem_filter.mpr ⟨member, here⟩
      rw [kept, Option.toList_some, List.mem_singleton] at inside
      rw [inside]
      rfl
    · intro same
      have line := line_of_id once there member (Option.some.inj same)
      rw [← line]
      exact name

theorem indexLines_at (unchecked : Unchecked h) (request : h.is_response = false) (o : Options) :
    (h.indexLines o).at_ .phost = (h.header.tail.find? isHost).map (·.text) ∧
      (h.indexLines o).at_ .pport = (h.header.tail.find? isPort).map (·.text) := by
  have distinct := indexLines_distinct unchecked.distinct o
  obtain ⟨pointer, kept⟩ := hostLines_indexLines unchecked request o
  have pointer' : (h.indexLines o).pointer .pport = (h.header.tail.find? isPort).map (·.id) := by
    have free : h.toIndex.pointer .pport = none := unchecked.unset .pport (by decide)
    rw [pointer_indexLines request, checkLines_port, free]
    rfl
  constructor
  · rw [HTTPHeader.at_, pointer]
    cases found : h.header.tail.find? isHost with
    | none => rfl
    | some m =>
      rw [found] at kept
      have first : m ∈ (h.indexLines o).header.tail.filter isHost := by simp [kept]
      rw [Option.map_some, Option.map_some, Option.map_some,
        text_of_mem distinct (List.mem_of_mem_tail (List.mem_filter.mp first).1)]
  · rw [HTTPHeader.at_, pointer']
    cases found : h.header.tail.find? isPort with
    | none => rfl
    | some m =>
      have same := checkLines_steady o true (by decide : Steady "port:") h.header.tail h.toIndex
      have name : isPort m = true := List.find?_some found
      have old : m ∈ h.header.tail.filter fun l => named l.text "port:" :=
        List.mem_filter.mpr ⟨List.mem_of_find?_eq_some found, name⟩
      rw [← same, ← tail_indexLines request] at old
      rw [Option.map_some, Option.map_some, Option.map_some,
        text_of_mem distinct (List.mem_of_mem_tail (List.mem_filter.mp old).1)]

structure Seen (h : HTTPHeader) (front : Str) (host port : Option Str) : Prop where
  placed : Placed h
  sole : Sole h
  some_ : h.header ≠ []
  front_ : h.front = front
  host_ : h.at_ .phost = host
  port_ : h.at_ .pport = port

theorem push_seen {front : Str} {host port : Option Str} (seen : Seen h front host port) {line : Str}
    (other : named line "host:" = false) :
    Seen ((h.push line).point .pproxyconnection (some h.next)) front host port := by
  obtain ⟨placed, sole, some_, front_, host_, port_⟩ := seen
  have tail : ((h.push line).point .pproxyconnection (some h.next)).header.tail = h.header.tail ++ [⟨h.next, line⟩] :=
    List.tail_append_of_ne_nil some_
  have older : ∀ p ∈ writtenTo, h.pointer p ≠ some h.next := by
    intro p listed refers
    have below := placed.distinct.older _ (mem_ids_of_tail (placed.inside p listed _ refers))
    omega
  have pointer : ∀ p, p ≠ .pproxyconnection →
      ((h.push line).point .pproxyconnection (some h.next)).pointer p = h.pointer p := fun p not => if_neg not
  have added : ((h.push line).point .pproxyconnection (some h.next)).pointer .pproxyconnection = some h.next := rfl
  have kept : ∀ p ∈ writtenTo, p ≠ .pproxyconnection →
      ((h.push line).point .pproxyconnection (some h.next)).at_ p = h.at_ p := by
    intro p listed not
    rw [HTTPHeader.at_, pointer p not, HTTPHeader.at_]
    cases refers : h.pointer p with
    | none => rfl
    | some i =>
      obtain ⟨l, member, rfl⟩ := List.mem_map.mp (placed.inside p listed i refers)
      have there := List.mem_of_mem_tail member
      have longer : l ∈ ((h.push line).point .pproxyconnection (some h.next)).header := List.mem_append_left _ there
      rw [Option.map_some, Option.map_some, text_of_mem placed.distinct there]
      exact congrArg some (text_of_mem ⟨(distinct_push placed.distinct line).once,
          (distinct_push placed.distinct line).older⟩ longer)
  refine ⟨⟨⟨(distinct_push placed.distinct line).once, (distinct_push placed.distinct line).older⟩, ?_, ?_⟩, ?_, ?_, ?_, ?_, ?_⟩
  · intro p listed i refers
    rw [tail, List.map_append, List.mem_append]
    by_cases not : p = .pproxyconnection
    · rw [not, added] at refers
      exact .inr (by simp [Option.some.inj refers])
    · rw [pointer p not] at refers
      exact .inl (placed.inside p listed i refers)
  · intro p listed q listed' different i refers refers'
    by_cases not : p = .pproxyconnection
    · rw [not, added] at refers
      rw [pointer q (not ▸ Ne.symm different), ← refers] at refers'
      exact older q listed' refers'
    · rw [pointer p not] at refers
      by_cases not' : q = .pproxyconnection
      · rw [not', added, ← refers] at refers'
        exact older p listed refers'.symm
      · rw [pointer q not'] at refers'
        exact placed.apart p listed q listed' different i refers refers'
  · intro l member
    rw [tail, List.mem_append, List.mem_singleton] at member
    rw [pointer .phost (by decide)]
    rcases member with old | rfl
    · exact sole l old
    · exact iff_of_false (by simp [isHost, other]) (older .phost (by decide))
  · simp [HTTPHeader.point, HTTPHeader.push]
  · rw [← front_]
    cases lines : h.header with
    | nil => exact absurd lines some_
    | cons first rest => simp [HTTPHeader.front, HTTPHeader.point, HTTPHeader.push, lines]
  · rw [kept .phost (by decide) (by decide), host_]
  · rw [kept .pport (by decide) (by decide), port_]

theorem checkConnection_seen {front : Str} {host port : Option Str} (seen : Seen h front host port) (allowpersistent : Bool)
    (firstline : Str) : Seen (h.checkConnection allowpersistent firstline) front host port := by
  have other : ∀ allowed : Bool,
      named (if allowed then str "Connection: keep-alive\r" else str "Connection: close\r") "host:" = false := by
    intro allowed
    cases allowed <;> decide
  have was : Seen { h with waspersistent := h.wasPersistent firstline } front host port :=
    ⟨⟨⟨seen.placed.distinct.once, seen.placed.distinct.older⟩, seen.placed.inside, seen.placed.apart⟩, seen.sole, seen.some_,
      seen.front_, seen.host_, seen.port_⟩
  have flagged : ∀ {g : HTTPHeader} (is : Bool), Seen g front host port → Seen { g with ispersistent := is } front host port :=
    fun _ there => ⟨⟨⟨there.placed.distinct.once, there.placed.distinct.older⟩, there.placed.inside, there.placed.apart⟩,
      there.sole, there.some_, there.front_, there.host_, there.port_⟩
  unfold HTTPHeader.checkConnection HTTPHeader.forceConnection
  simp only
  split
  · exact flagged _ was
  · split
    · exact flagged _ (push_seen was (other _))
    · rename_i i refers
      have assigned : ∀ line, HTTPHeader.assign i line { h with waspersistent := h.wasPersistent firstline } =
          HTTPHeader.assignAt .pproxyconnection line { h with waspersistent := h.wasPersistent firstline } := by
        intro line
        rw [HTTPHeader.assignAt, refers]
      rw [assigned]
      refine flagged _ ⟨was.placed.assignAt _ _, was.sole.assignAt was.placed (by decide) (by simp [other]), ?_, ?_, ?_, ?_⟩
      · exact header_ne_nil_of_ids (by rw [← assigned, ids_assign]) was.some_
      · exact (front_assignAt was.placed (by decide) _).trans was.front_
      · exact (at_assignAt_other was.placed (by decide) (by decide) (by decide) _).trans was.host_
      · exact (at_assignAt_other was.placed (by decide) (by decide) (by decide) _).trans was.port_

theorem front_indexLines (o : Options) : (h.indexLines o).front = h.front := by
  unfold HTTPHeader.indexLines HTTPHeader.front
  cases lines : h.header with
  | nil => simp [checkLines]
  | cons first rest => rfl

end Checked

end GuardianLineWrites
