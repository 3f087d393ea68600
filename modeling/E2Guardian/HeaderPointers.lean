import E2Guardian.HttpHeader

/- The pointers of a header object over all its operations. A pointer is null or refers to a line
   of the deque, as long as no line is erased that a pointer still refers to: reset leaves
   pheaderident, and setConnect all pointers but phost. -/
namespace GuardianHeaderPointers
open GuardianString GuardianSockets GuardianHttp

def ids (h : HTTPHeader) : List Nat := h.header.map (·.id)

def Valid (h : HTTPHeader) : Prop := ∀ p i, h.pointer p = some i → i ∈ ids h

structure Keeps (h h' : HTTPHeader) : Prop where
  lines : ∀ i ∈ ids h, i ∈ ids h'
  pointers : h'.pointer = h.pointer

theorem Keeps.refl (h : HTTPHeader) : Keeps h h := ⟨fun _ there => there, rfl⟩

theorem Keeps.trans {h h' h'' : HTTPHeader} (first : Keeps h h') (second : Keeps h' h'') : Keeps h h'' :=
  ⟨fun i there => second.lines i (first.lines i there), second.pointers.trans first.pointers⟩

theorem Keeps.valid {h h' : HTTPHeader} (keeps : Keeps h h') (valid : Valid h) : Valid h' := by
  intro p i refers
  rw [keeps.pointers] at refers
  exact keeps.lines i (valid p i refers)

section Primitives
variable {h : HTTPHeader}

theorem push_keeps (line : Str) (h : HTTPHeader) : Keeps h (h.push line) := by
  refine ⟨fun i there => ?_, rfl⟩
  simp only [ids, HTTPHeader.push, List.map_append, List.mem_append]
  exact .inl there

theorem next_pushed (line : Str) (h : HTTPHeader) : h.next ∈ ids (h.push line) := by
  simp [ids, HTTPHeader.push]

theorem ids_assign (id : Nat) (line : Str) (h : HTTPHeader) : ids (h.assign id line) = ids h := by
  simp only [ids, HTTPHeader.assign, List.map_map]
  apply List.map_congr_left
  intro l _
  simp only [Function.comp_apply]
  split <;> rfl

theorem assign_keeps (id : Nat) (line : Str) (h : HTTPHeader) : Keeps h (h.assign id line) :=
  ⟨fun i there => by rwa [ids_assign], rfl⟩

theorem assignAt_keeps (p : Pointer) (line : Str) (h : HTTPHeader) : Keeps h (h.assignAt p line) := by
  unfold HTTPHeader.assignAt
  split
  · exact .refl h
  · exact assign_keeps _ line h

theorem ids_setFront (line : Str) (h : HTTPHeader) : ids (h.setFront line) = ids h := by
  unfold ids HTTPHeader.setFront
  cases h.header with
  | nil => rfl
  | cons first rest => rfl

theorem setFront_keeps (line : Str) (h : HTTPHeader) : Keeps h (h.setFront line) :=
  ⟨fun i there => by rwa [ids_setFront], rfl⟩

theorem rename_keeps (p : Pointer) (name : Str) (h : HTTPHeader) : Keeps h (h.rename p name) := by
  unfold HTTPHeader.rename
  split
  · exact .refl h
  · exact assignAt_keeps p _ h

theorem valid_point_none (p : Pointer) (valid : Valid h) : Valid (h.point p none) := by
  intro q i refers
  simp only [HTTPHeader.point] at refers
  split at refers
  · cases refers
  · exact valid q i refers

theorem valid_point {i : Nat} (p : Pointer) (there : i ∈ ids h) (valid : Valid h) : Valid (h.point p (some i)) := by
  intro q j refers
  simp only [HTTPHeader.point] at refers
  split at refers
  · cases refers
    exact there
  · exact valid q j refers

theorem valid_push_point (p : Pointer) (line : Str) (valid : Valid h) :
    Valid ((h.push line).point p (some h.next)) :=
  valid_point p (next_pushed line h) ((push_keeps line h).valid valid)

end Primitives

/- The operations that erase no line. -/

theorem noteUrl_keeps (port : Int) (firstline : Option Str) (h : HTTPHeader) : Keeps h (h.noteUrl port firstline) := by
  cases firstline with
  | none => exact ⟨fun _ there => there, rfl⟩
  | some line => exact ⟨(setFront_keeps line h).lines, rfl⟩

theorem getUrl_keeps (withport isssl : Bool) (h : HTTPHeader) : Keeps h (h.getUrl withport isssl).2 := by
  obtain ⟨start, begin_⟩ : ∃ start : HTTPHeader,
      start = if isssl then { h with mitm := true, isdirect := true } else h := ⟨_, rfl⟩
  have first : Keeps h start := by
    rw [begin_]
    split <;> exact ⟨fun _ there => there, rfl⟩
  unfold HTTPHeader.getUrl
  simp only [← begin_]
  split
  · exact .refl h
  · split
    · exact first.trans ⟨fun _ there => there, rfl⟩
    · refine first.trans ((noteUrl_keeps (start.urlOf withport).2.1 (start.urlOf withport).2.2 start).trans ?_)
      split <;> exact ⟨fun _ there => there, rfl⟩

theorem setLines_keeps (first host port : Str) (h : HTTPHeader) : Keeps h (h.setLines first host port) :=
  (setFront_keeps first h).trans ((assignAt_keeps .phost host _).trans ((assignAt_keeps .pport port _).trans
    ⟨fun _ there => there, rfl⟩))

theorem setURL_keeps (url : Str) (h : HTTPHeader) : Keeps h (h.setURL url) := by
  unfold HTTPHeader.setURL
  split
  · exact .refl h
  · exact setLines_keeps _ _ _ h

theorem makePersistent_valid {h : HTTPHeader} (persist : Bool) (valid : Valid h) : Valid (h.makePersistent persist) := by
  unfold HTTPHeader.makePersistent
  split
  · split
    · split
      · exact (assignAt_keeps .pproxyconnection _ h).valid valid
      · exact valid_push_point .pproxyconnection _ valid
    · exact valid
  · split
    · split
      · exact (assignAt_keeps .pproxyconnection _ h).valid valid
      · exact valid_push_point .pproxyconnection _ valid
    · exact valid

theorem moveAuthorization_valid {h : HTTPHeader} (valid : Valid h) : Valid (match h.pointer .pauthorization with
    | none => h
    | some id =>
      ((h.rename .pauthorization (str "Proxy-Authorization:")).point .pproxyauthorization (some id)).point
        .pauthorization none) := by
  have renamed := rename_keeps .pauthorization (str "Proxy-Authorization:") h
  split
  · exact valid
  · rename_i id refers
    exact valid_point_none _ (valid_point _ (renamed.lines id (valid _ id refers)) (renamed.valid valid))

theorem makeTransparent_valid {h : HTTPHeader} (incoming : Bool) (valid : Valid h) :
    Valid (h.makeTransparent incoming) := by
  unfold HTTPHeader.makeTransparent
  split
  · exact valid
  · split
    · have renamed := (rename_keeps .pproxyconnection (str "Connection:") h).trans
        (rename_keeps .pproxyauthenticate (str "WWW-Authenticate:") _)
      simp only
      split
      · exact (renamed.trans (setFront_keeps _ _)).valid valid
      · exact renamed.valid valid
    · exact ((rename_keeps .pproxyconnection (str "Connection:") _).trans (getUrl_keeps false false _)).valid
        (moveAuthorization_valid valid)

theorem removeEncoding_keeps (newlen : Int) (h : HTTPHeader) : Keeps h (h.removeEncoding newlen) :=
  (assignAt_keeps .pcontentlength _ h).trans (assignAt_keeps .pcontentencoding _ _)

theorem setContentLength_keeps (newlen : Int) (h : HTTPHeader) : Keeps h (h.setContentLength newlen) :=
  (assignAt_keeps .pcontentlength (HTTPHeader.lengthLine newlen) h).trans ⟨fun _ there => there, rfl⟩

theorem addHeader_keeps (newheader : Str) (h : HTTPHeader) : Keeps h (h.addHeader newheader).2 := by
  unfold HTTPHeader.addHeader
  split
  · exact (push_keeps _ h).trans ⟨fun _ there => there, rfl⟩
  · exact .refl h

/- checkheader. -/

theorem point_pointer {x y : Index} (same : y.pointer = x.pointer) (q : Pointer) (i : Nat) (p : Pointer) :
    (y.point q (some i)).pointer p = x.pointer p ∨ (y.point q (some i)).pointer p = some i := by
  simp only [Index.point]
  split
  · exact .inr rfl
  · exact .inl (by rw [same])

theorem checkName_pointer (outgoing : Bool) (i : Line) (x : Index) (p : Pointer) :
    (checkName outgoing i x).2.pointer p = x.pointer p ∨ (checkName outgoing i x).2.pointer p = some i.id := by
  have checked := checkName_checked outgoing i x
  generalize checkName outgoing i x = result at checked ⊢
  cases checked with
  | noted q name names here => exact point_pointer rfl q i.id p
  | again sent here => exact .inl rfl
  | agent y here same =>
    rcases same with same | same
    · exact .inl (by rw [same])
    · rw [same]
      exact point_pointer rfl _ i.id p
  | encoding sent here => exact .inl rfl
  | length tp here value free => exact point_pointer rfl _ i.id p
  | transfer here => exact point_pointer rfl _ i.id p
  | expect here => exact .inl rfl
  | other => exact .inl rfl

theorem checkLine_pointer (o : Options) (outgoing : Bool) (i : Line) (x : Index) (p : Pointer) :
    (checkLine o outgoing i x).2.pointer p = x.pointer p ∨ (checkLine o outgoing i x).2.pointer p = some i.id := by
  have ident : ∀ (c : Prop) [Decidable c] (y : Index), (y.pointer p = x.pointer p ∨ y.pointer p = some i.id) →
      ((if c then y.point .pheaderident (some i.id) else y).pointer p = x.pointer p ∨
        (if c then y.point .pheaderident (some i.id) else y).pointer p = some i.id) := by
    intro c _ y chain
    split
    · simp only [Index.point]
      split
      · exact .inr rfl
      · exact chain
    · exact chain
  exact ident _ _ (checkName_pointer outgoing i x p)

theorem checkLines_ids (o : Options) (outgoing : Bool) (lines : List Line) : ∀ x : Index,
    (checkLines o outgoing lines x).1.map (·.id) = lines.map (·.id) := by
  induction lines with
  | nil => exact fun _ => rfl
  | cons i rest ih =>
    intro x
    simp only [checkLines, List.map_cons, ih]
    rfl

theorem checkLines_pointer (o : Options) (outgoing : Bool) (lines : List Line) (p : Pointer) : ∀ x : Index,
    (checkLines o outgoing lines x).2.pointer p = x.pointer p ∨
      ∃ i ∈ lines.map (·.id), (checkLines o outgoing lines x).2.pointer p = some i := by
  induction lines with
  | nil => exact fun _ => .inl rfl
  | cons i rest ih =>
    intro x
    simp only [checkLines, List.map_cons, List.mem_cons]
    rcases ih (checkLine o outgoing i x).2 with same | ⟨j, later, refers⟩
    · rw [same]
      rcases checkLine_pointer o outgoing i x p with old | here
      · exact .inl old
      · exact .inr ⟨i.id, .inl rfl, here⟩
    · exact .inr ⟨j, .inr later, refers⟩

theorem ids_indexLines (o : Options) (h : HTTPHeader) : ids (h.indexLines o) = ids h := by
  simp only [ids, HTTPHeader.indexLines, List.map_append, checkLines_ids]
  cases h.header with
  | nil => rfl
  | cons first rest => rfl

theorem indexLines_valid {h : HTTPHeader} (o : Options) (valid : Valid h) : Valid (h.indexLines o) := by
  intro p i refers
  rw [ids_indexLines]
  rcases checkLines_pointer o (!h.is_response) h.header.tail p h.toIndex with old | ⟨j, there, now⟩
  · exact valid p i (old.symm.trans refers)
  · have same : i = j := Option.some.inj (refers.symm.trans now)
    rw [same]
    obtain ⟨l, member, rfl⟩ := List.mem_map.mp there
    exact List.mem_map_of_mem (List.mem_of_mem_tail member)

theorem checkFirst_keeps (firstline : Str) (h : HTTPHeader) : Keeps h (h.checkFirst firstline) := by
  unfold HTTPHeader.checkFirst
  split <;> exact ⟨fun _ there => there, rfl⟩

theorem checkConnection_valid {h : HTTPHeader} (allowpersistent : Bool) (firstline : Str) (valid : Valid h) :
    Valid (h.checkConnection allowpersistent firstline) := by
  have was : Valid { h with waspersistent := h.wasPersistent firstline } := valid
  unfold HTTPHeader.checkConnection HTTPHeader.forceConnection
  simp only
  split
  · exact valid
  · split
    · exact valid_push_point .pproxyconnection _ was
    · exact (assign_keeps _ _ _).valid was

theorem checkheader_valid {h : HTTPHeader} (o : Options) (allowpersistent : Bool) (valid : Valid h) :
    Valid (h.checkheader o allowpersistent) := by
  unfold HTTPHeader.checkheader
  split
  · exact valid
  · have checked := checkConnection_valid allowpersistent h.front
      ((checkFirst_keeps h.front _).valid (indexLines_valid o valid))
    simp only
    split
    · exact checked
    · exact (((getUrl_keeps true false _).trans (setURL_keeps _ _)).valid checked)

/- Reading. -/

/-- The loop only pushes lines, and it pushes the one that ends it. -/
theorem inLoop_pushes (o : Options) (rounds : Nat) : ∀ (firsttime : Bool) (h : HTTPHeader) (sock : BaseSocket),
    ∃ new, (HTTPHeader.inLoop o rounds firsttime h sock).2.1.header = h.header ++ new ∧
      ((HTTPHeader.inLoop o rounds firsttime h sock).1 = true → new ≠ []) ∧
      (HTTPHeader.inLoop o rounds firsttime h sock).2.1.pointer = h.pointer := by
  induction rounds with
  | zero => exact fun _ h _ => ⟨[], by simp [HTTPHeader.inLoop], by simp [HTTPHeader.inLoop], rfl⟩
  | succ rounds ih =>
    intro firsttime h sock
    rw [HTTPHeader.inLoop]
    split
    · exact ⟨[], by simp, by simp, rfl⟩
    · exact ⟨[], by simp, by simp, rfl⟩
    · rename_i buff t read
      simp only
      split
      · exact ⟨[], by simp, by simp, rfl⟩
      · split
        · exact ⟨[], by simp, by simp, rfl⟩
        · split
          · exact ih false h t
          · split
            · obtain ⟨new, lines, -, pointers⟩ := ih false (h.push (cstr buff)) t
              refine ⟨⟨h.next, cstr buff⟩ :: new, ?_, by simp, pointers⟩
              rw [lines]
              simp [HTTPHeader.push]
            · exact ⟨[⟨h.next, cstr buff⟩], rfl, by simp, rfl⟩

theorem readLines_keeps (o : Options) (sock : BaseSocket) (h : HTTPHeader) : Keeps h (h.readLines o sock).2.1 := by
  obtain ⟨new, lines, pushed, pointers⟩ := inLoop_pushes o (sock.pending.length + 1) true h sock
  unfold HTTPHeader.readLines
  split
  · rename_i h' t result
    rw [result] at lines pointers
    refine ⟨fun i there => ?_, pointers⟩
    simp only [ids] at there ⊢
    rw [lines, List.map_append]
    exact List.mem_append_left _ there
  · rename_i h' t result
    rw [result] at lines pushed pointers
    refine ⟨fun i there => ?_, pointers⟩
    have kept : h'.header.dropLast = h.header ++ new.dropLast := by
      rw [lines, List.dropLast_append_of_ne_nil (pushed rfl)]
    simp only [ids] at there ⊢
    rw [kept, List.map_append]
    exact List.mem_append_left _ there

theorem in_valid {h : HTTPHeader} (o : Options) (allowpersistent : Bool) (sock : BaseSocket) (valid : Valid h.reset) :
    Valid (h.in_ o allowpersistent sock).2.1 := by
  have start : Valid { h.reset with dirty := true } := valid
  have read := (readLines_keeps o sock { h.reset with dirty := true }).valid start
  unfold HTTPHeader.in_
  split
  · rename_i h' t result
    rw [result] at read
    exact read
  · rename_i h' t result
    rw [result] at read
    exact checkheader_valid o allowpersistent read

/- The operations that erase lines. -/

theorem reset_valid {h : HTTPHeader} (valid : Valid h) (cleared : h.dirty = true → h.pointer .pheaderident = none) :
    Valid h.reset := by
  unfold HTTPHeader.reset
  split
  · rename_i dirty
    intro p i refers
    simp only [HTTPHeader.clearPointers] at refers
    split at refers
    · rename_i here
      rw [here, cleared dirty] at refers
      cases refers
    · cases refers
  · exact valid

theorem setConnect_valid {h : HTTPHeader} (con_site : Str) (valid : Valid h)
    (behind : h.requesttype = str "CONNECT" → ∀ p, p ≠ .phost → ∀ i, h.pointer p = some i →
      i ∈ (h.header.take 1).map (·.id)) : Valid (h.setConnect con_site) := by
  unfold HTTPHeader.setConnect
  split
  · exact valid
  · split
    · exact valid
    · rename_i connect
      intro p i refers
      simp only [HTTPHeader.point] at refers
      split at refers
      · cases refers
      · rename_i other
        have first := behind (not_not.mp connect) p other i refers
        unfold ids HTTPHeader.point HTTPHeader.setFront
        cases lines : h.header with
        | nil => simp [lines] at first
        | cons line rest =>
          rw [lines] at first
          exact first

/- What is read does not depend on the identities of the lines. -/

theorem urlOf_congr {h g : HTTPHeader} (front : g.front = h.front) (type : g.requesttype = h.requesttype)
    (host : g.at_ .phost = h.at_ .phost) (port : g.at_ .pport = h.at_ .pport) (withport : Bool) :
    g.urlOf withport = h.urlOf withport := by
  have connect : g.isConnect = h.isConnect := by
    unfold HTTPHeader.isConnect
    rw [type]
  have target : g.urlTarget = h.urlTarget := by
    unfold HTTPHeader.urlTarget
    rw [connect, front]
  have port : g.urlPort = h.urlPort := by
    unfold HTTPHeader.urlPort
    rw [connect, port]
  unfold HTTPHeader.urlOf
  rw [target, port, connect, host, front, type]

def shift (k : Nat) (l : Line) : Line := { l with id := l.id + k }

/-- Two header objects with the same lines under other identities; of the rest, what a text depends on.
Only what getAuthHeader reads depends on pheaderident. -/
structure Alike (ident : Bool) (k : Nat) (h g : HTTPHeader) : Prop where
  lines : g.header = h.header.map (shift k)
  next : g.next = h.next + k
  pointers : ∀ p, (p = .pheaderident → ident = true) → g.pointer p = (h.pointer p).map (· + k)
  type : g.requesttype = h.requesttype
  url : g.cachedurl = h.cachedurl
  response : g.is_response = h.is_response
  icap : g.icap = h.icap

section Alikes
variable {ident : Bool} {k : Nat} {h g : HTTPHeader}

theorem Alike.text (alike : Alike ident k h g) (id : Nat) : g.text (id + k) = h.text id := by
  unfold HTTPHeader.text
  rw [alike.lines, List.find?_map, Option.map_map]
  have same : ((fun l : Line => decide (l.id = id + k)) ∘ shift k) = fun l => decide (l.id = id) := by
    funext l
    simp [shift]
  rw [same]
  rfl

theorem Alike.at_ (alike : Alike ident k h g) (p : Pointer) (known : p = .pheaderident → ident = true) : g.at_ p = h.at_ p := by
  unfold HTTPHeader.at_
  rw [alike.pointers p known]
  cases h.pointer p with
  | none => rfl
  | some id => simp [alike.text]

theorem Alike.front (alike : Alike ident k h g) : g.front = h.front := by
  unfold HTTPHeader.front
  rw [alike.lines]
  cases h.header with
  | nil => rfl
  | cons first rest => rfl

theorem Alike.length (alike : Alike ident k h g) : g.header.length = h.header.length := by
  rw [alike.lines, List.length_map]

theorem Alike.getAuthHeader (alike : Alike true k h g) : g.getAuthHeader = h.getAuthHeader := by
  unfold HTTPHeader.getAuthHeader
  rw [alike.at_ .pheaderident fun _ => rfl]

theorem Alike.push (alike : Alike ident k h g) (line : Str) : Alike ident k (h.push line) (g.push line) := by
  refine ⟨?_, ?_, alike.pointers, alike.type, alike.url, alike.response, alike.icap⟩
  · simp [HTTPHeader.push, alike.lines, alike.next, shift]
  · simp only [HTTPHeader.push, alike.next]
    omega

theorem Alike.point (alike : Alike ident k h g) (p : Pointer) (id : Nat) :
    Alike ident k (h.point p (some id)) (g.point p (some (id + k))) := by
  refine ⟨alike.lines, alike.next, fun q known => ?_, alike.type, alike.url, alike.response, alike.icap⟩
  simp only [HTTPHeader.point]
  split
  · rfl
  · exact alike.pointers q known

theorem Alike.assign (alike : Alike ident k h g) (id : Nat) (line : Str) :
    Alike ident k (h.assign id line) (g.assign (id + k) line) := by
  refine ⟨?_, alike.next, alike.pointers, alike.type, alike.url, alike.response, alike.icap⟩
  simp only [HTTPHeader.assign, alike.lines, List.map_map]
  apply List.map_congr_left
  intro l _
  by_cases here : l.id = id
  · simp [shift, here]
  · simp [shift, here]

theorem Alike.assignAt (alike : Alike ident k h g) (p : Pointer) (known : p = .pheaderident → ident = true) (line : Str) :
    Alike ident k (h.assignAt p line) (g.assignAt p line) := by
  unfold HTTPHeader.assignAt
  rw [alike.pointers p known]
  cases h.pointer p with
  | none => exact alike
  | some id => exact alike.assign id line

theorem Alike.setFront (alike : Alike ident k h g) (line : Str) : Alike ident k (h.setFront line) (g.setFront line) := by
  refine ⟨?_, alike.next, alike.pointers, alike.type, alike.url, alike.response, alike.icap⟩
  simp only [HTTPHeader.setFront, alike.lines]
  cases h.header with
  | nil => rfl
  | cons first rest => rfl

theorem Alike.noteUrl (alike : Alike ident k h g) (port : Int) (firstline : Option Str) :
    Alike ident k (h.noteUrl port firstline) (g.noteUrl port firstline) := by
  cases firstline with
  | none => exact ⟨alike.lines, alike.next, alike.pointers, alike.type, alike.url, alike.response, alike.icap⟩
  | some line =>
    have first := alike.setFront line
    exact ⟨first.lines, first.next, first.pointers, first.type, first.url, first.response, first.icap⟩

theorem Alike.urlOf (alike : Alike ident k h g) (withport : Bool) : g.urlOf withport = h.urlOf withport :=
  urlOf_congr alike.front alike.type (alike.at_ .phost nofun) (alike.at_ .pport nofun) withport

theorem Alike.getUrl (alike : Alike ident k h g) :
    (g.getUrl true false).1 = (h.getUrl true false).1 ∧ Alike ident k (h.getUrl true false).2 (g.getUrl true false).2 := by
  simp only [HTTPHeader.getUrl, alike.length, Bool.not_true, Bool.false_eq_true, and_false, if_false, if_true]
  split
  · exact ⟨rfl, ⟨alike.lines, alike.next, alike.pointers, alike.type, alike.url, alike.response, alike.icap⟩⟩
  · rw [alike.urlOf]
    exact ⟨rfl, alike.noteUrl _ _⟩

theorem Alike.setLines (alike : Alike ident k h g) (first host port : Str) :
    Alike ident k (h.setLines first host port) (g.setLines first host port) := by
  have written := ((alike.setFront first).assignAt .phost nofun host).assignAt .pport nofun port
  exact ⟨written.lines, written.next, written.pointers, written.type, rfl, written.response, written.icap⟩

theorem Alike.setURL (alike : Alike ident k h g) (url : Str) : Alike ident k (h.setURL url) (g.setURL url) := by
  unfold HTTPHeader.setURL
  simp only [alike.front, alike.length, alike.type]
  split
  · exact alike
  · exact alike.setLines _ _ _

end Alikes

/-- The same text, and the same pointers under other identities. -/
def Moved (ident : Bool) (k : Nat) (r r' : Str × Index) : Prop :=
  r'.1 = r.1 ∧ ∀ p, (p = .pheaderident → ident = true) → r'.2.pointer p = (r.2.pointer p).map (· + k)

section Moves
variable {ident : Bool} {k : Nat}

theorem moved_ite {c : Prop} [Decidable c] {r s r' s' : Str × Index} (yes : Moved ident k r r') (no : Moved ident k s s') :
    Moved ident k (if c then r else s) (if c then r' else s') := by
  split
  · exact yes
  · exact no

theorem checkName_moved {x y : Index}
    (pointers : ∀ p, (p = .pheaderident → ident = true) → y.pointer p = (x.pointer p).map (· + k))
    (outgoing : Bool) (i : Line) : Moved ident k (checkName outgoing i x) (checkName outgoing (shift k i) y) := by
  have free : ∀ p, p ≠ .pheaderident → (y.pointer p).isNone = (x.pointer p).isNone :=
    fun p other => by rw [pointers p fun same => absurd same other, Option.isNone_map]
  have same : ∀ {a b : Index} (line : Str), a.pointer = x.pointer → b.pointer = y.pointer →
      Moved ident k (line, a) (line, b) := by
    intro a b line old new
    exact ⟨rfl, fun p known => by simp only [old, new, pointers p known]⟩
  have noted : ∀ {a b : Index} (p : Pointer), a.pointer = x.pointer → b.pointer = y.pointer →
      Moved ident k (i.text, a.point p (some i.id)) (i.text, b.point p (some (i.id + k))) := by
    intro a b p old new
    refine ⟨rfl, fun q known => ?_⟩
    simp only [Index.point]
    split
    · rfl
    · rw [old, new, pointers q known]
  have plain : ∀ p, Moved ident k (i.text, x.point p (some i.id)) (i.text, y.point p (some (i.id + k))) :=
    fun p => noted p rfl rfl
  unfold checkName
  simp only [free, shift, ne_eq, reduceCtorEq, not_false_eq_true]
  refine moved_ite (plain .phost) (moved_ite (same _ rfl rfl) (moved_ite ?_ (moved_ite (same _ rfl rfl) (moved_ite (plain _)
    (moved_ite (plain _) (moved_ite (plain _) (moved_ite ?_ ?_)))))))
  · split
    · exact same _ rfl rfl
    · exact noted _ rfl rfl
  · split
    · exact same _ rfl rfl
    · exact noted _ rfl rfl
  · refine moved_ite (plain _) (moved_ite (plain _) (moved_ite (plain _) (moved_ite (plain _) (moved_ite (plain _)
      (moved_ite (plain _) (moved_ite (plain _) (moved_ite ?_ (moved_ite (plain _)
      (moved_ite (same _ rfl rfl) (same _ rfl rfl))))))))))
    exact ⟨rfl, (plain .ptransferencoding).2⟩

theorem checkLine_moved {x y : Index}
    (pointers : ∀ p, (p = .pheaderident → ident = true) → y.pointer p = (x.pointer p).map (· + k))
    (o : Options) (outgoing : Bool) (i : Line) :
    (checkLine o outgoing (shift k i) y).1 = shift k (checkLine o outgoing i x).1 ∧
      ∀ p, (p = .pheaderident → ident = true) →
        (checkLine o outgoing (shift k i) y).2.pointer p = ((checkLine o outgoing i x).2.pointer p).map (· + k) := by
  obtain ⟨text, chain⟩ := checkName_moved pointers outgoing i
  refine ⟨?_, fun p known => ?_⟩
  · simp only [checkLine, text]
    rfl
  · by_cases here : p = .pheaderident
    · subst here
      have free : (checkName outgoing (shift k i) y).2.pointer .pheaderident = none ↔
          (checkName outgoing i x).2.pointer .pheaderident = none := by
        rw [chain .pheaderident known, Option.map_eq_none_iff]
      have set : ∀ (c : Prop) [Decidable c] (a b : Index), b.pointer .pheaderident = (a.pointer .pheaderident).map (· + k) →
          (if c then b.point .pheaderident (some (i.id + k)) else b).pointer .pheaderident =
            ((if c then a.point .pheaderident (some i.id) else a).pointer .pheaderident).map (· + k) := by
        intro c _ a b same
        split
        · rfl
        · exact same
      simp only [checkLine, text, free]
      exact set _ _ _ (chain .pheaderident known)
    · have kept : ∀ (c : Prop) [Decidable c] (a : Index) (j : Nat),
          (if c then a.point .pheaderident (some j) else a).pointer p = a.pointer p := by
        intro c _ a j
        split
        · exact if_neg here
        · rfl
      simp only [checkLine, kept]
      exact chain p known

theorem checkLines_moved (o : Options) (outgoing : Bool) (lines : List Line) : ∀ {x y : Index},
    (∀ p, (p = .pheaderident → ident = true) → y.pointer p = (x.pointer p).map (· + k)) →
    (checkLines o outgoing (lines.map (shift k)) y).1 = (checkLines o outgoing lines x).1.map (shift k) ∧
      ∀ p, (p = .pheaderident → ident = true) → (checkLines o outgoing (lines.map (shift k)) y).2.pointer p =
        ((checkLines o outgoing lines x).2.pointer p).map (· + k) := by
  induction lines with
  | nil => exact fun pointers => ⟨rfl, pointers⟩
  | cons i rest ih =>
    intro x y pointers
    obtain ⟨line, here⟩ := checkLine_moved pointers o outgoing i
    obtain ⟨later, further⟩ := ih here
    refine ⟨?_, further⟩
    simp only [checkLines, List.map_cons]
    rw [line, later]

end Moves

section Alikes
variable {ident : Bool} {k : Nat} {h g : HTTPHeader}

theorem Alike.indexLines (alike : Alike ident k h g) (o : Options) : Alike ident k (h.indexLines o) (g.indexLines o) := by
  have tail : g.header.tail = h.header.tail.map (shift k) := by rw [alike.lines, List.map_tail]
  obtain ⟨lines, pointers⟩ := checkLines_moved o (!h.is_response) h.header.tail alike.pointers
  refine ⟨?_, alike.next, ?_, alike.type, alike.url, alike.response, alike.icap⟩
  · simp only [HTTPHeader.indexLines, alike.response, tail, lines]
    rw [alike.lines, List.map_append, List.map_take]
  · simp only [HTTPHeader.indexLines, alike.response, tail]
    exact pointers

theorem Alike.checkFirst (alike : Alike ident k h g) (firstline : Str) :
    Alike ident k (h.checkFirst firstline) (g.checkFirst firstline) := by
  unfold HTTPHeader.checkFirst
  rw [alike.response]
  split
  · exact ⟨alike.lines, alike.next, alike.pointers, alike.type, alike.url, rfl, alike.icap⟩
  · exact ⟨alike.lines, alike.next, alike.pointers, rfl, alike.url, rfl, alike.icap⟩

theorem Alike.connectionclose (alike : Alike ident k h g) : g.connectionclose = h.connectionclose := by
  unfold HTTPHeader.connectionclose
  rw [alike.icap, alike.at_ .pproxyconnection nofun]

theorem Alike.forceConnection (alike : Alike ident k h g) (allowpersistent : Bool) :
    Alike ident k (h.forceConnection allowpersistent) (g.forceConnection allowpersistent) := by
  unfold HTTPHeader.forceConnection
  simp only [alike.icap, alike.pointers .pproxyconnection nofun, alike.next]
  split
  · exact alike
  · cases h.pointer .pproxyconnection with
    | none => exact (alike.push _).point _ h.next
    | some id => exact alike.assign id _

theorem Alike.checkConnection (alike : Alike ident k h g) (allowpersistent : Bool) (firstline : Str) :
    Alike ident k (h.checkConnection allowpersistent firstline) (g.checkConnection allowpersistent firstline) := by
  have same : g.persistency allowpersistent firstline = h.persistency allowpersistent firstline := by
    unfold HTTPHeader.persistency
    rw [alike.connectionclose, alike.response, alike.pointers .pcontentlength nofun, Option.isNone_map]
  have was : Alike ident k { h with waspersistent := h.wasPersistent firstline }
      { g with waspersistent := g.wasPersistent firstline } :=
    ⟨alike.lines, alike.next, alike.pointers, alike.type, alike.url, alike.response, alike.icap⟩
  have forced := was.forceConnection (h.persistency allowpersistent firstline)
  unfold HTTPHeader.checkConnection
  rw [same]
  exact ⟨forced.lines, forced.next, forced.pointers, forced.type, forced.url, forced.response, forced.icap⟩

theorem Alike.checkheader (alike : Alike ident k h g) (o : Options) (allowpersistent : Bool) :
    Alike ident k (h.checkheader o allowpersistent) (g.checkheader o allowpersistent) := by
  have checked := ((alike.indexLines o).checkFirst h.front).checkConnection allowpersistent h.front
  unfold HTTPHeader.checkheader
  simp only [alike.length, alike.front, checked.response]
  split
  · exact ⟨alike.lines, alike.next, alike.pointers, alike.type, alike.url, alike.response, alike.icap⟩
  · split
    · exact checked
    · obtain ⟨url, next⟩ := checked.getUrl
      rw [url]
      exact next.setURL _

theorem Alike.inLoop (o : Options) (rounds : Nat) :
    ∀ {h g : HTTPHeader}, Alike ident k h g → ∀ (firsttime : Bool) (sock : BaseSocket),
    (HTTPHeader.inLoop o rounds firsttime g sock).1 = (HTTPHeader.inLoop o rounds firsttime h sock).1 ∧
      (HTTPHeader.inLoop o rounds firsttime g sock).2.2 = (HTTPHeader.inLoop o rounds firsttime h sock).2.2 ∧
      Alike ident k (HTTPHeader.inLoop o rounds firsttime h sock).2.1 (HTTPHeader.inLoop o rounds firsttime g sock).2.1 := by
  induction rounds with
  | zero => exact fun alike _ _ => ⟨rfl, rfl, alike⟩
  | succ rounds ih =>
    intro h g alike firsttime sock
    have plain : Alike ident k { h with ispersistent := false } { g with ispersistent := false, is_response := h.is_response } :=
      ⟨alike.lines, alike.next, alike.pointers, alike.type, alike.url, rfl, alike.icap⟩
    simp only [HTTPHeader.inLoop, alike.length, alike.response]
    split
    · exact ⟨rfl, rfl, plain⟩
    · exact ⟨rfl, rfl, plain⟩
    · split
      · exact ⟨rfl, rfl, plain⟩
      · split
        · exact ⟨rfl, rfl, alike⟩
        · split
          · exact ih alike _ _
          · split
            · exact ih (alike.push _) _ _
            · exact ⟨rfl, rfl, alike.push _⟩

theorem Alike.readLines (alike : Alike ident k h g) (o : Options) (sock : BaseSocket) :
    (g.readLines o sock).1 = (h.readLines o sock).1 ∧ (g.readLines o sock).2.2 = (h.readLines o sock).2.2 ∧
      Alike ident k (h.readLines o sock).2.1 (g.readLines o sock).2.1 := by
  obtain ⟨answer, left, next⟩ := Alike.inLoop o (sock.pending.length + 1) alike true sock
  unfold HTTPHeader.readLines
  generalize HTTPHeader.inLoop o (sock.pending.length + 1) true g sock = result at answer left next ⊢
  generalize HTTPHeader.inLoop o (sock.pending.length + 1) true h sock = result' at answer left next ⊢
  obtain ⟨ok, h₁, s₁⟩ := result
  obtain ⟨ok', h₂, s₂⟩ := result'
  simp only at answer left next
  subst answer left
  cases ok with
  | false => exact ⟨rfl, rfl, next⟩
  | true =>
    have shorter : h₁.header.dropLast = h₂.header.dropLast.map (shift k) := by rw [next.lines, List.map_dropLast]
    refine ⟨?_, rfl, ⟨shorter, next.next, next.pointers, next.type, next.url, next.response, next.icap⟩⟩
    simp only [shorter, List.length_map]

theorem Alike.in_ (start : Alike ident k { h.reset with dirty := true } { g.reset with dirty := true }) (o : Options)
    (allowpersistent : Bool) (sock : BaseSocket) :
    (g.in_ o allowpersistent sock).1 = (h.in_ o allowpersistent sock).1 ∧
      (g.in_ o allowpersistent sock).2.2 = (h.in_ o allowpersistent sock).2.2 ∧
      Alike ident k (h.in_ o allowpersistent sock).2.1 (g.in_ o allowpersistent sock).2.1 := by
  obtain ⟨answer, left, next⟩ := start.readLines o sock
  unfold HTTPHeader.in_
  generalize HTTPHeader.readLines o sock { g.reset with dirty := true } = result at answer left next ⊢
  generalize HTTPHeader.readLines o sock { h.reset with dirty := true } = result' at answer left next ⊢
  obtain ⟨ok, h₁, s₁⟩ := result
  obtain ⟨ok', h₂, s₂⟩ := result'
  simp only at answer left next
  subst answer left
  cases ok with
  | false => exact ⟨rfl, rfl, next⟩
  | true => exact ⟨rfl, rfl, next.checkheader o allowpersistent⟩

structure Blank (h : HTTPHeader) : Prop where
  lines : h.header = []
  pointers : ∀ p, h.pointer p = none
  type : h.requesttype = []
  url : h.cachedurl = []
  icap : h.icap = false

theorem in_auth {h g : HTTPHeader} (first : Blank h.reset) (second : Blank g.reset)
    (response : g.reset.is_response = h.reset.is_response) (older : h.reset.next ≤ g.reset.next) (o : Options)
    (allowpersistent : Bool) (sock : BaseSocket) :
    (g.in_ o allowpersistent sock).2.1.getAuthHeader = (h.in_ o allowpersistent sock).2.1.getAuthHeader := by
  have start : Alike true (g.reset.next - h.reset.next) { h.reset with dirty := true } { g.reset with dirty := true } := by
    refine ⟨?_, ?_, fun p _ => ?_, ?_, ?_, response, ?_⟩
    · simp [first.lines, second.lines]
    · simp only
      omega
    · simp only [first.pointers, second.pointers, Option.map_none]
    · exact second.type.trans first.type.symm
    · exact second.url.trans first.url.symm
    · exact second.icap.trans first.icap.symm
  exact (start.in_ o allowpersistent sock).2.2.getAuthHeader

end Alikes

/- Runs. -/

inductive Op where
  | reset
  | in_ (allowpersistent : Bool) (sock : BaseSocket)
  | setURL (url : Str)
  | setConnect (con_site : Str)
  | makePersistent (persist : Bool)
  | makeTransparent (incoming : Bool)
  | removeEncoding (newlen : Int)
  | setContentLength (newlen : Int)
  | addHeader (newheader : Str)

def Op.run (o : Options) (h : HTTPHeader) : Op → HTTPHeader
  | .reset => h.reset
  | .in_ allowpersistent sock => (h.in_ o allowpersistent sock).2.1
  | .setURL url => h.setURL url
  | .setConnect con_site => h.setConnect con_site
  | .makePersistent persist => h.makePersistent persist
  | .makeTransparent incoming => h.makeTransparent incoming
  | .removeEncoding newlen => h.removeEncoding newlen
  | .setContentLength newlen => h.setContentLength newlen
  | .addHeader newheader => (h.addHeader newheader).2

def runOps (o : Options) (ops : List Op) (h : HTTPHeader) : HTTPHeader := ops.foldl (fun h op => op.run o h) h

/-- No line is erased that a pointer is left on, and what is read into has nothing in it. -/
def Allowed (h : HTTPHeader) : Op → Prop
  | .reset => h.dirty = true → h.pointer .pheaderident = none
  | .in_ _ _ => if h.dirty then h.pointer .pheaderident = none else Blank h
  | .setConnect _ => h.requesttype = str "CONNECT" → ∀ p, p ≠ .phost → ∀ i, h.pointer p = some i →
      i ∈ (h.header.take 1).map (·.id)
  | _ => True

def AllowedRun (o : Options) : HTTPHeader → List Op → Prop
  | _, [] => True
  | h, op :: ops => Allowed h op ∧ AllowedRun o (op.run o h) ops

structure Sound (o : Options) (h : HTTPHeader) (op : Op) : Prop where
  pointers : Valid (op.run o h)
  auth : ∀ allowpersistent sock, op = .in_ allowpersistent sock → (op.run o h).getAuthHeader =
    ((HTTPHeader.made h.is_response none).in_ o allowpersistent sock).2.1.getAuthHeader

theorem allowed_of_unnamed {h : HTTPHeader} (dirty : h.dirty = true) (unnamed : h.pointer .pheaderident = none)
    {allowpersistent : Bool} {sock : BaseSocket} : Allowed h (.in_ allowpersistent sock) := by
  unfold Allowed
  rw [if_pos dirty]
  exact unnamed

theorem blank_of_allowed {h : HTTPHeader} {allowpersistent : Bool} {sock : BaseSocket}
    (allowed : Allowed h (.in_ allowpersistent sock)) : Blank h.reset := by
  unfold Allowed at allowed
  unfold HTTPHeader.reset
  split
  · rename_i dirty
    rw [if_pos dirty] at allowed
    refine ⟨rfl, fun p => ?_, rfl, rfl, rfl⟩
    simp only [HTTPHeader.clearPointers]
    split
    · rename_i here
      rw [here, allowed]
    · rfl
  · rename_i clean
    rwa [if_neg clean] at allowed

theorem Blank.valid {h : HTTPHeader} (blank : Blank h) : Valid h := by
  intro p i refers
  rw [blank.pointers p] at refers
  cases refers

theorem made_blank (is_response : Bool) : Blank (HTTPHeader.made is_response none) := by
  refine ⟨rfl, fun p => ?_, rfl, rfl, rfl⟩
  simp [HTTPHeader.made]

theorem reset_response (h : HTTPHeader) : h.reset.is_response = h.is_response := by
  unfold HTTPHeader.reset
  split <;> rfl

theorem step_valid {o : Options} {h : HTTPHeader} {op : Op} (valid : Valid h) (allowed : Allowed h op) :
    Valid (op.run o h) := by
  cases op with
  | reset => exact reset_valid valid allowed
  | in_ allowpersistent sock => exact in_valid o allowpersistent sock (blank_of_allowed allowed).valid
  | setURL url => exact (setURL_keeps url h).valid valid
  | setConnect con_site => exact setConnect_valid con_site valid allowed
  | makePersistent persist => exact makePersistent_valid persist valid
  | makeTransparent incoming => exact makeTransparent_valid incoming valid
  | removeEncoding newlen => exact (removeEncoding_keeps newlen h).valid valid
  | setContentLength newlen => exact (setContentLength_keeps newlen h).valid valid
  | addHeader newheader => exact (addHeader_keeps newheader h).valid valid

theorem step_sound {o : Options} {h : HTTPHeader} {op : Op} (valid : Valid h) (allowed : Allowed h op) : Sound o h op := by
  refine ⟨step_valid valid allowed, ?_⟩
  rintro allowpersistent sock rfl
  have fresh : (HTTPHeader.made h.is_response none).reset = HTTPHeader.made h.is_response none := rfl
  refine in_auth (fresh ▸ made_blank h.is_response) (blank_of_allowed allowed) ?_ (Nat.zero_le _) o allowpersistent sock
  rw [reset_response, reset_response]
  rfl

/-- In every run whose steps are all allowed, every pointer is null or refers to a line of the deque,
and what getAuthHeader gives after a request is what it gives for that request alone. -/
theorem pointers_valid_in_allowed_runs (o : Options) (is_response : Bool) {ops : List Op}
    (allowed : AllowedRun o (.made is_response none) ops) :
    ∀ done op rest, ops = done ++ op :: rest → Sound o (runOps o done (.made is_response none)) op := by
  have run : ∀ (done : List Op) (h : HTTPHeader) (op : Op) (rest : List Op), Valid h →
      AllowedRun o h (done ++ op :: rest) → Sound o (runOps o done h) op := by
    intro done
    induction done with
    | nil => exact fun h op rest valid allowed => step_sound valid allowed.1
    | cons first done ih =>
      intro h op rest valid allowed
      exact ih (first.run o h) op rest (step_valid valid allowed.1) allowed.2
  intro done op rest split_
  rw [split_] at allowed
  exact run done _ op rest (made_blank is_response).valid allowed

def twoRequests : List Op :=
  [.in_ true (arriving [.bytes (str "GET http://a/ HTTP/1.1\r\nHost: a\r\n\r\n")]), .makePersistent false,
    .in_ true (arriving [.bytes (str "POST http://b/ HTTP/1.1\r\nHost: b\r\nContent-Length: 2\r\n\r\n")])]

def unidentified : Options := ⟨8192, 200, [], false⟩

theorem two_requests_sound : Sound unidentified (runOps unidentified (twoRequests.take 2) (.made false none))
    (.in_ true (arriving [.bytes (str "POST http://b/ HTTP/1.1\r\nHost: b\r\nContent-Length: 2\r\n\r\n")])) := by
  have facts : (runOps unidentified (twoRequests.take 2) (.made false none)).dirty = true ∧
      (runOps unidentified (twoRequests.take 2) (.made false none)).pointer .pheaderident = none := by
    have first : str "GET http://a/ HTTP/1.1\r\nHost: a\r\n\r\n" = _ := str_ofList _
    rw [twoRequests, first]
    decide
  obtain ⟨dirty, unnamed⟩ := facts
  refine @pointers_valid_in_allowed_runs unidentified false twoRequests ?_ (twoRequests.take 2) _ [] rfl
  exact ⟨made_blank false, trivial, allowed_of_unnamed dirty unnamed, trivial⟩

def identified : Options := ⟨8192, 200, str "x-user:", false⟩

/-- The second request names no user; and a CONNECT request loses its lines. -/
def nameLeft : HTTPHeader := runOps identified
  [.in_ true (arriving [.bytes (str "GET http://a/ HTTP/1.1\r\nX-User: bob\r\n\r\n")]),
    .in_ true (arriving [.bytes (str "GET http://a/ HTTP/1.1\r\nHost: a\r\n\r\n")])] (.made false none)

def linesLost : HTTPHeader := runOps unidentified
  [.in_ true (arriving [.bytes (str "CONNECT a:443 HTTP/1.1\r\nProxy-Authorization: x\r\n\r\n")]),
    .setConnect (str "b")] (.made false none)

theorem pointers_left_behind : ¬ Valid nameLeft ∧ ¬ Valid linesLost := by
  constructor
  · intro valid
    have first : str "GET http://a/ HTTP/1.1\r\nX-User: bob\r\n\r\n" = _ := str_ofList _
    have second : str "GET http://a/ HTTP/1.1\r\nHost: a\r\n\r\n" = _ := str_ofList _
    have facts : nameLeft.pointer .pheaderident = some 1 ∧ 1 ∉ ids nameLeft := by
      rw [nameLeft, first, second]
      decide
    exact facts.2 (valid .pheaderident 1 facts.1)
  · intro valid
    have text : str "CONNECT a:443 HTTP/1.1\r\nProxy-Authorization: x\r\n\r\n" = _ := str_ofList _
    have facts : linesLost.pointer .pproxyauthorization = some 1 ∧ 1 ∉ ids linesLost := by
      rw [linesLost, text]
      decide
    exact facts.2 (valid .pproxyauthorization 1 facts.1)

end GuardianHeaderPointers
