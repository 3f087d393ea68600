import Mathlib.Algebra.Ring.Nat
import E2Guardian.Strings

/- String::realPath against the canonical path. The loop looks one or two bytes ahead and does not
   know where a segment starts, so a dot at the end of a segment is taken for a segment of its own. -/
namespace GuardianRealPath
open GuardianString

/- The canonical path: the segments that remain, each behind a slash, and a slash at the end if
   the path has one there. -/
def segments (path : Str) : List Str := (path.drop 1).splitOn (ch '/')

def keepSegment (kept : List Str) (segment : Str) : List Str :=
  if segment = [] ∨ segment = str "." then kept
  else if segment = str ".." then kept.tail
  else segment :: kept

def remaining (path : Str) : List Str := (segments path).foldl keepSegment []

def pathText (segs : List Str) : Str := segs.flatMap (ch '/' :: ·)

def render (kept : List Str) (trailing : Bool) : Str :=
  if kept = [] then str "/" else pathText kept.reverse ++ if trailing then str "/" else []

def canonical (path : Str) : Str := render (remaining path) (endsWith path (str "/"))

/- What realPath does with a segment. -/
/-- No dot of the segment ends it or stands before a NUL, and no two dots stand before a backslash. -/
def plain : Str → Bool
  | [] => true
  | b :: t => !(b == ch '.' && (t.headD 0 == 0 || startsWith t (str ".\\"))) && plain t

/-- The segments act as they should: a dot segment only as the last one with nothing left before it, a parent
segment only behind a segment without a backslash, and not as the last one with nothing left. -/
def handled (kept : List Str) : List Str → Bool
  | [] => true
  | segment :: rest =>
    if segment = [] then handled kept rest
    else if segment = str "." then rest.isEmpty && kept.isEmpty
    else if segment = str ".." then
      decide (ch '\\' ∉ kept.headD []) && !(rest.isEmpty && kept.tail.isEmpty) && handled kept.tail rest
    else plain segment && handled (segment :: kept) rest

def handledPath (path : Str) : Bool :=
  if path.length < 3 then decide (path ≠ str "//" ∧ path ≠ str "/.")
  else handled [] (segments path) && decide (∀ segment ∈ remaining path, 0 ∉ segment)

/- Splitting and joining. -/
theorem pathText_cons (g : Str) (gs : List Str) : pathText (g :: gs) = ch '/' :: (g ++ pathText gs) := rfl

theorem pathText_append (gs hs : List Str) : pathText (gs ++ hs) = pathText gs ++ pathText hs := List.flatMap_append

theorem pathText_intercalate {gs : List Str} (some_ : gs ≠ []) : pathText gs = ch '/' :: [ch '/'].intercalate gs := by
  induction gs with
  | nil => exact absurd rfl some_
  | cons g gs ih =>
    rw [pathText_cons]
    cases gs with
    | nil => simp [pathText]
    | cons h gs =>
      rw [ih (List.cons_ne_nil _ _), List.intercalate_cons_cons]
      simp

theorem segments_text {path : Str} (absolute : path.head? = some (ch '/')) : pathText (segments path) = path := by
  obtain ⟨t, rfl⟩ := List.head?_eq_some_iff.mp absolute
  rw [segments, pathText_intercalate (List.splitOn_ne_nil _ _), List.intercalate_splitOn]
  rfl

theorem segments_of_text {gs : List Str} (some_ : gs ≠ []) (slashless : ∀ g ∈ gs, ch '/' ∉ g) :
    segments (pathText gs) = gs := by
  rw [segments, pathText_intercalate some_]
  exact List.splitOn_intercalate _ slashless some_

theorem pathText_boundary (gs : List Str) : pathText gs = [] ∨ (pathText gs).head? = some (ch '/') := by
  cases gs with
  | nil => exact .inl rfl
  | cons g gs => exact .inr rfl

theorem endsWith_slash_iff {gs : List Str} (slashless : ∀ g ∈ gs, ch '/' ∉ g) :
    endsWith (pathText gs) (str "/") = (gs.getLast? == some []) := by
  rcases List.eq_nil_or_concat gs with rfl | ⟨init, last, rfl⟩
  · decide
  · rw [List.concat_eq_append, pathText_append, pathText_cons, List.getLast?_concat, Bool.eq_iff_iff, endsWith,
      List.isSuffixOf_iff_suffix, beq_iff_eq, Option.some_inj]
    have slashless := slashless last (by simp)
    constructor
    · intro ends
      by_contra some_
      obtain ⟨body, b, rfl⟩ := (List.eq_nil_or_concat last).resolve_left some_
      obtain ⟨front, same⟩ := ends
      have shape : (pathText init ++ ch '/' :: body) ++ [b] = front ++ [ch '/'] := by
        rw [show front ++ [ch '/'] = _ from same]
        simp [pathText]
      have final := (List.append_inj' shape rfl).2
      exact slashless (by simp [List.cons.inj final])
    · rintro rfl
      exact ⟨pathText init, rfl⟩

/- What the loop does with each kind of segment. What follows a segment is empty or begins with a slash. -/
def Boundary (rest : Str) : Prop := rest = [] ∨ rest.head? = some (ch '/')

theorem boundary_head {rest : Str} (stop : Boundary rest) : rest.headD 0 = 0 ∨ rest.headD 0 = ch '/' := by
  rcases stop with rfl | slash
  · exact .inl rfl
  · obtain ⟨t, rfl⟩ := List.head?_eq_some_iff.mp slash
    exact .inr rfl

theorem loop_cons (b : UInt8) (t out : Str) : realPathLoop (b :: t) out =
    if b = ch '/' ∧ t.headD 0 = ch '/' then realPathLoop t out
    else if b = ch '.' ∧ (t.headD 0 = 0 ∨ t.headD 0 = ch '/') then realPathLoop t out
    else if b = ch '.' ∧ t.headD 0 = ch '.' ∧
        ((t.drop 1).headD 0 = 0 ∨ (t.drop 1).headD 0 = ch '/' ∨ (t.drop 1).headD 0 = ch '\\') then
      realPathLoop (t.drop 1) (climb out)
    else realPathLoop t (b :: out) := by
  cases t <;> rfl

theorem loop_other {b : UInt8} (noSlash : b ≠ ch '/') (noDot : b ≠ ch '.') (t out : Str) :
    realPathLoop (b :: t) out = realPathLoop t (b :: out) := by
  simp only [loop_cons, noSlash, noDot, false_and, if_false]

theorem loop_slash {t : Str} (single : t.headD 0 ≠ ch '/') (out : Str) :
    realPathLoop (ch '/' :: t) out = realPathLoop t (ch '/' :: out) := by
  have noDot : ch '/' ≠ ch '.' := by decide
  simp only [loop_cons, single, and_false, noDot, false_and, if_false]

theorem loop_slashes (t out : Str) : realPathLoop (ch '/' :: ch '/' :: t) out = realPathLoop (ch '/' :: t) out := by
  rw [loop_cons, if_pos ⟨rfl, rfl⟩]

theorem loop_dot {t : Str} (stop : t.headD 0 = 0 ∨ t.headD 0 = ch '/') (out : Str) :
    realPathLoop (ch '.' :: t) out = realPathLoop t out := by
  have noSlash : ch '.' ≠ ch '/' := by decide
  rw [loop_cons, if_neg fun h => noSlash h.1, if_pos ⟨rfl, stop⟩]

theorem loop_parent {t : Str} (stop : t.headD 0 = 0 ∨ t.headD 0 = ch '/' ∨ t.headD 0 = ch '\\') (out : Str) :
    realPathLoop (ch '.' :: ch '.' :: t) out = realPathLoop t (climb out) := by
  rw [loop_cons, if_neg (by simp; decide), if_neg (by simp; decide), if_pos ⟨rfl, rfl, stop⟩]
  rfl

theorem loop_kept_dot {t : Str} (next : ¬ (t.headD 0 = 0 ∨ t.headD 0 = ch '/'))
    (noParent : ¬ (t.headD 0 = ch '.' ∧
      ((t.drop 1).headD 0 = 0 ∨ (t.drop 1).headD 0 = ch '/' ∨ (t.drop 1).headD 0 = ch '\\'))) (out : Str) :
    realPathLoop (ch '.' :: t) out = realPathLoop t (ch '.' :: out) := by
  have noSlash : ch '.' ≠ ch '/' := by decide
  rw [loop_cons, if_neg fun h => noSlash h.1, if_neg fun h => next h.2, if_neg fun h => noParent h.2]

theorem climb_count (out : Str) : (climb out).count (ch '.') ≤ out.count (ch '.') := by
  cases out with
  | nil => exact le_refl _
  | cons b out =>
    exact ((List.drop_sublist _ _).trans ((List.dropWhile_sublist _).trans (List.sublist_cons_self b out))).count_le _

theorem loop_segment (g : Str) (slashless : ch '/' ∉ g) {rest : Str} (stop : Boundary rest) (out : Str) :
    (plain g = true ∧ realPathLoop (g ++ rest) out = realPathLoop rest (g.reverse ++ out)) ∨
      (plain g = false ∧ ∃ out', realPathLoop (g ++ rest) out = realPathLoop rest out' ∧
        out'.count (ch '.') < g.count (ch '.') + out.count (ch '.')) := by
  induction hn : g.length using Nat.strongRecOn generalizing g out with
  | ind n ih =>
    subst hn
    -- a segment that is shorter, behind what was copied or dropped
    have shorter : ∀ (t : Str), t.length < g.length → ch '/' ∉ t → ∀ out : Str, ∃ out',
        realPathLoop (t ++ rest) out = realPathLoop rest out' ∧ out'.count (ch '.') ≤ t.count (ch '.') + out.count (ch '.') := by
      intro t less slashless out
      rcases ih t.length less t slashless out rfl with ⟨-, copied⟩ | ⟨-, out', run, fewer⟩
      · exact ⟨_, copied, by simp⟩
      · exact ⟨out', run, by omega⟩
    cases g with
    | nil => exact .inl ⟨rfl, rfl⟩
    | cons b t =>
      rw [List.mem_cons, not_or] at slashless
      have noSlash : b ≠ ch '/' := fun same => slashless.1 same.symm
      rw [List.cons_append]
      by_cases dot : b = ch '.'
      · subst dot
        by_cases taken : (t ++ rest).headD 0 = 0 ∨ (t ++ rest).headD 0 = ch '/'
        · -- the dot is dropped
          have lost : plain (ch '.' :: t) = false := by
            cases t with
            | nil => rfl
            | cons c u =>
              have noSlash : c ≠ ch '/' := fun same => slashless.2 (same ▸ List.mem_cons_self)
              obtain rfl : c = 0 := by simpa [noSlash] using taken
              simp [plain]
          obtain ⟨out', run, fewer⟩ := shorter t (by simp) slashless.2 out
          refine .inr ⟨lost, out', by rw [loop_dot taken, run], ?_⟩
          rw [List.count_cons_self]
          omega
        · rw [not_or] at taken
          obtain ⟨c, u, rfl⟩ : ∃ c u, t = c :: u := by
            refine List.exists_cons_of_ne_nil ?_
            rintro rfl
            exact absurd (boundary_head stop) (by simpa using taken)
          have single : ch '/' ∉ u := fun member => slashless.2 (List.mem_cons_of_mem _ member)
          by_cases parent : c = ch '.' ∧ ((u ++ rest).headD 0 = 0 ∨ (u ++ rest).headD 0 = ch '/' ∨
              (u ++ rest).headD 0 = ch '\\')
          · -- both dots are dropped
            obtain ⟨rfl, ends⟩ := parent
            have lost : plain (ch '.' :: ch '.' :: u) = false := by
              cases u with
              | nil => rfl
              | cons d v =>
                have noSlash : d ≠ ch '/' := fun same => single (same ▸ List.mem_cons_self)
                rcases (by simpa [noSlash] using ends : d = 0 ∨ d = ch '\\') with rfl | rfl
                · simp [plain]
                · simp [plain, startsWith, str]
            obtain ⟨out', run, fewer⟩ := shorter u (by rw [List.length_cons, List.length_cons]; omega) single (climb out)
            refine .inr ⟨lost, out', by rw [List.cons_append, loop_parent ends, run], ?_⟩
            have climbed := climb_count out
            rw [List.count_cons_self, List.count_cons_self]
            omega
          · -- the dot is copied
            obtain ⟨next, noParent⟩ : (c ≠ 0 ∧ c ≠ ch '/') ∧ ¬ startsWith (c :: u) (str ".\\") = true := by
              refine ⟨taken, fun starts => parent ?_⟩
              obtain ⟨v, same⟩ := List.isPrefixOf_iff_prefix.mp starts
              obtain ⟨rfl, rfl⟩ := List.cons.inj (same : ch '.' :: ch '\\' :: v = c :: u)
              exact ⟨rfl, .inr (.inr rfl)⟩
            have step := @loop_kept_dot (c :: u ++ rest) (by simpa using taken) parent out
            have same : plain (ch '.' :: c :: u) = plain (c :: u) := by
              rw [plain]
              simp [next.1, noParent]
            rw [step, same]
            rcases ih (c :: u).length (by simp) (c :: u) slashless.2 (ch '.' :: out) rfl with
              ⟨clean, copied⟩ | ⟨lost, out', run, fewer⟩
            · exact .inl ⟨clean, by rw [copied]; simp⟩
            · refine .inr ⟨lost, out', run, ?_⟩
              rw [List.count_cons_self] at fewer ⊢
              omega
      · have same : plain (b :: t) = plain t := by
          rw [plain]
          simp [dot]
        rw [loop_other noSlash dot, same]
        rcases ih t.length (by simp) t slashless.2 (b :: out) rfl with ⟨clean, copied⟩ | ⟨lost, out', run, fewer⟩
        · exact .inl ⟨clean, by rw [copied]; simp⟩
        · refine .inr ⟨lost, out', run, ?_⟩
          rw [List.count_cons_of_ne dot] at fewer ⊢
          exact fewer

/- The loop from segment to segment. The buffer is that of the segments that are kept. -/
def buffer (kept : List Str) : Str := (pathText kept.reverse).reverse

theorem buffer_cons (g : Str) (kept : List Str) : buffer (g :: kept) = g.reverse ++ ch '/' :: buffer kept := by
  rw [buffer, buffer, List.reverse_cons, pathText_append, List.reverse_append]
  simp [pathText]

theorem climb_buffer {kept : List Str} (slashless : ∀ g ∈ kept, ch '/' ∉ g) (noBackslash : ch '\\' ∉ kept.headD []) :
    climb (ch '/' :: buffer kept) = buffer kept.tail := by
  cases kept with
  | nil => rfl
  | cons g kept =>
    have body : ∀ b ∈ g.reverse, (b != ch '/' && b != ch '\\') = true := by
      intro b member
      have inside := List.mem_reverse.mp member
      have noSlash : b ≠ ch '/' := fun same => slashless g List.mem_cons_self (same ▸ inside)
      have other : b ≠ ch '\\' := fun same => noBackslash (same ▸ inside)
      simp [noSlash, other]
    rw [climb, buffer_cons, List.dropWhile_append_of_pos body, List.dropWhile_cons_of_neg (by simp)]
    rfl

theorem loop_into {g : Str} (some_ : g ≠ []) (slashless : ch '/' ∉ g) (gs : List Str) (out : Str) :
    realPathLoop (pathText (g :: gs)) out = realPathLoop (g ++ pathText gs) (ch '/' :: out) := by
  obtain ⟨b, t, rfl⟩ := List.exists_cons_of_ne_nil some_
  have single : b ≠ ch '/' := fun same => slashless (same ▸ List.mem_cons_self)
  rw [pathText_cons]
  exact loop_slash (t := b :: (t ++ pathText gs)) single out

theorem keepSegment_empty (kept : List Str) : keepSegment kept [] = kept := if_pos (.inl rfl)

theorem keepSegment_dot (kept : List Str) : keepSegment kept (str ".") = kept := if_pos (.inr rfl)

theorem keepSegment_parent (kept : List Str) : keepSegment kept (str "..") = kept.tail := by
  rw [keepSegment, if_neg (by decide), if_pos rfl]

theorem keepSegment_other {g : Str} (some_ : g ≠ []) (noDot : g ≠ str ".") (noParent : g ≠ str "..") (kept : List Str) :
    keepSegment kept g = g :: kept := by
  rw [keepSegment, if_neg (by simp [some_, noDot]), if_neg noParent]

theorem render_buffer {kept : List Str} (some_ : kept ≠ []) : (buffer kept).reverse = render kept false := by
  rw [render, if_neg some_, buffer, List.reverse_reverse]
  exact (List.append_nil _).symm

theorem render_trailing (kept : List Str) : (ch '/' :: buffer kept).reverse = render kept true := by
  rw [render, List.reverse_cons, buffer, List.reverse_reverse]
  split
  · rename_i none_
    rw [none_]
    rfl
  · rfl

theorem run_handled (gs : List Str) (slashless : ∀ g ∈ gs, ch '/' ∉ g) {kept : List Str}
    (keptSlashless : ∀ g ∈ kept, ch '/' ∉ g) (ok : handled kept gs = true) (begun : gs = [] → kept ≠ []) :
    (realPathLoop (pathText gs) (buffer kept)).reverse =
      render (gs.foldl keepSegment kept) (gs.getLast? == some []) := by
  induction gs generalizing kept with
  | nil => exact render_buffer (begun rfl)
  | cons g gs ih =>
    have slash := slashless g List.mem_cons_self
    have later : ∀ h ∈ gs, ch '/' ∉ h := fun h member => slashless h (List.mem_cons_of_mem _ member)
    have last : ∀ (h : Str), gs ≠ [] → ((h :: gs).getLast? == some []) = (gs.getLast? == some []) := by
      intro h more
      rw [List.getLast?_cons_of_ne_nil more]
    rw [handled] at ok
    rw [List.foldl_cons]
    split at ok
    · rename_i empty
      subst empty
      rw [keepSegment_empty]
      cases gs with
      | nil => exact render_trailing kept
      | cons h gs =>
        rw [last [] (List.cons_ne_nil _ _), ← ih later keptSlashless ok (by simp)]
        exact congrArg List.reverse (loop_slashes _ _)
    · rename_i some_
      rw [loop_into some_ slash]
      split at ok
      · -- a dot as the last segment, with nothing before it
        rename_i dot
        subst dot
        rw [Bool.and_eq_true, List.isEmpty_iff, List.isEmpty_iff] at ok
        obtain ⟨rfl, rfl⟩ := ok
        decide
      · rename_i noDot
        split at ok
        · rename_i parent
          subst parent
          simp only [Bool.and_eq_true, decide_eq_true_eq] at ok
          obtain ⟨⟨noBackslash, left⟩, ok⟩ := ok
          have stop := boundary_head (pathText_boundary gs)
          rw [keepSegment_parent, show str ".." ++ pathText gs = ch '.' :: ch '.' :: pathText gs from rfl,
            loop_parent (stop.imp_right .inl), climb_buffer keptSlashless noBackslash]
          have more : gs = [] → kept.tail ≠ [] := by
            rintro rfl none_
            simp [none_] at left
          have rest := ih later (fun h member => keptSlashless h (List.mem_of_mem_tail member)) ok more
          rw [rest]
          by_cases more : gs = []
          · rw [more]
            rfl
          · rw [last _ more]
        · rename_i noParent
          rw [Bool.and_eq_true] at ok
          rw [keepSegment_other some_ noDot noParent]
          rcases loop_segment g slash (pathText_boundary gs) (ch '/' :: buffer kept) with ⟨-, copied⟩ | ⟨lost, -⟩
          · rw [copied, ← buffer_cons, ih later (by simpa using ⟨slash, keptSlashless⟩) ok.2 (by simp)]
            by_cases more : gs = []
            · rw [more]
              have open_ : ([g].getLast? == some []) = false := by simp [some_]
              rw [open_]
              rfl
            · rw [last _ more]
          · rw [lost] at ok
            cases ok.1

/- A path without parent segments. The canonical path has all its dots but those of the dot segments. -/
def isReal (g : Str) : Bool := decide (g ≠ [] ∧ g ≠ str ".")

theorem foldl_keepSegment (gs : List Str) (noParent : str ".." ∉ gs) (kept : List Str) :
    gs.foldl keepSegment kept = (gs.filter isReal).reverse ++ kept := by
  induction gs generalizing kept with
  | nil => rfl
  | cons g gs ih =>
    rw [List.mem_cons, not_or] at noParent
    rw [List.foldl_cons, ih noParent.2]
    by_cases real : isReal g = true
    · have parts : g ≠ [] ∧ g ≠ str "." := by simpa [isReal] using real
      rw [keepSegment_other parts.1 parts.2 fun same => noParent.1 same.symm, List.filter_cons_of_pos real]
      simp
    · have same : keepSegment kept g = kept := by
        have parts : g = [] ∨ g = str "." := by
          by_contra neither
          exact real (by simpa [isReal] using not_or.mp neither)
        exact if_pos parts
      rw [same, List.filter_cons_of_neg real]

def dots (s : Str) : Nat := s.count (ch '.')

theorem pathText_dots (gs : List Str) : dots (pathText gs) = (gs.map dots).sum := by
  induction gs with
  | nil => rfl
  | cons g gs ih =>
    rw [List.map_cons, List.sum_cons, ← ih, pathText_cons]
    simp [dots, ch]

/-- A dot is lost for each segment that is not plain. -/
theorem loop_dots (gs : List Str) (slashless : ∀ g ∈ gs, ch '/' ∉ g) (noParent : str ".." ∉ gs) (out : Str) :
    dots (realPathLoop (pathText gs) out) ≤ ((gs.filter isReal).map dots).sum + dots out ∧
      (dots (realPathLoop (pathText gs) out) = ((gs.filter isReal).map dots).sum + dots out →
        ∀ g ∈ gs, plain g = true ∨ g = str ".") := by
  induction gs generalizing out with
  | nil => simp [pathText, realPathLoop]
  | cons g gs ih =>
    rw [List.mem_cons, not_or] at noParent
    have slash := slashless g List.mem_cons_self
    have later := ih (fun h member => slashless h (List.mem_cons_of_mem _ member)) noParent.2
    by_cases empty : g = []
    · subst empty
      rw [List.filter_cons_of_neg (by simp [isReal])]
      cases gs with
      | nil => simp [pathText, realPathLoop, dots, plain, ch]
      | cons h gs =>
        have skipped : realPathLoop (pathText ([] :: h :: gs)) out = realPathLoop (pathText (h :: gs)) out := loop_slashes _ _
        rw [skipped]
        exact ⟨(later out).1, fun same => by simpa [plain] using (later out).2 same⟩
    · rw [loop_into empty slash]
      by_cases dot : g = str "."
      · subst dot
        have dropped := loop_dot (boundary_head (pathText_boundary gs)) (ch '/' :: out)
        have more := later (ch '/' :: out)
        have slashDots : dots (ch '/' :: out) = dots out := by simp [dots, ch]
        rw [slashDots] at more
        rw [List.filter_cons_of_neg (by simp [isReal]), show str "." ++ pathText gs = ch '.' :: pathText gs from rfl, dropped]
        exact ⟨more.1, fun same => by simpa using more.2 same⟩
      · rw [List.filter_cons_of_pos (by simp [isReal, empty, dot]), List.map_cons, List.sum_cons]
        rcases loop_segment g slash (pathText_boundary gs) (ch '/' :: out) with ⟨clean, copied⟩ | ⟨-, out', run, fewer⟩
        · have more := later (g.reverse ++ ch '/' :: out)
          have both : dots (g.reverse ++ ch '/' :: out) = dots g + dots out := by simp [dots, ch]
          rw [both] at more
          rw [copied]
          refine ⟨by omega, fun same => ?_⟩
          simpa [clean] using more.2 (by omega)
        · have more := later out'
          have slashDots : (ch '/' :: out).count (ch '.') = dots out := by simp [dots, ch]
          rw [slashDots] at fewer
          rw [run]
          unfold dots at *
          exact ⟨by omega, fun same => by omega⟩

/-- What the loop leaves of a segment if none loses a dot: a dot segment is empty. -/
def shown (g : Str) : Str := if g = str "." then [] else g

def shownText (gs : List Str) : Str :=
  pathText ((gs.filter (· ≠ [])).map shown) ++ if gs.getLast? = some [] then str "/" else []

theorem loop_shown (gs : List Str) (slashless : ∀ g ∈ gs, ch '/' ∉ g) (clean : ∀ g ∈ gs, plain g = true ∨ g = str ".")
    (out : Str) : realPathLoop (pathText gs) out = (shownText gs).reverse ++ out := by
  induction gs generalizing out with
  | nil => rfl
  | cons g gs ih =>
    have slash := slashless g List.mem_cons_self
    have later := ih (fun h member => slashless h (List.mem_cons_of_mem _ member))
      (fun h member => clean h (List.mem_cons_of_mem _ member))
    have rest : ∀ (h : Str), h ≠ [] → shownText (h :: gs) = ch '/' :: (shown h ++ shownText gs) := by
      intro h some_
      have trailing : ((h :: gs).getLast? = some []) = (gs.getLast? = some []) := by
        cases gs with
        | nil => simp [some_]
        | cons => rw [List.getLast?_cons_of_ne_nil (List.cons_ne_nil _ _)]
      simp only [shownText, trailing, List.filter_cons_of_pos (p := (· ≠ [])) (by simpa using some_), List.map_cons,
        pathText_cons]
      simp
    by_cases empty : g = []
    · subst empty
      cases gs with
      | nil => rfl
      | cons h gs =>
        have skipped : realPathLoop (pathText ([] :: h :: gs)) out = realPathLoop (pathText (h :: gs)) out := loop_slashes _ _
        rw [skipped, later]
        rfl
    · rw [loop_into empty slash, rest g empty]
      by_cases dot : g = str "."
      · subst dot
        have dropped := loop_dot (boundary_head (pathText_boundary gs)) (ch '/' :: out)
        rw [show str "." ++ pathText gs = ch '.' :: pathText gs from rfl, dropped, later, shown, if_pos rfl]
        simp
      · rcases loop_segment g slash (pathText_boundary gs) (ch '/' :: out) with ⟨-, copied⟩ | ⟨lost, -⟩
        · rw [copied, later, shown, if_neg dot]
          simp
        · rcases clean g List.mem_cons_self with whole | same
          · rw [lost] at whole
            cases whole
          · exact absurd same dot

theorem handled_plain {gs : List Str} (noParent : str ".." ∉ gs) (clean : ∀ g ∈ gs, plain g = true) (kept : List Str) :
    handled kept gs = true := by
  induction gs generalizing kept with
  | nil => rfl
  | cons g gs ih =>
    rw [List.mem_cons, not_or] at noParent
    have later := ih noParent.2 (fun h member => clean h (List.mem_cons_of_mem _ member))
    have whole := clean g List.mem_cons_self
    have noDot : g ≠ str "." := by
      rintro rfl
      revert whole
      decide
    rw [handled]
    split
    · exact later kept
    · rw [if_neg fun same => noParent.1 same.symm, whole, later]
      rfl

theorem handled_lone_dot (gs : List Str) (empty : ∀ g ∈ gs, g = []) : handled [] (gs ++ [str "."]) = true := by
  induction gs with
  | nil => decide
  | cons g gs ih =>
    rw [List.cons_append, handled, if_pos (empty g List.mem_cons_self)]
    exact ih fun h member => empty h (List.mem_cons_of_mem _ member)

theorem shownText_length (gs : List Str) : (shownText gs).length =
    (pathText (gs.filter isReal)).length + gs.count (str ".") + if gs.getLast? = some [] then 1 else 0 := by
  have body : (pathText ((gs.filter (· ≠ [])).map shown)).length =
      (pathText (gs.filter isReal)).length + gs.count (str ".") := by
    induction gs with
    | nil => rfl
    | cons g gs ih =>
      by_cases empty : g = []
      · subst empty
        rw [List.filter_cons_of_neg (by simp), List.filter_cons_of_neg (by simp [isReal]), ih, List.count_cons_of_ne (by decide)]
      · rw [List.filter_cons_of_pos (by simpa using empty), List.map_cons, pathText_cons, List.length_cons,
            List.length_append, ih]
        by_cases dot : g = str "."
        · rw [List.filter_cons_of_neg (by simp [isReal, dot]), shown, if_pos dot, dot, List.count_cons_self]
          simp
          omega
        · rw [List.filter_cons_of_pos (by simp [isReal, empty, dot]), pathText_cons, shown, if_neg dot,
            List.count_cons_of_ne dot, List.length_cons, List.length_append]
          omega
  rw [shownText, List.length_append, body]
  split <;> rfl

theorem mem_pathText {b : UInt8} {gs : List Str} : b ∈ pathText gs → b = ch '/' ∨ ∃ g ∈ gs, b ∈ g := by
  intro member
  obtain ⟨g, listed, inside⟩ := List.mem_flatMap.mp member
  rcases List.mem_cons.mp inside with slash | body
  · exact .inl slash
  · exact .inr ⟨g, listed, body⟩

theorem mem_render {b : UInt8} {kept : List Str} {g : Str} (listed : g ∈ kept) (inside : b ∈ g) (trailing : Bool) :
    b ∈ render kept trailing := by
  rw [render, if_neg (List.ne_nil_of_mem listed)]
  refine List.mem_append_left _ (List.mem_flatMap.mpr ⟨g, List.mem_reverse.mpr listed, ?_⟩)
  exact List.mem_cons_of_mem _ inside

/-- Without parent segments a canonical result shows that every segment was handled. -/
theorem handled_of_canonical {gs : List Str} (some_ : gs ≠ []) (slashless : ∀ g ∈ gs, ch '/' ∉ g) (noParent : str ".." ∉ gs)
    (same : cstr (realPathLoop (pathText gs) []).reverse = render (gs.foldl keepSegment []) (gs.getLast? == some [])) :
    handled [] gs = true ∧ ∀ g ∈ gs.foldl keepSegment [], 0 ∉ g := by
  have zeroFree : ∀ g ∈ gs.foldl keepSegment [], 0 ∉ g := by
    intro g listed zero
    exact cstr_nul_free _ (same ▸ mem_render listed zero _)
  refine ⟨?_, zeroFree⟩
  rw [foldl_keepSegment gs noParent, List.append_nil] at same zeroFree
  have count : dots (render (gs.filter isReal).reverse (gs.getLast? == some [])) = ((gs.filter isReal).map dots).sum := by
    rw [render]
    split
    · rename_i none_
      rw [List.reverse_eq_nil_iff.mp none_]
      rfl
    · rw [List.reverse_reverse, ← pathText_dots, dots, List.count_append]
      split <;> simp [dots, str, ch]
  have clean : ∀ g ∈ gs, plain g = true ∨ g = str "." := by
    have bound := loop_dots gs slashless noParent []
    refine bound.2 (le_antisymm bound.1 ?_)
    have cut : dots (cstr (realPathLoop (pathText gs) []).reverse) ≤ dots (realPathLoop (pathText gs) []) := by
      have shorter := (List.takeWhile_sublist (l := (realPathLoop (pathText gs) []).reverse) (· != 0)).count_le (ch '.')
      rwa [List.count_reverse] at shorter
    rw [same, count] at cut
    exact cut
  have whole : cstr (shownText gs) = shownText gs := by
    refine List.takeWhile_eq_self_iff.mpr fun b member => ?_
    have some_ : b ≠ 0 := by
      rintro rfl
      rcases List.mem_append.mp member with body | slash
      · rcases mem_pathText body with slash | ⟨g, listed, zero⟩
        · exact absurd slash (by decide)
        · obtain ⟨h, inside, rfl⟩ := List.mem_map.mp listed
          rw [shown] at zero
          split at zero
          · cases zero
          · rename_i noDot
            have parts := List.mem_filter.mp inside
            have real : isReal h = true := by simpa [isReal, noDot] using parts.2
            exact zeroFree h (List.mem_reverse.mpr (List.mem_filter.mpr ⟨parts.1, real⟩)) zero
      · split at slash
        · revert slash
          decide
        · cases slash
    simpa using some_
  rw [loop_shown gs slashless clean, List.append_nil, List.reverse_reverse, whole] at same
  have lengths := congrArg List.length same
  rw [shownText_length, render] at lengths
  have undotted : gs.count (str ".") = 0 → handled [] gs = true := by
    intro none_
    refine handled_plain noParent (fun g member => (clean g member).resolve_right ?_) []
    rintro rfl
    exact List.count_eq_zero.mp none_ member
  by_cases nothing : gs.filter isReal = []
  · -- nothing is left, so that all segments are empty or dots
    rw [if_pos (List.reverse_eq_nil_iff.mpr nothing)] at lengths
    have each : ∀ g ∈ gs, g = [] ∨ g = str "." := by
      intro g member
      by_contra neither
      have real : isReal g = true := by simpa [isReal] using not_or.mp neither
      exact List.filter_eq_nil_iff.mp nothing g member real
    obtain ⟨init, last, rfl⟩ := (List.eq_nil_or_concat gs).resolve_left some_
    rw [List.concat_eq_append] at *
    rw [nothing, List.getLast?_concat] at lengths
    rcases each last (by simp) with rfl | rfl
    · refine undotted ?_
      simpa [pathText, str] using lengths
    · have alone : init.count (str ".") = 0 := by
        simpa [pathText, str, List.count_append] using lengths
      refine handled_lone_dot init fun g member => ?_
      refine (each g (List.mem_append_left _ member)).resolve_right ?_
      rintro rfl
      exact List.count_eq_zero.mp alone member
  · refine undotted ?_
    rw [if_neg (mt List.reverse_eq_nil_iff.mp nothing), List.reverse_reverse, List.length_append] at lengths
    by_cases trailing : gs.getLast? = some []
    · simpa [trailing, str] using lengths
    · simpa [trailing] using lengths

/- A path of one or two bytes is left as it is. -/
theorem short_path {path : Str} (absolute : path.head? = some (ch '/')) (short : path.length < 3) :
    realPath path = canonical path ↔ handledPath path = true := by
  rw [realPath, if_pos short, handledPath, if_pos short, decide_eq_true_eq]
  obtain ⟨t, rfl⟩ := List.head?_eq_some_iff.mp absolute
  match t, short with
  | [], _ => decide
  | [b], _ =>
    by_cases slash : b = ch '/'
    · rw [slash]
      decide
    · by_cases dot : b = ch '.'
      · rw [dot]
        decide
      · have one : segments [ch '/', b] = [[b]] := @segments_of_text [[b]] (by simp) (by simpa using Ne.symm slash)
        have noDot : [b] ≠ str "." := fun same => dot (List.cons.inj same).1
        have kept : remaining [ch '/', b] = [[b]] := by
          rw [remaining, one]
          exact keepSegment_other (by simp) noDot (fun same => absurd (congrArg List.length same) (by simp [str])) []
        have ends : endsWith [ch '/', b] (str "/") = false := by
          have last := @endsWith_slash_iff [[b]] (by simpa using Ne.symm slash)
          simpa [pathText] using last
        rw [canonical, kept, ends]
        have open_ : ch '/' :: [b] = render [[b]] false := rfl
        refine iff_of_true open_ ⟨?_, ?_⟩
        · intro same
          exact slash (List.cons.inj (List.cons.inj same).2).1
        · intro same
          exact dot (List.cons.inj (List.cons.inj same).2).1

theorem render_zero_free {kept : List Str} (free : ∀ g ∈ kept, 0 ∉ g) (trailing : Bool) : 0 ∉ render kept trailing := by
  rw [render]
  split
  · decide
  · intro member
    rcases List.mem_append.mp member with body | slash
    · rcases mem_pathText body with slash | ⟨g, listed, zero⟩
      · exact absurd slash (by decide)
      · exact free g (List.mem_reverse.mp listed) zero
    · split at slash
      · revert slash
        decide
      · cases slash

theorem segments_slashless (path : Str) : ∀ g ∈ segments path, ch '/' ∉ g := splitOn_free _ _

theorem realPath_handled {path : Str} (absolute : path.head? = some (ch '/')) (ok : handledPath path = true) :
    realPath path = canonical path := by
  by_cases short : path.length < 3
  · exact (short_path absolute short).mpr ok
  · rw [handledPath, if_neg short, Bool.and_eq_true, decide_eq_true_eq] at ok
    have run := @run_handled (segments path) (segments_slashless path) [] (by simp) ok.1
      (fun none_ => absurd none_ (List.splitOn_ne_nil _ _))
    rw [segments_text absolute, ← endsWith_slash_iff (segments_slashless path), segments_text absolute] at run
    rw [realPath, if_neg short, canonical, show realPathLoop path [] = realPathLoop path (buffer []) from rfl, run]
    exact cstr_of_nul_free (render_zero_free ok.2 _)

/- The canonical path is its own canonical path. -/
structure Kept (g : Str) : Prop where
  some_ : g ≠ []
  noDot : g ≠ str "."
  noParent : g ≠ str ".."
  slashless : ch '/' ∉ g

theorem keepSegment_kept {kept : List Str} (old : ∀ g ∈ kept, Kept g) {g : Str} (slashless : ch '/' ∉ g) :
    ∀ h ∈ keepSegment kept g, Kept h := by
  intro h member
  rw [keepSegment] at member
  split at member
  · exact old h member
  · rename_i real
    split at member
    · exact old h (List.mem_of_mem_tail member)
    · rename_i noParent
      rcases List.mem_cons.mp member with rfl | earlier
      · exact ⟨(not_or.mp real).1, (not_or.mp real).2, noParent, slashless⟩
      · exact old h earlier

theorem foldl_kept (gs : List Str) (slashless : ∀ g ∈ gs, ch '/' ∉ g) {kept : List Str} (old : ∀ g ∈ kept, Kept g) :
    ∀ g ∈ gs.foldl keepSegment kept, Kept g := by
  induction gs generalizing kept with
  | nil => exact old
  | cons g gs ih =>
    exact ih (fun h member => slashless h (List.mem_cons_of_mem _ member))
      (keepSegment_kept old (slashless g List.mem_cons_self))

theorem foldl_plain (gs : List Str) {kept : List Str} (old : ∀ g ∈ kept, plain g = true) (ok : handled kept gs = true) :
    ∀ g ∈ gs.foldl keepSegment kept, plain g = true := by
  induction gs generalizing kept with
  | nil => exact old
  | cons g gs ih =>
    rw [handled] at ok
    rw [List.foldl_cons]
    split at ok
    · rename_i empty
      rw [empty, keepSegment_empty]
      exact ih old ok
    · rename_i some_
      split at ok
      · rename_i dot
        rw [Bool.and_eq_true, List.isEmpty_iff] at ok
        rw [dot, keepSegment_dot, ok.1]
        exact old
      · rename_i noDot
        split at ok
        · rename_i parent
          rw [Bool.and_eq_true] at ok
          rw [parent, keepSegment_parent]
          exact ih (fun h member => old h (List.mem_of_mem_tail member)) ok.2
        · rename_i noParent
          rw [Bool.and_eq_true] at ok
          rw [keepSegment_other some_ noDot noParent]
          exact ih (by simpa using ⟨ok.1, old⟩) ok.2

def rendered (kept : List Str) (trailing : Bool) : List Str := kept.reverse ++ if trailing then [[]] else []

theorem render_rendered {kept : List Str} (some_ : kept ≠ []) (trailing : Bool) :
    render kept trailing = pathText (rendered kept trailing) := by
  rw [render, if_neg some_, rendered, pathText_append]
  cases trailing <;> rfl

theorem render_canonical {kept : List Str} (real : ∀ g ∈ kept, Kept g) (clean : ∀ g ∈ kept, plain g = true)
    (zeroFree : ∀ g ∈ kept, 0 ∉ g) (trailing : Bool) :
    canonical (render kept trailing) = render kept trailing ∧ handledPath (render kept trailing) = true := by
  by_cases none_ : kept = []
  · rw [none_]
    cases trailing <;> decide
  · have each : ∀ g ∈ rendered kept trailing, g ∈ kept ∨ g = [] := by
      intro g member
      rcases List.mem_append.mp member with listed | last
      · exact .inl (List.mem_reverse.mp listed)
      · cases trailing with
        | false => cases last
        | true => exact .inr (List.mem_singleton.mp last)
    have slashless : ∀ g ∈ rendered kept trailing, ch '/' ∉ g := by
      intro g member
      rcases each g member with listed | rfl
      · exact (real g listed).slashless
      · exact List.not_mem_nil
    have noParent : str ".." ∉ rendered kept trailing := by
      intro member
      rcases each _ member with listed | empty
      · exact (real _ listed).noParent rfl
      · exact absurd empty (by decide)
    have some_ : rendered kept trailing ≠ [] := by simp [rendered, none_]
    have segs := segments_of_text some_ slashless
    have filtered : (rendered kept trailing).filter isReal = kept.reverse := by
      have all : kept.reverse.filter isReal = kept.reverse := by
        refine List.filter_eq_self.mpr fun g member => ?_
        have good := real g (List.mem_reverse.mp member)
        simp [isReal, good.some_, good.noDot]
      rw [rendered, List.filter_append, all]
      cases trailing <;> simp [isReal]
    have left : remaining (pathText (rendered kept trailing)) = kept := by
      rw [remaining, segs, foldl_keepSegment _ noParent, filtered]
      simp
    have ends : endsWith (pathText (rendered kept trailing)) (str "/") = trailing := by
      rw [endsWith_slash_iff slashless]
      cases trailing with
      | true => simp [rendered]
      | false =>
        obtain ⟨g, gs, rfl⟩ := List.exists_cons_of_ne_nil none_
        have good := real g List.mem_cons_self
        simp [rendered, good.some_]
    rw [render_rendered none_]
    refine ⟨?_, ?_⟩
    · rw [canonical, left, ends, render_rendered none_]
    · rw [handledPath]
      split
      · have first : ∀ g ∈ (rendered kept trailing).head?, g ≠ [] ∧ g ≠ str "." := by
          obtain ⟨init, last, rfl⟩ := (List.eq_nil_or_concat kept).resolve_left none_
          have good := real last (by simp)
          intro g here
          obtain rfl : last = g := by simpa [rendered] using here
          exact ⟨good.some_, good.noDot⟩
        rw [← segs] at first
        rw [decide_eq_true_eq]
        constructor
        · intro same
          rw [same] at first
          exact (first [] (by decide)).1 rfl
        · intro same
          rw [same] at first
          exact (first (str ".") (by decide)).2 rfl
      · rw [segs, left, Bool.and_eq_true, decide_eq_true_eq]
        refine ⟨handled_plain noParent (fun g member => ?_) [], zeroFree⟩
        rcases each g member with listed | rfl
        · exact clean g listed
        · rfl

/-- The canonical path comes out, and once more when the path is taken again, if every segment is handled as it should be;
in a path without parent segments only then. -/
theorem canonical_if_handled {path : Str} (absolute : path.head? = some (ch '/')) :
    (handledPath path = true → realPath path = canonical path ∧ realPath (realPath path) = realPath path) ∧
      (str ".." ∉ segments path → realPath path = canonical path → handledPath path = true) := by
  constructor
  · intro ok
    have same := realPath_handled absolute ok
    refine ⟨same, ?_⟩
    by_cases short : path.length < 3
    · have left : realPath path = path := if_pos short
      rw [left, left]
    · rw [handledPath, if_neg short, Bool.and_eq_true, decide_eq_true_eq] at ok
      have real := @foldl_kept (segments path) (segments_slashless path) [] (by simp)
      have clean := @foldl_plain (segments path) [] (by simp) ok.1
      obtain ⟨again, fine⟩ := render_canonical real clean ok.2 (endsWith path (str "/"))
      have slash : (canonical path).head? = some (ch '/') := by
        rw [canonical]
        by_cases none_ : remaining path = []
        · rw [none_]
          rfl
        · rw [render_rendered none_]
          exact (pathText_boundary _).resolve_left fun empty => by
            obtain ⟨init, last, parts⟩ := (List.eq_nil_or_concat (remaining path)).resolve_left none_
            rw [parts] at empty
            simp [rendered, pathText] at empty
      rw [same]
      exact (realPath_handled slash fine).trans again
  · intro noParent same
    by_cases short : path.length < 3
    · exact (short_path absolute short).mp same
    · have loop : cstr (realPathLoop (pathText (segments path)) []).reverse =
          render ((segments path).foldl keepSegment []) ((segments path).getLast? == some []) := by
        rw [← endsWith_slash_iff (segments_slashless path), segments_text absolute]
        rwa [realPath, if_neg short] at same
      have each := handled_of_canonical (List.splitOn_ne_nil _ _) (segments_slashless path) noParent loop
      rw [handledPath, if_neg short, Bool.and_eq_true, decide_eq_true_eq]
      exact each

theorem parent_removed : realPath (str "/a//b/../c/") = canonical (str "/a//b/../c/") ∧
    realPath (realPath (str "/a//b/../c/")) = realPath (str "/a//b/../c/") :=
  (canonical_if_handled rfl).1 (by decide +kernel)

/-- A segment that ends with two dots takes itself away. -/
theorem dots_at_end_climb : ¬ ∀ path : Str, path.head? = some (ch '/') →
    realPath path = canonical path ∧ realPath (realPath path) = realPath path := by
  intro always
  have facts : realPath (str "/foo../bar") = str "/bar" ∧ canonical (str "/foo../bar") = str "/foo../bar" ∧
      str "/bar" ≠ str "/foo../bar" := by decide +kernel
  have same := (always (str "/foo../bar") rfl).1
  rw [facts.1, facts.2.1] at same
  exact facts.2.2 same

end GuardianRealPath
