import E2Guardian.ListManager

/- The reference counts of item lists. A handle is a reference that a caller of newItemList
   holds. A list that is being filled counts as held by its own load; when an include has been
   loaded, the load's hold on it is passed to the list that includes it. -/
namespace GuardianListCounts
open GuardianString GuardianItemFile GuardianListManager SharedGraph

/-- Every list's includes are there, and the counts are those of the walks from the handles. -/
structure Accounts (m : Manager) (handles : List Nat) : Prop where
  walked : ∀ i c, m.slot i = some c → ∃ ws, Walks m.kids [i] ws
  counted : ∃ ws, Walks m.kids handles ws ∧ ∀ i c, m.slot i = some c → c.refcount = ws.count i

/-- The lists that were there are there, with other counts at most. -/
def Kept (m m' : Manager) : Prop := ∀ i c, m.slot i = some c → ∃ n, m'.slot i = some (addRef n c)

def Unincluded (m : Manager) (me : Nat) : Prop := ∀ i js, m.kids i = some js → me ∉ js

theorem Kept.refl (m : Manager) : Kept m m := by
  intro i c there
  exact ⟨0, by simp [there, addRef]⟩

theorem Kept.trans {m m₁ m₂ : Manager} (one : Kept m m₁) (two : Kept m₁ m₂) : Kept m m₂ := by
  intro i c there
  obtain ⟨n, there₁⟩ := one i c there
  obtain ⟨n', there₂⟩ := two i _ there₁
  exact ⟨n + n', by simp [there₂, addRef, Int.add_assoc]⟩

theorem kept_addRefs (m : Manager) (n : Int) (ws : List Nat) : Kept m (m.addRefs n ws) := by
  intro i c there
  exact ⟨n * ws.count i, by rw [slot_addRefs, there, Option.map_some]⟩

theorem Accounts.moved {m : Manager} {handles handles' vs ws : List Nat} {n : Int}
    (acc : Accounts m handles) (before : Walks m.kids handles vs)
    (after : Walks m.kids handles' ws) (us : List Nat)
    (balance : ∀ i, (vs.count i : Int) + n * us.count i = ws.count i) :
    Accounts (m.addRefs n us) handles' := by
  constructor
  · intro i c there
    rw [slot_addRefs] at there
    obtain ⟨c₀, there₀, _⟩ := Option.map_eq_some_iff.mp there
    rw [kids_addRefs]
    exact acc.walked i c₀ there₀
  · refine ⟨ws, by rw [kids_addRefs]; exact after, ?_⟩
    intro i c there
    rw [slot_addRefs] at there
    obtain ⟨c₀, there₀, rfl⟩ := Option.map_eq_some_iff.mp there
    obtain ⟨vs', walk, counts⟩ := acc.counted
    have same := walk.unique before
    have old := counts i c₀ there₀
    have new := balance i
    subst same
    simp only [addRef]
    omega

theorem Accounts.held {m : Manager} {handles ws : List Nat} {i : Nat} (acc : Accounts m handles)
    (walk : Walks m.kids [i] ws) : Accounts (m.addRefs 1 ws) (i :: handles) := by
  obtain ⟨vs, before, _⟩ := acc.counted
  apply acc.moved before (walk.append before) ws
  intro j
  rw [List.count_append]
  omega

theorem Accounts.released {m : Manager} {handles ws : List Nat} {i : Nat}
    (acc : Accounts m (i :: handles)) (walk : Walks m.kids [i] ws) :
    Accounts (m.addRefs (-1) ws) handles := by
  obtain ⟨vs, before, _⟩ := acc.counted
  obtain ⟨us, rest, first, second, rfl⟩ := Walks.split (a := [i]) (b := handles) before
  have same := first.unique walk
  subst same
  apply acc.moved before second us
  intro j
  rw [List.count_append]
  omega

theorem walks_elsewhere {m m' : Manager} {me : Nat} {is ws : List Nat} (alone : Unincluded m me)
    (same : ∀ i, i ≠ me → m'.kids i = m.kids i) (walk : Walks m.kids is ws) (notRoot : me ∉ is) :
    Walks m'.kids is ws := by
  apply walk.congr
  intro i met
  apply same
  rintro rfl
  exact walk.avoids notRoot alone met

theorem Accounts.perm {m : Manager} {handles handles' : List Nat} (acc : Accounts m handles)
    (same : handles.Perm handles') : Accounts m handles' := by
  obtain ⟨ws, walk, counts⟩ := acc.counted
  obtain ⟨vs, walk', moved⟩ := walk.perm same
  refine ⟨acc.walked, vs, walk', ?_⟩
  intro i c there
  rw [counts i c there, moved.count_eq]

theorem Accounts.restdin {m : Manager} {handles : List Nat} (acc : Accounts m handles) (rest : List Str) :
    Accounts { m with stdin := rest } handles := ⟨acc.walked, acc.counted⟩

theorem Accounts.modify {m : Manager} {handles : List Nat} (acc : Accounts m handles) (me : Nat)
    {f : Container → Container} (fills : Fills f) : Accounts (m.modify me f) handles := by
  have shape : (m.modify me f).kids = m.kids := by
    apply kids_modify
    intro c
    obtain ⟨k, date, same⟩ := fills c
    rw [same]
  have from_old : ∀ i c, (m.modify me f).slot i = some c →
      ∃ c₀, m.slot i = some c₀ ∧ c.refcount = c₀.refcount := by
    intro i c there
    rw [slot_modify] at there
    split at there
    · obtain ⟨c₀, there₀, rfl⟩ := Option.map_eq_some_iff.mp there
      obtain ⟨k, date, same⟩ := fills c₀
      exact ⟨c₀, there₀, by rw [same]⟩
    · exact ⟨c, there, rfl⟩
  obtain ⟨ws, walk, counts⟩ := acc.counted
  constructor
  · intro i c there
    obtain ⟨c₀, there₀, _⟩ := from_old i c there
    rw [shape]
    exact acc.walked i c₀ there₀
  · refine ⟨ws, shape ▸ walk, ?_⟩
    intro i c there
    obtain ⟨c₀, there₀, same⟩ := from_old i c there
    rw [same, counts i c₀ there₀]

theorem kids_place (m : Manager) (c : Container) (i : Nat) (other : i ≠ m.free) :
    (m.place m.free c).kids i = m.kids i := by
  rw [Manager.kids, slot_place, if_neg (Ne.symm other), Manager.kids]

theorem Accounts.live {m : Manager} {handles : List Nat} (acc : Accounts m handles) {i j : Nat}
    {js : List Nat} (parts : m.kids i = some js) (mem : j ∈ js) : ∃ c, m.slot j = some c := by
  obtain ⟨c, there, rfl⟩ := kids_eq_some parts
  obtain ⟨ws, walk⟩ := acc.walked i c there
  obtain ⟨js, live⟩ := walk.live (walk.part (walk.root (by simp)) parts mem)
  obtain ⟨c', there', _⟩ := kids_eq_some live
  exact ⟨c', there'⟩

theorem free_unincluded {m : Manager} {handles : List Nat} (acc : Accounts m handles) :
    Unincluded m m.free := by
  intro i js parts mem
  obtain ⟨c, there⟩ := acc.live parts mem
  simp [slot_free] at there

theorem free_not_held {m : Manager} {handles : List Nat} (acc : Accounts m handles) :
    m.free ∉ handles := by
  intro mem
  obtain ⟨ws, walk, _⟩ := acc.counted
  obtain ⟨js, live⟩ := walk.live (walk.root mem)
  obtain ⟨c, there, _⟩ := kids_eq_some live
  simp [slot_free] at there

theorem Accounts.placed {m : Manager} {handles : List Nat} (acc : Accounts m handles) {c : Container}
    (one : c.refcount = 1) (none : c.morelists = []) :
    Accounts (m.place m.free c) (m.free :: handles) := by
  have elsewhere : ∀ {is ws : List Nat}, Walks m.kids is ws → m.free ∉ is →
      Walks (m.place m.free c).kids is ws :=
    walks_elsewhere (free_unincluded acc) (kids_place m c)
  have empty : (m.place m.free c).kids m.free = some [] := by
    rw [Manager.kids, slot_place, if_pos rfl, Option.map_some, none]
  have own : Walks (m.place m.free c).kids [m.free] [m.free] := .cons empty .nil .nil
  obtain ⟨ws, walk, counts⟩ := acc.counted
  have notMet := walk.avoids (free_not_held acc) (free_unincluded acc)
  constructor
  · intro i c' there
    rw [slot_place] at there
    split at there
    · rename_i here
      rw [← here]
      exact ⟨_, own⟩
    · rename_i other
      obtain ⟨vs, old⟩ := acc.walked i c' there
      exact ⟨vs, elsewhere old (by simpa using other)⟩
  · refine ⟨_, own.append (elsewhere walk (free_not_held acc)), ?_⟩
    intro i c' there
    rw [slot_place] at there
    split at there
    · rename_i here
      simp only [Option.some.injEq] at there
      rw [← there, one, ← here, List.count_append, List.count_eq_zero_of_not_mem notMet]
      simp
    · rename_i other
      rw [counts i c' there, List.count_append]
      simp [other]

def attach (j : Nat) (c : Container) : Container := { c with morelists := c.morelists ++ [j] }

theorem kids_attach (m : Manager) (me j : Nat) {c : Container} (there : m.slot me = some c) :
    (m.modify me (attach j)).kids me = some (c.morelists ++ [j]) ∧
      ∀ i, i ≠ me → (m.modify me (attach j)).kids i = m.kids i := by
  constructor
  · simp [Manager.kids, there, attach]
  · intro i other
    simp [Manager.kids, Ne.symm other]

theorem Accounts.attached {m : Manager} {me j : Nat} {rest : List Nat} {c : Container}
    (acc : Accounts m (j :: me :: rest)) (there : m.slot me = some c) (notRoot : me ∉ j :: rest)
    (alone : Unincluded m me) : Accounts (m.modify me (attach j)) (me :: rest) := by
  obtain ⟨grown, same⟩ := kids_attach m me j there
  have live := kids_of_slot there
  have from_old : ∀ i c', (m.modify me (attach j)).slot i = some c' →
      ∃ c₀, m.slot i = some c₀ ∧ c'.refcount = c₀.refcount := by
    intro i c' there'
    rw [slot_modify] at there'
    split at there'
    · obtain ⟨c₀, there₀, rfl⟩ := Option.map_eq_some_iff.mp there'
      exact ⟨c₀, there₀, rfl⟩
    · exact ⟨c', there', rfl⟩
  obtain ⟨ws, walk, counts⟩ := acc.counted
  constructor
  · intro i c' there'
    obtain ⟨c₀, there₀, _⟩ := from_old i c' there'
    by_cases here : i = me
    · -- The list itself is walked as before, and then the new include is.
      subst here
      have notSelf : i ≠ j := fun same => notRoot (by simp [same])
      obtain ⟨first, _, below, _, _⟩ := Walks.split (a := [j]) (b := i :: rest) walk
      obtain ⟨own, mine⟩ := acc.walked i c there
      obtain ⟨vs, walk', _⟩ := (below.append mine).attach live (by simpa using notSelf) alone grown same
      exact ⟨vs, walk'⟩
    · obtain ⟨vs, old⟩ := acc.walked i c₀ there₀
      exact ⟨vs, walks_elsewhere alone same old (by simpa using Ne.symm here)⟩
  · obtain ⟨vs, walk', moved⟩ := walk.attach live notRoot alone grown same
    refine ⟨vs, walk', ?_⟩
    intro i c' there'
    obtain ⟨c₀, there₀, count⟩ := from_old i c' there'
    rw [count, counts i c₀ there₀, moved.count_eq]

/-- A list that is no longer held and not included by anything is taken out of the table. -/
theorem Accounts.cleared {m : Manager} {me : Nat} {handles : List Nat} (acc : Accounts m handles)
    (notHeld : me ∉ handles) (alone : Unincluded m me) : Accounts (m.clear me) handles := by
  have same : ∀ i, i ≠ me → (m.clear me).kids i = m.kids i := by
    intro i other
    simp [Manager.kids, Ne.symm other]
  have old : ∀ i c, (m.clear me).slot i = some c → m.slot i = some c ∧ me ≠ i := by
    intro i c there
    rw [slot_clear] at there
    split at there
    · simp at there
    · rename_i other
      exact ⟨there, other⟩
  obtain ⟨ws, walk, counts⟩ := acc.counted
  constructor
  · intro i c there
    obtain ⟨there₀, other⟩ := old i c there
    obtain ⟨vs, below⟩ := acc.walked i c there₀
    exact ⟨vs, walks_elsewhere alone same below (by simpa using other)⟩
  · refine ⟨ws, walks_elsewhere alone same walk notHeld, ?_⟩
    intro i c there
    exact counts i c (old i c there).1

theorem delete_eq {m m' : Manager} {me depth : Nat} {handles ws : List Nat} {c : Container}
    (acc : Accounts m (me :: handles)) (there : m.slot me = some c) (walk : Walks m.kids [me] ws)
    (done : delete depth m me = some m') : m' = (m.addRefs (-1) ws).clear me := by
  have held : c.refcount > 0 := by
    obtain ⟨vs, all, counts⟩ := acc.counted
    have met : me ∈ vs := all.root (List.mem_cons_self ..)
    have positive := List.count_pos_iff.mpr met
    rw [counts me c there]
    omega
  rw [delete, there] at done
  simp only [held, if_true] at done
  obtain ⟨m₁, released, rfl⟩ := Option.map_eq_some_iff.mp done
  cases walk with
  | cons live down next =>
    cases next
    rw [kids_of_slot there, Option.some.injEq] at live
    subst live
    have counts := deRefList_adjusts.counts down
      (kids_addRef m me (-1)) released
    rw [counts, List.append_nil]
    rfl

/- One load. -/

section Load
variable {files : Files} {w : Request} {filename : Str} {m : Manager} {handles : List Nat}

/-- What a load does to the table and the counts. A list that the file cannot lead to is not
    returned and is not included by anything new. -/
structure LoadKeeps (files : Files) (w : Request) (filename : Str) (m : Manager) (handles : List Nat)
    (r : Option Nat) (m' : Manager) : Prop where
  kept : Kept m m'
  accounts : Accounts m' (r.toList ++ handles)
  apart : ∀ b c, m.slot b = some c →
    ¬ Relation.ReflTransGen (Includes files w.list_pwd) filename c.sourcefile → Unincluded m b →
    r ≠ some b ∧ Unincluded m' b

/-- A list that is being filled: it is at a place that was free, and only its load holds it. -/
structure Filling (files : Files) (w : Request) (filename : Str) (m : Manager) (handles : List Nat)
    (m₁ : Manager) : Prop where
  kept : Kept m m₁
  accounts : Accounts m₁ (m.free :: handles)
  mine : ∃ c, m₁.slot m.free = some c ∧ c.sourcefile = filename
  alone : Unincluded m₁ m.free
  apart : ∀ b c, m.slot b = some c →
    ¬ Relation.ReflTransGen (Includes files w.list_pwd) filename c.sourcefile → Unincluded m b →
    Unincluded m₁ b

theorem reuse_keeps {i depth : Nat} {m' : Manager} (acc : Accounts m handles) {c : Container}
    (there : m.slot i = some c) (same : c.sourcefile = filename)
    (done : refList depth m i = some m') : LoadKeeps files w filename m handles (some i) m' := by
  obtain ⟨ws, walk⟩ := acc.walked i c there
  rw [refList_adjusts.eq walk done]
  refine ⟨kept_addRefs m 1 ws, acc.held walk, ?_⟩
  intro b cb thereB apart alone
  constructor
  · rintro ⟨⟩
    rw [there, Option.some.injEq] at thereB
    rw [← thereB, same] at apart
    exact apart .refl
  · intro j js parts
    rw [kids_addRefs] at parts
    exact alone j js parts

theorem filling_start (acc : Accounts m handles) :
    Filling files w filename m handles (m.place m.free (newContainer files w filename)) := by
  have old : ∀ b, m.slot b = none ∨ m.free ≠ b := by
    intro b
    by_cases same : m.free = b
    · exact .inl (same ▸ slot_free m)
    · exact .inr same
  have unincluded : ∀ b, Unincluded m b → Unincluded (m.place m.free (newContainer files w filename)) b := by
    intro b alone i js parts
    by_cases here : i = m.free
    · rw [here, Manager.kids, slot_place, if_pos rfl] at parts
      simp only [newContainer, Option.map_some, Option.some.injEq] at parts
      simp [← parts]
    · rw [kids_place m _ i here] at parts
      exact alone i js parts
  constructor
  · intro i c there
    refine ⟨0, ?_⟩
    rw [slot_place, if_neg ((old i).resolve_left (by simp [there])), there]
    simp [addRef]
  · exact acc.placed rfl rfl
  · exact ⟨_, by rw [slot_place, if_pos rfl], rfl⟩
  · exact unincluded _ (free_unincluded acc)
  · intro b c there _ alone
    exact unincluded b alone

theorem Filling.filled {m₁ : Manager} (state : Filling files w filename m handles m₁)
    {f : Container → Container} (fills : Fills f) :
    Filling files w filename m handles (m₁.modify m.free f) := by
  have shape : (m₁.modify m.free f).kids = m₁.kids := by
    apply kids_modify
    intro c
    obtain ⟨k, date, same⟩ := fills c
    rw [same]
  constructor
  · intro i c there
    have other : m.free ≠ i := by
      rintro rfl
      simp [slot_free] at there
    rw [slot_modify, if_neg other]
    exact state.kept i c there
  · exact state.accounts.modify m.free fills
  · obtain ⟨c, there, name⟩ := state.mine
    obtain ⟨k, date, same⟩ := fills c
    exact ⟨f c, by rw [slot_modify, if_pos rfl, there, Option.map_some], by rw [same]; exact name⟩
  · intro i js parts
    exact state.alone i js (shape ▸ parts)
  · intro b c there apart alone i js parts
    exact state.apart b c there apart alone i js (shape ▸ parts)

/-- A list that a load left alone is included by nothing else after an include of it. -/
theorem Filling.loaded {m₁ m₂ : Manager} {inc : Str} {r : Option Nat}
    (acyclic : Acyclic files w.list_pwd) (includes : Includes files w.list_pwd filename inc)
    (state : Filling files w filename m handles m₁)
    (load : LoadKeeps files w inc m₁ (m.free :: handles) r m₂) :
    Kept m m₂ ∧ (∃ c, m₂.slot m.free = some c ∧ c.sourcefile = filename) ∧
      (r ≠ some m.free ∧ Unincluded m₂ m.free) ∧
      ∀ b c, m.slot b = some c →
        ¬ Relation.ReflTransGen (Includes files w.list_pwd) filename c.sourcefile → Unincluded m b →
        r ≠ some b ∧ Unincluded m₂ b := by
  obtain ⟨c, there, name⟩ := state.mine
  obtain ⟨n, there₂⟩ := load.kept _ c there
  refine ⟨state.kept.trans load.kept, ⟨_, there₂, name⟩, ?_, ?_⟩
  · apply load.apart _ c there ?_ state.alone
    rw [name]
    intro back
    exact acyclic filename (.head' includes back)
  · intro b cb thereB apart alone
    obtain ⟨n, thereB₁⟩ := state.kept b cb thereB
    apply load.apart b _ thereB₁ ?_ (state.apart b cb thereB apart alone)
    intro leads
    exact apart (.head includes leads)

theorem Filling.another {depth : Nat} {host : Host} {m₁ m₂ : Manager} {inc : Str} {ok : Bool}
    (acc : Accounts m handles) (acyclic : Acyclic files w.list_pwd)
    (loads : ∀ inc m handles r m', Accounts m handles → newItemList files host w depth inc m = some (r, m') →
      LoadKeeps files w inc m handles r m')
    (includes : Includes files w.list_pwd filename inc) (state : Filling files w filename m handles m₁)
    (done : readAnotherItemList (newItemList files host w depth) m.free inc m₁ = some (ok, m₂)) :
    Filling files w filename m handles m₂ := by
  unfold readAnotherItemList at done
  split at done
  · simp at done
  · rename_i m' failed
    simp only [Option.some.injEq, Prod.mk.injEq] at done
    have load := loads _ _ _ _ _ state.accounts failed
    obtain ⟨kept, mine, ⟨_, alone⟩, apart⟩ := state.loaded acyclic includes load
    rw [← done.2]
    exact ⟨kept, load.accounts, mine, alone, fun b c there far free => (apart b c there far free).2⟩
  · rename_i j m' found
    simp only [Option.some.injEq, Prod.mk.injEq] at done
    have load := loads _ _ _ _ _ state.accounts found
    obtain ⟨kept, ⟨c, there, name⟩, ⟨notMe, alone⟩, apart⟩ := state.loaded acyclic includes load
    have notRoot : m.free ∉ j :: handles := by
      simp only [List.mem_cons, not_or]
      exact ⟨fun same => notMe (by rw [same]), free_not_held acc⟩
    obtain ⟨grown, same⟩ := kids_attach m' m.free j there
    have unincluded : ∀ b, some j ≠ some b → Unincluded m' b → Unincluded (m'.modify m.free (attach j)) b := by
      intro b other free i js parts
      by_cases here : i = m.free
      · subst here
        rw [grown, Option.some.injEq] at parts
        have before := free m.free _ (kids_of_slot there)
        rw [← parts]
        simp only [List.mem_append, List.mem_singleton, not_or]
        exact ⟨before, fun same => other (by rw [same])⟩
      · exact free i js (same i here ▸ parts)
    rw [← done.2]
    constructor
    · intro i c₀ there₀
      have other : m.free ≠ i := by
        rintro rfl
        simp [slot_free] at there₀
      rw [slot_modify, if_neg other]
      exact kept i c₀ there₀
    · exact load.accounts.attached there notRoot alone
    · exact ⟨attach j c, by rw [slot_modify, if_pos rfl, there, Option.map_some]; rfl, name⟩
    · exact unincluded _ notMe alone
    · intro b cb thereB far free
      obtain ⟨other, free'⟩ := apart b cb thereB far free
      exact unincluded b other free'

theorem Filling.deleted {depth : Nat} {m₁ m' : Manager} (acc : Accounts m handles)
    (state : Filling files w filename m handles m₁) (done : delete depth m₁ m.free = some m') :
    LoadKeeps files w filename m handles none m' := by
  obtain ⟨c, there, _⟩ := state.mine
  obtain ⟨ws, walk⟩ := state.accounts.walked _ c there
  rw [delete_eq state.accounts there walk done]
  have shape : ∀ i, ((m₁.addRefs (-1) ws).clear m.free).kids i = none ∨
      ((m₁.addRefs (-1) ws).clear m.free).kids i = m₁.kids i := by
    intro i
    by_cases here : m.free = i
    · exact .inl (by simp [Manager.kids, here])
    · refine .inr ?_
      rw [← kids_addRefs (-1) ws m₁, Manager.kids, slot_clear, if_neg here, Manager.kids]
  constructor
  · intro i c₀ there₀
    have other : m.free ≠ i := by
      rintro rfl
      simp [slot_free] at there₀
    obtain ⟨n, there₁⟩ := (state.kept.trans (kept_addRefs m₁ (-1) ws)) i c₀ there₀
    exact ⟨n, by rw [slot_clear, if_neg other, there₁]⟩
  · apply (state.accounts.released walk).cleared (free_not_held acc)
    intro i js parts
    rw [kids_addRefs] at parts
    exact state.alone i js parts
  · intro b cb thereB far free
    refine ⟨by simp, ?_⟩
    intro i js parts
    obtain gone | same := shape i
    · simp [gone] at parts
    · exact state.apart b cb thereB far free i js (same ▸ parts)

end Load

theorem newItemList_keeps {files : Files} {host : Host} {w : Request} (acyclic : Acyclic files w.list_pwd)
    (depth : Nat) : ∀ {filename : Str} {m m' : Manager} {handles : List Nat} {r : Option Nat},
      Accounts m handles → newItemList files host w depth filename m = some (r, m') →
      LoadKeeps files w filename m handles r m' := by
  induction depth with
  | zero =>
    intro filename m m' handles r _ done
    simp [newItemList] at done
  | succ depth ih =>
    intro filename m m' handles r acc done
    rw [newItemList] at done
    split at done
    · simp at done
    · rename_i i found
      obtain ⟨m₁, held, same⟩ := Option.map_eq_some_iff.mp done
      simp only [Prod.mk.injEq] at same
      obtain ⟨rfl, rfl⟩ := same
      obtain ⟨c, there, used, _⟩ := previousItem_found found
      exact reuse_keeps acc there (previousUseItem_iff.mp used).1 held
    · have loop : ∀ {ok m₁}, readItemList files host w (newItemList files host w depth) filename m.free
          (m.place m.free (newContainer files w filename)) = some (ok, m₁) →
          Filling files w filename m handles m₁ := by
        intro ok m₁ read
        apply readItemList_keeps (P := Filling files w filename m handles)
          (fun f fills m₁ state => state.filled fills) ?_ ?_ (filling_start acc) read
        · intro m₁ rest state
          exact ⟨state.kept, state.accounts.restdin rest, state.mine, state.alone, state.apart⟩
        · intro inc includes m₁ ok m₂ state another
          exact state.another acc acyclic (fun _ _ _ _ _ acc done => ih acc done) includes another
      split at done
      · simp at done
      · rename_i m₁ read
        simp only [Option.some.injEq, Prod.mk.injEq] at done
        obtain ⟨rfl, rfl⟩ := done
        have state := loop read
        refine ⟨state.kept, state.accounts, ?_⟩
        intro b c there far free
        refine ⟨?_, state.apart b c there far free⟩
        rintro ⟨⟩
        simp [slot_free] at there
      · rename_i m₁ read
        obtain ⟨m₂, gone, same⟩ := Option.map_eq_some_iff.mp done
        simp only [Prod.mk.injEq] at same
        obtain ⟨rfl, rfl⟩ := same
        exact (loop read).deleted acc gone

/- Whole runs. -/

structure System where
  manager : Manager
  handles : List Nat
  deriving DecidableEq

inductive Operation where
  | newItemList (files : Files) (host : Host) (w : Request) (filename : Str)
  | refList (h : Nat)
  | deRefList (h : Nat)
  | garbageCollect

def step (depth : Nat) : Operation → System → Option System
  | .newItemList files host w filename, s =>
    (newItemList files host w depth filename s.manager).map fun (r, m) => ⟨m, r.toList ++ s.handles⟩
  | .refList h, s => (refList depth s.manager h).map (⟨·, h :: s.handles⟩)
  | .deRefList h, s => (deRefList depth s.manager h).map (⟨·, s.handles.erase h⟩)
  | .garbageCollect, s => some ⟨garbageCollect s.manager, s.handles⟩

/-- Files without an include cycle are loaded, and holders use the handles they have. -/
def Proper : Operation → System → Prop
  | .newItemList files _ w _, _ => Acyclic files w.list_pwd
  | .refList h, s => h ∈ s.handles
  | .deRefList h, s => h ∈ s.handles
  | .garbageCollect, _ => True

inductive Reached : System → Prop where
  | start (stdin : List Str) : Reached ⟨.empty stdin, []⟩
  | next {s s' : System} {op : Operation} {depth : Nat} (before : Reached s) (proper : Proper op s)
      (done : step depth op s = some s') : Reached s'

theorem slot_collected {m : Manager} {handles ws : List Nat} (acc : Accounts m handles)
    (walk : Walks m.kids handles ws) (i : Nat) :
    (garbageCollect m).slot i = if i ∈ ws then m.slot i else none := by
  obtain ⟨vs, walk', counts⟩ := acc.counted
  have same := walk'.unique walk
  subst same
  rw [slot_garbageCollect]
  cases there : m.slot i with
  | none => simp
  | some c =>
    have count := counts i c there
    by_cases met : i ∈ vs
    · have positive := List.count_pos_iff.mpr met
      have held : ¬ c.refcount < 1 := by omega
      simp [met, held]
    · rw [List.count_eq_zero_of_not_mem met] at count
      have gone : c.refcount < 1 := by omega
      simp [met, gone]

theorem Accounts.collected {m : Manager} {handles : List Nat} (acc : Accounts m handles) :
    Accounts (garbageCollect m) handles := by
  obtain ⟨ws, walk, counts⟩ := acc.counted
  have kept := slot_collected acc walk
  have same : ∀ i ∈ ws, (garbageCollect m).kids i = m.kids i := by
    intro i met
    rw [Manager.kids, kept, if_pos met, Manager.kids]
  have old : ∀ i c, (garbageCollect m).slot i = some c → i ∈ ws ∧ m.slot i = some c := by
    intro i c there
    rw [kept] at there
    split at there
    · rename_i met
      exact ⟨met, there⟩
    · simp at there
  constructor
  · intro i c there
    obtain ⟨met, there₀⟩ := old i c there
    obtain ⟨vs, below⟩ := acc.walked i c there₀
    refine ⟨vs, below.congr ?_⟩
    intro j met'
    apply same
    obtain ⟨h, root, path, leads⟩ := reaches_of_met below met'
    rw [List.mem_singleton] at root
    exact met_of_path walk path met (root ▸ leads)
  · refine ⟨ws, walk.congr same, ?_⟩
    intro i c there
    exact counts i c (old i c there).2

theorem Accounts.handle_walk {m : Manager} {handles : List Nat} (acc : Accounts m handles) {h : Nat}
    (mem : h ∈ handles) : ∃ ws, Walks m.kids [h] ws := by
  obtain ⟨ws, walk, _⟩ := acc.counted
  obtain ⟨js, live⟩ := walk.live (walk.root mem)
  obtain ⟨c, there, _⟩ := kids_eq_some live
  exact acc.walked h c there

theorem step_accounts {s s' : System} {op : Operation} {depth : Nat} (acc : Accounts s.manager s.handles)
    (proper : Proper op s) (done : step depth op s = some s') : Accounts s'.manager s'.handles := by
  cases op with
  | newItemList files host w filename =>
    obtain ⟨⟨r, m⟩, load, rfl⟩ := Option.map_eq_some_iff.mp done
    exact (newItemList_keeps proper depth acc load).accounts
  | refList h =>
    obtain ⟨m, held, rfl⟩ := Option.map_eq_some_iff.mp done
    obtain ⟨vs, below⟩ := acc.handle_walk proper
    rw [refList_adjusts.eq below held]
    exact acc.held below
  | deRefList h =>
    obtain ⟨m, released, rfl⟩ := Option.map_eq_some_iff.mp done
    obtain ⟨vs, below⟩ := acc.handle_walk proper
    rw [deRefList_adjusts.eq below released]
    exact (acc.perm (List.perm_cons_erase proper)).released below
  | garbageCollect =>
    simp only [step, Option.some.injEq] at done
    rw [← done]
    exact acc.collected

theorem accounts_empty (stdin : List Str) : Accounts (.empty stdin) [] := by
  have nothing : ∀ i, (Manager.empty stdin).slot i = none := by
    intro i
    simp [Manager.slot, SlotTable.slot, Manager.empty]
  constructor
  · intro i c there
    simp [nothing] at there
  · refine ⟨[], .nil, ?_⟩
    intro i c there
    simp [nothing] at there

theorem reached_accounts {s : System} (reached : Reached s) : Accounts s.manager s.handles := by
  induction reached with
  | start stdin => exact accounts_empty stdin
  | next _ proper done ih => exact step_accounts ih proper done

/-- A list that some handle reaches stays in its place through every operation. -/
theorem step_stays {s s' : System} {op : Operation} {depth : Nat} (acc : Accounts s.manager s.handles)
    (proper : Proper op s) (done : step depth op s = some s') {h i : Nat} (root : h ∈ s.handles)
    (reach : Reaches s.manager.kids h i) :
    ∃ c n, s.manager.slot i = some c ∧ s'.manager.slot i = some (addRef n c) := by
  obtain ⟨ws, walk, _⟩ := acc.counted
  have met := met_of_reaches walk root reach
  obtain ⟨js, live⟩ := walk.live met
  obtain ⟨c, there, _⟩ := kids_eq_some live
  refine ⟨c, ?_⟩
  cases op with
  | newItemList files host w filename =>
    obtain ⟨⟨r, m⟩, load, rfl⟩ := Option.map_eq_some_iff.mp done
    obtain ⟨n, there'⟩ := (newItemList_keeps proper depth acc load).kept i c there
    exact ⟨n, there, there'⟩
  | refList k =>
    obtain ⟨m, held, rfl⟩ := Option.map_eq_some_iff.mp done
    obtain ⟨vs, below⟩ := acc.handle_walk proper
    obtain ⟨n, there'⟩ := kept_addRefs s.manager 1 vs i c there
    exact ⟨n, there, by rw [refList_adjusts.eq below held]; exact there'⟩
  | deRefList k =>
    obtain ⟨m, released, rfl⟩ := Option.map_eq_some_iff.mp done
    obtain ⟨vs, below⟩ := acc.handle_walk proper
    obtain ⟨n, there'⟩ := kept_addRefs s.manager (-1) vs i c there
    exact ⟨n, there, by rw [deRefList_adjusts.eq below released]; exact there'⟩
  | garbageCollect =>
    simp only [step, Option.some.injEq] at done
    refine ⟨0, there, ?_⟩
    rw [← done]
    simp only [slot_collected acc walk, met, if_true, there, addRef, Int.add_zero]

/-- In every state of every run the count of a list is the number of include paths to it from
    the outstanding handles. So garbage collection frees what no handle reaches, and what a
    handle reaches keeps its place, with its includes, through every operation. -/
theorem counts_are_include_paths (s : System) (reached : Reached s) :
    (∀ i c, s.manager.slot i = some c →
      c.refcount = ((s.handles.map fun h => numPaths s.manager.kids h i).sum : Nat)) ∧
    (∀ i c, s.manager.slot i = some c → (garbageCollect s.manager).slot i = none →
      ∀ h ∈ s.handles, ¬ Reaches s.manager.kids h i) ∧
    ∀ h ∈ s.handles, ∀ i, Reaches s.manager.kids h i →
      ∃ c, s.manager.slot i = some c ∧ (garbageCollect s.manager).slot i = some c ∧
        (∀ j ∈ c.morelists, Reaches s.manager.kids h j) ∧
        ∀ op depth s', Proper op s → step depth op s = some s' →
          ∃ n, s'.manager.slot i = some (addRef n c) := by
  have acc := reached_accounts reached
  obtain ⟨ws, walk, counts⟩ := acc.counted
  refine ⟨?_, ?_, ?_⟩
  · intro i c there
    rw [counts i c there, sum_numPaths walk i]
  · intro i c there gone h root reach
    rw [slot_collected acc walk, if_pos (met_of_reaches walk root reach), there] at gone
    simp at gone
  · intro h root i reach
    have met := met_of_reaches walk root reach
    obtain ⟨js, live⟩ := walk.live met
    obtain ⟨c, there, rfl⟩ := kids_eq_some live
    refine ⟨c, there, ?_, ?_, ?_⟩
    · rw [slot_collected acc walk, if_pos met, there]
    · intro j mem
      exact reach.part live mem (Option.isSome_iff_exists.mpr (walk.live (walk.part met live mem)))
    · intro op depth s' proper done
      obtain ⟨c', n, there', after⟩ := step_stays acc proper done root reach
      rw [there, Option.some.injEq] at there'
      exact ⟨n, there' ▸ after⟩

/-- Two lists that include a third one, the second with a time tag that cannot be. -/
def adTexts : List (Str × Str) :=
  [(str "/sites", str ".Include</ads>\nexample.com\n.Include</ads>\n"),
    (str "/ads", str "ads.example.com\n"),
    (str "/broken", str ".Include</ads>\n#time: 99 0 0 0 1\n")]

def adFiles : Files := filesOf adTexts

def loadAds (filename : Str) (s : System) : System :=
  (step 4 (.newItemList adFiles noHost siteList filename) s).getD s

def sitesLoaded : System := loadAds (str "/sites") ⟨.empty [], []⟩

def brokenTried : System := loadAds (str "/broken") sitesLoaded

def adsHeld : System := loadAds (str "/ads") brokenTried

theorem adFiles_acyclic : Acyclic adFiles siteList.list_pwd := by
  apply acyclic_filesOf
  decide

theorem Reached.loaded {s s' : System} {filename : Str} (before : Reached s)
    (done : step 4 (.newItemList adFiles noHost siteList filename) s = some s') : Reached s' := by
  have proper : Proper (.newItemList adFiles noHost siteList filename) s := adFiles_acyclic
  exact before.next proper done

theorem adsHeld_reached : Reached adsHeld := by
  have one : step 4 (.newItemList adFiles noHost siteList (str "/sites")) ⟨.empty [], []⟩ =
    some sitesLoaded := by decide
  have two : step 4 (.newItemList adFiles noHost siteList (str "/broken")) sitesLoaded =
    some brokenTried := by decide
  have three : step 4 (.newItemList adFiles noHost siteList (str "/ads")) brokenTried =
    some adsHeld := by decide
  exact (((Reached.start []).loaded one).loaded two).loaded three

theorem ads_counted : adsHeld.handles = [1, 0] ∧
    (adsHeld.manager.slot 1).map Container.refcount = some 3 ∧
    ∀ i c, adsHeld.manager.slot i = some c →
      c.refcount = ((adsHeld.handles.map fun h => numPaths adsHeld.manager.kids h i).sum : Nat) :=
  ⟨by decide, by decide, (counts_are_include_paths adsHeld adsHeld_reached).1⟩

end GuardianListCounts
