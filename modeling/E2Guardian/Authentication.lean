import E2Guardian.Strings

/- Whose request it is: ConnectionHandler::doAuth over the requests of a connection, with any plugins that leave the group
   alone when they find none. What a redirect writes to the client is left out. -/
namespace GuardianAuthentication
open GuardianString

def e2authOk : Int := 0
def e2authNomatch : Int := 2
def e2authNogroup : Int := 3
def e2authRedirect : Int := 4
def e2authOkNopersist : Int := 9

structure AuthPlugin (R : Type) where
  pluginName : Str
  client_ip_based : Bool
  is_connection_based : Bool
  identify : R → Str → Bool → Int × Str × Bool
  determineGroup : R → Str → Int → Int × Str × Int

structure OptionContainer where
  map_auth_to_ports : Bool
  manyPorts : Bool -- filter_ports.size() > 1
  auth_map : Nat → Str
  auth_requires_user_and_group : Bool
  auth_needs_proxy_query : Bool
  numfg : Int
  default_fg : Int
  default_trans_fg : Int

structure Request (R : Type) where
  content : R
  port : Nat
  isProxyRequest : Bool
  special : Bool -- special_exception_ip or special_banned_ip
  mitm : Bool -- goMITM is called for it, if the loop comes so far

structure ConnectionHandler where
  clientuser : Str
  is_real_user : Bool
  oldclientuser : Str
  oldfg : Int
  filtergroup : Int
  authed : Bool
  persistent_authed : Bool
  deriving DecidableEq, Repr

def ConnectionHandler.fresh : ConnectionHandler := ⟨[], false, [], 0, 0, false, false⟩

structure Asking where
  authloop : Nat
  clientuser : Str
  is_real_user : Bool
  filtergroup : Int
  overide_persist : Bool

inductive Verdict (R : Type) where
  | found (plugin : AuthPlugin R)
  | nobody
  | dobreak (rc : Int)

section Plugins
variable {R : Type} (o : OptionContainer) (r : Request R)

/-- Whether the port is mapped to the plugin; with one port the map goes by the place of the plugin. -/
def mapped (plugin : AuthPlugin R) (authloop : Nat) : Bool :=
  if o.map_auth_to_ports then
    if o.manyPorts then o.auth_map r.port == plugin.pluginName else o.auth_map authloop == plugin.pluginName
  else true

def identified (plugin : AuthPlugin R) (a : Asking) : Int × Asking :=
  let authloop := if o.map_auth_to_ports && !o.manyPorts then a.authloop + 1 else a.authloop
  if mapped o r plugin a.authloop then
    let (rc, user, real) := plugin.identify r.content a.clientuser a.is_real_user
    (rc, { a with authloop := authloop, clientuser := user, is_real_user := real })
  else (e2authNomatch, { a with authloop := authloop })

def grouped (plugin : AuthPlugin R) (a : Asking) : Int × Asking :=
  let (rc, user, fg) := plugin.determineGroup r.content a.clientuser a.filtergroup
  (rc, { a with clientuser := user, filtergroup := fg })

/-- The loop over the plugins. The user before is not looked up again. -/
def askPlugins (oldclientuser : Str) (oldfg : Int) : List (AuthPlugin R) → Asking → Verdict R × Asking
  | [], a => (.nobody, a)
  | plugin :: plugins, a =>
    if !r.isProxyRequest && !plugin.client_ip_based then askPlugins oldclientuser oldfg plugins a
    else
      let (rc, a) := identified o r plugin a
      if rc = e2authNomatch then askPlugins oldclientuser oldfg plugins a
      else if rc = e2authRedirect ∨ rc < 0 then (.dobreak rc, a)
      else
        let a := if rc = e2authOkNopersist then { a with overide_persist := true } else a
        if a.clientuser = oldclientuser then (.found plugin, { a with filtergroup := oldfg })
        else
          let (rc, a) := grouped r plugin a
          if rc = e2authOk then (.found plugin, a)
          else if rc = e2authNomatch then askPlugins oldclientuser oldfg plugins { a with clientuser := [] }
          else if rc = e2authNogroup then
            if o.auth_requires_user_and_group || !a.is_real_user then
              askPlugins oldclientuser oldfg plugins { a with clientuser := [] }
            else (.found plugin, a)
          else if rc < 0 then (.dobreak rc, a)
          else askPlugins oldclientuser oldfg plugins a

def doAuth (plugins : List (AuthPlugin R)) (c : ConnectionHandler) : Option Int × ConnectionHandler :=
  if plugins = [] then (none, { c with authed := true, clientuser := str "-", persistent_authed := true })
  else
    let (verdict, a) := askPlugins o r c.oldclientuser c.oldfg plugins
      ⟨0, c.clientuser, c.is_real_user, c.filtergroup, false⟩
    let c := { c with
      clientuser := a.clientuser
      is_real_user := a.is_real_user
      filtergroup := a.filtergroup }
    let nobody := { c with authed := !o.auth_needs_proxy_query, clientuser := str "-" }
    match verdict with
    | .dobreak rc => (some rc, c)
    | .nobody => (none, nobody)
    | .found plugin =>
      if c.filtergroup < 0 ∨ c.filtergroup ≥ o.numfg then (none, nobody)
      else
        (none, { c with
          authed := true
          persistent_authed := c.persistent_authed || (plugin.is_connection_based && !a.overide_persist)
          oldclientuser := c.clientuser
          oldfg := c.filtergroup })

def defaultGroup : Int := if r.isProxyRequest then o.default_fg else o.default_trans_fg

/-- What handleConnection does about a request's user and group, with whether it goes on. -/
def authenticate (plugins : List (AuthPlugin R)) (c : ConnectionHandler) : Bool × ConnectionHandler :=
  if r.special then (true, { c with filtergroup := -1, authed := true })
  else if c.persistent_authed then (true, { c with authed := true })
  else
    match doAuth o r plugins { c with authed := false, filtergroup := defaultGroup o r } with
    | (none, c) => (true, c)
    | (some rc, c) => (rc == e2authRedirect && r.mitm, c)

def goMITM (c : ConnectionHandler) : ConnectionHandler :=
  { c with persistent_authed := c.persistent_authed || (r.mitm && c.authed) }

def authenticateAll (plugins : List (AuthPlugin R)) : List (Request R) → ConnectionHandler → ConnectionHandler
  | [], c => c
  | r :: requests, c =>
    match authenticate o r plugins c with
    | (true, c) => authenticateAll plugins requests (goMITM r c)
    | (false, c) => c

def handlePeer (plugins : List (AuthPlugin R)) (requests : List (Request R)) : ConnectionHandler :=
  authenticateAll o plugins requests { ConnectionHandler.fresh with persistent_authed := false, is_real_user := false }

end Plugins

/- Whose group it is. -/

/-- A plugin that finds no group leaves the group alone. -/
def Tidy {R : Type} (plugin : AuthPlugin R) : Prop :=
  ∀ r name fg, (plugin.determineGroup r name fg).1 ≠ e2authOk → (plugin.determineGroup r name fg).2.2 = fg

def InRange (o : OptionContainer) (fg : Int) : Prop := 0 ≤ fg ∧ fg < o.numfg

section Groups
variable {R : Type} {o : OptionContainer} {plugins : List (AuthPlugin R)}

/-- In answer to the request a plugin has named the group of this user, or has known the user without a group. -/
def Answered (o : OptionContainer) (plugins : List (AuthPlugin R)) (r : Request R) (user : Str) (fg : Int) : Prop :=
  ∃ plugin ∈ plugins, ∃ name before_, plugin.determineGroup r.content name before_ = (e2authOk, user, fg) ∨
    (plugin.determineGroup r.content name before_ = (e2authNogroup, user, fg) ∧ fg = defaultGroup o r ∧
      o.auth_requires_user_and_group = false)

structure Asked (o : OptionContainer) (plugins : List (AuthPlugin R)) (r : Request R) (old : Str × Int)
    (result : Verdict R × Asking) : Prop where
  nobody : result.1 = .nobody → result.2.filtergroup = defaultGroup o r
  found : ∀ plugin, result.1 = .found plugin → (result.2.clientuser, result.2.filtergroup) = old ∨
    Answered o plugins r result.2.clientuser result.2.filtergroup

theorem Asked.of_part {part : List (AuthPlugin R)} {r : Request R} {old : Str × Int} {result : Verdict R × Asking}
    (asked : Asked o part r old result) (sub : ∀ plugin ∈ part, plugin ∈ plugins) : Asked o plugins r old result := by
  refine ⟨asked.nobody, fun plugin found => (asked.found plugin found).imp_right ?_⟩
  rintro ⟨plugin, member, answer⟩
  exact ⟨plugin, sub plugin member, answer⟩

theorem identified_group (r : Request R) (plugin : AuthPlugin R) (a : Asking) :
    (identified o r plugin a).2.filtergroup = a.filtergroup := by
  rw [identified]
  split <;> rfl

theorem grouped_answer {plugin : AuthPlugin R} (tidy : Tidy plugin) (r : Request R) (a : Asking) :
    plugin.determineGroup r.content a.clientuser a.filtergroup =
        ((grouped r plugin a).1, (grouped r plugin a).2.clientuser, (grouped r plugin a).2.filtergroup) ∧
      ((grouped r plugin a).1 ≠ e2authOk → (grouped r plugin a).2.filtergroup = a.filtergroup) :=
  ⟨rfl, tidy r.content a.clientuser a.filtergroup⟩

theorem askPlugins_asked (tidy : ∀ plugin ∈ plugins, Tidy plugin) (r : Request R) (oldclientuser : Str) (oldfg : Int)
    (a : Asking) (start : a.filtergroup = defaultGroup o r) :
    Asked o plugins r (oldclientuser, oldfg) (askPlugins o r oldclientuser oldfg plugins a) := by
  induction plugins generalizing a with
  | nil => exact ⟨fun _ => start, fun _ no => by cases no⟩
  | cons plugin plugins ih =>
    obtain ⟨first, others⟩ := List.forall_mem_cons.mp tidy
    have later : ∀ a : Asking, a.filtergroup = defaultGroup o r → Asked o (plugin :: plugins) r (oldclientuser, oldfg)
        (askPlugins o r oldclientuser oldfg plugins a) :=
      fun a start => (ih others a start).of_part fun _ => List.mem_cons_of_mem _
    rw [askPlugins]
    split
    · exact later a start
    · have group := identified_group (o := o) r plugin a
      rw [start] at group
      generalize identified o r plugin a = answer at group
      obtain ⟨rc, a⟩ := answer
      dsimp only at group ⊢
      split
      · exact later a group
      · split
        · exact ⟨(fun no => by cases no), fun _ no => by cases no⟩
        · have same : (if rc = e2authOkNopersist then { a with overide_persist := true } else a).filtergroup =
              defaultGroup o r := by split <;> exact group
          generalize (if rc = e2authOkNopersist then { a with overide_persist := true } else a) = a at same
          split
          · rename_i again
            exact ⟨(fun no => by cases no), fun _ _ => .inl (by rw [again])⟩
          · obtain ⟨named, leaves⟩ := grouped_answer first r a
            rw [same] at leaves
            generalize grouped r plugin a = answer at named leaves
            obtain ⟨rc, a'⟩ := answer
            dsimp only at named leaves ⊢
            split
            · rename_i ok
              rw [ok] at named
              exact ⟨(fun no => by cases no), fun _ _ => .inr ⟨plugin, List.mem_cons_self .., _, _, .inl named⟩⟩
            · rename_i bad
              have kept := leaves bad
              split
              · exact later _ kept
              · split
                · rename_i nogroup
                  rw [nogroup] at named
                  split
                  · exact later _ kept
                  · rename_i free
                    rw [Bool.or_eq_true, not_or, Bool.not_eq_true] at free
                    exact ⟨(fun no => by cases no), fun _ _ =>
                        .inr ⟨plugin, List.mem_cons_self .., _, _, .inr ⟨named, kept, free.1⟩⟩⟩
                · split
                  · exact ⟨(fun no => by cases no), fun _ no => by cases no⟩
                  · exact later _ kept

/- The requests of a connection. -/

/-- Whose the request is taken to be: the user that a plugin has answered for, with a group that there is, in this request
    or one before; nobody, with a default group or with the group that there is not and that a plugin has answered; or the
    empty name with the first group, which counts as the user before the first request. -/
inductive Accounted (o : OptionContainer) (plugins : List (AuthPlugin R)) (seen : List (Request R)) (user : Str) (fg : Int) :
    Prop where
  | known (r : Request R) (member : r ∈ seen) (answer : Answered o plugins r user fg) (inside : InRange o fg)
  | nobody (r : Request R) (member : r ∈ seen) (unnamed : user = str "-") (default : fg = defaultGroup o r)
  | misplaced (r : Request R) (name : Str) (member : r ∈ seen) (unnamed : user = str "-")
      (answer : Answered o plugins r name fg) (outside : ¬ InRange o fg)
  | first (empty : user = []) (group : fg = 0)

/-- The user and group of the connection are accounted for, or the group is the one of a special address. -/
def Settled (o : OptionContainer) (plugins : List (AuthPlugin R)) (seen : List (Request R)) (c : ConnectionHandler) : Prop :=
  (c.filtergroup = -1 ∧ ∃ r ∈ seen, r.special = true) ∨ Accounted o plugins seen c.clientuser c.filtergroup

structure Sound (o : OptionContainer) (plugins : List (AuthPlugin R)) (seen : List (Request R)) (c : ConnectionHandler) :
    Prop where
  old : Accounted o plugins seen c.oldclientuser c.oldfg
  inside : InRange o c.oldfg
  kept : c.persistent_authed = true → Settled o plugins seen c
  now : c.authed = true → Settled o plugins seen c

variable {c : ConnectionHandler} {seen : List (Request R)} {r : Request R}

theorem doAuth_sound (tidy : ∀ plugin ∈ plugins, Tidy plugin) (member : r ∈ seen)
    (old : Accounted o plugins seen c.oldclientuser c.oldfg) (inside : InRange o c.oldfg)
    (start : c.filtergroup = defaultGroup o r) (unauthed : c.authed = false) (passing : c.persistent_authed = false) :
    Sound o plugins seen (doAuth o r plugins c).2 := by
  rw [doAuth]
  split
  · have nobody : Accounted o plugins seen (str "-") c.filtergroup := .nobody r member rfl start
    exact ⟨old, inside, fun _ => .inr nobody, fun _ => .inr nobody⟩
  · have asked := askPlugins_asked tidy r c.oldclientuser c.oldfg ⟨0, c.clientuser, c.is_real_user, c.filtergroup, false⟩ start
    generalize askPlugins o r c.oldclientuser c.oldfg plugins ⟨0, c.clientuser, c.is_real_user, c.filtergroup, false⟩ = result
      at asked
    obtain ⟨verdict, a⟩ := result
    cases verdict with
    | dobreak rc =>
      refine ⟨old, inside, fun persistent => ?_, fun authed => ?_⟩
      · exact absurd (passing.symm.trans persistent) Bool.false_ne_true
      · exact absurd (unauthed.symm.trans authed) Bool.false_ne_true
    | nobody =>
      have nobody : Accounted o plugins seen (str "-") a.filtergroup := .nobody r member rfl (asked.nobody rfl)
      exact ⟨old, inside, fun _ => .inr nobody, fun _ => .inr nobody⟩
    | found plugin =>
      have known := asked.found plugin rfl
      dsimp only at known ⊢
      split
      · rename_i beyond
        have outside : ¬ InRange o a.filtergroup := by
          rw [InRange]
          omega
        rcases known with same | answer
        · rw [Prod.mk.injEq] at same
          exact absurd (same.2 ▸ inside) outside
        · have misplaced : Accounted o plugins seen (str "-") a.filtergroup :=
            .misplaced r a.clientuser member rfl answer outside
          exact ⟨old, inside, fun _ => .inr misplaced, fun _ => .inr misplaced⟩
      · rename_i bounds
        have within : InRange o a.filtergroup := by
          rw [InRange]
          omega
        have accounted : Accounted o plugins seen a.clientuser a.filtergroup := by
          rcases known with same | answer
          · rw [Prod.mk.injEq] at same
            rw [same.1, same.2]
            exact old
          · exact .known r member answer within
        exact ⟨accounted, within, fun _ => .inr accounted, fun _ => .inr accounted⟩

theorem authenticate_sound (tidy : ∀ plugin ∈ plugins, Tidy plugin) (member : r ∈ seen) (sound : Sound o plugins seen c) :
    Sound o plugins seen (authenticate o r plugins c).2 := by
  rw [authenticate]
  split
  · rename_i special
    have settled : Settled o plugins seen { c with filtergroup := -1, authed := true } := .inl ⟨rfl, r, member, special⟩
    exact ⟨sound.old, sound.inside, fun _ => settled, fun _ => settled⟩
  · split
    · rename_i persistent
      exact ⟨sound.old, sound.inside, fun _ => sound.kept persistent, fun _ => sound.kept persistent⟩
    · rename_i passing
      rw [Bool.not_eq_true] at passing
      have asked := @doAuth_sound _ o plugins { c with authed := false, filtergroup := defaultGroup o r } seen r tidy member
        sound.old sound.inside rfl rfl passing
      generalize doAuth o r plugins { c with authed := false, filtergroup := defaultGroup o r } = answer at asked
      obtain ⟨rc, c'⟩ := answer
      cases rc with
      | none => exact asked
      | some rc => exact asked

theorem goMITM_sound (r : Request R) (sound : Sound o plugins seen c) : Sound o plugins seen (goMITM r c) := by
  refine ⟨sound.old, sound.inside, fun kept => ?_, sound.now⟩
  rw [goMITM, Bool.or_eq_true, Bool.and_eq_true] at kept
  exact kept.elim sound.kept fun authed => sound.now authed.2

theorem authenticateAll_sound (tidy : ∀ plugin ∈ plugins, Tidy plugin) {requests : List (Request R)}
    (members : ∀ r ∈ requests, r ∈ seen) (sound : Sound o plugins seen c) :
    Sound o plugins seen (authenticateAll o plugins requests c) := by
  induction requests generalizing c with
  | nil => exact sound
  | cons r requests ih =>
    obtain ⟨member, others⟩ := List.forall_mem_cons.mp members
    have next := authenticate_sound tidy member sound
    rw [authenticateAll]
    generalize authenticate o r plugins c = answer at next
    obtain ⟨goes, c'⟩ := answer
    cases goes with
    | false => exact next
    | true => exact ih others (goMITM_sound r next)

end Groups

def oneGroup : OptionContainer := ⟨false, false, fun _ => [], false, false, 2, 0, 0⟩

def byName : AuthPlugin Str where
  pluginName := str "name"
  client_ip_based := false
  is_connection_based := true
  identify := fun name _ _ => (e2authOk, name, true)
  determineGroup := fun _ name fg => if name = str "smith" then (e2authOk, name, 1) else (e2authNomatch, name, fg)

def asking (name : String) : Request Str := ⟨str name, 8080, true, false, false⟩

end GuardianAuthentication
