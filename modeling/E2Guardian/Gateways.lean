import E2Guardian.MachineInts
import E2Guardian.OrderedMap
import E2Guardian.Strings
import Mathlib.Algebra.Order.Ring.Int
import Mathlib.Algebra.Ring.Nat
import Mathlib.Data.List.Rotate

/- Taking turns by weight: a counter, modulo the total weight, falls into the part of one entry. Over as
   many turns as the total weight every entry has its weight of them, wherever the counter starts. -/
namespace WeightedTurns

variable {α : Type} (weight : α → Nat)

def total (l : List α) : Nat := (l.map weight).sum

def pick : List α → Nat → Option α
  | [], _ => none
  | a :: l, r => if r < weight a then some a else pick l (r - weight a)

def shares (l : List α) : List α := l.flatMap fun a => List.replicate (weight a) a

theorem total_cons (a : α) (l : List α) : total weight (a :: l) = weight a + total weight l := by
  rw [total, List.map_cons, List.sum_cons]
  rfl

theorem total_filter_le (keep : α → Bool) (l : List α) : total weight (l.filter keep) ≤ total weight l := by
  induction l with
  | nil => exact Nat.le_refl _
  | cons a l ih =>
    by_cases kept : keep a = true
    · rw [List.filter_cons_of_pos kept, total_cons, total_cons]
      exact Nat.add_le_add_left ih _
    · rw [List.filter_cons_of_neg kept, total_cons]
      exact Nat.le_trans ih (Nat.le_add_left _ _)

theorem picks_all (l : List α) : (List.range (total weight l)).filterMap (pick weight l) = shares weight l := by
  induction l with
  | nil => rfl
  | cons a l ih =>
    have first : (List.range (weight a)).filterMap (pick weight (a :: l)) = List.replicate (weight a) a := by
      have own : ∀ r ∈ List.range (weight a), pick weight (a :: l) r = some a :=
        fun r member => if_pos (List.mem_range.mp member)
      rw [List.filterMap_congr own]
      simp
    have later : ((List.range (total weight l)).map (weight a + ·)).filterMap (pick weight (a :: l)) = shares weight l := by
      rw [List.filterMap_map, ← ih]
      refine List.filterMap_congr fun r _ => ?_
      rw [Function.comp_apply, pick, if_neg (by omega), Nat.add_sub_cancel_left]
    rw [total_cons, List.range_add, List.filterMap_append, first, later]
    rfl

theorem residues_perm (count start : Nat) : ((List.range count).map fun k => (start + k) % count).Perm (List.range count) := by
  have turned : ((List.range count).map fun k => (start + k) % count) = (List.range count).rotate start := by
    refine List.ext_getElem (by simp) fun k _ _ => ?_
    simp [List.getElem_rotate, Nat.add_comm]
  rw [turned]
  exact List.rotate_perm _ _

theorem turns_shared (l : List α) (start : Nat) :
    ((List.range (total weight l)).filterMap fun k => pick weight l ((start + k) % total weight l)).Perm (shares weight l) := by
  have perm := (residues_perm (total weight l) start).filterMap (pick weight l)
  rw [List.filterMap_map, picks_all] at perm
  exact perm

end WeightedTurns

/- The gateways of a group, best first: LOptionContainer::getGatewayEndpoints. The addresses of the
   network interfaces are a parameter. -/
namespace GuardianGateways
open GuardianString MachineInts

structure GatewayEndpoint where
  name : Str
  if_name : Str
  local_ip : Str
  gw_ip : Str
  tos : Int
  tier : Int
  weight : Int
  up : Bool
  deriving DecidableEq

structure Gateways where
  gateways_map : List (Str × GatewayEndpoint)
  gateway_groups_map : List (Str × List GatewayEndpoint)

section Endpoints
variable (lookup_interface_ipv4 : Str → Str)

def withAddress (ep : GatewayEndpoint) : GatewayEndpoint :=
  if ep.local_ip.isEmpty && !ep.if_name.isEmpty then { ep with local_ip := lookup_interface_ipv4 ep.if_name } else ep

def member (g : Gateways) (ep : GatewayEndpoint) : GatewayEndpoint :=
  withAddress lookup_interface_ipv4 (match OrderedMap.find ep.name g.gateways_map with
    | some gw => { ep with
        if_name := gw.if_name
        local_ip := gw.local_ip
        gw_ip := gw.gw_ip
        tos := gw.tos
        up := ep.up && gw.up }
    | none => ep)

def pushBack (tiers : List (Int × List GatewayEndpoint)) (ep : GatewayEndpoint) : List (Int × List GatewayEndpoint) :=
  OrderedMap.put ep.tier ((OrderedMap.find ep.tier tiers).getD [] ++ [ep]) tiers

def addMember (tiers : List (Int × List GatewayEndpoint) × List (Int × List GatewayEndpoint)) (ep : GatewayEndpoint) :
    List (Int × List GatewayEndpoint) × List (Int × List GatewayEndpoint) :=
  if ep.up then (pushBack tiers.1 ep, tiers.2) else (tiers.1, pushBack tiers.2 ep)

def weightOf (e : GatewayEndpoint) : Int := if e.weight > 0 then e.weight else 1

def totalWeight (tier_eps : List GatewayEndpoint) : Int := tier_eps.foldl (fun total e => int32 (total + weightOf e)) 0

def primaryFrom (pick : Int) : List GatewayEndpoint → Nat → Int → Nat
  | [], _, _ => 0
  | e :: rest, i, accum =>
    if pick < int32 (accum + weightOf e) then i else primaryFrom pick rest (i + 1) (int32 (accum + weightOf e))

def appendTier (seq : UInt32) (tier_eps : List GatewayEndpoint) : List GatewayEndpoint :=
  if tier_eps.length ≤ 1 then tier_eps
  else
    let total_weight := totalWeight tier_eps
    let pick := if total_weight > 0 then int32 ((seq.toNat : Int) % (total_weight % 2 ^ 32)) else 0
    let primary_idx := primaryFrom pick tier_eps 0 0
    tier_eps[primary_idx]?.toList ++
      (List.range (tier_eps.length - 1)).filterMap fun i => tier_eps[(primary_idx + (i + 1)) % tier_eps.length]?

def getGatewayEndpoints (g : Gateways) (gw_name : Str) (gw_rr_counter : UInt32) : List GatewayEndpoint × UInt32 :=
  if gw_name.isEmpty || gw_name == str "default" || gw_name == str "DEFAULT" then ([], gw_rr_counter)
  else match OrderedMap.find gw_name g.gateways_map with
    | some ep => ([withAddress lookup_interface_ipv4 ep], gw_rr_counter)
    | none => match OrderedMap.find gw_name g.gateway_groups_map with
      | some members =>
        let tiers := (members.map (member lookup_interface_ipv4 g)).foldl addMember ([], [])
        (tiers.1.flatMap (fun kv => appendTier gw_rr_counter kv.2) ++
          tiers.2.flatMap (fun kv => appendTier gw_rr_counter kv.2), gw_rr_counter + 1)
      | none => ([], gw_rr_counter)

end Endpoints

/- The tiers. -/

def flat (tiers : List (Int × List GatewayEndpoint)) : List GatewayEndpoint := tiers.flatMap Prod.snd

structure Tiers (tiers : List (Int × List GatewayEndpoint)) : Prop where
  ordered : OrderedMap.Ordered tiers
  keyed : ∀ kv ∈ tiers, ∀ e ∈ kv.2, e.tier = kv.1

theorem find_behind {tiers : List (Int × List GatewayEndpoint)} {t : Int} (behind : ∀ kv ∈ tiers, t < kv.1) :
    OrderedMap.find t tiers = none := by
  induction tiers with
  | nil => rfl
  | cons kv tiers ih =>
    have here := behind kv List.mem_cons_self
    rw [OrderedMap.find, if_neg (by omega)]
    exact ih fun x inside => behind x (List.mem_cons_of_mem _ inside)

theorem pushBack_flat {tiers : List (Int × List GatewayEndpoint)} (ordered : OrderedMap.Ordered tiers) (e : GatewayEndpoint) :
    (flat (pushBack tiers e)).Perm (e :: flat tiers) := by
  unfold pushBack
  induction tiers with
  | nil => exact .refl _
  | cons kv tiers ih =>
    obtain ⟨j, w⟩ := kv
    obtain ⟨later, ordered⟩ := List.pairwise_cons.mp ordered
    rw [OrderedMap.put, OrderedMap.find]
    by_cases less : e.tier < j
    · have none_ : OrderedMap.find e.tier tiers = none := find_behind fun kv inside => by
        have := later kv inside
        simp only at this
        omega
      rw [if_pos less, if_neg (by omega), none_]
      exact .refl _
    · by_cases same : e.tier = j
      · rw [if_neg less, if_pos same, if_pos same]
        show (w ++ [e] ++ flat tiers).Perm (e :: (w ++ flat tiers))
        rw [List.append_assoc]
        exact List.perm_middle
      · rw [if_neg less, if_neg same, if_neg same]
        exact ((ih ordered).append_left w).trans List.perm_middle

theorem find_pushBack (tiers : List (Int × List GatewayEndpoint)) (e : GatewayEndpoint) (t : Int) :
    (OrderedMap.find t (pushBack tiers e)).getD [] =
      (OrderedMap.find t tiers).getD [] ++ if e.tier = t then [e] else [] := by
  rw [pushBack, OrderedMap.find_put]
  by_cases same : t = e.tier
  · rw [if_pos same, if_pos same.symm, same]
    rfl
  · rw [if_neg same, if_neg (Ne.symm same), List.append_nil]

theorem Tiers.pushBack {tiers : List (Int × List GatewayEndpoint)} (good : Tiers tiers) (e : GatewayEndpoint) :
    Tiers (pushBack tiers e) := by
  refine ⟨OrderedMap.put_ordered _ _ good.ordered, ?_⟩
  intro kv inside x member
  rcases OrderedMap.mem_put inside with new | old
  · rw [new] at member ⊢
    rcases List.mem_append.mp member with earlier | last
    · cases stored : OrderedMap.find e.tier tiers with
      | none => simp [stored] at earlier
      | some v =>
        rw [stored] at earlier
        exact good.keyed _ (OrderedMap.mem_of_find stored) x earlier
    · rw [List.mem_singleton.mp last]
  · exact good.keyed kv old x member

structure Built (es : List GatewayEndpoint)
    (tiers : List (Int × List GatewayEndpoint) × List (Int × List GatewayEndpoint)) : Prop where
  up : Tiers tiers.1
  down : Tiers tiers.2
  ups : (flat tiers.1).Perm (es.filter fun e => e.up)
  downs : (flat tiers.2).Perm (es.filter fun e => !e.up)
  segment : ∀ t, (OrderedMap.find t tiers.1).getD [] = es.filter fun e => e.up && e.tier == t

theorem built (es : List GatewayEndpoint) : Built es (es.foldl addMember ([], [])) := by
  induction es using List.reverseRecOn with
  | nil =>
    have empty : Tiers [] := ⟨.nil, by simp⟩
    exact ⟨empty, empty, .refl _, .refl _, fun t => rfl⟩
  | append_singleton es e ih =>
    rw [List.foldl_append, List.foldl_cons, List.foldl_nil, addMember]
    by_cases up : e.up = true
    · rw [if_pos up]
      refine ⟨ih.up.pushBack e, ih.down, ?_, ?_, ?_⟩
      · rw [List.filter_append, List.filter_singleton, up]
        exact ((pushBack_flat ih.up.ordered e).trans (ih.ups.cons e)).trans (List.perm_append_singleton _ _).symm
      · rw [List.filter_append, List.filter_singleton, up]
        simpa using ih.downs
      · intro t
        rw [find_pushBack, ih.segment, List.filter_append, List.filter_singleton, up]
        simp
    · have down : e.up = false := by simpa using up
      rw [if_neg up]
      refine ⟨ih.up, ih.down.pushBack e, ?_, ?_, ?_⟩
      · rw [List.filter_append, List.filter_singleton, down]
        simpa using ih.ups
      · rw [List.filter_append, List.filter_singleton, down]
        exact ((pushBack_flat ih.down.ordered e).trans (ih.downs.cons e)).trans (List.perm_append_singleton _ _).symm
      · intro t
        rw [ih.segment, List.filter_append, List.filter_singleton, down]
        simp

/- The order in one tier. -/

theorem getElem?_rest (e : GatewayEndpoint) (rest : List GatewayEndpoint) :
    ((List.range rest.length).filterMap fun i => (e :: rest)[i + 1]?) = rest := by
  induction rest using List.reverseRecOn with
  | nil => rfl
  | append_singleton rest x ih =>
    have before_ : ((List.range rest.length).filterMap fun i => (e :: (rest ++ [x]))[i + 1]?) = rest := by
      refine (List.filterMap_congr fun i inside => ?_).trans ih
      rw [List.getElem?_cons_succ, List.getElem?_cons_succ, List.getElem?_append_left (List.mem_range.mp inside)]
    rw [List.length_append, List.length_singleton, List.range_succ, List.filterMap_append, before_]
    simp

theorem rotation {tier_eps : List GatewayEndpoint} {p : Nat} (inside : p < tier_eps.length) :
    (tier_eps[p]?.toList ++ (List.range (tier_eps.length - 1)).filterMap fun i => tier_eps[(p + (i + 1)) % tier_eps.length]?) =
      tier_eps.rotate p := by
  have first : (tier_eps.rotate p)[0]? = tier_eps[p]? := by
    rw [List.getElem?_rotate (by omega), Nat.zero_add, Nat.mod_eq_of_lt inside]
  have size : (tier_eps.rotate p).length = tier_eps.length := List.length_rotate _ _
  have later : ∀ i ∈ List.range (tier_eps.length - 1),
      tier_eps[(p + (i + 1)) % tier_eps.length]? = (tier_eps.rotate p)[i + 1]? := by
    intro i member
    have := List.mem_range.mp member
    rw [List.getElem?_rotate (by omega), Nat.add_comm p]
  rw [List.filterMap_congr later, ← first, ← size]
  cases turned : tier_eps.rotate p with
  | nil => simp [turned] at size; omega
  | cons e rest =>
    rw [List.length_cons, Nat.add_sub_cancel, getElem?_rest]
    rfl

theorem primaryFrom_lt (pick : Int) (es : List GatewayEndpoint) (i : Nat) (accum : Int) (some_ : es ≠ []) :
    primaryFrom pick es i accum < i + es.length := by
  induction es generalizing i accum with
  | nil => exact absurd rfl some_
  | cons e rest ih =>
    rw [primaryFrom, List.length_cons]
    split
    · omega
    · by_cases last : rest = []
      · rw [last, primaryFrom]
        omega
      · have := ih (i + 1) (int32 (accum + weightOf e)) last
        omega

theorem appendTier_perm (seq : UInt32) (tier_eps : List GatewayEndpoint) : (appendTier seq tier_eps).Perm tier_eps := by
  unfold appendTier
  split
  · exact .refl _
  · rename_i several
    have some_ : tier_eps ≠ [] := fun none_ => several (by simp [none_])
    have inside := fun pick => primaryFrom_lt pick tier_eps 0 0 some_
    simp only [Nat.zero_add] at inside
    rw [rotation (inside _)]
    exact List.rotate_perm _ _

def share (e : GatewayEndpoint) : Nat := (weightOf e).toNat

theorem weightOf_share (e : GatewayEndpoint) : weightOf e = share e := by
  rw [share, weightOf]
  split <;> omega

theorem share_pos (e : GatewayEndpoint) : 0 < share e := by
  rw [share, weightOf]
  split <;> omega

theorem totalWeight_from (es : List GatewayEndpoint) (t : Nat) (small : t + WeightedTurns.total share es < 2 ^ 31) :
    es.foldl (fun total e => int32 (total + weightOf e)) (t : Int) = (t + WeightedTurns.total share es : Nat) := by
  induction es generalizing t with
  | nil => rfl
  | cons e es ih =>
    rw [WeightedTurns.total_cons, ← Nat.add_assoc] at small ⊢
    rw [List.foldl_cons, weightOf_share, ← Nat.cast_add, int32_natCast (by omega)]
    exact ih (t + share e) small

theorem primaryFrom_pick (es : List GatewayEndpoint) : ∀ i a r : Nat, a + WeightedTurns.total share es < 2 ^ 31 →
    r < WeightedTurns.total share es →
    ∃ j, primaryFrom (a + r : Nat) es i a = i + j ∧ es[j]? = WeightedTurns.pick share es r := by
  induction es with
  | nil =>
    intro i a r small inside
    exact absurd inside (Nat.not_lt_zero r)
  | cons e es ih =>
    intro i a r small inside
    rw [WeightedTurns.total_cons] at small inside
    rw [primaryFrom, WeightedTurns.pick, weightOf_share, ← Nat.cast_add, int32_natCast (by omega)]
    by_cases here : r < share e
    · rw [if_pos (by omega), if_pos here]
      exact ⟨0, rfl, rfl⟩
    · rw [if_neg (by omega), if_neg here]
      obtain ⟨j, place, found⟩ := ih (i + 1) (a + share e) (r - share e) (by omega) (by omega)
      rw [show a + share e + (r - share e) = a + r by omega] at place
      exact ⟨j + 1, by omega, found⟩

theorem appendTier_head {tier_eps : List GatewayEndpoint} (several : 2 ≤ tier_eps.length)
    (small : WeightedTurns.total share tier_eps < 2 ^ 31) (seq : UInt32) :
    (appendTier seq tier_eps).head? =
      WeightedTurns.pick share tier_eps (seq.toNat % WeightedTurns.total share tier_eps) := by
  have positive : 0 < WeightedTurns.total share tier_eps := by
    cases tier_eps with
    | nil => simp at several
    | cons e rest =>
      have := share_pos e
      rw [WeightedTurns.total_cons]
      omega
  have total : totalWeight tier_eps = WeightedTurns.total share tier_eps := by
    have := totalWeight_from tier_eps 0 (by omega)
    rw [Nat.zero_add] at this
    exact this
  have rest := Nat.mod_lt seq.toNat positive
  obtain ⟨j, place, found⟩ := primaryFrom_pick tier_eps 0 0 _ (by omega) rest
  have inside := primaryFrom_lt (seq.toNat % WeightedTurns.total share tier_eps : Nat) tier_eps 0 0
    (fun none_ => by simp [none_] at several)
  have value : int32 ((seq.toNat : Int) % ((WeightedTurns.total share tier_eps : Int) % 2 ^ 32)) =
      (seq.toNat % WeightedTurns.total share tier_eps : Nat) := by
    rw [show (WeightedTurns.total share tier_eps : Int) % 2 ^ 32 = WeightedTurns.total share tier_eps by omega,
      ← Int.natCast_mod]
    exact int32_natCast (by omega)
  unfold appendTier
  rw [if_neg (by omega)]
  simp only
  rw [total, if_pos (by omega), value]
  simp only [Nat.zero_add, Nat.cast_zero] at place inside
  rw [rotation inside, place, ← found]
  rw [place] at inside
  rw [List.head?_eq_getElem?, List.getElem?_rotate (by omega), Nat.zero_add, Nat.mod_eq_of_lt inside]

/- The whole order. -/

section Order
variable (seq : UInt32) {tiers : List (Int × List GatewayEndpoint)}

theorem tiers_perm (tiers : List (Int × List GatewayEndpoint)) :
    (tiers.flatMap fun kv => appendTier seq kv.2).Perm (flat tiers) := by
  induction tiers with
  | nil => exact .refl _
  | cons kv tiers ih => exact (appendTier_perm seq kv.2).append ih

theorem keyed_order (good : Tiers tiers) : ∀ kv ∈ tiers, ∀ e ∈ appendTier seq kv.2, e.tier = kv.1 :=
  fun kv inside e member => good.keyed kv inside e ((appendTier_perm seq kv.2).mem_iff.mp member)

theorem tiers_ascend (good : Tiers tiers) :
    (tiers.flatMap fun kv => appendTier seq kv.2).Pairwise fun a b => a.tier ≤ b.tier := by
  have keyed := keyed_order seq good
  rw [List.pairwise_flatMap]
  constructor
  · intro kv inside
    refine List.pairwise_of_forall_mem_list fun a memberA b memberB => ?_
    rw [keyed kv inside a memberA, keyed kv inside b memberB]
  · refine good.ordered.imp_of_mem fun {kv kv'} inside inside' less a memberA b memberB => ?_
    rw [keyed kv inside a memberA, keyed kv' inside' b memberB]
    omega

theorem tiers_segment (good : Tiers tiers) (t : Int) :
    (tiers.flatMap fun kv => appendTier seq kv.2).filter (fun e => e.tier == t) =
      appendTier seq ((OrderedMap.find t tiers).getD []) := by
  induction tiers with
  | nil => rfl
  | cons kv tiers ih =>
    obtain ⟨j, w⟩ := kv
    obtain ⟨later, ordered⟩ := List.pairwise_cons.mp good.ordered
    have rest := ih ⟨ordered, fun kv inside => good.keyed kv (List.mem_cons_of_mem _ inside)⟩
    have keyed := keyed_order seq good (j, w) List.mem_cons_self
    rw [List.flatMap_cons, List.filter_append, rest, OrderedMap.find]
    by_cases same : t = j
    · have none_ : OrderedMap.find t tiers = none := find_behind fun kv inside => by
        rw [same]
        exact later kv inside
      rw [if_pos same, none_, List.filter_eq_self.mpr fun e member => by simp [keyed e member, same]]
      exact List.append_nil _
    · rw [if_neg same, List.filter_eq_nil_iff.mpr fun e member => by simp [keyed e member, Ne.symm same]]
      rfl

end Order

/-- The members that are up in a tier stand together; this is that part of the order. -/
def segment (t : Int) (order : List GatewayEndpoint) : List GatewayEndpoint := order.filter fun e => e.up && e.tier == t

structure Ranked (members order : List GatewayEndpoint) : Prop where
  perm : order.Perm members
  parts : ∃ ups downs, order = ups ++ downs ∧ (∀ e ∈ ups, e.up = true) ∧ (∀ e ∈ downs, e.up = false) ∧
    (ups.Pairwise fun a b => a.tier ≤ b.tier) ∧ downs.Pairwise fun a b => a.tier ≤ b.tier

def orderOf (es : List GatewayEndpoint) (seq : UInt32) : List GatewayEndpoint :=
  let tiers := es.foldl addMember ([], [])
  tiers.1.flatMap (fun kv => appendTier seq kv.2) ++ tiers.2.flatMap (fun kv => appendTier seq kv.2)

theorem up_parts (es : List GatewayEndpoint) (seq : UInt32) :
    (∀ e ∈ (es.foldl addMember ([], [])).1.flatMap fun kv => appendTier seq kv.2, e.up = true) ∧
    ∀ e ∈ (es.foldl addMember ([], [])).2.flatMap fun kv => appendTier seq kv.2, e.up = false := by
  have made := built es
  constructor
  · intro e member
    have inside := ((tiers_perm seq _).trans made.ups).mem_iff.mp member
    exact (List.mem_filter.mp inside).2
  · intro e member
    have inside := ((tiers_perm seq _).trans made.downs).mem_iff.mp member
    simpa using (List.mem_filter.mp inside).2

theorem order_ranked (es : List GatewayEndpoint) (seq : UInt32) : Ranked es (orderOf es seq) := by
  have made := built es
  have ups := (tiers_perm seq _).trans made.ups
  have downs := (tiers_perm seq _).trans made.downs
  refine ⟨(ups.append downs).trans (List.filter_append_perm _ es), _, _, rfl, (up_parts es seq).1, (up_parts es seq).2, ?_, ?_⟩
  · exact tiers_ascend seq made.up
  · exact tiers_ascend seq made.down

theorem order_segment (es : List GatewayEndpoint) (seq : UInt32) (t : Int) :
    segment t (orderOf es seq) = appendTier seq (es.filter fun e => e.up && e.tier == t) := by
  have made := built es
  obtain ⟨ups, downs⟩ := up_parts es seq
  have down : ((es.foldl addMember ([], [])).2.flatMap fun kv => appendTier seq kv.2).filter
      (fun e => e.up && e.tier == t) = [] :=
    List.filter_eq_nil_iff.mpr fun e member => by simp [downs e member]
  have up : ((es.foldl addMember ([], [])).1.flatMap fun kv => appendTier seq kv.2).filter (fun e => e.up && e.tier == t) =
      ((es.foldl addMember ([], [])).1.flatMap fun kv => appendTier seq kv.2).filter (fun e => e.tier == t) :=
    List.filter_congr fun e member => by simp [ups e member]
  rw [segment, orderOf, List.filter_append, down, List.append_nil, up, tiers_segment seq made.up, made.segment]

theorem segments_shared (es : List GatewayEndpoint) (t : Int) (start : Nat)
    (several : 2 ≤ (es.filter fun e => e.up && e.tier == t).length)
    (small : WeightedTurns.total share es < 2 ^ 31)
    (noWrap : start + WeightedTurns.total share (es.filter fun e => e.up && e.tier == t) ≤ 2 ^ 32) :
    ((List.range (WeightedTurns.total share (es.filter fun e => e.up && e.tier == t))).filterMap fun k =>
      (segment t (orderOf es (UInt32.ofNat (start + k)))).head?).Perm
        (WeightedTurns.shares share (es.filter fun e => e.up && e.tier == t)) := by
  have less := WeightedTurns.total_filter_le share (fun e => e.up && e.tier == t) es
  refine (List.Perm.of_eq ?_).trans (WeightedTurns.turns_shared share _ start)
  refine List.filterMap_congr fun k inside => ?_
  have below := List.mem_range.mp inside
  have counter : (UInt32.ofNat (start + k)).toNat = start + k := by
    rw [UInt32.toNat_ofNat']
    omega
  rw [order_segment, appendTier_head several (by omega), counter]

section Endpoints
variable (lookup_interface_ipv4 : Str → Str) (g : Gateways)

theorem withAddress_weight (ep : GatewayEndpoint) : (withAddress lookup_interface_ipv4 ep).weight = ep.weight := by
  unfold withAddress
  split <;> rfl

theorem member_weight (ep : GatewayEndpoint) : (member lookup_interface_ipv4 g ep).weight = ep.weight := by
  rw [member, withAddress_weight]
  split <;> rfl

structure IsGroup (gw_name : Str) (members : List GatewayEndpoint) : Prop where
  named : gw_name ≠ [] ∧ gw_name ≠ str "default" ∧ gw_name ≠ str "DEFAULT"
  free : OrderedMap.find gw_name g.gateways_map = none
  group : OrderedMap.find gw_name g.gateway_groups_map = some members

theorem endpoints_group {gw_name : Str} {members : List GatewayEndpoint} (is : IsGroup g gw_name members) (seq : UInt32) :
    getGatewayEndpoints lookup_interface_ipv4 g gw_name seq =
      (orderOf (members.map (member lookup_interface_ipv4 g)) seq, seq + 1) := by
  obtain ⟨some_, default_, capitals⟩ := is.named
  rw [getGatewayEndpoints, if_neg (by simp [some_, default_, capitals]), is.free, is.group]
  rfl

/-- Members that are up first, each part by tiers, and the first places of a tier shared by weight. -/
theorem endpoints_fair (gw_name : Str) (members : List GatewayEndpoint) (is : IsGroup g gw_name members)
    (positive : ∀ e ∈ members, 0 < e.weight) (small : (members.map fun e => e.weight.toNat).sum < 2 ^ 31) :
    (∀ seq, Ranked (members.map (member lookup_interface_ipv4 g))
      (getGatewayEndpoints lookup_interface_ipv4 g gw_name seq).1) ∧
    ∀ (t : Int) (start : Nat),
      let ups := (members.map (member lookup_interface_ipv4 g)).filter fun e => e.up && e.tier == t
      let count := (ups.map fun e => e.weight.toNat).sum
      2 ≤ ups.length → start + count ≤ 2 ^ 32 →
        ((List.range count).filterMap fun k =>
          (segment t (getGatewayEndpoints lookup_interface_ipv4 g gw_name (UInt32.ofNat (start + k))).1).head?).Perm
            (ups.flatMap fun e => List.replicate e.weight.toNat e) := by
  simp only [endpoints_group lookup_interface_ipv4 g is]
  let es := members.map (member lookup_interface_ipv4 g)
  have weights : ∀ e ∈ es, share e = e.weight.toNat := by
    intro e inside
    obtain ⟨raw, member_, made⟩ := List.mem_map.mp inside
    have weight := positive raw member_
    rw [← member_weight lookup_interface_ipv4 g raw, made] at weight
    rw [share, weightOf, if_pos weight]
  have whole : WeightedTurns.total share es = (members.map fun e => e.weight.toNat).sum := by
    rw [WeightedTurns.total, List.map_congr_left weights, List.map_map]
    exact congrArg List.sum (List.map_congr_left fun e _ => congrArg Int.toNat (member_weight lookup_interface_ipv4 g e))
  refine ⟨fun seq => order_ranked es seq, ?_⟩
  intro t start several noWrap
  have ups : ∀ e ∈ es.filter fun e => e.up && e.tier == t, share e = e.weight.toNat :=
    fun e inside => weights e (List.mem_of_mem_filter inside)
  have count : WeightedTurns.total share (es.filter fun e => e.up && e.tier == t) =
      ((es.filter fun e => e.up && e.tier == t).map fun e => e.weight.toNat).sum :=
    congrArg List.sum (List.map_congr_left ups)
  have shared := segments_shared es t start several (by omega) (by rw [count]; exact noWrap)
  rw [count] at shared
  refine shared.trans (List.Perm.of_eq ?_)
  exact List.flatMap_congr fun e inside => by rw [ups e inside]

end Endpoints

def upEndpoint (name : Str) (weight : Int) : GatewayEndpoint := ⟨name, [], [], [], -1, 1, weight, true⟩

def twoGateways (gw_name : Str) : Gateways :=
  ⟨[], [(gw_name, [upEndpoint (str "a") 2, upEndpoint (str "b") 1])]⟩

theorem two_gateways_fair :
    ((List.range 3).filterMap fun k =>
      (segment 1 (getGatewayEndpoints id (twoGateways (str "wan")) (str "wan") (UInt32.ofNat (5 + k))).1).head?).Perm
        [upEndpoint (str "a") 2, upEndpoint (str "a") 2, upEndpoint (str "b") 1] :=
  (endpoints_fair id (twoGateways (str "wan")) (str "wan") _ ⟨by decide, rfl, rfl⟩ (by decide) (by decide)).2 1 5
    (by decide) (by decide)

/-- A group with the name `default` is not looked up. -/
theorem default_group_empty :
    ¬ Ranked ([upEndpoint (str "a") 2, upEndpoint (str "b") 1].map (member id (twoGateways (str "default"))))
      (getGatewayEndpoints id (twoGateways (str "default")) (str "default") 0).1 := by
  intro ranked
  exact absurd ranked.perm.length_eq (by decide)

end GuardianGateways
