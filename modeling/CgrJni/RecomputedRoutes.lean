import CgrJni.PreferredRoutes
import CgrJni.WalkEnds
import CgrJni.Process

/-!
The route that takes the place of an expired one: the lead contacts of the routes that are left in
the list are out of the search, and nothing else is.
-/

namespace RecomputedRoutes

open IonDb Libcgr Dijkstra DijkstraCorrect EarliestArrival RouteLists RouteSeries PreferredRoutes WalkEnds

/-- A contact that another route left in the list begins with. -/
def LeadsOther (s : IonState) (routes : List CgrRoute) (toNodeNbr : Nat) (fromTime : Int) (c : IonCXref) : Prop :=
  ∃ route ∈ routes, ¬ (route.toNodeNbr = toNodeNbr ∧ route.fromTime = fromTime) ∧
    leadContact s route.toNodeNbr route.fromTime = some c

instance (s : IonState) (routes : List CgrRoute) (toNodeNbr : Nat) (fromTime : Int) (c : IonCXref) :
    Decidable (LeadsOther s routes toNodeNbr fromTime c) := inferInstanceAs (Decidable (∃ route ∈ routes, _))

def leadsOther (s : IonState) (routes : List CgrRoute) (toNodeNbr : Nat) (fromTime : Int) (c : IonCXref) : Bool :=
  decide (LeadsOther s routes toNodeNbr fromTime c)

/-- The contact is on record and has not ended. -/
def Recomputable (s : IonState) (toNodeNbr : Nat) (fromTime : Int) (q : Query) : Prop :=
  ∃ c, leadContact s toNodeNbr fromTime = some c ∧ q.currentTime < c.toTime

/-- The hops begin with the contact, and no route of the class in the list has the same ones. -/
structure Replacement (s : IonState) (routes : List CgrRoute) (toNodeNbr : Nat) (fromTime : Int) (q : Query)
    (hops : List IonCXref) : Prop where
  first_hop : ∃ c, hops.head? = some c ∧ c.fromNode = s.ownNodeNbr ∧ c.toNode = toNodeNbr ∧ c.fromTime = fromTime
  distinct : ∀ route ∈ routes, route.payloadClass = q.payloadClass → route.hops ≠ hops

/-- A recomputation that succeeds adds one route to the list, which is a replacement. -/
def Replaces (s : IonState) (routes : List CgrRoute) (toNodeNbr : Nat) (fromTime : Int) (q : Query) : Prop :=
  ∀ routes', recomputeRouteForContact s routes toNodeNbr fromTime q = some (some routes') →
    ∃ before newRoute after, routes = before ++ after ∧ routes' = before ++ newRoute :: after ∧
      newRoute.payloadClass = q.payloadClass ∧ Replacement s routes toNodeNbr fromTime q newRoute.hops

/-- The path, over usable contacts that lead no other route in the list, that the search prefers. -/
def PreferredHops (s : IonState) (routes : List CgrRoute) (toNodeNbr : Nat) (fromTime : Int) (q : Query)
    (hops : List IonCXref) : Prop :=
  ∃ a < maxTime, PreferredPath s q (leadsOther s routes toNodeNbr fromTime) hops a

variable {s : IonState} {q : Query} {routes : List CgrRoute} {toNodeNbr : Nat} {fromTime : Int}

theorem excluded_suppressLead (routes : List CgrRoute) (notes : Notes) (c : IonCXref) :
    excluded (routes.foldl (suppressLead s toNodeNbr fromTime) notes) c = true ↔
      LeadsOther s routes toNodeNbr fromTime c ∨ excluded notes c = true := by
  induction routes generalizing notes with
  | nil => simp [LeadsOther]
  | cons route rest ih =>
    rw [List.foldl_cons, ih]
    have hcons : LeadsOther s (route :: rest) toNodeNbr fromTime c ↔
        (¬ (route.toNodeNbr = toNodeNbr ∧ route.fromTime = fromTime) ∧
          leadContact s route.toNodeNbr route.fromTime = some c) ∨ LeadsOther s rest toNodeNbr fromTime c := by
      simp only [LeadsOther, List.exists_mem_cons_iff]
    rw [hcons, or_comm (a := ¬ _ ∧ _), or_assoc]
    refine or_congr_right ?_
    unfold suppressLead
    by_cases hsubject : route.toNodeNbr = toNodeNbr ∧ route.fromTime = fromTime
    · rw [if_pos hsubject]
      simp [hsubject]
    · rw [if_neg hsubject]
      cases hlead : leadContact s route.toNodeNbr route.fromTime with
      | none => simp
      | some d => simp [excluded_suppress, hsubject, eq_comm (a := c)]

theorem suppressed_leadsOther (routes : List CgrRoute) :
    (fun c => (routes.foldl (suppressLead s toNodeNbr fromTime) (fun _ => .cleared) c).suppressed) =
      leadsOther s routes toNodeNbr fromTime := by
  funext c
  rw [Bool.eq_iff_iff, leadsOther, decide_eq_true_eq]
  exact (excluded_suppressLead routes _ c).trans (by simp [excluded, CgrContactNote.cleared])

/-- A recomputation fails, or inserts a route over the preferred path. -/
theorem recomputeRouteForContact_prefers (s : IonState) (routes : List CgrRoute) (toNodeNbr : Nat) (fromTime : Int)
    (q : Query) :
    (recomputeRouteForContact s routes toNodeNbr fromTime q = some none ∧ (Recomputable s toNodeNbr fromTime q →
        ∀ cs a, ¬ Feasible s q (leadsOther s routes toNodeNbr fromTime) cs a)) ∨
    ∃ newRoute, Recomputable s toNodeNbr fromTime q ∧ newRoute.payloadClass = q.payloadClass ∧
      PreferredHops s routes toNodeNbr fromTime q newRoute.hops ∧
      recomputeRouteForContact s routes toNodeNbr fromTime q = some (some (insertRoute newRoute routes)) := by
  obtain ⟨hnone, hended⟩ | ⟨hdue, hreset, hsearch⟩ := recomputeRouteForContact_search s routes toNodeNbr fromTime q
  · refine Or.inl ⟨hnone, ?_⟩
    rintro ⟨c, hc, hopen⟩
    exact absurd hopen (not_lt.mpr (hended c hc))
  · obtain ⟨route, notes, hrun, -, hroute⟩ := computeDistanceToTerminus_cases (q := q) hreset
    rw [suppressed_leadsOther] at hroute
    rw [hsearch, findNextBestRoute, hrun]
    obtain hfill | ⟨hzero, hno⟩ := hroute
    · have hprefers := computeDistanceToTerminus_prefers hreset hrun hfill.toNodeNbr_ne
      rw [suppressed_leadsOther] at hprefers
      refine Or.inr ⟨route, hdue, hfill.payloadClass, ⟨route.arrivalTime, hfill.feasible.in_time, hprefers⟩, ?_⟩
      simp only [Option.map_some, if_neg hfill.toNodeNbr_ne]
    · refine Or.inl ⟨?_, fun _ => hno⟩
      rw [hzero]
      rfl

/-- Only one route can have been added. -/
theorem added_route_eq {newRoute other : CgrRoute} {before after : List CgrRoute} (hroutes : routes = before ++ after)
    (h : insertRoute newRoute routes = before ++ other :: after) : newRoute = other := by
  have hperm : (newRoute :: routes).Perm (other :: routes) := by
    refine (insertRoute_perm newRoute routes).symm.trans ?_
    rw [h, hroutes]
    exact List.perm_middle
  have hcons : Multiset.cons newRoute (routes : Multiset CgrRoute) = Multiset.cons other routes :=
    Multiset.coe_eq_coe.mpr hperm
  exact (Multiset.cons_inj_left _).mp hcons

theorem replaces_iff_of_inserted {newRoute : CgrRoute} (hclass : newRoute.payloadClass = q.payloadClass)
    (h : recomputeRouteForContact s routes toNodeNbr fromTime q = some (some (insertRoute newRoute routes))) :
    Replaces s routes toNodeNbr fromTime q ↔ Replacement s routes toNodeNbr fromTime q newRoute.hops := by
  constructor
  · intro hall
    obtain ⟨before, other, after, hroutes, hinsert, -, hnew⟩ := hall _ h
    rw [added_route_eq hroutes hinsert]
    exact hnew
  · intro hnew routes' hrec
    rw [h, Option.some.injEq, Option.some.injEq] at hrec
    obtain ⟨before, after, hroutes, hinsert⟩ := insertRoute_split newRoute routes
    exact ⟨before, newRoute, after, hroutes, hrec ▸ hinsert, hclass, hnew⟩

/-- A preferred path is a feasible one. -/
theorem PreferredHops.feasible {hops : List IonCXref} (h : PreferredHops s routes toNodeNbr fromTime q hops) :
    ∃ a, Feasible s q (leadsOther s routes toNodeNbr fromTime) hops a := by
  obtain ⟨a, ha, hpath⟩ := h
  obtain ⟨p, u, t, c, rfl, -, hlast⟩ := hpath.chosen
  exact ⟨a, (feasibleFrom_iff (u := none)).mpr hpath.arrive.1, ⟨c, by simp, hlast.member⟩, ha⟩

/-- With no range that takes no time there is one preferred path at most. -/
theorem PreferredHops.unique {hops hops' : List IonCXref}
    (hpos : ∀ c ∈ s.contactIndex, ∀ owlt, getApplicableRange s c = some owlt → 0 < owltWithMargin owlt)
    (h : PreferredHops s routes toNodeNbr fromTime q hops) (h' : PreferredHops s routes toNodeNbr fromTime q hops') :
    hops = hops' := by
  obtain ⟨a, -, hpath⟩ := h
  obtain ⟨a', -, hpath'⟩ := h'
  refine hpath.unique (fun w t hw => hw.not_atOnce ?_) ?_ hpath'
  · intro u c t a hstep
    obtain ⟨hu, -, -, owlt, hrange, rfl⟩ := step_eq_some.mp hstep
    have hlt := hpos c hu.1 owlt hrange
    rw [transmitTime_eq]
    omega
  · intro u c t a u' c' t' a' hstep hstep' hrank
    exact SortedIndex.key_inj (step_leaves hstep).1 (step_leaves hstep').1 hrank

/-- Recomputation replaces the route if the path that the search prefers is a replacement, and not
if it is none. Where several may be preferred, as ranges take no time, one of them is taken. -/
theorem recomputed_route_replaces_iff (s : IonState) (routes : List CgrRoute) (toNodeNbr : Nat) (fromTime : Int)
    (q : Query) :
    ((Recomputable s toNodeNbr fromTime q → ∀ hops, PreferredHops s routes toNodeNbr fromTime q hops →
        Replacement s routes toNodeNbr fromTime q hops) → Replaces s routes toNodeNbr fromTime q) ∧
    (Replaces s routes toNodeNbr fromTime q → Recomputable s toNodeNbr fromTime q →
      ∀ hops, PreferredHops s routes toNodeNbr fromTime q hops →
        ∃ hops', PreferredHops s routes toNodeNbr fromTime q hops' ∧
          Replacement s routes toNodeNbr fromTime q hops') ∧
    ((∀ c ∈ s.contactIndex, ∀ owlt, getApplicableRange s c = some owlt → 0 < owltWithMargin owlt) →
      (Replaces s routes toNodeNbr fromTime q ↔ (Recomputable s toNodeNbr fromTime q →
        ∀ hops, PreferredHops s routes toNodeNbr fromTime q hops →
          Replacement s routes toNodeNbr fromTime q hops))) := by
  have henough : (Recomputable s toNodeNbr fromTime q → ∀ hops, PreferredHops s routes toNodeNbr fromTime q hops →
      Replacement s routes toNodeNbr fromTime q hops) → Replaces s routes toNodeNbr fromTime q := by
    intro hgood
    obtain ⟨hnone, -⟩ | ⟨newRoute, hdue, hclass, hprefers, hrec⟩ :=
      recomputeRouteForContact_prefers s routes toNodeNbr fromTime q
    · intro routes' hrec
      rw [hnone] at hrec
      cases hrec
    · exact (replaces_iff_of_inserted hclass hrec).mpr (hgood hdue newRoute.hops hprefers)
  have hneeded : Replaces s routes toNodeNbr fromTime q → Recomputable s toNodeNbr fromTime q →
      ∀ hops, PreferredHops s routes toNodeNbr fromTime q hops →
        ∃ hops', PreferredHops s routes toNodeNbr fromTime q hops' ∧
          Replacement s routes toNodeNbr fromTime q hops' := by
    intro hreplaces hdue hops hpreferred
    obtain ⟨-, hno⟩ | ⟨newRoute, -, hclass, hprefers, hrec⟩ :=
      recomputeRouteForContact_prefers s routes toNodeNbr fromTime q
    · obtain ⟨a, hfeasible⟩ := hpreferred.feasible
      exact absurd hfeasible (hno hdue hops a)
    · exact ⟨newRoute.hops, hprefers, (replaces_iff_of_inserted hclass hrec).mp hreplaces⟩
  refine ⟨henough, hneeded, fun hpos => ⟨?_, henough⟩⟩
  intro hreplaces hdue hops hpreferred
  obtain ⟨hops', hpreferred', hgood⟩ := hneeded hreplaces hdue hops hpreferred
  rw [hpreferred.unique hpos hpreferred']
  exact hgood

open Rfx Forward Process in
/-- An expired route that a routing call takes out of a list, after some calls from the start; `routes`
is what is left of the list at that moment, and `s` the database of the node. -/
def Removes {δ σ : Type} (lookup : CgrLookup δ σ) (calls : List (Addressed σ)) (s : IonState)
    (terminusNodeNbr : Nat) (now : Int) (routes : List CgrRoute) (route : CgrRoute) : Prop :=
  ∃ p nodeNbr old vdb part terminusNode, Runs.run (Process.step lookup) IonProcess.start calls = some p ∧
    p.partitions nodeNbr = some old ∧ p.cgrvdb = some vdb ∧
    (refresh p vdb old.ion.lastEditTime now).partitions nodeNbr = some part ∧ part.ion = s ∧
    terminusNodeNbr ≠ 0 ∧ findNode s.nodes terminusNodeNbr = some terminusNode ∧
    ∃ bundle env list walk rest,
      (part.routingObject terminusNodeNbr = some list ∨ part.routingObject terminusNodeNbr = none ∧
        ∃ loaded, loadRouteList s now terminusNodeNbr = some loaded ∧ loaded.complete = true ∧
          loaded.routes = list) ∧
      Relation.ReflTransGen (fun walk walk' => walkRound s lookup bundle (excludedNodes bundle terminusNode)
        terminusNodeNbr now walk = .inl walk') (⟨[], list, [], [], env⟩ : Walk δ σ) walk ∧
      walk.rest = route :: rest ∧ route.toTime < now ∧ walk.passed ++ rest = routes

/-- Each path stands in the list at most once for a payload class. -/
def PathsDistinct (routes : List CgrRoute) : Prop := (routes.map (fun r => (r.payloadClass, r.hops))).Nodup

instance (routes : List CgrRoute) : Decidable (PathsDistinct routes) := inferInstanceAs (Decidable (List.Nodup _))

/-- A replacement keeps the paths distinct. -/
theorem Replaces.pathsDistinct (h : Replaces s routes toNodeNbr fromTime q) {routes' : List CgrRoute}
    (hrec : recomputeRouteForContact s routes toNodeNbr fromTime q = some (some routes'))
    (hdistinct : PathsDistinct routes) : PathsDistinct routes' := by
  obtain ⟨before, newRoute, after, hroutes, rfl, hclass, hnew⟩ := h routes' hrec
  have hperm : (before ++ newRoute :: after).Perm (newRoute :: routes) := hroutes ▸ List.perm_middle
  refine (hperm.map _).nodup_iff.mpr ?_
  rw [List.map_cons, List.nodup_cons]
  refine ⟨fun hmem => ?_, hdistinct⟩
  obtain ⟨route, hroute, he⟩ := List.mem_map.mp hmem
  obtain ⟨hsame, hhops⟩ := Prod.mk.inj he
  exact hnew.distinct route hroute (hsame.trans hclass) hhops

open Forward Process in
/-- Node 1 reaches node 3 until 100, and node 3 reaches node 4 until 50 and again from 60 on; a
bundle is routed at 20. -/
def reopenedLater : List (Addressed Unit) :=
  let edits : Int → Int → Nat → Nat → List (Addressed Unit) := fun fromTime toTime fromNode toNode =>
    [⟨1, 1, .edit (.insertContact fromTime toTime fromNode toNode 1000 1)⟩,
      ⟨1, 1, .edit (.insertRange fromTime toTime fromNode toNode 1)⟩]
  [⟨1, 1, .initializeNode⟩] ++ edits 10 100 1 3 ++ edits 10 50 3 4 ++ edits 60 90 3 4 ++
    [⟨1, 20, .cgrForward (bundleTo 4) 4 ()⟩]

open Rfx Forward Process in
/-- When the route that ends first is taken out, the other one through the same contact is found
again: nothing but its lead contact could have kept the search from it. -/
theorem recomputed_route_duplicates :
    ¬ ∀ (calls : List (Addressed Unit)) (s : IonState) (terminusNodeNbr : Nat) (now : Int) (routes : List CgrRoute)
      (route : CgrRoute), Removes openDucts calls s terminusNodeNbr now routes route →
        Replaces s routes route.toNodeNbr route.fromTime ⟨now, terminusNodeNbr, route.payloadClass⟩ := by
  intro hall
  have hrun : ((Runs.run (Process.step openDucts) IonProcess.start reopenedLater).bind (fun p =>
      (p.partitions 1).bind (fun old => p.cgrvdb.bind (fun vdb =>
        ((refresh p vdb old.ion.lastEditTime 51).partitions 1).bind (fun part =>
          (findNode part.ion.nodes 4).bind (fun _ => (part.routingObject 4).bind (fun list =>
            list.head?.map (fun route => (part.ion, list.tail, route))))))))).any (fun r =>
      decide (r.2.2.toTime < 51 ∧ PathsDistinct r.2.1) &&
        (recomputeRouteForContact r.1 r.2.1 r.2.2.toNodeNbr r.2.2.fromTime ⟨51, 4, r.2.2.payloadClass⟩).join.any
          (fun routes' => !decide (PathsDistinct routes'))) = true := by
    decide +kernel
  obtain ⟨⟨s, rest, route⟩, hr, hcheck⟩ := (Option.any_eq_true _ _).mp hrun
  obtain ⟨p, hp, hr⟩ := Option.bind_eq_some_iff.mp hr
  obtain ⟨old, hold, hr⟩ := Option.bind_eq_some_iff.mp hr
  obtain ⟨vdb, hvdb, hr⟩ := Option.bind_eq_some_iff.mp hr
  obtain ⟨part, hpart, hr⟩ := Option.bind_eq_some_iff.mp hr
  obtain ⟨node, hnode, hr⟩ := Option.bind_eq_some_iff.mp hr
  obtain ⟨list, hlist, hr⟩ := Option.bind_eq_some_iff.mp hr
  obtain ⟨route', hhead, he⟩ := Option.map_eq_some_iff.mp hr
  simp only [Prod.mk.injEq] at he
  obtain ⟨rfl, rfl, rfl⟩ := he
  obtain ⟨rest, rfl⟩ := List.head?_eq_some_iff.mp hhead
  simp only [List.tail_cons, Bool.and_eq_true, Option.any_eq_true] at hcheck
  obtain ⟨hstart, routes', hrec, hdouble⟩ := hcheck
  obtain ⟨hexpired, hdistinct⟩ := of_decide_eq_true hstart
  have hremoved : Removes openDucts reopenedLater part.ion 4 51 rest route' :=
    ⟨p, 1, old, vdb, part, node, hp, hold, hvdb, hpart, rfl, by decide, hnode, bundleTo 4, (), route' :: rest, _,
      rest, Or.inl hlist, Relation.ReflTransGen.refl, rfl, hexpired, rfl⟩
  have hstill := (hall _ _ 4 51 rest route' hremoved).pathsDistinct (Option.join_eq_some_iff.mp hrec) hdistinct
  simp [hstill] at hdouble

/-- From 55 on node 1 also reaches node 3 quickly by way of node 2, but the loading of the list ends
before it comes to that contact. -/
def unlistedContact : IonState :=
  let contact := fun s fromTime toTime fromNode toNode owlt =>
    (Rfx.rfxInsertRange (Rfx.rfxInsertContact s 0 fromTime toTime fromNode toNode 1000 1).1
      0 fromTime toTime fromNode toNode owlt).1
  contact (contact (contact (contact (contact (ionInitialize 1) 10 100 1 3 30) 55 100 1 2 1) 10 100 2 3 1)
    10 57 3 4 1) 65 90 3 4 1

/-- The contact that leads no route is found in place of the one asked for. -/
example : ((loadRouteList unlistedContact 20 4).bind (fun list =>
    recomputeRouteForContact unlistedContact list.routes.tail 3 10 ⟨58, 4, 0⟩)).join.map
      (fun routes => routes.map (fun r => r.hops.head?.map (fun c => c.toNode))) = some [some 3, some 2] := by
  decide +kernel

end RecomputedRoutes
