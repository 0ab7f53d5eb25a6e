import CgrJni.SimpleTrails
import CgrJni.PreferredRoutes
import CgrJni.RouteLoading
import CgrJni.Process
import CgrJni.RfxRanges

/-!
Routes as paths through the nodes: a route on record goes from the local node to the
terminus, and passes no node twice, in every state that the process can come to.
-/

namespace SimpleRoutes

open IonDb Libcgr Dijkstra DijkstraCorrect EarliestArrival RouteLists PreferredRoutes

/-- Contacts from one node to another, each leaving the node where the one before arrives;
no node is left twice, and none is arrived at twice. -/
structure SimplePath (start finish : Nat) (hops : List IonCXref) : Prop where
  connected : hops.map (fun c => c.fromNode) = (start :: hops.map (fun c => c.toNode)).dropLast
  finish : (hops.map (fun c => c.toNode)).getLast? = some finish
  left_once : (hops.map (fun c => c.fromNode)).Nodup
  reached_once : (hops.map (fun c => c.toNode)).Nodup

variable {s : IonState} {q : Query} {suppressed : IonCXref → Bool} {st : Search} {cur : Option IonCXref}
  {seen : IonCXref → Prop}

/-- What a contact leads to depends on the node where it arrives only. -/
theorem network_placed : Placed (network s q suppressed) (toNodeOf s) := by
  intro u w v t h
  simp only [network, h]

/-- The trails that the work areas record are straight. -/
abbrev SimpleSearch (s : IonState) (q : Query) (suppressed : IonCXref → Bool) (st : Search)
    (cur : Option IonCXref) (notes : Notes) : Prop :=
  Simple (network s q suppressed) (toNodeOf s) (fun c => c.toNode = q.terminusNodeNbr) maxTime (labels s notes) cur
    st.finalContact

theorem foldl_simple (h : Searching s q suppressed st cur seen) (hS : SimpleSearch s q suppressed st cur st.notes)
    (l : List IonCXref) (hl : ∀ c ∈ l, c ∈ s.contactIndex ∧ c.fromNode = toNodeOf s cur) :
    SimpleSearch s q suppressed (l.foldl (considerContact s q cur) st) cur
      (l.foldl (considerContact s q cur) st).notes := by
  induction l generalizing st seen with
  | nil => exact hS
  | cons c rest ih =>
    obtain ⟨hc, hfrom⟩ := hl c List.mem_cons_self
    have hnext := hS.attempt h.inv network_fifo network_placed h.best (h.tries hc hfrom).1
    exact ih (h.considerContact hc hfrom) hnext (fun d hd => hl d (List.mem_cons_of_mem _ hd))

theorem visit_simple (h : Searching s q suppressed st cur (fun _ => False))
    (hS : SimpleSearch s q suppressed st cur st.notes) (next : Option IonCXref) :
    SimpleSearch s q suppressed (visit s q cur st) next (visit s q cur st).notes := by
  have hf := foldl_simple h hS (nextContacts s (toNodeOf s cur)) (fun c hc => mem_nextContacts.mp hc)
  have hnext := hf.settle next
  rw [← h.visited.labels_eq] at hnext
  exact hnext

theorem search_simple (h : Searching s q suppressed st none (fun _ => False))
    (hS : SimpleSearch s q suppressed st none st.notes) {fuel : Nat} {st' : Search}
    (hloop : Runs.loop (searchRound s q) fuel (none, st) = some st') :
    SimpleSearch s q suppressed st' none st'.notes := by
  refine Runs.loop_partial (fun state => Searching s q suppressed state.2 state.1 (fun _ => False) ∧
      SimpleSearch s q suppressed state.2 state.1 state.2.notes)
    (fun st' => SimpleSearch s q suppressed st' none st'.notes) ?_ ?_ fuel (none, st) ⟨h, hS⟩ st' hloop
  · rintro ⟨cur, st⟩ ⟨next, st'⟩ ⟨hs, hsimple⟩ hb
    obtain ⟨w, hsel, rfl, rfl⟩ := searchRound_inl hb
    exact ⟨hs.next hsel, visit_simple hs hsimple (some w)⟩
  · rintro ⟨cur, st⟩ st' ⟨hs, hsimple⟩ hb
    obtain ⟨-, rfl⟩ := searchRound_inr hb
    exact visit_simple hs hsimple none

theorem feasibleFrom_connected {usable : IonCXref → Prop} {latency : Nat → Nat} {node : Nat} {t a : Int}
    {cs : List IonCXref} (h : FeasibleFrom s usable latency node t cs a) :
    cs.map (fun c => c.fromNode) = (node :: cs.map (fun c => c.toNode)).dropLast := by
  induction cs generalizing node t with
  | nil => rfl
  | cons c rest ih =>
    obtain ⟨-, rfl, -, owlt, -, hrest⟩ := h
    simp [ih hrest]

/-- The trail of the final contact is a path through different nodes, with the terminus at its end only. -/
theorem straight_simplePath {c : IonCXref} {p : List IonCXref} {notes : Notes} {a : Int}
    (h : Straight (network s q suppressed) (toNodeOf s) (labels s notes) none c p)
    (hfirst : ∀ x ∈ p, ¬ x.toNode = q.terminusNodeNbr) (hf : Feasible s q suppressed (p ++ [c]) a) :
    SimplePath s.ownNodeNbr q.terminusNodeNbr (p ++ [c]) := by
  have hconnected := feasibleFrom_connected hf.path
  obtain ⟨d, hlast, hterm⟩ := hf.terminus
  rw [List.getLast?_concat, Option.some.injEq] at hlast
  subst hlast
  have hnodup : (s.ownNodeNbr :: p.map (fun d => d.toNode)).Nodup := h.nodup
  refine ⟨hconnected, ?_, ?_, ?_⟩
  · simp [hterm]
  · rw [hconnected, List.map_append, List.map_singleton, ← List.cons_append, List.dropLast_concat]
    exact hnodup
  · rw [List.map_append, List.map_singleton, List.nodup_append]
    refine ⟨(List.nodup_cons.mp hnodup).2, List.nodup_singleton _, ?_⟩
    intro x hx y hy hxy
    obtain ⟨d, hd, rfl⟩ := List.mem_map.mp hx
    rw [List.mem_singleton.mp hy, hterm] at hxy
    exact hfirst d hd hxy

theorem computeDistanceToTerminus_filled {notes notes' : Notes} {route : CgrRoute} (hreset : Reset s notes)
    (h : computeDistanceToTerminus s q notes = some (route, notes')) (hfound : route.toNodeNbr ≠ 0) :
    FilledRoute s q (fun c => (notes c).suppressed) route := by
  obtain ⟨filled, notes'', hrun, -, hfilled⟩ := computeDistanceToTerminus_cases (q := q) hreset
  obtain ⟨rfl, -⟩ := Prod.mk.inj (Option.some.inj (h.symm.trans hrun))
  cases hfilled with
  | inl hfilled => exact hfilled
  | inr hzero => exact absurd (congrArg CgrRoute.toNodeNbr hzero.1) hfound

/-- The route that a search fills in is a path through different nodes. -/
theorem computeDistanceToTerminus_simple {notes notes' : Notes} {route : CgrRoute} (hreset : Reset s notes)
    (h : computeDistanceToTerminus s q notes = some (route, notes')) (hfound : route.toNodeNbr ≠ 0) :
    SimplePath s.ownNodeNbr q.terminusNodeNbr route.hops := by
  have hstart := hreset.searching (q := q)
  have hsimple : SimpleSearch s q (fun c => (notes c).suppressed) ⟨notes, none, maxTime⟩ none notes :=
    Simple.init hreset.dist
  have hfeasible := (computeDistanceToTerminus_filled hreset h hfound).feasible
  rw [computeDistanceToTerminus] at h
  obtain ⟨st, hloop, hfill⟩ := Option.bind_eq_some_iff.mp h
  obtain ⟨route', hroute, he⟩ := Option.map_eq_some_iff.mp hfill
  obtain ⟨rfl, rfl⟩ := Prod.mk.inj he
  cases hc : st.finalContact with
  | none =>
    rw [fillRoute, hc] at hroute
    exact absurd (by rw [← Option.some.inj hroute]; rfl) hfound
  | some c =>
    obtain ⟨p, hp, hfirst⟩ := (search_simple hstart hsimple hloop).best c hc
    rw [fillRoute_trail hc hp.trail, Option.some.injEq] at hroute
    have hhops : route'.hops = p ++ [c] := by
      rw [← hroute, characterize_hops, prependHops, CgrRoute.zero]
      simp
    rw [hhops] at hfeasible ⊢
    exact straight_simplePath hp hfirst hfeasible

/-- A route to the terminus over different nodes, that begins with the neighbor it is named after. -/
structure SimpleRoute (start finish : Nat) (route : CgrRoute) : Prop where
  path : SimplePath start finish route.hops
  neighbor : (route.hops.map (fun c => c.toNode)).head? = some route.toNodeNbr

theorem findNextBestRoute_filled {notes notes' : Notes} {route : CgrRoute} (hreset : Reset s notes)
    (h : findNextBestRoute s q notes = some (some route, notes')) :
    FilledRoute s q (fun c => (notes c).suppressed) route ∧ SimplePath s.ownNodeNbr q.terminusNodeNbr route.hops := by
  obtain ⟨⟨found, work⟩, hrun, he⟩ := Option.map_eq_some_iff.mp h
  by_cases hzero : found.toNodeNbr = 0
  · rw [if_pos hzero] at he
    cases he
  · rw [if_neg hzero] at he
    obtain ⟨rfl, rfl⟩ : found = route ∧ work = notes' := by simpa using he
    exact ⟨computeDistanceToTerminus_filled hreset hrun hzero, computeDistanceToTerminus_simple hreset hrun hzero⟩

/-- A route that some search of some class has filled in, from work areas that were reset. -/
def Searched (s : IonState) (currentTime : Int) (terminusNodeNbr : Nat) (route : CgrRoute) : Prop :=
  ∃ payloadClass notes notes', Reset s notes ∧
    findNextBestRoute s ⟨currentTime, terminusNodeNbr, payloadClass⟩ notes = some (some route, notes')

theorem Searched.simple {currentTime : Int} {terminusNodeNbr : Nat} {route : CgrRoute}
    (h : Searched s currentTime terminusNodeNbr route) : SimpleRoute s.ownNodeNbr terminusNodeNbr route := by
  obtain ⟨payloadClass, notes, notes', hreset, hfound⟩ := h
  obtain ⟨hfilled, hpath⟩ := findNextBestRoute_filled hreset hfound
  obtain ⟨c, hhead, hto, -⟩ := hfilled.first_hop
  refine ⟨hpath, ?_⟩
  rw [List.head?_map, hhead, hto]
  rfl

section

open RouteLoading RouteSeries

variable {P : CgrRoute → Prop} {currentTime : Int} {terminusNodeNbr payloadClass : Nat} {load : Load}

theorem routes_append (hP : ∀ r, Searched s currentTime terminusNodeNbr r → P r) {routes routes' : List CgrRoute}
    {notes : Notes} (hreset : Reset s notes) (hold : ∀ r ∈ routes, P r)
    (h : routes' = routes ∨ ∃ route first rest,
      Found s ⟨currentTime, terminusNodeNbr, payloadClass⟩ notes route first rest ∧ routes' = routes ++ [route]) :
    ∀ r ∈ routes', P r := by
  obtain rfl | ⟨route, first, rest, hfound, rfl⟩ := h
  · exact hold
  · obtain ⟨notes', hsearch⟩ := hfound.search
    intro r hr
    cases List.mem_append.mp hr with
    | inl hr => exact hold r hr
    | inr hr =>
      obtain rfl := List.mem_singleton.mp hr
      exact hP r ⟨payloadClass, notes, notes', hreset, hsearch⟩

/-- The routes that the loading has recorded so far were found by searches. -/
theorem reached_routes (hP : ∀ r, Searched s currentTime terminusNodeNbr r → P r)
    (h : Reached s currentTime terminusNodeNbr payloadClass load) : ∀ r ∈ load.routes, P r := by
  induction h with
  | start => simp [InitialContacts.seriesStart]
  | round h hround ih => exact routes_append hP h.ready.reset ih (h.cases_round hround).routes
  | nextClass h hround hcomplete hclass ih =>
    exact routes_append hP h.ready.reset ih (h.cases_round hround).last_routes

theorem loadRouteList_routes (hP : ∀ r, Searched s currentTime terminusNodeNbr r → P r) {loaded : Loaded}
    (h : loadRouteList s currentTime terminusNodeNbr = some loaded) : ∀ r ∈ loaded.routes, P r := by
  obtain ⟨last, load, loaded', hload, hround, -, hrun⟩ := loadRouteList_reached s currentTime terminusNodeNbr
  obtain rfl := Option.some.inj (h.symm.trans hrun)
  exact routes_append hP hload.ready.reset (reached_routes hP hload) (hload.cases_round hround).last_routes

end

section

open Forward RouteWalk

variable {δ σ : Type} {lookup : CgrLookup δ σ} {bundle : Bundle} {excludedNodes : List Nat}
  {terminusNodeNbr : Nat} {now : Int} {P : CgrRoute → Prop}

theorem recomputeRouteForContact_routes (hP : ∀ r, Searched s now terminusNodeNbr r → P r)
    {routes routes' : List CgrRoute} {toNodeNbr payloadClass : Nat} {fromTime : Int} (hold : ∀ r ∈ routes, P r)
    (h : recomputeRouteForContact s routes toNodeNbr fromTime ⟨now, terminusNodeNbr, payloadClass⟩ =
      some (some routes')) : ∀ r ∈ routes', P r := by
  obtain ⟨hnone, -⟩ | ⟨-, hreset, hsearch⟩ :=
    recomputeRouteForContact_search s routes toNodeNbr fromTime ⟨now, terminusNodeNbr, payloadClass⟩
  · rw [hnone] at h
    cases h
  · rw [hsearch] at h
    obtain ⟨⟨found, notes⟩, hrun, he⟩ := Option.map_eq_some_iff.mp h
    obtain ⟨newRoute, rfl, rfl⟩ := Option.map_eq_some_iff.mp he
    intro r hr
    cases mem_insertRoute.mp hr with
    | inl hr => exact hP r ⟨payloadClass, _, notes, hreset, hr ▸ hrun⟩
    | inr hr => exact hold r hr

/-- What is known of the routes in the list that is walked, and of those tried. -/
def WalkAll (P : CgrRoute → Prop) (walk : Walk δ σ) : Prop :=
  (∀ r ∈ walk.passed ++ walk.rest, P r) ∧ ∀ t ∈ walk.tried, P t.1

theorem WalkAll.round (hP : ∀ r, Searched s now terminusNodeNbr r → P r) {walk walk' : Walk δ σ}
    (h : WalkAll P walk)
    (hb : walkRound s lookup bundle excludedNodes terminusNodeNbr now walk = .inl walk') : WalkAll P walk' := by
  obtain ⟨hlist, htried⟩ := h
  cases hrest : walk.rest with
  | nil => simp [walkRound, hrest] at hb
  | cons route rest =>
    rw [hrest] at hlist
    have hleft : ∀ r ∈ walk.passed ++ rest, P r := by
      intro r hr
      apply hlist r
      simp only [List.mem_append, List.mem_cons] at hr ⊢
      exact hr.imp_right Or.inr
    simp only [walkRound, hrest] at hb
    by_cases hexp : route.toTime < now
    · rw [if_pos hexp] at hb
      cases hrec : recomputeRouteForContact s (walk.passed ++ rest) route.toNodeNbr route.fromTime
          ⟨now, terminusNodeNbr, route.payloadClass⟩ with
      | none => simp [hrec] at hb
      | some found =>
        cases found with
        | none =>
          simp only [hrec, Sum.inl.injEq] at hb
          subst hb
          exact ⟨hleft, htried⟩
        | some routes =>
          simp only [hrec, Sum.inl.injEq] at hb
          subst hb
          exact ⟨by simpa using recomputeRouteForContact_routes hP hleft hrec, htried⟩
    · rw [if_neg hexp] at hb
      by_cases hlate : deadline bundle < route.arrivalTime
      · simp [hlate] at hb
      · rw [if_neg hlate, Sum.inl.injEq] at hb
        subst hb
        have hframe := @considerRoute_frame δ σ s lookup bundle excludedNodes now route
          { walk with passed := walk.passed ++ [route], rest := rest }
        constructor
        · rw [hframe.1, hframe.2.1]
          simpa using hlist
        · intro t ht
          cases hframe.2.2 t ht with
          | inl hold => exact htried t hold
          | inr hthis => exact hthis ▸ hlist route (by simp)

theorem walkRoutes_all (hP : ∀ r, Searched s now terminusNodeNbr r → P r) {routes : List CgrRoute} {env : σ}
    {walked : Walked δ σ} (hroutes : ∀ r ∈ routes, P r)
    (h : walkRoutes s lookup bundle excludedNodes terminusNodeNbr now routes env = some walked) :
    (∀ r ∈ walked.routes, P r) ∧ ∀ t ∈ walked.tried, P t.1 := by
  obtain ⟨walk, stoppedAt, hJ, rfl, -⟩ := walkRoutes_rule (J := WalkAll P) (fun _ _ hJ hb => hJ.round hP hb)
    ⟨hroutes, by simp⟩ h
  exact hJ

/-- What holds of the routes on the list and of all that searches find holds of the routes
afterwards, and of those tried. -/
theorem identifyProximateNodes_all (hP : ∀ r, Searched s now terminusNodeNbr r → P r)
    {routingObject : Option (List CgrRoute)} {env : σ} {identified : Identified δ σ}
    (hroutes : ∀ routes, routingObject = some routes → ∀ r ∈ routes, P r)
    (h : identifyProximateNodes s lookup bundle excludedNodes terminusNodeNbr now routingObject env =
      some identified) :
    (∀ r ∈ identified.walked.routes, P r) ∧ ∀ t ∈ identified.walked.tried, P t.1 := by
  obtain ⟨routes, hobj, -, -, hw⟩ | ⟨-, -, list, hlist, ⟨-, hw⟩ | ⟨-, hw⟩⟩ := identifyProximateNodes_cases h
  · exact walkRoutes_all hP (hroutes routes hobj) hw
  · exact walkRoutes_all hP (loadRouteList_routes hP hlist) hw
  · rw [hw]
    exact ⟨loadRouteList_routes hP hlist, by simp⟩

end

section

open Rfx RfxRanges Forward RouteWalk Process

variable {δ σ : Type} {lookup : CgrLookup δ σ}

theorem edit_ownNodeNbr {s t : IonState} {call : Int × Edit} (h : edit s call = some t) :
    t.ownNodeNbr = s.ownNodeNbr := by
  refine edit_preserves (fun u => u.ownNodeNbr = s.ownNodeNbr) ?_ ?_ ?_ ?_ rfl h
  · intro u now span xmitRate prob hk hu _
    exact hu
  · intro u now c hu _
    exact hu
  · intro u now span owlt hu
    exact (insertRange_sameContacts u now span owlt).ownNodeNbr.trans hu
  · intro u now r conditional hu _
    unfold deleteRange
    split <;> exact hu

/-- The partition of each node is its own, and its lists hold simple routes to their terminus nodes. -/
def SimpleLists (p : IonProcess) : Prop :=
  ∀ n part, p.partitions n = some part → part.ion.ownNodeNbr = n ∧
    ∀ t routes, part.routingObject t = some routes → ∀ r ∈ routes, SimpleRoute n t r

theorem SimpleLists.refresh {p : IonProcess} (h : SimpleLists p) (vdb : CgrVdb) (lastEditTime now : Int) :
    SimpleLists (refresh p vdb lastEditTime now) := by
  cases refresh_cases p vdb lastEditTime now with
  | inl hkept =>
    rw [hkept.2]
    exact h
  | inr hdue =>
    intro n part hpart
    rw [hdue.2.1, Option.map_eq_some_iff] at hpart
    obtain ⟨old, hold, rfl⟩ := hpart
    obtain ⟨hown, hlists⟩ := h n old hold
    refine ⟨hown, ?_⟩
    intro t routes hr
    simp only [Partition.without] at hr
    split at hr
    · cases hr
    · exact hlists t routes hr

theorem SimpleLists.update {p : IonProcess} (h : SimpleLists p) (n : Nat) (part : Partition) (cgrvdb : Option CgrVdb)
    (hown : part.ion.ownNodeNbr = n)
    (hlists : ∀ t routes, part.routingObject t = some routes → ∀ r ∈ routes, SimpleRoute n t r) :
    SimpleLists ⟨Function.update p.partitions n (some part), cgrvdb⟩ := by
  intro m part' hpart
  dsimp only at hpart
  by_cases hm : m = n
  · rw [hm, Function.update_self, Option.some.injEq] at hpart
    subst hpart
    exact hm ▸ ⟨hown, hlists⟩
  · rw [Function.update_of_ne hm] at hpart
    exact h m part' hpart

/-- A call of one node leaves every list as a list of simple routes. -/
theorem SimpleLists.step {p p' : IonProcess} {a : Addressed σ} (h : SimpleLists p)
    (hs : step lookup p a = some p') : SimpleLists p' := by
  obtain ⟨⟨p₁, report⟩, hp, rfl⟩ := Option.map_eq_some_iff.mp hs
  obtain ⟨n, now, call⟩ := a
  cases call with
  | initializeNode =>
    obtain ⟨rfl, -⟩ := Prod.mk.inj (Option.some.inj hp)
    simp only [initializeNode]
    split
    · exact h
    · exact h.update n _ _ rfl (fun t routes hr => by cases hr)
  | edit e =>
    obtain ⟨p₂, he, hr⟩ := Option.map_eq_some_iff.mp hp
    obtain ⟨rfl, -⟩ := Prod.mk.inj hr
    obtain ⟨old, ion, hold, hion, rfl⟩ := editNode_eq_some he
    obtain ⟨hown, hlists⟩ := h n old hold
    exact h.update n _ _ ((edit_ownNodeNbr hion).trans hown) hlists
  | cgrForward bundle terminusNodeNbr env =>
    obtain ⟨⟨p₂, forwarding⟩, hf, hr⟩ := Option.map_eq_some_iff.mp hp
    obtain ⟨rfl, -⟩ := Prod.mk.inj hr
    obtain ⟨old, vdb, hold, -, hcases⟩ := cgrForward_cases hf
    have hrefresh := h.refresh vdb old.ion.lastEditTime now
    obtain ⟨rfl, -⟩ | ⟨rfl, -⟩ | ⟨part, terminusNode, identified, hpart, hid, rfl, -⟩ := hcases
    · exact h
    · exact hrefresh
    · obtain ⟨hown, hlists⟩ := hrefresh n part hpart
      refine hrefresh.update n _ _ hown ?_
      intro t routes hr
      by_cases ht : t = terminusNodeNbr
      · rw [ht, setRoutes_self, Option.some.injEq] at hr
        subst hr ht
        refine (identifyProximateNodes_all (fun r hsearched => ?_) (fun old hobj => hlists t old hobj) hid).1
        exact hown ▸ hsearched.simple
      · rw [setRoutes_of_ne part _ ht] at hr
        exact hlists t routes hr

end

end SimpleRoutes
