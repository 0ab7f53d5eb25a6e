import CgrJni.InitialContacts

/-!
The loading of a route list as a run of rounds through all classes: the states it goes
through, why it ends, and how the routes that are recorded differ.
-/

namespace RouteLoading

open IonDb Libcgr Dijkstra DijkstraCorrect RouteLists RouteSeries InitialContacts

/-- The states of the loading before each round, with the class it is at. The anchor and the
routes of a class are left to the next. -/
inductive Reached (s : IonState) (currentTime : Int) (terminusNodeNbr : Nat) : Nat → Load → Prop
  | start : Reached s currentTime terminusNodeNbr 0 (seriesStart none [])
  | round {payloadClass : Nat} {load load' : Load} (h : Reached s currentTime terminusNodeNbr payloadClass load)
    (hround : loadRound s ⟨currentTime, terminusNodeNbr, payloadClass⟩ load = .inl load') :
    Reached s currentTime terminusNodeNbr payloadClass load'
  | nextClass {payloadClass : Nat} {load : Load} {loaded : Loaded}
    (h : Reached s currentTime terminusNodeNbr payloadClass load)
    (hround : loadRound s ⟨currentTime, terminusNodeNbr, payloadClass⟩ load = .inr (some loaded))
    (hcomplete : loaded.complete = true) (hclass : payloadClass + 1 < payloadClasses) :
    Reached s currentTime terminusNodeNbr (payloadClass + 1) (seriesStart loaded.anchorContact loaded.routes)

variable {s : IonState} {q : Query} {currentTime : Int} {terminusNodeNbr payloadClass : Nat} {load load' : Load}
  {loaded : Loaded} {route : CgrRoute} {first : IonCXref} {rest : List IonCXref} {notes : Notes}

/-- What a round needs to find: work areas that are reset, and an anchor of the local node. -/
structure Ready (s : IonState) (load : Load) : Prop where
  reset : Reset s load.notes
  anchor_local : AnchorLocal s load

theorem Ready.round (h : Ready s load) (hround : Round s q load (.inl load')) : Ready s load' where
  reset := hround.reset
  anchor_local := hround.anchorLocal h.anchor_local

theorem Ready.nextClass (h : Ready s load) (hround : Round s q load (.inr (some loaded))) :
    Ready s (seriesStart loaded.anchorContact loaded.routes) := by
  constructor
  · exact reset_cleared s
  · cases hround with
    | finished hsearch hnone => exact h.anchor_local
    | givenUp hroute hanchor hend => exact hroute.anchorLocal _ _

theorem Reached.ready (h : Reached s currentTime terminusNodeNbr payloadClass load) : Ready s load := by
  induction h with
  | start => exact ⟨reset_cleared s, anchorLocal_none rfl⟩
  | round h hround ih => exact ih.round (hround ▸ loadRound_round ih.reset)
  | nextClass h hround hcomplete hclass ih => exact ih.nextClass (hround ▸ loadRound_round ih.reset)

/-- A round from a state of the loading is one of those described. -/
theorem Reached.cases_round (h : Reached s currentTime terminusNodeNbr payloadClass load)
    {out : Load ⊕ Option Loaded} (hround : loadRound s ⟨currentTime, terminusNodeNbr, payloadClass⟩ load = out) :
    Round s ⟨currentTime, terminusNodeNbr, payloadClass⟩ load out := hround ▸ loadRound_round h.ready.reset

/-- A series comes to its last round, and that leaves a list. -/
theorem loadClass_reached {anchorContact : Option IonCXref} {routes : List CgrRoute}
    (h : Reached s currentTime terminusNodeNbr payloadClass (seriesStart anchorContact routes)) :
    ∃ load loaded, Reached s currentTime terminusNodeNbr payloadClass load ∧
      loadRound s ⟨currentTime, terminusNodeNbr, payloadClass⟩ load = .inr (some loaded) ∧
      loadClass s ⟨currentTime, terminusNodeNbr, payloadClass⟩ anchorContact routes = some loaded := by
  obtain ⟨out, hloop, -⟩ := Runs.loop_spec (Reached s currentTime terminusNodeNbr payloadClass) (fun _ => True)
    (roundsLeft s) (fun load load' hload hround =>
      ⟨hload.round hround, (hload.cases_round hround).roundsLeft_lt hload.ready.anchor_local⟩)
    (fun _ _ _ _ => trivial) _ _ h (seriesStart_roundsLeft s anchorContact routes)
  obtain ⟨load, hlast, hround⟩ := Runs.loop_eq_some_iff.mp hloop
  have hload := Runs.lastRound_invariant _ (fun _ _ hload hround => Reached.round hload hround) _ _ load h hlast
  obtain ⟨loaded, rfl⟩ : ∃ loaded, out = some loaded := by
    cases hload.cases_round hround with
    | finished hsearch hnone => exact ⟨_, rfl⟩
    | givenUp hroute hanchor hend => exact ⟨_, rfl⟩
  refine ⟨load, loaded, hload, hround, ?_⟩
  exact congrArg Option.join hloop

theorem loadClasses_reached (classes : Nat) : ∀ {payloadClass : Nat} {anchorContact : Option IonCXref}
    {routes : List CgrRoute}, payloadClass + (classes + 1) = payloadClasses →
    Reached s currentTime terminusNodeNbr payloadClass (seriesStart anchorContact routes) →
    ∃ last load loaded, Reached s currentTime terminusNodeNbr last load ∧
      loadRound s ⟨currentTime, terminusNodeNbr, last⟩ load = .inr (some loaded) ∧
      (loaded.complete = true → last + 1 = payloadClasses) ∧
      loadClasses s currentTime terminusNodeNbr (List.range' payloadClass (classes + 1)) anchorContact routes =
        some loaded := by
  induction classes with
  | zero =>
    intro payloadClass anchorContact routes hclass h
    obtain ⟨load, loaded, hload, hround, hrun⟩ := loadClass_reached h
    refine ⟨payloadClass, load, loaded, hload, hround, fun _ => hclass, ?_⟩
    rw [List.range'_succ, loadClasses, hrun, Option.bind_some]
    split
    · rename_i hcomplete
      obtain ⟨routes', anchor', complete⟩ := loaded
      obtain rfl : complete = true := hcomplete
      rfl
    · rfl
  | succ classes ih =>
    intro payloadClass anchorContact routes hclass h
    obtain ⟨load, loaded, hload, hround, hrun⟩ := loadClass_reached h
    rw [List.range'_succ, loadClasses, hrun, Option.bind_some]
    by_cases hcomplete : loaded.complete = true
    · rw [if_pos hcomplete]
      exact ih (by omega) (hload.nextClass hround hcomplete (by omega))
    · rw [if_neg hcomplete]
      exact ⟨payloadClass, load, loaded, hload, hround, fun h => absurd h hcomplete, rfl⟩

/-- The loading comes to the last round of some class, the last one unless it is given up. -/
theorem loadRouteList_reached (s : IonState) (currentTime : Int) (terminusNodeNbr : Nat) :
    ∃ last load loaded, Reached s currentTime terminusNodeNbr last load ∧
      loadRound s ⟨currentTime, terminusNodeNbr, last⟩ load = .inr (some loaded) ∧
      (loaded.complete = true → last + 1 = payloadClasses) ∧
      loadRouteList s currentTime terminusNodeNbr = some loaded := by
  have hstart : Reached s currentTime terminusNodeNbr 0 (seriesStart none []) := Reached.start
  have hclasses := loadClasses_reached 2 (show 0 + (2 + 1) = payloadClasses from rfl) hstart
  rw [← List.range_eq_range'] at hclasses
  exact hclasses

/-- The loading ends, and no class has an endless series of rounds from any state it goes through. -/
theorem loadRouteList_terminates (s : IonState) (currentTime : Int) (terminusNodeNbr : Nat) :
    (∃ loaded, loadRouteList s currentTime terminusNodeNbr = some loaded) ∧
    ∀ payloadClass, WellFounded (fun load' load => Reached s currentTime terminusNodeNbr payloadClass load ∧
      loadRound s ⟨currentTime, terminusNodeNbr, payloadClass⟩ load = .inl load') := by
  constructor
  · obtain ⟨last, load, loaded, -, -, -, hrun⟩ := loadRouteList_reached s currentTime terminusNodeNbr
    exact ⟨loaded, hrun⟩
  · intro payloadClass
    apply Subrelation.wf _ (measure (roundsLeft s)).wf
    rintro load' load ⟨hload, hround⟩
    exact (hload.cases_round hround).roundsLeft_lt hload.ready.anchor_local

/-- A recorded route is not found again: one of its contacts is excluded, and if that is not a
contact of the local node, the search is anchored on one of the route that is. -/
def Taken (s : IonState) (load : Load) (route : CgrRoute) : Prop :=
  ∃ c ∈ route.hops, c ∈ s.contactIndex ∧ excluded load.notes c = true ∧
    (c.fromNode = s.ownNodeNbr ∨ ∃ anchor ∈ route.hops, load.anchorContact = some anchor)

/-- The routes recorded up to a class: no two of one class with the same hops, and only the
first hop of each leaves the local node. -/
structure Distinct (s : IonState) (payloadClass : Nat) (routes : List CgrRoute) : Prop where
  pairwise : routes.Pairwise (fun r r' => r.payloadClass = r'.payloadClass → r.hops ≠ r'.hops)
  class_le : ∀ r ∈ routes, r.payloadClass ≤ payloadClass
  onward : ∀ r ∈ routes, ∀ c ∈ r.hops.tail, c.fromNode ≠ s.ownNodeNbr

theorem Distinct.nil : Distinct s payloadClass [] where
  pairwise := List.Pairwise.nil
  class_le _ hr := absurd hr List.not_mem_nil
  onward _ hr := absurd hr List.not_mem_nil

theorem Found.not_taken (h : Found s q load.notes route first rest) : ¬ Taken s load route := by
  rintro ⟨c, hc, -, hex, -⟩
  rw [h.hops] at hc
  rw [(h.usable c hc).2.1] at hex
  cases hex

theorem taken_of_hops {r : CgrRoute} (h : Taken s load r) (hhops : r.hops = route.hops) : Taken s load route := by
  rw [Taken, hhops] at h
  exact h

theorem Distinct.append {routes : List CgrRoute} (h : Distinct s q.payloadClass routes)
    (htaken : ∀ r ∈ routes, r.payloadClass = q.payloadClass → Taken s load r)
    (hroute : Found s q load.notes route first rest) : Distinct s q.payloadClass (routes ++ [route]) := by
  constructor
  case pairwise =>
    apply List.pairwise_append.mpr
    refine ⟨h.pairwise, List.pairwise_singleton _ _, ?_⟩
    intro r hr r' hr' hclass hhops
    obtain rfl := List.mem_singleton.mp hr'
    exact Found.not_taken hroute (taken_of_hops (htaken r hr (hclass.trans hroute.filled.payloadClass)) hhops)
  case class_le =>
    intro r hr
    cases List.mem_append.mp hr with
    | inl hold => exact h.class_le r hold
    | inr hnew =>
      obtain rfl := List.mem_singleton.mp hnew
      exact hroute.filled.payloadClass.le
  case onward =>
    intro r hr
    cases List.mem_append.mp hr with
    | inl hold => exact h.onward r hold
    | inr hnew =>
      obtain rfl := List.mem_singleton.mp hnew
      rw [hroute.hops]
      exact hroute.onward

/-- What was excluded stays so while routes are recorded, and so does the anchor. -/
theorem Taken.record {r : CgrRoute} (h : Taken s load r) (hnotes : NotesOk s (excluded load.notes) notes)
    (hanchor : load.anchorContact = none ∨ load.anchorContact = some first) (limit : IonCXref)
    {anchor : Option IonCXref} (hkept : anchor = load.anchorContact ∨ anchor = some first) (routes : List CgrRoute) :
    Taken s ⟨excludeContact notes limit, anchor, routes⟩ r := by
  obtain ⟨c, hc, hmem, hex, hlocal⟩ := h
  refine ⟨c, hc, hmem, (excluded_recorded hnotes limit hmem).mpr (Or.inr hex), ?_⟩
  cases hlocal with
  | inl hlocal => exact Or.inl hlocal
  | inr hfrom =>
    obtain ⟨a, ha, hsome⟩ := hfrom
    apply Or.inr
    refine ⟨a, ha, ?_⟩
    cases hkept with
    | inl hsame => exact hsame.trans hsome
    | inr hfirst =>
      cases hanchor with
      | inl hnone => cases hnone.symm.trans hsome
      | inr hfirst' => exact hfirst.trans (hfirst'.symm.trans hsome)

/-- When an anchored search ends, the routes that were found through the anchor are taken by it. -/
theorem Taken.endAnchored {r : CgrRoute} (h : Taken s load r) (hlocal : AnchorLocal s load)
    (hnotes : NotesOk s (excluded load.notes) notes) {anchor : IonCXref} (hanchor : load.anchorContact = some anchor) :
    Taken s ⟨suppress (endAnchoredSearch s notes) anchor, none, load.routes⟩ r := by
  obtain ⟨c, hc, hmem, hex, hfrom | ⟨a, ha, hsome⟩⟩ := h
  · exact ⟨c, hc, hmem, (excluded_ended hnotes anchor hmem).mpr (Or.inr ⟨hfrom, hex⟩), Or.inl hfrom⟩
  · obtain rfl := Option.some.inj (hanchor.symm.trans hsome)
    obtain ⟨hamem, hafrom⟩ := hlocal anchor hanchor
    exact ⟨anchor, ha, hamem, (excluded_ended hnotes anchor hamem).mpr (Or.inl rfl), Or.inl hafrom⟩

/-- Every round keeps the routes apart, and takes the route that it records. -/
theorem Distinct.round (h : Distinct s q.payloadClass load.routes)
    (htaken : ∀ r ∈ load.routes, r.payloadClass = q.payloadClass → Taken s load r) (hready : Ready s load)
    (hround : Round s q load (.inl load')) :
    Distinct s q.payloadClass load'.routes ∧
      ∀ r ∈ load'.routes, r.payloadClass = q.payloadClass → Taken s load' r := by
  cases hround with
  | endAnchored hroute hnotes hanchor hne =>
    refine ⟨h, ?_⟩
    intro r hr hclass
    exact (htaken r hr hclass).endAnchored hready.anchor_local hnotes hanchor
  | @excludeFirst route first rest notes hroute hnotes hanchor htime =>
    refine ⟨h.append htaken hroute, ?_⟩
    intro r hr hclass
    cases List.mem_append.mp hr with
    | inl hold => exact (htaken r hold hclass).record hnotes hanchor first (Or.inl rfl) _
    | inr hnew =>
      obtain rfl := List.mem_singleton.mp hnew
      exact ⟨first, by rw [hroute.hops]; exact List.mem_cons_self, hroute.first_mem,
        (excluded_recorded hnotes first hroute.first_mem).mpr (Or.inl rfl), Or.inl hroute.first_local⟩
  | @excludeLimit route first limit rest notes hroute hnotes hanchor hlimit htime hearlier =>
    refine ⟨h.append htaken hroute, ?_⟩
    intro r hr hclass
    cases List.mem_append.mp hr with
    | inl hold => exact (htaken r hold hclass).record hnotes hanchor limit (Or.inr rfl) _
    | inr hnew =>
      obtain rfl := List.mem_singleton.mp hnew
      have hmem := (hroute.usable limit (List.mem_cons_of_mem first hlimit)).1
      refine ⟨limit, by rw [hroute.hops]; exact List.mem_cons_of_mem first hlimit, hmem,
        (excluded_recorded hnotes limit hmem).mpr (Or.inl rfl), Or.inr ⟨first, ?_, rfl⟩⟩
      rw [hroute.hops]
      exact List.mem_cons_self

theorem Distinct.last (h : Distinct s q.payloadClass load.routes)
    (htaken : ∀ r ∈ load.routes, r.payloadClass = q.payloadClass → Taken s load r)
    (hround : Round s q load (.inr (some loaded))) : Distinct s q.payloadClass loaded.routes := by
  obtain hkept | ⟨route, first, rest, hroute, hrecorded⟩ := hround.last_routes
  · rw [hkept]
    exact h
  · rw [hrecorded]
    exact h.append htaken hroute

theorem Reached.distinct (h : Reached s currentTime terminusNodeNbr payloadClass load) :
    Distinct s payloadClass load.routes ∧ ∀ r ∈ load.routes, r.payloadClass = payloadClass → Taken s load r := by
  induction h with
  | start => exact ⟨Distinct.nil, fun r hr => absurd hr List.not_mem_nil⟩
  | round h hround ih => exact ih.1.round ih.2 h.ready (h.cases_round hround)
  | nextClass h hround hcomplete hclass ih =>
    have hlast := ih.1.last ih.2 (h.cases_round hround)
    refine ⟨⟨hlast.pairwise, fun r hr => (hlast.class_le r hr).trans (Nat.le_succ _), hlast.onward⟩, ?_⟩
    intro r hr hsame
    have hle := hlast.class_le r hr
    dsimp only at hle
    omega

/-- No route is recorded twice, and none comes back to the local node. -/
theorem loadRouteList_distinct (s : IonState) (currentTime : Int) (terminusNodeNbr : Nat) :
    ∃ loaded, loadRouteList s currentTime terminusNodeNbr = some loaded ∧
      loaded.routes.Pairwise (fun r r' => r.payloadClass = r'.payloadClass → r.hops ≠ r'.hops) ∧
      ∀ r ∈ loaded.routes, ∀ c ∈ r.hops.tail, c.fromNode ≠ s.ownNodeNbr := by
  obtain ⟨last, load, loaded, hload, hround, -, hrun⟩ := loadRouteList_reached s currentTime terminusNodeNbr
  have hlast := Distinct.last hload.distinct.1 hload.distinct.2 (hload.cases_round hround)
  exact ⟨loaded, hrun, hlast.pairwise, hlast.onward⟩

end RouteLoading
