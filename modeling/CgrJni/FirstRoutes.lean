import CgrJni.LimitContacts

/-!
The first route of each class: it arrives as early as any path does, even where the class
before has left an anchor and the first search is made in vain.
-/

namespace FirstRoutes

open IonDb Libcgr Dijkstra DijkstraCorrect RouteLists RouteSeries InitialContacts RouteLoading LimitContacts

/-- A route over a feasible path, with the earliest arrival there is. -/
structure Optimal (s : IonState) (q : Query) (route : CgrRoute) : Prop where
  feasible : Feasible s q (fun _ => false) route.hops route.arrivalTime
  earliest : ∀ cs a, Feasible s q (fun _ => false) cs a → route.arrivalTime ≤ a

def firstOfClass (payloadClass : Nat) (routes : List CgrRoute) : Option CgrRoute :=
  routes.find? (fun route => route.payloadClass = payloadClass)

/-- If there is a path, the first route of the class is optimal. -/
def Settled (s : IonState) (q : Query) (routes : List CgrRoute) : Prop :=
  ∀ cs a, Feasible s q (fun _ => false) cs a → ∃ route, firstOfClass q.payloadClass routes = some route ∧ Optimal s q route

/-- What is excluded does not keep a search from the earliest arrival. -/
def BestLeft (s : IonState) (q : Query) (notes : Notes) : Prop :=
  ∀ cs a, Feasible s q (fun _ => false) cs a → ∃ cs' a', Feasible s q (excluded notes) cs' a' ∧ a' ≤ a

/-- The first route of the class is recorded, or is still to be found. -/
def InClass (s : IonState) (q : Query) (load : Load) : Prop :=
  (∃ route, firstOfClass q.payloadClass load.routes = some route ∧ Optimal s q route) ∨
    firstOfClass q.payloadClass load.routes = none ∧ BestLeft s q load.notes

variable {s : IonState} {q : Query} {currentTime : Int} {terminusNodeNbr payloadClass : Nat} {load load' : Load}
  {loaded : Loaded} {route : CgrRoute} {first : IonCXref} {rest : List IonCXref} {notes : Notes} {routes : List CgrRoute}

theorem firstOfClass_append (h : firstOfClass payloadClass routes = some route) (more : List CgrRoute) :
    firstOfClass payloadClass (routes ++ more) = some route := by
  rw [firstOfClass, List.find?_append]
  exact congrArg (fun found => Option.or found _) h

theorem firstOfClass_new (h : firstOfClass payloadClass routes = none) (hclass : route.payloadClass = payloadClass) :
    firstOfClass payloadClass (routes ++ [route]) = some route := by
  have hnone : routes.find? (fun route => decide (route.payloadClass = payloadClass)) = none := h
  rw [firstOfClass, List.find?_append, hnone, List.find?_singleton]
  simp [hclass]

theorem Settled.append (h : Settled s q routes) (more : List CgrRoute) : Settled s q (routes ++ more) := by
  intro cs a hf
  obtain ⟨route, hfirst, hoptimal⟩ := h cs a hf
  exact ⟨route, firstOfClass_append hfirst more, hoptimal⟩

theorem bestLeft_cleared (s : IonState) (q : Query) : BestLeft s q (fun _ => .cleared) :=
  fun cs a hf => ⟨cs, a, hf, le_rfl⟩

theorem Found.optimal (h : Found s q notes route first rest) (hbest : BestLeft s q notes) : Optimal s q route where
  feasible := Feasible.of_excluded h.filled.feasible (fun _ _ _ => rfl)
  earliest cs a hf := by
    obtain ⟨cs', a', hf', hle⟩ := hbest cs a hf
    exact (h.filled.earliest cs' a' hf').trans hle

/-- The route that an anchored search ends with is still there for the next search. -/
theorem BestLeft.endAnchored (hbest : BestLeft s q load.notes) (hroute : Found s q load.notes route first rest)
    (hnotes : NotesOk s (excluded load.notes) notes) {anchor : IonCXref} (hlocal : anchor.fromNode = s.ownNodeNbr)
    (hne : first ≠ anchor) : BestLeft s q (suppress (endAnchoredSearch s notes) anchor) := by
  intro cs a hf
  refine ⟨first :: rest, route.arrivalTime, ?_, (Found.optimal hroute hbest).earliest cs a hf⟩
  apply Feasible.of_excluded hroute.feasible
  intro d hd hopen
  rw [← Bool.not_eq_true, excluded_ended hnotes anchor (hroute.usable d hd).1, hopen]
  rintro (hanchor | ⟨-, hex⟩)
  · cases List.mem_cons.mp hd with
    | inl hfirst => exact hne (hfirst.symm.trans hanchor)
    | inr hrest => exact hroute.onward d hrest (hanchor ▸ hlocal)
  · cases hex

theorem InClass.record (h : InClass s q load) (hroute : Found s q load.notes route first rest) (notes' : Notes)
    (anchorContact : Option IonCXref) : InClass s q ⟨notes', anchorContact, load.routes ++ [route]⟩ := by
  apply Or.inl
  cases h with
  | inl hrecorded =>
    obtain ⟨route', hfirst, hoptimal⟩ := hrecorded
    exact ⟨route', firstOfClass_append hfirst [route], hoptimal⟩
  | inr hleft => exact ⟨route, firstOfClass_new hleft.1 hroute.filled.payloadClass, Found.optimal hroute hleft.2⟩

theorem InClass.round (h : InClass s q load) (hready : Ready s load) (hround : Round s q load (.inl load')) :
    InClass s q load' := by
  cases hround with
  | endAnchored hroute hnotes hanchor hne =>
    exact h.imp_right (fun hleft => ⟨hleft.1, hleft.2.endAnchored hroute hnotes (hready.anchor_local _ hanchor).2 hne⟩)
  | excludeFirst hroute hnotes hanchor htime => exact h.record hroute _ _
  | excludeLimit hroute hnotes hanchor hlimit htime hearlier => exact h.record hroute _ _

/-- A class that is searched to the end is settled. -/
theorem InClass.last (h : InClass s q load) (hround : Round s q load (.inr (some loaded)))
    (hcomplete : loaded.complete = true) : Settled s q loaded.routes ∧ loaded.routes = load.routes := by
  cases hround with
  | givenUp hroute hanchor hend => cases hcomplete
  | finished hsearch hnone =>
    refine ⟨?_, rfl⟩
    intro cs a hf
    cases h with
    | inl hrecorded => exact hrecorded
    | inr hleft =>
      obtain ⟨cs', a', hf', -⟩ := hleft.2 cs a hf
      exact absurd hf' (hnone cs' a')

/-- A class stays settled while the routes of another are recorded. -/
theorem Settled.round (h : Settled s ⟨currentTime, terminusNodeNbr, payloadClass⟩ load.routes)
    (hround : Round s q load (.inl load')) : Settled s ⟨currentTime, terminusNodeNbr, payloadClass⟩ load'.routes := by
  obtain hkept | ⟨route, first, rest, -, hrecorded⟩ := hround.routes
  · rw [hkept]
    exact h
  · rw [hrecorded]
    exact h.append [route]

/-- The classes before are settled, and the one in progress has its first route or can still find it. -/
theorem Reached.settled (h : Reached s currentTime terminusNodeNbr payloadClass load) :
    (∀ k < payloadClass, Settled s ⟨currentTime, terminusNodeNbr, k⟩ load.routes) ∧
      InClass s ⟨currentTime, terminusNodeNbr, payloadClass⟩ load := by
  induction h with
  | start => exact ⟨nofun, Or.inr ⟨rfl, bestLeft_cleared s _⟩⟩
  | round h hround ih =>
    have hcases := h.cases_round hround
    exact ⟨fun k hk => (ih.1 k hk).round hcases, ih.2.round h.ready hcases⟩
  | @nextClass j load loaded h hround hcomplete hclass ih =>
    obtain ⟨hsettled, hroutes⟩ := ih.2.last (h.cases_round hround) hcomplete
    constructor
    · intro k hk
      show Settled s ⟨currentTime, terminusNodeNbr, k⟩ loaded.routes
      cases Nat.lt_succ_iff_lt_or_eq.mp hk with
      | inl hlt =>
        rw [hroutes]
        exact ih.1 k hlt
      | inr heq =>
        rw [heq]
        exact hsettled
    · apply Or.inr
      refine ⟨?_, bestLeft_cleared s _⟩
      apply List.find?_eq_none.mpr
      intro r hr
      have hle := h.distinct.1.class_le r (hroutes ▸ hr)
      simp only [decide_eq_true_eq]
      omega

/-- Where no contact goes on beyond the horizon, the first route of each class that has a path
at all arrives as early as any path of the class does. -/
theorem firstRoute_optimal (s : IonState) (hends : ∀ c ∈ s.contactIndex, c.toTime ≤ maxTime) (currentTime : Int)
    (terminusNodeNbr : Nat) (payloadClass : Nat) (hclass : payloadClass < payloadClasses)
    (hpath : ∃ cs a, Feasible s ⟨currentTime, terminusNodeNbr, payloadClass⟩ (fun _ => false) cs a) :
    ∃ loaded route, loadRouteList s currentTime terminusNodeNbr = some loaded ∧
      firstOfClass payloadClass loaded.routes = some route ∧
      Optimal s ⟨currentTime, terminusNodeNbr, payloadClass⟩ route := by
  have hintime : ∀ q, EndsInTime s q := by
    intro q cs a hf
    obtain ⟨c, hc, -⟩ := hf.terminus
    have hmem := List.mem_of_getLast? hc
    exact ⟨c, hmem, hends c (Feasible.usable hf c hmem).1⟩
  obtain ⟨cs, a, hf⟩ := hpath
  obtain ⟨last, load, loaded, hload, hround, hthrough, hrun⟩ :=
    loadRouteList_reached s currentTime terminusNodeNbr
  have hcases := hload.cases_round hround
  have hcomplete := (complete_last (hintime _) hcases).1
  obtain ⟨hbefore, hinclass⟩ := Reached.settled hload
  obtain ⟨hsettled, hroutes⟩ := hinclass.last hcases hcomplete
  have hlast := hthrough hcomplete
  have hall : Settled s ⟨currentTime, terminusNodeNbr, payloadClass⟩ loaded.routes := by
    cases Nat.lt_or_eq_of_le (show payloadClass ≤ last by omega) with
    | inl hlt =>
      rw [hroutes]
      exact hbefore payloadClass hlt
    | inr heq =>
      rw [heq]
      exact hsettled
  obtain ⟨route, hfirst, hoptimal⟩ := hall cs a hf
  exact ⟨loaded, route, hrun, hfirst, hoptimal⟩

/-- Node 1 reaches node 4 by way of node 2, or later by way of node 3, over contacts of nodes 2
and 3 that end before those of node 1. -/
def twoRelays : IonState :=
  let contact := fun s fromTime toTime fromNode toNode =>
    (Rfx.rfxInsertRange (Rfx.rfxInsertContact s 0 fromTime toTime fromNode toNode 100000 1).1
      0 fromTime toTime fromNode toNode 1).1
  contact (contact (contact (contact (ionInitialize 1) 10 100 1 2) 10 100 1 3) 10 50 2 4) 20 60 3 4

/-- After the first class the anchor is the contact with node 3, but the second class begins with
the contact with node 2. -/
theorem firstRoute_optimal_twoRelays : ∃ loaded route, loadRouteList twoRelays 10 4 = some loaded ∧
    firstOfClass 1 loaded.routes = some route ∧ Optimal twoRelays ⟨10, 4, 1⟩ route := by
  have hleft : routeLeft twoRelays ⟨10, 4, 1⟩ (fun _ => .cleared) = true := by decide +kernel
  obtain ⟨route, first, rest, hroute⟩ := (routeLeft_eq_true (reset_cleared twoRelays)).mp hleft
  exact firstRoute_optimal twoRelays (show ∀ c ∈ twoRelays.contactIndex.entries, c.toTime ≤ maxTime by decide +kernel) 10 4 1
    (by decide) ⟨_, _, hroute.feasible⟩

example : (loadRouteList twoRelays 10 4).map (fun loaded => loaded.routes.map (fun route =>
    (route.payloadClass, route.toNodeNbr, route.arrivalTime))) =
      some [(0, 2, 12), (0, 3, 21), (1, 2, 12)] := by
  decide +kernel

end FirstRoutes
