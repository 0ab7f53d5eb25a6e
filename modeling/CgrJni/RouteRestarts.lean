import CgrJni.BestNeighbor

/-!
The walk along a route list begins again at the head whenever an expired route has been
recomputed. How often it can do so, and what is left in the list when it comes to the end.
-/

namespace RouteRestarts

open IonDb Libcgr Dijkstra RouteLists Forward RouteWalk WalkEnds

variable {δ σ : Type} {s : IonState} {lookup : CgrLookup δ σ} {bundle : Bundle} {excludedNodes : List Nat}
  {terminusNodeNbr : Nat} {now : Int}

/-- The round in which an expired route is deleted and another one computed for its lead contact. -/
def Restart (s : IonState) (terminusNodeNbr : Nat) (now : Int) (walk walk' : Walk δ σ) : Prop :=
  ∃ route rest routes, walk.rest = route :: rest ∧ route.toTime < now ∧
    recomputeRouteForContact s (walk.passed ++ rest) route.toNodeNbr route.fromTime
      ⟨now, terminusNodeNbr, route.payloadClass⟩ = some (some routes) ∧
    walk' = { walk with passed := [], rest := routes }

theorem Restart.walkRound {walk walk' : Walk δ σ} (h : Restart s terminusNodeNbr now walk walk') :
    walkRound s lookup bundle excludedNodes terminusNodeNbr now walk = .inl walk' := by
  obtain ⟨route, rest, routes, hrest, hexpired, hrec, rfl⟩ := h
  simp only [Forward.walkRound, hrest, if_pos hexpired, hrec]

/-- The route that is inserted is open, so the one deleted is missing from the expired ones. -/
theorem Restart.fewer {walk walk' : Walk δ σ} (h : Restart s terminusNodeNbr now walk walk') :
    expiredRoutes now walk' < expiredRoutes now walk := by
  obtain ⟨route, rest, routes, hrest, hexpired, hrec, rfl⟩ := h
  obtain hnone | ⟨newRoute, hopen, hsome⟩ := recomputeRouteForContact_cases (s := s) (walk.passed ++ rest)
    route.toNodeNbr route.fromTime ⟨now, terminusNodeNbr, route.payloadClass⟩
  · rw [hnone] at hrec
    cases hrec
  · rw [hsome] at hrec
    obtain rfl := Option.some.inj (Option.some.inj hrec)
    rw [expiredRoutes, expiredRoutes, hrest, List.nil_append, expired_inserted hopen, expired_deleted hexpired]
    exact Nat.lt_succ_self _

/-- The routes behind the cursor were open when the walk passed them. -/
def PassedOpen (now : Int) (walk : Walk δ σ) : Prop := ∀ route ∈ walk.passed, now ≤ route.toTime

theorem walkRound_passedOpen {walk walk' : Walk δ σ} (hpassed : PassedOpen now walk)
    (h : walkRound s lookup bundle excludedNodes terminusNodeNbr now walk = .inl walk') : PassedOpen now walk' := by
  obtain ⟨-, he⟩ | ⟨route, rest, -, ⟨-, he | he | ⟨newRoute, -, he⟩⟩ | ⟨-, -, he⟩ | ⟨hopen, -, he⟩⟩ :=
    walkRound_cases walk _ h
  · cases he
  · cases he
  · exact Sum.inl.inj he ▸ hpassed
  · exact Sum.inl.inj he ▸ fun _ hr => absurd hr List.not_mem_nil
  · cases he
  · intro r hr
    rw [Sum.inl.inj he, (considerRoute_frame route _).1] at hr
    cases List.mem_append.mp hr with
    | inl hold => exact hpassed r hold
    | inr hthis => exact List.mem_singleton.mp hthis ▸ hopen

/-- A walk that was not stopped has passed every route that is left. -/
theorem walkRoutes_open {routes : List CgrRoute} {env : σ} {walked : Walked δ σ}
    (h : walkRoutes s lookup bundle excludedNodes terminusNodeNbr now routes env = some walked)
    (hstopped : walked.stoppedAt = none) : ∀ route ∈ walked.routes, now ≤ route.toTime := by
  rw [walkRoutes, Option.join_eq_some_iff] at h
  have hpassed : PassedOpen now (⟨[], routes, [], [], env⟩ : Walk δ σ) := fun _ hr => absurd hr List.not_mem_nil
  refine Runs.loop_partial (PassedOpen now) (fun result => ∀ walked : Walked δ σ, result = some walked →
    walked.stoppedAt = none → ∀ route ∈ walked.routes, now ≤ route.toTime)
    (fun _ _ hp hb => walkRound_passedOpen hp hb) ?_ _ _ hpassed _ h walked rfl hstopped
  intro walk result hp hb walked hresult hnone route hroute
  obtain ⟨hrest, he⟩ | ⟨r, rest, -, ⟨-, he | he | ⟨newRoute, -, he⟩⟩ | ⟨-, -, he⟩ | ⟨-, -, he⟩⟩ :=
    walkRound_cases walk _ hb
  · obtain rfl := Option.some.inj (hresult.symm.trans (Sum.inr.inj he))
    rw [Walk.finish, hrest, List.append_nil] at hroute
    exact hp route hroute
  · rw [hresult] at he
    cases he
  · cases he
  · cases he
  · obtain rfl := Option.some.inj (hresult.symm.trans (Sum.inr.inj he))
    cases hnone
  · cases he

/-- A recomputed route is still open, so that each restart leaves fewer expired routes, and so the
walk ends; if the deadline has not stopped it, there is no expired route any more. -/
theorem restarting_walk_ends (s : IonState) (lookup : CgrLookup δ σ) (bundle : Bundle) (excludedNodes : List Nat)
    (terminusNodeNbr : Nat) (now : Int) (routingObject : Option (List CgrRoute)) (env : σ) :
    (∀ routes toNodeNbr fromTime payloadClass routes',
      recomputeRouteForContact s routes toNodeNbr fromTime ⟨now, terminusNodeNbr, payloadClass⟩ =
        some (some routes') →
      ∃ newRoute, now < newRoute.toTime ∧ routes' = insertRoute newRoute routes) ∧
    (∀ walk walk' : Walk δ σ, Restart s terminusNodeNbr now walk walk' →
      walkRound s lookup bundle excludedNodes terminusNodeNbr now walk = .inl walk' ∧
        expiredRoutes now walk' < expiredRoutes now walk) ∧
    ∃ identified, identifyProximateNodes s lookup bundle excludedNodes terminusNodeNbr now routingObject env =
        some identified ∧
      (identified.failed = false → identified.walked.stoppedAt = none →
        ∀ route ∈ identified.walked.routes, ¬ route.toTime < now) := by
  refine ⟨?_, fun walk walk' h => ⟨h.walkRound, h.fewer⟩, ?_⟩
  · intro routes toNodeNbr fromTime payloadClass routes' hrec
    obtain hnone | ⟨newRoute, hopen, hsome⟩ := recomputeRouteForContact_cases (s := s) routes toNodeNbr fromTime
      ⟨now, terminusNodeNbr, payloadClass⟩
    · rw [hnone] at hrec
      cases hrec
    · rw [hsome] at hrec
      exact ⟨newRoute, hopen, (Option.some.inj (Option.some.inj hrec)).symm⟩
  · obtain ⟨identified, hrun⟩ := BestNeighbor.identifyProximateNodes_ends s lookup bundle excludedNodes
      terminusNodeNbr now routingObject env
    refine ⟨identified, hrun, ?_⟩
    intro hfailed hstopped route hroute
    have hopen : now ≤ route.toTime := by
      obtain ⟨routes, -, -, -, hw⟩ | ⟨-, -, list, -, ⟨-, hw⟩ | ⟨hfail, -⟩⟩ := identifyProximateNodes_cases hrun
      · exact walkRoutes_open hw hstopped route hroute
      · exact walkRoutes_open hw hstopped route hroute
      · rw [hfail] at hfailed
        cases hfailed
    omega

end RouteRestarts
