import CgrJni.Forward

/-!
What the walk along a route list does in one round, and what it has done when it
ends: which routes were tried, and what the proximate nodes stand for.
-/

namespace RouteWalk

open IonDb Libcgr Dijkstra RouteLists Forward

variable {δ σ : Type} {s : IonState} {lookup : CgrLookup δ σ} {bundle : Bundle} {excludedNodes : List Nat}
  {terminusNodeNbr : Nat} {now : Int}

/-- One round of the walk: the end, an expired route, the deadline, or a route considered. -/
theorem walkRound_cases (walk : Walk δ σ) (out : Walk δ σ ⊕ Option (Walked δ σ))
    (h : walkRound s lookup bundle excludedNodes terminusNodeNbr now walk = out) :
    (walk.rest = [] ∧ out = .inr (some (walk.finish none))) ∨
    ∃ route rest, walk.rest = route :: rest ∧
      ((route.toTime < now ∧ (out = .inr none ∨ out = .inl { walk with rest := rest } ∨
          ∃ newRoute, OnRecord s newRoute ∧
            out = .inl { walk with passed := [], rest := insertRoute newRoute (walk.passed ++ rest) })) ∨
        (now ≤ route.toTime ∧ deadline bundle < route.arrivalTime ∧
          out = .inr (some (walk.finish (some route)))) ∨
        (now ≤ route.toTime ∧ route.arrivalTime ≤ deadline bundle ∧
          out = .inl (considerRoute s lookup bundle excludedNodes now route
            { walk with passed := walk.passed ++ [route], rest := rest }))) := by
  subst h
  cases hrest : walk.rest with
  | nil => exact Or.inl ⟨rfl, by simp only [walkRound, hrest]⟩
  | cons route rest =>
    refine Or.inr ⟨route, rest, rfl, ?_⟩
    simp only [walkRound, hrest]
    by_cases hexp : route.toTime < now
    · rw [if_pos hexp]
      refine Or.inl ⟨hexp, ?_⟩
      cases hrec : recomputeRouteForContact s (walk.passed ++ rest) route.toNodeNbr route.fromTime
          ⟨now, terminusNodeNbr, route.payloadClass⟩ with
      | none => exact Or.inl rfl
      | some found =>
        cases found with
        | none => exact Or.inr (Or.inl rfl)
        | some routes =>
          obtain ⟨newRoute, rfl, hon⟩ := recomputeRouteForContact_spec hrec
          exact Or.inr (Or.inr ⟨newRoute, hon, rfl⟩)
    · rw [if_neg hexp]
      by_cases hdl : deadline bundle < route.arrivalTime
      · rw [if_pos hdl]
        exact Or.inr (Or.inl ⟨by omega, hdl, rfl⟩)
      · rw [if_neg hdl]
        exact Or.inr (Or.inr ⟨by omega, by omega, rfl⟩)

/-- A route is passed over, or tried without a directive, or tried with one. -/
theorem considerRoute_cases (route : CgrRoute) (walk : Walk δ σ) :
    considerRoute s lookup bundle excludedNodes now route walk = walk ∨
    (∃ env, lookup.getDirective route.toNodeNbr bundle walk.env = (none, env) ∧
      considerRoute s lookup bundle excludedNodes now route walk =
        { walk with tried := walk.tried ++ [(route, .noDirective)], env := env }) ∨
    ∃ directive env, lookup.getDirective route.toNodeNbr bundle walk.env = (some directive, env) ∧
      considerRoute s lookup bundle excludedNodes now route walk =
        { walk with
          proximateNodes := noteVerdict directive route walk.proximateNodes
            (assessRoute s route bundle now (lookup.readOutduct env directive))
          tried := walk.tried ++
            [(route, assessRoute s route bundle now (lookup.readOutduct env directive))]
          env := env } := by
  unfold considerRoute
  split
  · exact Or.inl rfl
  split
  · exact Or.inl rfl
  split
  · exact Or.inl rfl
  right
  cases hdir : lookup.getDirective route.toNodeNbr bundle walk.env with
  | mk found env =>
    cases found with
    | none => exact Or.inl ⟨env, rfl, by rw [tryRoute, hdir]⟩
    | some directive => exact Or.inr ⟨directive, env, rfl, by rw [tryRoute, hdir]⟩

/-- What every round keeps, from the start of the walk on, holds at its end. -/
theorem walkRoutes_rule {J : Walk δ σ → Prop}
    (hround : ∀ walk walk', J walk →
      walkRound s lookup bundle excludedNodes terminusNodeNbr now walk = .inl walk' → J walk')
    {routes : List CgrRoute} {env : σ} {walked : Walked δ σ} (hstart : J ⟨[], routes, [], [], env⟩)
    (h : walkRoutes s lookup bundle excludedNodes terminusNodeNbr now routes env = some walked) :
    ∃ walk stoppedAt, J walk ∧ walked = walk.finish stoppedAt ∧ ∀ route, stoppedAt = some route →
      route ∈ walk.rest ∧ now ≤ route.toTime ∧ deadline bundle < route.arrivalTime := by
  rw [walkRoutes, Option.join_eq_some_iff] at h
  refine Runs.loop_partial J (fun result => ∀ walked, result = some walked → ∃ walk stoppedAt, J walk ∧
    walked = walk.finish stoppedAt ∧ ∀ route, stoppedAt = some route →
      route ∈ walk.rest ∧ now ≤ route.toTime ∧ deadline bundle < route.arrivalTime)
    hround ?_ _ _ hstart _ h walked rfl
  intro walk result hJ hb walked hw
  rcases walkRound_cases walk _ hb with ⟨-, he⟩ | ⟨route, rest, hrest, ⟨-, he⟩ | ⟨hexp, hdl, he⟩ | ⟨-, -, he⟩⟩
  · obtain rfl := Option.some.inj (hw.symm.trans (Sum.inr.inj he))
    exact ⟨walk, none, hJ, rfl, by simp⟩
  · rcases he with he | he | ⟨newRoute, -, he⟩
    · rw [hw] at he
      cases he
    · cases he
    · cases he
  · obtain rfl := Option.some.inj (hw.symm.trans (Sum.inr.inj he))
    refine ⟨walk, some route, hJ, rfl, ?_⟩
    intro r hr
    obtain rfl := Option.some.inj hr
    exact ⟨by rw [hrest]; exact List.mem_cons_self, hexp, hdl⟩
  · cases he

/-- Only considering a route changes what was tried, the proximate nodes or the callback's records. -/
theorem walkRoutes_considers {J : List (CgrRoute × Verdict) → List (ProximateNode δ) → σ → Prop}
    (hconsider : ∀ route (walk : Walk δ σ), J walk.tried walk.proximateNodes walk.env →
      J (considerRoute s lookup bundle excludedNodes now route walk).tried
        (considerRoute s lookup bundle excludedNodes now route walk).proximateNodes
        (considerRoute s lookup bundle excludedNodes now route walk).env)
    {routes : List CgrRoute} {env : σ} {walked : Walked δ σ} (hstart : J [] [] env)
    (h : walkRoutes s lookup bundle excludedNodes terminusNodeNbr now routes env = some walked) :
    J walked.tried walked.proximateNodes walked.env := by
  have hround : ∀ walk walk' : Walk δ σ, J walk.tried walk.proximateNodes walk.env →
      walkRound s lookup bundle excludedNodes terminusNodeNbr now walk = .inl walk' →
      J walk'.tried walk'.proximateNodes walk'.env := by
    intro walk walk' hJ hb
    obtain ⟨-, he⟩ | ⟨route, rest, -, ⟨-, he | he | ⟨newRoute, -, he⟩⟩ | ⟨-, -, he⟩ | ⟨-, -, he⟩⟩ :=
      walkRound_cases walk _ hb
    · cases he
    · cases he
    · exact Sum.inl.inj he ▸ hJ
    · exact Sum.inl.inj he ▸ hJ
    · cases he
    · exact Sum.inl.inj he ▸ hconsider route { walk with passed := walk.passed ++ [route], rest := rest } hJ
  obtain ⟨walk, stoppedAt, hJ, rfl, -⟩ := walkRoutes_rule hround hstart h
  exact hJ

/-- What is kept whenever a route is tried, without a directive or with one, holds at the end of the walk. -/
theorem walkRoutes_tries {J : List (CgrRoute × Verdict) → List (ProximateNode δ) → σ → Prop}
    (hnone : ∀ tried nodes route env env', lookup.getDirective route.toNodeNbr bundle env = (none, env') →
      J tried nodes env → J (tried ++ [(route, .noDirective)]) nodes env')
    (hnote : ∀ tried nodes route env directive env',
      lookup.getDirective route.toNodeNbr bundle env = (some directive, env') → J tried nodes env →
      J (tried ++ [(route, assessRoute s route bundle now (lookup.readOutduct env' directive))])
        (noteVerdict directive route nodes (assessRoute s route bundle now (lookup.readOutduct env' directive))) env')
    {routes : List CgrRoute} {env : σ} {walked : Walked δ σ} (hstart : J [] [] env)
    (h : walkRoutes s lookup bundle excludedNodes terminusNodeNbr now routes env = some walked) :
    J walked.tried walked.proximateNodes walked.env := by
  refine walkRoutes_considers (fun route walk hJ => ?_) hstart h
  obtain he | ⟨env', hdirective, he⟩ | ⟨directive, env', hdirective, he⟩ :=
    @considerRoute_cases δ σ s lookup bundle excludedNodes now route walk
  · rw [he]
    exact hJ
  · rw [he]
    exact hnone _ _ route _ env' hdirective hJ
  · rw [he]
    exact hnote _ _ route _ directive env' hdirective hJ

theorem considerRoute_frame (route : CgrRoute) (walk : Walk δ σ) :
    (considerRoute s lookup bundle excludedNodes now route walk).passed = walk.passed ∧
      (considerRoute s lookup bundle excludedNodes now route walk).rest = walk.rest ∧
      ∀ t ∈ (considerRoute s lookup bundle excludedNodes now route walk).tried, t ∈ walk.tried ∨ t.1 = route := by
  rcases @considerRoute_cases δ σ s lookup bundle excludedNodes now route walk with he | ⟨env, -, he⟩ | ⟨directive, env, -, he⟩
  · rw [he]
    exact ⟨rfl, rfl, fun t ht => Or.inl ht⟩
  · rw [he]
    refine ⟨rfl, rfl, fun t ht => ?_⟩
    cases List.mem_append.mp ht with
    | inl ht => exact Or.inl ht
    | inr ht => exact Or.inr (List.mem_singleton.mp ht ▸ rfl)
  · rw [he]
    refine ⟨rfl, rfl, fun t ht => ?_⟩
    cases List.mem_append.mp ht with
    | inl ht => exact Or.inl ht
    | inr ht => exact Or.inr (List.mem_singleton.mp ht ▸ rfl)

/-- What is known of all routes of the list, and of those that were tried. -/
structure RoutesKept (P : CgrRoute → Prop) (bundle : Bundle) (now : Int) (walk : Walk δ σ) : Prop where
  routes : ∀ r ∈ walk.passed ++ walk.rest, P r
  tried : ∀ t ∈ walk.tried, P t.1 ∧ now ≤ t.1.toTime ∧ t.1.arrivalTime ≤ deadline bundle

theorem RoutesKept.round {P : CgrRoute → Prop} (hnew : ∀ r, OnRecord s r → P r) {walk walk' : Walk δ σ}
    (h : RoutesKept P bundle now walk)
    (hb : walkRound s lookup bundle excludedNodes terminusNodeNbr now walk = .inl walk') :
    RoutesKept P bundle now walk' := by
  rcases walkRound_cases walk _ hb with ⟨-, he⟩ | ⟨route, rest, hrest, ⟨-, he⟩ | ⟨-, -, he⟩ | ⟨hexp, hdl, he⟩⟩
  · cases he
  · have hdropped : ∀ r ∈ walk.passed ++ rest, P r := by
      intro r hr
      apply h.routes r
      rw [hrest]
      simp only [List.mem_append, List.mem_cons] at hr ⊢
      exact hr.imp_right Or.inr
    rcases he with he | he | ⟨newRoute, hon, he⟩
    · cases he
    · obtain rfl := Sum.inl.inj he
      exact ⟨hdropped, h.tried⟩
    · obtain rfl := Sum.inl.inj he
      refine ⟨fun r hr => ?_, h.tried⟩
      rcases mem_insertRoute.mp hr with rfl | hr
      · exact hnew r hon
      · exact hdropped r hr
  · cases he
  · obtain rfl := Sum.inl.inj he
    obtain ⟨hpassed, hleft, htried⟩ := @considerRoute_frame δ σ s lookup bundle excludedNodes now route
      { walk with passed := walk.passed ++ [route], rest := rest }
    have hroute : P route := h.routes route (by rw [hrest]; simp)
    refine ⟨fun r hr => ?_, fun t ht => ?_⟩
    · rw [hpassed, hleft] at hr
      apply h.routes r
      rw [hrest]
      simpa using hr
    · cases htried t ht with
      | inl hold => exact h.tried t hold
      | inr hthis => exact hthis ▸ ⟨hroute, hexp, hdl⟩

/-- What holds of the routes of a list, and of every route on record, holds of the
routes that the walk tries and of those that it leaves in the list. -/
theorem walkRoutes_routes {P : CgrRoute → Prop} (hnew : ∀ r, OnRecord s r → P r) {routes : List CgrRoute}
    {env : σ} {walked : Walked δ σ} (hroutes : ∀ r ∈ routes, P r)
    (h : walkRoutes s lookup bundle excludedNodes terminusNodeNbr now routes env = some walked) :
    (∀ r ∈ walked.routes, P r) ∧
      ∀ t ∈ walked.tried, P t.1 ∧ now ≤ t.1.toTime ∧ t.1.arrivalTime ≤ deadline bundle := by
  obtain ⟨walk, stoppedAt, hJ, rfl, -⟩ :=
    walkRoutes_rule (J := RoutesKept P bundle now) (fun _ _ hJ hb => hJ.round hnew hb)
      ⟨hroutes, by simp⟩ h
  exact ⟨hJ.routes, hJ.tried⟩

/-- The walk only stops before the end of the list at an unexpired route past the deadline. -/
theorem walkRoutes_stoppedAt {P : CgrRoute → Prop} (hnew : ∀ r, OnRecord s r → P r) {routes : List CgrRoute}
    {env : σ} {walked : Walked δ σ} {route : CgrRoute} (hroutes : ∀ r ∈ routes, P r)
    (h : walkRoutes s lookup bundle excludedNodes terminusNodeNbr now routes env = some walked)
    (hstop : walked.stoppedAt = some route) :
    P route ∧ now ≤ route.toTime ∧ deadline bundle < route.arrivalTime := by
  obtain ⟨walk, stoppedAt, hJ, rfl, hstopped⟩ :=
    walkRoutes_rule (J := RoutesKept P bundle now) (fun _ _ hJ hb => hJ.round hnew hb)
      ⟨hroutes, by simp⟩ h
  obtain ⟨hmem, hopen⟩ := hstopped route hstop
  exact ⟨hJ.routes route (List.mem_append_right _ hmem), hopen⟩

/-- The two tests for expiration, as the verdicts show them. -/
def Judged (bundle : Bundle) : Verdict → Prop
  | .accepted est => est.arrivalTime ≤ deadline bundle
  | .expires est => deadline bundle < est.arrivalTime
  | _ => True

theorem assessRoute_judged (s : IonState) (route : CgrRoute) (bundle : Bundle) (now : Int)
    (outduct : Outduct) : Judged bundle (assessRoute s route bundle now outduct) := by
  unfold assessRoute
  split
  · trivial
  split
  · trivial
  split
  · trivial
  · rename_i est hest
    have hz : computeArrivalTime s route bundle now outduct =
        if deadline bundle < est.arrivalTime then 0 else est.arrivalTime := by
      rw [computeArrivalTime, hest]
    by_cases hdl : deadline bundle < est.arrivalTime
    · rw [hz, if_pos hdl, if_pos rfl, if_pos hdl]
      exact hdl
    · rw [hz, if_neg hdl]
      split
      · trivial
      · exact Int.not_lt.mp hdl

theorem mem_noteProximateNode {directive : δ} {route : CgrRoute} {est : Estimate}
    {nodes : List (ProximateNode δ)} {node : ProximateNode δ}
    (h : node ∈ noteProximateNode directive route est nodes) :
    node ∈ nodes ∨ node.neighborNodeNbr = route.toNodeNbr ∧ node.forfeitTime = route.toTime ∧
      node.arrivalTime = est.arrivalTime ∧
      (node.directive = directive ∨ ∃ old ∈ nodes, old.neighborNodeNbr = node.neighborNodeNbr ∧
        old.directive = node.directive) := by
  induction nodes with
  | nil =>
    obtain rfl := List.mem_singleton.mp h
    exact Or.inr ⟨rfl, rfl, rfl, Or.inl rfl⟩
  | cons head rest ih =>
    rw [noteProximateNode] at h
    split at h
    · rename_i hhead
      cases List.mem_cons.mp h with
      | inr h => exact Or.inl (List.mem_cons_of_mem _ h)
      | inl h =>
        have hcases : node = head ∨ node = head.update route est := by
          rw [h]
          unfold ProximateNode.improve
          split
          · exact Or.inr rfl
          · split
            · exact Or.inr rfl
            · exact Or.inl rfl
        rcases hcases with rfl | rfl
        · exact Or.inl List.mem_cons_self
        · exact Or.inr ⟨hhead, rfl, rfl, Or.inr ⟨head, List.mem_cons_self, rfl, rfl⟩⟩
    · cases List.mem_cons.mp h with
      | inl h => exact Or.inl (h ▸ List.mem_cons_self)
      | inr h =>
        rcases ih h with hold | ⟨hto, hforfeit, harr, hdir | ⟨old, hmem, hold⟩⟩
        · exact Or.inl (List.mem_cons_of_mem _ hold)
        · exact Or.inr ⟨hto, hforfeit, harr, Or.inl hdir⟩
        · exact Or.inr ⟨hto, hforfeit, harr, Or.inr ⟨old, List.mem_cons_of_mem _ hmem, hold⟩⟩

theorem improve_arrivalTime (node : ProximateNode δ) (route : CgrRoute) (est : Estimate) :
    (node.improve route est).neighborNodeNbr = node.neighborNodeNbr ∧
      (node.improve route est).arrivalTime ≤ node.arrivalTime ∧
      (node.improve route est).arrivalTime ≤ est.arrivalTime := by
  unfold ProximateNode.improve
  split
  · rename_i hlt
    exact ⟨rfl, Int.le_of_lt hlt, Int.le_refl _⟩
  · split
    · rename_i heq
      exact ⟨rfl, Int.le_of_eq heq.1, Int.le_refl _⟩
    · exact ⟨rfl, Int.le_refl _, by omega⟩

/-- The neighbor of an accepted route is noted, and no other neighbor is lost or set back. -/
theorem noteProximateNode_covers (directive : δ) (route : CgrRoute) (est : Estimate)
    (nodes : List (ProximateNode δ)) :
    (∃ node ∈ noteProximateNode directive route est nodes,
      node.neighborNodeNbr = route.toNodeNbr ∧ node.arrivalTime ≤ est.arrivalTime) ∧
    ∀ old ∈ nodes, ∃ node ∈ noteProximateNode directive route est nodes,
      node.neighborNodeNbr = old.neighborNodeNbr ∧ node.arrivalTime ≤ old.arrivalTime := by
  induction nodes with
  | nil => exact ⟨⟨_, List.mem_singleton.mpr rfl, rfl, Int.le_refl _⟩, by simp⟩
  | cons head rest ih =>
    rw [noteProximateNode]
    split
    · rename_i hhead
      obtain ⟨hnbr, hold, hnew⟩ := improve_arrivalTime head route est
      refine ⟨⟨_, List.mem_cons_self, hnbr.trans hhead, hnew⟩, fun old h => ?_⟩
      cases List.mem_cons.mp h with
      | inl h => exact ⟨_, List.mem_cons_self, h ▸ hnbr, h ▸ hold⟩
      | inr h => exact ⟨old, List.mem_cons_of_mem _ h, rfl, Int.le_refl _⟩
    · obtain ⟨⟨node, hmem, hnode⟩, hrest⟩ := ih
      refine ⟨⟨node, List.mem_cons_of_mem _ hmem, hnode⟩, fun old h => ?_⟩
      cases List.mem_cons.mp h with
      | inl h => exact ⟨head, List.mem_cons_self, h ▸ rfl, h ▸ Int.le_refl _⟩
      | inr h =>
        obtain ⟨node', hmem', hnode'⟩ := hrest old h
        exact ⟨node', List.mem_cons_of_mem _ hmem', hnode'⟩

/-- What the proximate nodes stand for: accepted routes, and all of them. -/
structure NodesStand (bundle : Bundle) (nodes : List (ProximateNode δ))
    (tried : List (CgrRoute × Verdict)) : Prop where
  stands : ∀ node ∈ nodes, ∃ route est, (route, Verdict.accepted est) ∈ tried ∧
    route.toNodeNbr = node.neighborNodeNbr ∧ node.forfeitTime = route.toTime ∧
    node.arrivalTime = est.arrivalTime
  covers : ∀ route est, (route, Verdict.accepted est) ∈ tried →
    ∃ node ∈ nodes, node.neighborNodeNbr = route.toNodeNbr ∧ node.arrivalTime ≤ est.arrivalTime
  judged : ∀ t ∈ tried, Judged bundle t.2

theorem NodesStand.skip {nodes : List (ProximateNode δ)} {tried : List (CgrRoute × Verdict)}
    (h : NodesStand bundle nodes tried) {route : CgrRoute} {verdict : Verdict}
    (hno : ∀ est, verdict ≠ .accepted est) (hj : Judged bundle verdict) :
    NodesStand bundle nodes (tried ++ [(route, verdict)]) where
  stands node hnode := by
    obtain ⟨r, est, hmem, hr⟩ := h.stands node hnode
    exact ⟨r, est, List.mem_append_left _ hmem, hr⟩
  covers r est hmem := by
    cases List.mem_append.mp hmem with
    | inl hmem => exact h.covers r est hmem
    | inr hmem =>
      obtain ⟨-, he⟩ := Prod.mk.inj (List.mem_singleton.mp hmem)
      exact absurd he.symm (hno est)
  judged t ht := by
    cases List.mem_append.mp ht with
    | inl ht => exact h.judged t ht
    | inr ht => exact List.mem_singleton.mp ht ▸ hj

theorem NodesStand.accept {nodes : List (ProximateNode δ)} {tried : List (CgrRoute × Verdict)}
    (h : NodesStand bundle nodes tried) (directive : δ) {route : CgrRoute} {est : Estimate}
    (hj : Judged bundle (.accepted est)) :
    NodesStand bundle (noteProximateNode directive route est nodes) (tried ++ [(route, .accepted est)]) where
  stands node hnode := by
    rcases mem_noteProximateNode hnode with hold | ⟨hto, hforfeit, harr, -⟩
    · obtain ⟨r, e, hmem, hr⟩ := h.stands node hold
      exact ⟨r, e, List.mem_append_left _ hmem, hr⟩
    · exact ⟨route, est, by simp, hto.symm, hforfeit, harr⟩
  covers r e hmem := by
    obtain ⟨hnew, hkeep⟩ := noteProximateNode_covers directive route est nodes
    cases List.mem_append.mp hmem with
    | inl hmem =>
      obtain ⟨old, hold, hnbr, hle⟩ := h.covers r e hmem
      obtain ⟨node, hnode, hnbr', hle'⟩ := hkeep old hold
      exact ⟨node, hnode, hnbr'.trans hnbr, hle'.trans hle⟩
    | inr hmem =>
      obtain ⟨rfl, he⟩ := Prod.mk.inj (List.mem_singleton.mp hmem)
      cases he
      exact hnew
  judged t ht := by
    cases List.mem_append.mp ht with
    | inl ht => exact h.judged t ht
    | inr ht => exact List.mem_singleton.mp ht ▸ hj

theorem NodesStand.noteVerdict {nodes : List (ProximateNode δ)} {tried : List (CgrRoute × Verdict)}
    (h : NodesStand bundle nodes tried) (directive : δ) {route : CgrRoute} {verdict : Verdict}
    (hj : Judged bundle verdict) :
    NodesStand bundle (noteVerdict directive route nodes verdict) (tried ++ [(route, verdict)]) := by
  cases verdict with
  | accepted est => exact h.accept directive hj
  | noDirective => exact h.skip nofun hj
  | blocked => exact h.skip nofun hj
  | tooLong => exact h.skip nofun hj
  | unusable => exact h.skip nofun hj
  | expires est => exact h.skip nofun hj

theorem walkRoutes_nodes {routes : List CgrRoute} {env : σ} {walked : Walked δ σ}
    (h : walkRoutes s lookup bundle excludedNodes terminusNodeNbr now routes env = some walked) :
    NodesStand bundle walked.proximateNodes walked.tried := by
  have hstart : NodesStand bundle ([] : List (ProximateNode δ)) [] := ⟨by simp, by simp, by simp⟩
  apply walkRoutes_tries (J := fun tried nodes _ => NodesStand bundle nodes tried) _ _ hstart h
  · intro tried nodes route env env' _ hJ
    exact hJ.skip nofun trivial
  · intro tried nodes route env directive env' _ hJ
    exact hJ.noteVerdict directive (assessRoute_judged s route bundle now _)

/-- An invariant of the callback's records, and what it makes a directive mean. -/
structure LookupKeeps (lookup : CgrLookup δ σ) (bundle : Bundle) (I : σ → Prop)
    (D : σ → Nat → δ → Prop) : Prop where
  inv : ∀ n env found env', I env → lookup.getDirective n bundle env = (found, env') → I env'
  found : ∀ n env d env', I env → lookup.getDirective n bundle env = (some d, env') → D env' n d
  keeps : ∀ n env found env', I env → lookup.getDirective n bundle env = (found, env') →
    ∀ m d, D env m d → D env' m d

theorem mem_noteVerdict {directive : δ} {route : CgrRoute} {verdict : Verdict}
    {nodes : List (ProximateNode δ)} {node : ProximateNode δ}
    (h : node ∈ noteVerdict directive route nodes verdict) :
    node ∈ nodes ∨ node.neighborNodeNbr = route.toNodeNbr ∧
      (node.directive = directive ∨ ∃ old ∈ nodes, old.neighborNodeNbr = node.neighborNodeNbr ∧
        old.directive = node.directive) := by
  cases verdict with
  | accepted est =>
    rcases mem_noteProximateNode h with hold | ⟨hto, -, -, hdir⟩
    · exact Or.inl hold
    · exact Or.inr ⟨hto, hdir⟩
  | noDirective => exact Or.inl h
  | blocked => exact Or.inl h
  | tooLong => exact Or.inl h
  | unusable => exact Or.inl h
  | expires est => exact Or.inl h

/-- At the end of the walk the directives of the proximate nodes are good in the records. -/
theorem walkRoutes_env {I : σ → Prop} {D : σ → Nat → δ → Prop} (hl : LookupKeeps lookup bundle I D)
    {routes : List CgrRoute} {env : σ} {walked : Walked δ σ} (henv : I env)
    (h : walkRoutes s lookup bundle excludedNodes terminusNodeNbr now routes env = some walked) :
    I walked.env ∧ ∀ node ∈ walked.proximateNodes, D walked.env node.neighborNodeNbr node.directive := by
  apply walkRoutes_tries (J := fun _ nodes env => I env ∧ ∀ node ∈ nodes, D env node.neighborNodeNbr node.directive)
    _ _ ⟨henv, by simp⟩ h
  · intro tried nodes route env env' hdir hJ
    exact ⟨hl.inv _ _ _ _ hJ.1 hdir, fun node hnode => hl.keeps _ _ _ _ hJ.1 hdir _ _ (hJ.2 node hnode)⟩
  · intro tried nodes route env directive env' hdir hJ
    have hfound := hl.found _ _ _ _ hJ.1 hdir
    have hkeeps : ∀ node ∈ nodes, D env' node.neighborNodeNbr node.directive :=
      fun node hnode => hl.keeps _ _ _ _ hJ.1 hdir _ _ (hJ.2 node hnode)
    refine ⟨hl.inv _ _ _ _ hJ.1 hdir, fun node hnode => ?_⟩
    obtain hold | ⟨hto, hthis | ⟨old, hold, hnbr, hd⟩⟩ := mem_noteVerdict hnode
    · exact hkeeps node hold
    · rw [hto, hthis]
      exact hfound
    · rw [← hnbr, ← hd]
      exact hkeeps old hold

/-- The walk along a single route that is open and not past the deadline. -/
theorem walkRoutes_single {route : CgrRoute} (env : σ) (hopen : now ≤ route.toTime)
    (hdl : route.arrivalTime ≤ deadline bundle) :
    walkRoutes s lookup bundle excludedNodes terminusNodeNbr now [route] env =
      some ((considerRoute s lookup bundle excludedNodes now route ⟨[route], [], [], [], env⟩).finish none) := by
  have hnext : walkRound s lookup bundle excludedNodes terminusNodeNbr now ⟨[], [route], [], [], env⟩ =
      .inl (considerRoute s lookup bundle excludedNodes now route ⟨[route], [], [], [], env⟩) := by
    simp only [walkRound]
    rw [if_neg (by omega), if_neg (by omega)]
    rfl
  have hend : ∀ walk : Walk δ σ, walk.rest = [] →
      walkRound s lookup bundle excludedNodes terminusNodeNbr now walk = .inr (some (walk.finish none)) := by
    intro walk hrest
    simp only [walkRound, hrest]
  obtain ⟨-, hrest, -⟩ := @considerRoute_frame δ σ s lookup bundle excludedNodes now route ⟨[route], [], [], [], env⟩
  have hfuel : walkFuel [route].length = 4 + 1 + 1 := rfl
  rw [walkRoutes, hfuel]
  simp only [Runs.loop, hnext, hend _ hrest]
  rfl

/-- A route past the deadline ends the walk at once. -/
theorem walkRoutes_past {route : CgrRoute} {rest : List CgrRoute} (env : σ) (hopen : now ≤ route.toTime)
    (hdl : deadline bundle < route.arrivalTime) :
    walkRoutes s lookup bundle excludedNodes terminusNodeNbr now (route :: rest) env =
      some ⟨route :: rest, [], [], some route, env⟩ := by
  have hstop : walkRound s lookup bundle excludedNodes terminusNodeNbr now ⟨[], route :: rest, [], [], env⟩ =
      .inr (some ⟨route :: rest, [], [], some route, env⟩) := by
    simp only [walkRound]
    rw [if_neg (by omega), if_pos hdl]
    rfl
  obtain ⟨fuel, hfuel⟩ : ∃ fuel, walkFuel (route :: rest).length = fuel + 1 :=
    ⟨_, (Nat.succ_pred_eq_of_pos (Nat.mul_pos (Nat.succ_pos _) (Nat.succ_pos _))).symm⟩
  rw [walkRoutes, hfuel]
  simp only [Runs.loop, hstop]
  rfl

/-- The list is walked as it is, or loaded and walked, or loaded in part and not walked. -/
theorem identifyProximateNodes_cases {routingObject : Option (List CgrRoute)} {env : σ}
    {identified : Identified δ σ}
    (h : identifyProximateNodes s lookup bundle excludedNodes terminusNodeNbr now routingObject env =
      some identified) :
    (∃ routes, routingObject = some routes ∧ identified.loaded = false ∧ identified.failed = false ∧
      walkRoutes s lookup bundle excludedNodes terminusNodeNbr now routes env = some identified.walked) ∨
    (routingObject = none ∧ identified.loaded = true ∧
      ∃ list, loadRouteList s now terminusNodeNbr = some list ∧
        ((identified.failed = false ∧ walkRoutes s lookup bundle excludedNodes terminusNodeNbr now list.routes env =
            some identified.walked) ∨
          (identified.failed = true ∧ identified.walked = ⟨list.routes, [], [], none, env⟩))) := by
  unfold identifyProximateNodes at h
  cases routingObject with
  | some routes =>
    obtain ⟨walked, hw, rfl⟩ := Option.map_eq_some_iff.mp h
    exact Or.inl ⟨routes, rfl, rfl, rfl, hw⟩
  | none =>
    obtain ⟨list, hlist, h⟩ := Option.bind_eq_some_iff.mp h
    refine Or.inr ⟨rfl, ?_⟩
    by_cases hc : list.complete
    · rw [if_pos hc] at h
      obtain ⟨walked, hw, rfl⟩ := Option.map_eq_some_iff.mp h
      exact ⟨rfl, list, hlist, Or.inl ⟨rfl, hw⟩⟩
    · rw [if_neg hc] at h
      obtain rfl := Option.some.inj h
      exact ⟨rfl, list, hlist, Or.inr ⟨rfl, rfl⟩⟩

/-- What holds of the routes of the list, if there is one, and of every route on record,
holds of the routes tried and of those left in the list. -/
theorem identifyProximateNodes_routes {P : CgrRoute → Prop} (hnew : ∀ r, OnRecord s r → P r)
    {routingObject : Option (List CgrRoute)} {env : σ} {identified : Identified δ σ}
    (hroutes : ∀ routes, routingObject = some routes → ∀ r ∈ routes, P r)
    (h : identifyProximateNodes s lookup bundle excludedNodes terminusNodeNbr now routingObject env =
      some identified) :
    (∀ r ∈ identified.walked.routes, P r) ∧
      ∀ t ∈ identified.walked.tried, P t.1 ∧ now ≤ t.1.toTime ∧ t.1.arrivalTime ≤ deadline bundle := by
  rcases identifyProximateNodes_cases h with ⟨routes, hobj, -, -, hw⟩ | ⟨-, -, list, hlist, hw⟩
  · exact walkRoutes_routes hnew (hroutes routes hobj) hw
  · have hloaded : ∀ r ∈ list.routes, P r := fun r hr => hnew r (loadRouteList_onRecord hlist r hr)
    rcases hw with ⟨-, hw⟩ | ⟨-, hw⟩
    · exact walkRoutes_routes hnew hloaded hw
    · rw [hw]
      exact ⟨hloaded, by simp⟩

/-- The selected neighbor is one of the proximate nodes, with the earliest arrival. -/
theorem foldl_preferNode (nodes : List (ProximateNode δ)) (best : ProximateNode δ) :
    ∃ selected, nodes.foldl preferNode (some best) = some selected ∧ selected ∈ best :: nodes ∧
      ∀ node ∈ best :: nodes, selected.arrivalTime ≤ node.arrivalTime := by
  induction nodes generalizing best with
  | nil => exact ⟨best, rfl, by simp, by simp⟩
  | cons node rest ih =>
    have hstep : ∃ next, preferNode (some best) node = some next ∧ (next = best ∨ next = node) ∧
        next.arrivalTime ≤ best.arrivalTime ∧ next.arrivalTime ≤ node.arrivalTime := by
      unfold preferNode
      by_cases h1 : node.arrivalTime < best.arrivalTime
      · exact ⟨node, by simp only [if_pos h1], Or.inr rfl, Int.le_of_lt h1, Int.le_refl _⟩
      · simp only [if_neg h1]
        by_cases h2 : node.arrivalTime = best.arrivalTime
        · simp only [if_pos h2]
          split
          · exact ⟨node, rfl, Or.inr rfl, by omega, by omega⟩
          · split
            · exact ⟨node, rfl, Or.inr rfl, by omega, by omega⟩
            · exact ⟨best, rfl, Or.inl rfl, by omega, by omega⟩
        · simp only [if_neg h2]
          exact ⟨best, rfl, Or.inl rfl, by omega, by omega⟩
    obtain ⟨next, hnext, hor, hb, hn⟩ := hstep
    obtain ⟨selected, hsel, hmem, hle⟩ := ih next
    refine ⟨selected, by rw [List.foldl_cons, hnext, hsel], ?_, ?_⟩
    · simp only [List.mem_cons] at hmem ⊢
      rcases hmem with rfl | hmem
      · rcases hor with rfl | rfl
        · exact Or.inl rfl
        · exact Or.inr (Or.inl rfl)
      · exact Or.inr (Or.inr hmem)
    · intro m hm
      have hself := hle next List.mem_cons_self
      rcases List.mem_cons.mp hm with rfl | hm
      · omega
      rcases List.mem_cons.mp hm with rfl | hm
      · omega
      · exact hle m (List.mem_cons_of_mem _ hm)

/-- A bundle that is not critical goes to one neighbor at most, and to one if there is any. -/
theorem selectProximateNodes_spec (hbundle : bundle.minimumLatency = false)
    (nodes : List (ProximateNode δ)) :
    (nodes = [] ∧ selectProximateNodes bundle nodes = []) ∨
    ∃ selected ∈ nodes, selectProximateNodes bundle nodes = [selected] ∧
      ∀ node ∈ nodes, selected.arrivalTime ≤ node.arrivalTime := by
  cases nodes with
  | nil => exact Or.inl ⟨rfl, by simp [selectProximateNodes, hbundle]⟩
  | cons node rest =>
    obtain ⟨selected, hsel, hmem, hle⟩ := foldl_preferNode rest node
    exact Or.inr ⟨selected, hmem, by simp [selectProximateNodes, hbundle, hsel, preferNode], hle⟩

theorem selectProximateNodes_mem (hbundle : bundle.minimumLatency = false) {nodes : List (ProximateNode δ)}
    {node : ProximateNode δ} (h : node ∈ selectProximateNodes bundle nodes) : node ∈ nodes := by
  obtain ⟨-, hsel⟩ | ⟨selected, hmem, hsel, -⟩ := selectProximateNodes_spec hbundle nodes
  · rw [hsel] at h
    cases h
  · rw [hsel] at h
    exact List.mem_singleton.mp h ▸ hmem

end RouteWalk
