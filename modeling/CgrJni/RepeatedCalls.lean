import CgrJni.BestNeighbor
import CgrJni.Reports
import CgrJni.Snapshots

/-!
A routing call made again: the first call deletes and recomputes expired routes on its way,
the second one walks the list that is left. It tries the same routes, leaves the list as it
is, and chooses the same neighbor.
-/

namespace RepeatedCalls

open IonDb Libcgr Rfx RouteLists Forward RouteWalk EarlyStop BestNeighbor Process Interface Reports

variable {δ σ : Type} {s : IonState} {lookup : CgrLookup δ σ} {bundle : Bundle} {excluded : List Nat}
  {terminusNodeNbr : Nat} {now : Int}

/-- From records that it keeps in order, the callback answers for a node as it did before. -/
structure SteadyOn (lookup : CgrLookup δ σ) (bundle : Bundle) (I : σ → Prop) (outductFor : Nat → Option Forward.Outduct) :
    Prop where
  inv : ∀ n env found env', I env → lookup.getDirective n bundle env = (found, env') → I env'
  answer : ∀ n env found env', I env → lookup.getDirective n bundle env = (found, env') →
    found.map (lookup.readOutduct env') = outductFor n

theorem walkRoutes_steadyOn {I : σ → Prop} {outductFor : Nat → Option Forward.Outduct}
    (hsteady : SteadyOn lookup bundle I outductFor) {routes : List CgrRoute} {env : σ} (henv : I env) {walked : Walked δ σ}
    (h : walkRoutes s lookup bundle excluded terminusNodeNbr now routes env = some walked) :
    ∀ t ∈ walked.tried, t.2 = verdictFor s bundle now t.1 (outductFor t.1.toNodeNbr) := by
  have hadd : ∀ (tried : List (CgrRoute × Verdict)) (route : CgrRoute) (verdict : Verdict),
      verdict = verdictFor s bundle now route (outductFor route.toNodeNbr) →
      (∀ t ∈ tried, t.2 = verdictFor s bundle now t.1 (outductFor t.1.toNodeNbr)) →
      ∀ t ∈ tried ++ [(route, verdict)], t.2 = verdictFor s bundle now t.1 (outductFor t.1.toNodeNbr) := by
    intro tried route verdict hverdict hall t ht
    cases List.mem_append.mp ht with
    | inl hold => exact hall t hold
    | inr hnew => exact List.mem_singleton.mp hnew ▸ hverdict
  have hwalk : I walked.env ∧ ∀ t ∈ walked.tried, t.2 = verdictFor s bundle now t.1 (outductFor t.1.toNodeNbr) := by
    apply walkRoutes_tries (J := fun tried _ env => I env ∧
      ∀ t ∈ tried, t.2 = verdictFor s bundle now t.1 (outductFor t.1.toNodeNbr)) _ _
      ⟨henv, fun _ ht => absurd ht List.not_mem_nil⟩ h
    · intro tried nodes route env env' hdirective hall
      refine ⟨hsteady.inv _ env _ _ hall.1 hdirective, hadd tried route _ ?_ hall.2⟩
      rw [← hsteady.answer route.toNodeNbr env _ _ hall.1 hdirective]
      rfl
    · intro tried nodes route env directive env' hdirective hall
      refine ⟨hsteady.inv _ env _ _ hall.1 hdirective, hadd tried route _ ?_ hall.2⟩
      rw [← hsteady.answer route.toNodeNbr env _ _ hall.1 hdirective]
      rfl
  exact hwalk.2

/-! The walk, up to the route at which it stops. -/

/-- The routes of a list before the first one that has expired or is past the deadline. -/
def reached (bundle : Bundle) (now : Int) (routes : List CgrRoute) : List CgrRoute :=
  routes.takeWhile (fun route => inTime bundle now route)

theorem reached_append {passed rest : List CgrRoute} (h : ∀ route ∈ passed, inTime bundle now route) :
    reached bundle now (passed ++ rest) = passed ++ reached bundle now rest :=
  List.takeWhile_append_of_pos (fun route hroute => decide_eq_true (h route hroute))

/-- A route that is open is not put among the routes in time so that it stops the walk before them. -/
theorem reached_insertRoute {newRoute : CgrRoute} (hopen : now ≤ newRoute.toTime) (rest : List CgrRoute)
    {passed : List CgrRoute} (h : ∀ route ∈ passed, inTime bundle now route) :
    passed ⊆ reached bundle now (insertRoute newRoute (passed ++ rest)) := by
  induction passed with
  | nil => exact List.nil_subset _
  | cons route passed ih =>
    have hroute := h route List.mem_cons_self
    have hrest : ∀ r ∈ passed, inTime bundle now r := fun r hr => h r (List.mem_cons_of_mem _ hr)
    rw [List.cons_append, insertRoute]
    split
    · rw [reached, List.takeWhile_cons_of_pos (by simpa using hroute)]
      exact List.cons_subset_cons route (ih hrest)
    · rename_i hbefore
      have hnew : inTime bundle now newRoute := ⟨hopen, by have := hroute.2; omega⟩
      have hall : ∀ r ∈ newRoute :: route :: passed, inTime bundle now r := by
        intro r hr
        rcases List.mem_cons.mp hr with rfl | hr
        · exact hnew
        · exact h r hr
      have happend := @reached_append bundle now _ rest hall
      rw [List.cons_append, List.cons_append] at happend
      rw [happend]
      exact fun r hr => List.mem_append_left _ (List.mem_cons_of_mem _ hr)

/-- A round of the walk that is not the last one. -/
theorem walkRound_inl {walk walk' : Walk δ σ}
    (h : walkRound s lookup bundle excluded terminusNodeNbr now walk = .inl walk') :
    ∃ route rest, walk.rest = route :: rest ∧
      ((route.toTime < now ∧ (walk' = { walk with rest := rest } ∨ ∃ newRoute, now ≤ newRoute.toTime ∧
          walk' = { walk with passed := [], rest := insertRoute newRoute (walk.passed ++ rest) })) ∨
        (inTime bundle now route ∧ walk' = considerRoute s lookup bundle excluded now route
          { walk with passed := walk.passed ++ [route], rest := rest })) := by
  cases hrest : walk.rest with
  | nil =>
    simp only [walkRound, hrest] at h
    cases h
  | cons route rest =>
    refine ⟨route, rest, rfl, ?_⟩
    simp only [walkRound, hrest] at h
    split at h
    · rename_i hexpired
      refine Or.inl ⟨hexpired, ?_⟩
      obtain hnone | ⟨newRoute, hopen, hsome⟩ := WalkEnds.recomputeRouteForContact_cases (s := s) (walk.passed ++ rest)
        route.toNodeNbr route.fromTime ⟨now, terminusNodeNbr, route.payloadClass⟩
      · rw [hnone] at h
        exact Or.inl (Sum.inl.inj h).symm
      · rw [hsome] at h
        exact Or.inr ⟨newRoute, le_of_lt hopen, (Sum.inl.inj h).symm⟩
    · rename_i hopen
      split at h
      · cases h
      · rename_i hearly
        exact Or.inr ⟨⟨not_lt.mp hopen, not_lt.mp hearly⟩, (Sum.inl.inj h).symm⟩

/-- Every route that was tried is one that is reached, and every route that was passed has been tried unless it is
passed over. -/
structure Settled (s : IonState) (bundle : Bundle) (excluded : List Nat) (now : Int) (walk : Walk δ σ) : Prop where
  passed : ∀ route ∈ walk.passed, inTime bundle now route
  reached : ∀ t ∈ walk.tried, ¬ passedOver s bundle excluded t.1 ∧ t.1 ∈ reached bundle now (walk.passed ++ walk.rest)
  tried : ∀ route ∈ walk.passed, ¬ passedOver s bundle excluded route → route ∈ walk.tried.map Prod.fst

theorem considerRoute_tries (route : CgrRoute) (walk : Walk δ σ) :
    (passedOver s bundle excluded route ∧ (considerRoute s lookup bundle excluded now route walk).tried = walk.tried) ∨
    (¬ passedOver s bundle excluded route ∧ ∃ verdict,
      (considerRoute s lookup bundle excluded now route walk).tried = walk.tried ++ [(route, verdict)]) := by
  by_cases hpass : passedOver s bundle excluded route
  · exact Or.inl ⟨hpass, by rw [considerRoute_passedOver hpass]⟩
  · refine Or.inr ⟨hpass, ?_⟩
    rw [considerRoute_tried hpass, tryRoute]
    split
    · exact ⟨_, rfl⟩
    · exact ⟨_, rfl⟩

theorem Settled.round {walk walk' : Walk δ σ} (h : Settled s bundle excluded now walk)
    (hround : walkRound s lookup bundle excluded terminusNodeNbr now walk = .inl walk') :
    Settled s bundle excluded now walk' := by
  obtain ⟨route, rest, hrest, ⟨hexpired, hcases⟩ | ⟨hin, rfl⟩⟩ := walkRound_inl hround
  · have hnot : ¬ inTime bundle now route := fun hin => absurd hin.1 (not_le.mpr hexpired)
    -- nothing behind an expired route has been tried
    have htried : ∀ t ∈ walk.tried, ¬ passedOver s bundle excluded t.1 ∧ t.1 ∈ walk.passed := by
      intro t ht
      obtain ⟨hpass, hreached⟩ := h.reached t ht
      rw [hrest, reached_append h.passed, RepeatedCalls.reached, List.takeWhile_cons_of_neg (by simpa using hnot),
        List.append_nil] at hreached
      exact ⟨hpass, hreached⟩
    rcases hcases with rfl | ⟨newRoute, hopen, rfl⟩
    · refine ⟨h.passed, fun t ht => ⟨(htried t ht).1, ?_⟩, h.tried⟩
      rw [reached_append h.passed]
      exact List.mem_append_left _ (htried t ht).2
    · exact ⟨fun r hr => absurd hr List.not_mem_nil,
        fun t ht => ⟨(htried t ht).1, reached_insertRoute hopen rest h.passed (htried t ht).2⟩,
        fun r hr => absurd hr List.not_mem_nil⟩
  · obtain ⟨hpassed, hafter, -⟩ := @considerRoute_frame δ σ s lookup bundle excluded now route
      { walk with passed := walk.passed ++ [route], rest := rest }
    have hall : ∀ r ∈ walk.passed ++ [route], inTime bundle now r := by
      intro r hr
      rcases List.mem_append.mp hr with hr | hr
      · exact h.passed r hr
      · exact List.mem_singleton.mp hr ▸ hin
    have hlist : walk.passed ++ [route] ++ rest = walk.passed ++ walk.rest := by
      rw [hrest, List.append_assoc, List.singleton_append]
    have hthis : route ∈ RepeatedCalls.reached bundle now (walk.passed ++ walk.rest) := by
      rw [← hlist, reached_append hall]
      simp
    have htries := @considerRoute_tries δ σ s lookup bundle excluded now route
      { walk with passed := walk.passed ++ [route], rest := rest }
    refine ⟨by rw [hpassed]; exact hall, ?_, ?_⟩
    · intro t ht
      rw [hpassed, hafter, hlist]
      rcases htries with ⟨-, hsame⟩ | ⟨hpass, verdict, hadded⟩
      · exact h.reached t (hsame ▸ ht)
      · rw [hadded] at ht
        rcases List.mem_append.mp ht with ht | ht
        · exact h.reached t ht
        · exact List.mem_singleton.mp ht ▸ ⟨hpass, hthis⟩
    · intro r hr hpass
      rw [hpassed] at hr
      rcases List.mem_append.mp hr with hr | hr
      · have hold := h.tried r hr hpass
        rcases htries with ⟨-, hsame⟩ | ⟨-, verdict, hadded⟩
        · rw [hsame]
          exact hold
        · rw [hadded, List.map_append]
          exact List.mem_append_left _ hold
      · obtain rfl := List.mem_singleton.mp hr
        rcases htries with ⟨hno, -⟩ | ⟨-, verdict, hadded⟩
        · exact absurd hno hpass
        · rw [hadded, List.map_append]
          exact List.mem_append_right _ (by simp)

theorem settled_start (routes : List CgrRoute) (env : σ) :
    Settled s bundle excluded now (⟨[], routes, [], [], env⟩ : Walk δ σ) :=
  ⟨fun _ hr => absurd hr List.not_mem_nil, fun _ ht => absurd ht List.not_mem_nil, fun _ hr => absurd hr List.not_mem_nil⟩

/-- The walk is over: nothing is left, or a route that is open but past the deadline. -/
def Stops (bundle : Bundle) (now : Int) : List CgrRoute → Prop
  | [] => True
  | route :: _ => now ≤ route.toTime ∧ deadline bundle < route.arrivalTime

theorem reached_of_stops {rest : List CgrRoute} (h : Stops bundle now rest) : reached bundle now rest = [] := by
  cases rest with
  | nil => rfl
  | cons route rest =>
    have hnot : ¬ inTime bundle now route := fun hin => absurd hin.2 (not_le.mpr h.2)
    rw [reached, List.takeWhile_cons_of_neg (by simpa using hnot)]

/-- What every round keeps holds where the walk stops. -/
theorem walkRoutes_stops {J : Walk δ σ → Prop}
    (hround : ∀ walk walk', J walk →
      walkRound s lookup bundle excluded terminusNodeNbr now walk = .inl walk' → J walk')
    {routes : List CgrRoute} {env : σ} {walked : Walked δ σ} (hstart : J ⟨[], routes, [], [], env⟩)
    (h : walkRoutes s lookup bundle excluded terminusNodeNbr now routes env = some walked) :
    ∃ walk stoppedAt, J walk ∧ Stops bundle now walk.rest ∧ walked = walk.finish stoppedAt := by
  rw [walkRoutes, Option.join_eq_some_iff] at h
  refine Runs.loop_partial J (fun result => ∀ walked, result = some walked → ∃ walk stoppedAt, J walk ∧
    Stops bundle now walk.rest ∧ walked = walk.finish stoppedAt) hround ?_ _ _ hstart _ h walked rfl
  intro walk result hJ hb walked hw
  obtain ⟨hrest, he⟩ | ⟨route, rest, hrest, ⟨-, he | he | ⟨newRoute, -, he⟩⟩ | ⟨hopen, hlate, he⟩ | ⟨-, -, he⟩⟩ :=
    walkRound_cases walk _ hb
  · obtain rfl := Option.some.inj (hw.symm.trans (Sum.inr.inj he))
    exact ⟨walk, none, hJ, by rw [hrest]; trivial, rfl⟩
  · rw [hw] at he
    cases he
  · cases he
  · cases he
  · obtain rfl := Option.some.inj (hw.symm.trans (Sum.inr.inj he))
    exact ⟨walk, some route, hJ, by rw [hrest]; exact ⟨hopen, hlate⟩, rfl⟩
  · cases he

/-- The routes tried are those that are reached in the list that is left, but for those passed over. -/
theorem walkRoutes_tried {routes : List CgrRoute} {env : σ} {walked : Walked δ σ}
    (h : walkRoutes s lookup bundle excluded terminusNodeNbr now routes env = some walked) :
    (∀ route, route ∈ walked.tried.map Prod.fst ↔
        route ∈ reached bundle now walked.routes ∧ ¬ passedOver s bundle excluded route) ∧
      ∃ passed rest, walked.routes = passed ++ rest ∧ (∀ route ∈ passed, inTime bundle now route) ∧
        Stops bundle now rest := by
  obtain ⟨walk, stoppedAt, hsettled, hstops, rfl⟩ :=
    walkRoutes_stops (fun _ _ hJ hb => hJ.round hb) (settled_start routes env) h
  have hreached : reached bundle now (walk.passed ++ walk.rest) = walk.passed := by
    rw [reached_append hsettled.passed, reached_of_stops hstops, List.append_nil]
  refine ⟨?_, walk.passed, walk.rest, rfl, hsettled.passed, hstops⟩
  intro route
  constructor
  · intro hroute
    obtain ⟨t, ht, rfl⟩ := List.mem_map.mp hroute
    obtain ⟨hpass, hin⟩ := hsettled.reached t ht
    exact ⟨hin, hpass⟩
  · rintro ⟨hin, hpass⟩
    have hmem : route ∈ reached bundle now (walk.passed ++ walk.rest) := hin
    rw [hreached] at hmem
    exact hsettled.tried route hmem hpass

/-- Wherever the walk has come to, the next route is open. -/
theorem open_of_straight {passed rest before after : List CgrRoute} {route : CgrRoute}
    (hpassed : ∀ r ∈ passed, inTime bundle now r) (hstops : Stops bundle now rest)
    (hbefore : ∀ r ∈ before, inTime bundle now r)
    (hlist : before ++ route :: after = passed ++ rest) : now ≤ route.toTime := by
  rcases List.append_eq_append_iff.mp hlist with ⟨mid, hmid, hafter⟩ | ⟨mid, hmid, hrest⟩
  · cases mid with
    | nil =>
      rw [List.nil_append] at hafter
      rw [← hafter] at hstops
      exact hstops.1
    | cons r mid =>
      obtain ⟨rfl, -⟩ := List.cons.inj hafter
      exact (hpassed route (by rw [hmid]; simp)).1
  · cases mid with
    | nil =>
      rw [List.nil_append] at hrest
      rw [hrest] at hstops
      exact hstops.1
    | cons r mid =>
      have hin := hbefore r (by rw [hmid]; simp)
      rw [hrest] at hstops
      exact absurd hin.2 (not_le.mpr hstops.2)

/-- A list without expired routes up to where the walk stops is left as it is. -/
theorem walkRoutes_straight {passed rest : List CgrRoute} (hpassed : ∀ route ∈ passed, inTime bundle now route)
    (hstops : Stops bundle now rest) {env : σ} {walked : Walked δ σ}
    (h : walkRoutes s lookup bundle excluded terminusNodeNbr now (passed ++ rest) env = some walked) :
    walked.routes = passed ++ rest := by
  have hround : ∀ walk walk' : Walk δ σ,
      Settled s bundle excluded now walk ∧ walk.passed ++ walk.rest = passed ++ rest →
      walkRound s lookup bundle excluded terminusNodeNbr now walk = .inl walk' →
      Settled s bundle excluded now walk' ∧ walk'.passed ++ walk'.rest = passed ++ rest := by
    rintro walk walk' ⟨hsettled, hlist⟩ hround
    refine ⟨hsettled.round hround, ?_⟩
    obtain ⟨route, more, hrest, ⟨hexpired, -⟩ | ⟨-, rfl⟩⟩ := walkRound_inl hround
    · rw [hrest] at hlist
      exact absurd (open_of_straight hpassed hstops hsettled.passed hlist) (not_le.mpr hexpired)
    · obtain ⟨hpassed, hafter, -⟩ := @considerRoute_frame δ σ s lookup bundle excluded now route
        { walk with passed := walk.passed ++ [route], rest := more }
      rw [hpassed, hafter, ← hlist, hrest, List.append_assoc, List.singleton_append]
  obtain ⟨walk, stoppedAt, ⟨-, hlist⟩, -, rfl⟩ :=
    walkRoutes_stops hround ⟨settled_start (passed ++ rest) env, rfl⟩ h
  exact hlist

/-- The second walk tries the same routes and leaves the list as it is. -/
theorem walkRoutes_again {routes : List CgrRoute} {env env' : σ} {walked : Walked δ σ}
    (h : walkRoutes s lookup bundle excluded terminusNodeNbr now routes env = some walked) :
    ∃ walked', walkRoutes s lookup bundle excluded terminusNodeNbr now walked.routes env' = some walked' ∧
      walked'.routes = walked.routes ∧
      ∀ route, route ∈ walked.tried.map Prod.fst ↔ route ∈ walked'.tried.map Prod.fst := by
  obtain ⟨htried, passed, rest, hroutes, hpassed, hstops⟩ := walkRoutes_tried h
  obtain ⟨walked', h'⟩ := WalkEnds.walkRoutes_ends s lookup bundle excluded terminusNodeNbr now walked.routes env'
  have hsame : walked'.routes = walked.routes := by
    rw [hroutes] at h' ⊢
    exact walkRoutes_straight hpassed hstops h'
  refine ⟨walked', h', hsame, ?_⟩
  intro route
  rw [htried, (walkRoutes_tried h').1, hsame]

/-! The whole call. -/

/-- Nothing is due to be discarded after a call, unless the plan was edited later than now. -/
theorem refresh_again {p : IonProcess} {nodeNbr : Nat} {part : Partition} {vdb : CgrVdb}
    (hpart : p.partitions nodeNbr = some part) (hvdb : p.cgrvdb = some vdb) (hedit : part.ion.lastEditTime ≤ now) :
    ∃ part' vdb', (refresh p vdb part.ion.lastEditTime now).partitions nodeNbr = some part' ∧ part'.ion = part.ion ∧
      (refresh p vdb part.ion.lastEditTime now).cgrvdb = some vdb' ∧ part.ion.lastEditTime ≤ vdb'.lastLoadTime := by
  rcases refresh_cases p vdb part.ion.lastEditTime now with ⟨hkept, hsame⟩ | ⟨-, hparts, hvdb'⟩
  · exact ⟨part, vdb, by rw [hsame, hpart], rfl, by rw [hsame, hvdb], hkept⟩
  · refine ⟨part.without nodeNbr vdb.routeLists, ⟨now, []⟩, ?_, rfl, hvdb', hedit⟩
    rw [hparts, hpart, Option.map_some]

theorem cgrForward_of_le {p : IonProcess} {nodeNbr : Nat} {part : Partition} {vdb : CgrVdb} {env : σ}
    (hpart : p.partitions nodeNbr = some part) (hvdb : p.cgrvdb = some vdb)
    (hle : part.ion.lastEditTime ≤ vdb.lastLoadTime) (ht : terminusNodeNbr ≠ 0) :
    cgrForward p nodeNbr lookup bundle terminusNodeNbr now env =
      routeBundle p nodeNbr lookup bundle terminusNodeNbr now env := by
  simp only [cgrForward, hpart, hvdb]
  rw [if_neg ht, refresh, if_neg (not_lt.mpr hle)]

theorem keepRoutes_again {p : IonProcess} {nodeNbr : Nat} {part : Partition} {identified again : Identified δ σ}
    (hloaded : again.loaded = false) (hroutes : again.walked.routes = identified.walked.routes) :
    keepRoutes (keepRoutes p nodeNbr terminusNodeNbr part identified) nodeNbr terminusNodeNbr
        (setRoutes part terminusNodeNbr (some identified.walked.routes)) again =
      keepRoutes p nodeNbr terminusNodeNbr part identified := by
  simp [keepRoutes, setRoutes, hloaded, hroutes]

theorem Forwarding.of_failed {identified : Identified δ σ} (h : (Forwarding.of bundle identified).result = 0) :
    identified.failed = false := by
  cases hfailed : identified.failed with
  | false => rfl
  | true => simp [Forwarding.of, hfailed] at h

theorem selected_of {identified : Identified δ σ} (h : identified.failed = false) :
    (Forwarding.of bundle identified).selected = selectProximateNodes bundle identified.walked.proximateNodes := by
  rw [Forwarding.of, h]
  rfl

/-- The same routes, with the same outducts, lead to the same choice. -/
theorem selected_again {I : σ → Prop} {outductFor : Nat → Option Forward.Outduct}
    (hbundle : bundle.minimumLatency = false) (hsteady : SteadyOn lookup bundle I outductFor)
    {routes routes' : List CgrRoute} {env env' : σ} (henv : I env) (henv' : I env') {walked walked' : Walked δ σ}
    (h : walkRoutes s lookup bundle excluded terminusNodeNbr now routes env = some walked)
    (h' : walkRoutes s lookup bundle excluded terminusNodeNbr now routes' env' = some walked')
    (hsame : ∀ route, route ∈ walked.tried.map Prod.fst ↔ route ∈ walked'.tried.map Prod.fst) :
    (selectProximateNodes bundle walked'.proximateNodes).map choiceRank =
      (selectProximateNodes bundle walked.proximateNodes).map choiceRank := by
  have hchosen := selectProximateNodes_chosen hbundle (walkRoutes_best h)
  have hchosen' := selectProximateNodes_chosen hbundle (walkRoutes_best h')
  exact (hchosen.unique hchosen' (accepted_eq_of_steady (walkRoutes_steadyOn hsteady henv h)
    (walkRoutes_steadyOn hsteady henv' h') hsame)).symm

theorem routeBundle_again {I : σ → Prop} {outductFor : Nat → Option Forward.Outduct}
    (hbundle : bundle.minimumLatency = false) (hsteady : SteadyOn lookup bundle I outductFor) {p p' : IonProcess}
    {nodeNbr : Nat} {part : Partition} {vdb : CgrVdb} {env env' : σ} {forwarding : Forwarding δ σ} (henv : I env)
    (henv' : I env') (hpart : p.partitions nodeNbr = some part) (hvdb : p.cgrvdb = some vdb)
    (h : routeBundle p nodeNbr lookup bundle terminusNodeNbr now env = some (p', forwarding))
    (hresult : forwarding.result = 0) :
    (∃ part' vdb', p'.partitions nodeNbr = some part' ∧ part'.ion = part.ion ∧ p'.cgrvdb = some vdb' ∧
        vdb'.lastLoadTime = vdb.lastLoadTime) ∧
      ∃ forwarding', routeBundle p' nodeNbr lookup bundle terminusNodeNbr now env' = some (p', forwarding') ∧
        forwarding'.result = 0 ∧ forwarding'.selected.map choiceRank = forwarding.selected.map choiceRank := by
  rw [routeBundle, hpart, Option.bind_some] at h
  cases hnode : findNode part.ion.nodes terminusNodeNbr with
  | none =>
    simp only [hnode, Option.some.injEq, Prod.mk.injEq] at h
    obtain ⟨rfl, rfl⟩ := h
    refine ⟨⟨part, vdb, hpart, rfl, hvdb, rfl⟩, Forwarding.without 0 env', ?_, rfl, rfl⟩
    simp only [routeBundle, hpart, Option.bind_some, hnode]
  | some terminusNode =>
    simp only [hnode] at h
    obtain ⟨identified, hid, he⟩ := Option.map_eq_some_iff.mp h
    obtain ⟨rfl, rfl⟩ := Prod.mk.inj he
    have hfailed := Forwarding.of_failed hresult
    obtain ⟨routes, hwalk⟩ : ∃ routes, walkRoutes part.ion lookup bundle (excludedNodes bundle terminusNode) terminusNodeNbr
        now routes env = some identified.walked := by
      obtain ⟨routes, -, -, -, hwalk⟩ | ⟨-, -, list, -, ⟨-, hwalk⟩ | ⟨hfail, -⟩⟩ := identifyProximateNodes_cases hid
      · exact ⟨routes, hwalk⟩
      · exact ⟨list.routes, hwalk⟩
      · rw [hfailed] at hfail
        cases hfail
    obtain ⟨walked', hwalk', hroutes, htried⟩ := @walkRoutes_again δ σ _ _ _ _ _ _ _ _ env' _ hwalk
    have hpart' : (keepRoutes p nodeNbr terminusNodeNbr part identified).partitions nodeNbr =
        some (setRoutes part terminusNodeNbr (some identified.walked.routes)) := Function.update_self ..
    constructor
    · cases hloaded : identified.loaded with
      | false => exact ⟨_, vdb, hpart', rfl, by simp [keepRoutes, hloaded, hvdb], rfl⟩
      | true => exact ⟨_, { vdb with routeLists := vdb.routeLists ++ [(nodeNbr, terminusNodeNbr)] }, hpart', rfl,
          by simp [keepRoutes, hloaded, hvdb], rfl⟩
    · refine ⟨Forwarding.of bundle ⟨walked', false, false⟩, ?_, rfl, ?_⟩
      · have hion : (setRoutes part terminusNodeNbr (some identified.walked.routes)).ion = part.ion := rfl
        rw [routeBundle, hpart', Option.bind_some]
        simp only [hion, hnode, setRoutes_self, identifyProximateNodes, hwalk', Option.map_some]
        rw [keepRoutes_again rfl hroutes]
      · rw [selected_of rfl, selected_of hfailed]
        exact selected_again hbundle hsteady henv henv' hwalk hwalk' htried

/-- A routing call that is made again at the same time, for the same bundle and with the same outducts, changes
nothing in the process and chooses the same neighbor. -/
theorem cgrForward_again (lookup : CgrLookup δ σ) (bundle : Bundle) (hbundle : bundle.minimumLatency = false)
    (I : σ → Prop) (outductFor : Nat → Option Forward.Outduct) (hsteady : SteadyOn lookup bundle I outductFor)
    (p p' : IonProcess) (nodeNbr terminusNodeNbr : Nat) (now : Int) (env env' : σ) (henv : I env) (henv' : I env')
    (forwarding : Forwarding δ σ)
    (h : cgrForward p nodeNbr lookup bundle terminusNodeNbr now env = some (p', forwarding))
    (hresult : forwarding.result = 0)
    (hedit : ∀ part, p.partitions nodeNbr = some part → part.ion.lastEditTime ≤ now) :
    ∃ forwarding', cgrForward p' nodeNbr lookup bundle terminusNodeNbr now env' = some (p', forwarding') ∧
      forwarding'.result = 0 ∧ forwarding'.selected.map choiceRank = forwarding.selected.map choiceRank := by
  rw [cgrForward] at h
  cases hpart : p.partitions nodeNbr with
  | none => simp [hpart] at h
  | some part =>
    cases hvdb : p.cgrvdb with
    | none => simp [hpart, hvdb] at h
    | some vdb =>
      simp only [hpart, hvdb] at h
      by_cases ht : terminusNodeNbr = 0
      · rw [if_pos ht, Option.some.injEq, Prod.mk.injEq] at h
        obtain ⟨-, rfl⟩ := h
        cases hresult
      · rw [if_neg ht] at h
        obtain ⟨part₁, vdb₁, hpart₁, hion₁, hvdb₁, hle⟩ := refresh_again hpart hvdb (hedit part hpart)
        obtain ⟨⟨part₂, vdb₂, hpart₂, hion₂, hvdb₂, hload⟩, forwarding', hagain, hchoice⟩ :=
          routeBundle_again hbundle hsteady henv henv' hpart₁ hvdb₁ h hresult
        refine ⟨forwarding', ?_, hchoice⟩
        rw [cgrForward_of_le hpart₂ hvdb₂ (by rw [hion₂, hion₁, hload]; exact hle) ht]
        exact hagain

section

variable {sim : Router.Simulator} {router : Router.ContactGraphRouter}

/-- The catalogue leads to the outducts as they are at the router. -/
def InOrder (router : Router.ContactGraphRouter) (env : OneEnv) : Prop :=
  env.router = router ∧ ∀ host elt, env.catalogue (getOutductName host) = some elt →
    env.outductList[elt]? = some (ionOutduct router host)

theorem inOrder_start : InOrder router (OneEnv.start router) := ⟨rfl, fun _ _ helt => by cases helt⟩

theorem readOutduct_of_get {env : OneEnv} {elt : Nat} {outduct : Forward.Outduct}
    (h : env.outductList[elt]? = some outduct) : Interface.readOutduct env elt = outduct := by
  rw [Interface.readOutduct, List.getD_eq_getElem?_getD, h, Option.getD_some]

/-- The outduct that was converted first for a host is the one that is found. -/
theorem oneLookup_steadyOn (sim : Router.Simulator) (router : Router.ContactGraphRouter) (bundle : Bundle) :
    SteadyOn (oneLookup sim) bundle (InOrder router)
      (fun n => (Router.getHostFromNumber sim n).map (ionOutduct router)) := by
  have hboth : ∀ n env found env', InOrder router env → getONEDirective sim n env = (found, env') →
      InOrder router env' ∧
        found.map (Interface.readOutduct env') = (Router.getHostFromNumber sim n).map (ionOutduct router) := by
    intro n env found env' hI h
    obtain ⟨hrouter, hcatalogue⟩ := hI
    unfold getONEDirective at h
    cases hhost : Router.getHostFromNumber sim n with
    | none =>
      simp only [hhost] at h
      obtain ⟨rfl, rfl⟩ := Prod.mk.inj h
      exact ⟨⟨hrouter, hcatalogue⟩, rfl⟩
    | some host =>
      simp only [hhost] at h
      cases helt : env.catalogue (getOutductName host) with
      | some elt =>
        simp only [helt] at h
        obtain ⟨rfl, rfl⟩ := Prod.mk.inj h
        exact ⟨⟨hrouter, hcatalogue⟩, congrArg some (readOutduct_of_get (hcatalogue host elt helt))⟩
      | none =>
        simp only [helt] at h
        obtain ⟨rfl, rfl⟩ := Prod.mk.inj h
        refine ⟨⟨hrouter, ?_⟩, ?_⟩
        · intro other elt hother
          dsimp only at hother ⊢
          by_cases hname : getOutductName other = getOutductName host
          · rw [hname, Function.update_self, Option.some.injEq] at hother
            rw [← hother, List.getElem?_concat_length, hrouter, Snapshots.getOutductName_injective hname]
          · rw [Function.update_of_ne hname] at hother
            have hget := hcatalogue other elt hother
            rw [List.getElem?_append_left (List.getElem?_eq_some_iff.mp hget).1, hget]
        · apply congrArg some
          rw [← hrouter]
          exact readOutduct_of_get List.getElem?_concat_length
  exact ⟨fun n env found env' hI h => (hboth n env found env' hI h).1,
    fun n env found env' hI h => (hboth n env found env' hI h).2⟩

/-- The first of the two routes that are listed at time 20 has expired at time 51. -/
def listedBefore (env : OneEnv) : List (Addressed OneEnv) :=
  [⟨1, 10, .initializeNode⟩, ⟨1, 10, .edit (.insertContact 10 100 1 2 1000 1)⟩,
    ⟨1, 10, .edit (.insertContact 10 50 2 3 1000 1)⟩, ⟨1, 10, .edit (.insertContact 60 90 2 3 1000 1)⟩,
    ⟨1, 10, .edit (.insertRange 10 100 1 2 1)⟩, ⟨1, 10, .edit (.insertRange 10 100 2 3 1)⟩,
    ⟨1, 20, .cgrForward (bundleTo 3) 3 env⟩]

def emptyEnv : OneEnv := OneEnv.start (Router.ContactGraphRouter.init (fun _ => 0) (fun _ => 0))

theorem cgrForward_again_recomputed : ∃ p p' forwarding,
    Runs.run (Process.step (oneLookup RouterQueues.threeHosts)) IonProcess.start (listedBefore emptyEnv) = some p ∧
      cgrForward p 1 (oneLookup RouterQueues.threeHosts) (bundleTo 3) 3 51 emptyEnv = some (p', forwarding) ∧
      forwarding.selected.map ProximateNode.neighborNodeNbr = [2] ∧
      ∃ forwarding', cgrForward p' 1 (oneLookup RouterQueues.threeHosts) (bundleTo 3) 3 51 emptyEnv =
          some (p', forwarding') ∧
        forwarding'.result = 0 ∧ forwarding'.selected.map choiceRank = forwarding.selected.map choiceRank := by
  have hany : (Runs.run (Process.step (oneLookup RouterQueues.threeHosts)) IonProcess.start (listedBefore emptyEnv)).any
      (fun p => (p.partitions 1).all (fun part => decide (part.ion.lastEditTime ≤ 51)) &&
        (cgrForward p 1 (oneLookup RouterQueues.threeHosts) (bundleTo 3) 3 51 emptyEnv).any (fun r =>
          r.2.result == 0 && r.2.selected.map ProximateNode.neighborNodeNbr == [2])) = true := by
    decide +kernel
  obtain ⟨p, hrun, hp⟩ := (Option.any_eq_true _ _).mp hany
  obtain ⟨hedit, hp⟩ := Bool.and_eq_true_iff.mp hp
  obtain ⟨⟨p', forwarding⟩, hf, hr⟩ := (Option.any_eq_true _ _).mp hp
  obtain ⟨hresult, hselected⟩ := Bool.and_eq_true_iff.mp hr
  refine ⟨p, p', forwarding, hrun, hf, beq_iff_eq.mp hselected, ?_⟩
  refine cgrForward_again (oneLookup RouterQueues.threeHosts) (bundleTo 3) rfl (InOrder emptyEnv.router) _
    (oneLookup_steadyOn RouterQueues.threeHosts emptyEnv.router (bundleTo 3)) p p' 1 3 51 emptyEnv emptyEnv
    inOrder_start inOrder_start forwarding hf (beq_iff_eq.mp hresult) ?_
  intro part hpart
  rw [hpart] at hedit
  exact of_decide_eq_true hedit

end

end RepeatedCalls
