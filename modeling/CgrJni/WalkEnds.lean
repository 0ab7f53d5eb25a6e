import CgrJni.RouteSeries
import CgrJni.RouteWalk

/-!
The walk along a route list comes to an end: a recomputed route is not expired, so
that every restart leaves one expired route less.
-/

namespace WalkEnds

open IonDb Libcgr Dijkstra DijkstraCorrect RouteLists RouteSeries Forward RouteWalk

variable {δ σ : Type} {s : IonState} {q : Query} {lookup : CgrLookup δ σ} {bundle : Bundle}
  {excludedNodes : List Nat} {terminusNodeNbr : Nat} {now : Int}

/-- Every contact of a feasible path is open when the path begins. -/
theorem feasibleFrom_open {usable : IonCXref → Prop} {latency : Nat → Nat} {node : Nat} {t a : Int}
    {cs : List IonCXref} (h : FeasibleFrom s usable latency node t cs a) : ∀ c ∈ cs, t < c.toTime := by
  induction cs generalizing node t with
  | nil => simp
  | cons d rest ih =>
    obtain ⟨-, -, hopen, owlt, -, hrest⟩ := h
    intro c hc
    cases List.mem_cons.mp hc with
    | inl he => exact he ▸ hopen
    | inr hr =>
      have hlt := ih hrest c hr
      omega

theorem lt_foldr_min {t m : Int} (hops : List IonCXref) (h : ∀ c ∈ hops, t < c.toTime) (hm : t < m) :
    t < hops.foldr (fun c t => min c.toTime t) m := by
  induction hops with
  | nil => exact hm
  | cons c rest ih =>
    have hrest := ih (fun d hd => h d (List.mem_cons_of_mem _ hd))
    have hc := h c List.mem_cons_self
    rw [List.foldr_cons]
    omega

/-- A route that has just been computed is not expired. -/
theorem filledRoute_open {suppressed : IonCXref → Bool} {route : CgrRoute}
    (h : FilledRoute s q suppressed route) : q.currentTime < route.toTime := by
  have hle := FeasibleFrom.le h.feasible.path
  have hlt := h.feasible.in_time
  rw [h.toTime]
  exact lt_foldr_min _ (feasibleFrom_open h.feasible.path) (by omega)

/-- A recomputation ends, and the route that it inserts is not expired. -/
theorem recomputeRouteForContact_cases (routes : List CgrRoute) (toNodeNbr : Nat) (fromTime : Int) (q : Query) :
    recomputeRouteForContact s routes toNodeNbr fromTime q = some none ∨
      ∃ newRoute, q.currentTime < newRoute.toTime ∧
        recomputeRouteForContact s routes toNodeNbr fromTime q = some (some (insertRoute newRoute routes)) := by
  obtain ⟨hnone, -⟩ | ⟨-, hreset, hsearch⟩ := recomputeRouteForContact_search s routes toNodeNbr fromTime q
  · exact Or.inl hnone
  · obtain ⟨notes, -, ⟨hrun, -⟩ | ⟨route, first, rest, hrun, hroute⟩⟩ := findNextBestRoute_cases (q := q) hreset
    · exact Or.inl (by rw [hsearch, hrun]; rfl)
    · exact Or.inr ⟨route, filledRoute_open hroute.filled, by rw [hsearch, hrun]; rfl⟩

def expiredRoutes (now : Int) (walk : Walk δ σ) : Nat :=
  (walk.passed ++ walk.rest).countP (fun route => decide (route.toTime < now))

/-- With an expired route taken out there is one fewer. -/
theorem expired_deleted {route : CgrRoute} (h : route.toTime < now) (passed rest : List CgrRoute) :
    (passed ++ route :: rest).countP (fun r => decide (r.toTime < now)) =
      (passed ++ rest).countP (fun r => decide (r.toTime < now)) + 1 := by
  rw [List.countP_append, List.countP_cons, if_pos (decide_eq_true h), List.countP_append, Nat.add_assoc]

/-- A route that is open adds none. -/
theorem expired_inserted {newRoute : CgrRoute} (h : now < newRoute.toTime) (routes : List CgrRoute) :
    (insertRoute newRoute routes).countP (fun r => decide (r.toTime < now)) =
      routes.countP (fun r => decide (r.toTime < now)) := by
  rw [(insertRoute_perm newRoute routes).countP_eq, List.countP_cons, if_neg (by simpa using h.le), Nat.add_zero]

/-- The rounds that a walk along at most `n` routes may still take. -/
def roundsToWalk (now : Int) (n : Nat) (walk : Walk δ σ) : Nat :=
  expiredRoutes now walk * (n + 1) + walk.rest.length

/-- A round ends the walk, or leaves an expired route less, or a route less to come to. -/
theorem walkRound_progress {n : Nat} (walk : Walk δ σ) (hn : (walk.passed ++ walk.rest).length ≤ n) :
    (∃ walk', walkRound s lookup bundle excludedNodes terminusNodeNbr now walk = .inl walk' ∧
        (walk'.passed ++ walk'.rest).length ≤ n ∧ roundsToWalk now n walk' < roundsToWalk now n walk) ∨
      ∃ walked, walkRound s lookup bundle excludedNodes terminusNodeNbr now walk = .inr (some walked) := by
  unfold walkRound roundsToWalk expiredRoutes
  cases hrest : walk.rest with
  | nil => exact Or.inr ⟨_, rfl⟩
  | cons route rest =>
    rw [hrest] at hn
    simp only [List.length_append, List.length_cons] at hn
    by_cases hexp : route.toTime < now
    · have hcount := expired_deleted hexp walk.passed rest
      simp only [if_pos hexp]
      obtain hrec | ⟨newRoute, hopen, hrec⟩ := recomputeRouteForContact_cases (s := s) (walk.passed ++ rest)
        route.toNodeNbr route.fromTime ⟨now, terminusNodeNbr, route.payloadClass⟩
      · refine Or.inl ⟨{ walk with rest := rest }, by rw [hrec], ?_, ?_⟩
        · simp only [List.length_append]
          omega
        · apply lex_lt
          · rw [hcount]
            exact Or.inl (Nat.lt_succ_self _)
          · show rest.length ≤ n
            omega
      · have hlen := (insertRoute_perm newRoute (walk.passed ++ rest)).length_eq
        simp only [List.length_cons, List.length_append] at hlen
        refine Or.inl ⟨{ walk with passed := [], rest := insertRoute newRoute (walk.passed ++ rest) },
          by rw [hrec], ?_, ?_⟩
        · simp only [List.nil_append]
          omega
        · apply lex_lt
          · rw [hcount, List.nil_append, expired_inserted hopen]
            exact Or.inl (Nat.lt_succ_self _)
          · show (insertRoute newRoute (walk.passed ++ rest)).length ≤ n
            omega
    · simp only [if_neg hexp]
      by_cases hdl : deadline bundle < route.arrivalTime
      · rw [if_pos hdl]
        exact Or.inr ⟨_, rfl⟩
      · rw [if_neg hdl]
        obtain ⟨hpassed, hleft, -⟩ := @considerRoute_frame δ σ s lookup bundle excludedNodes now route
          { walk with passed := walk.passed ++ [route], rest := rest }
        refine Or.inl ⟨_, rfl, ?_, ?_⟩
        · rw [hpassed, hleft]
          simp only [List.length_append, List.length_singleton]
          omega
        · rw [hpassed, hleft]
          apply lex_lt
          · rw [List.append_assoc, List.singleton_append, List.length_cons]
            exact Or.inr ⟨rfl, Nat.lt_succ_self _⟩
          · simp only
            omega

theorem walkRoutes_ends (s : IonState) (lookup : CgrLookup δ σ) (bundle : Bundle) (excludedNodes : List Nat)
    (terminusNodeNbr : Nat) (now : Int) (routes : List CgrRoute) (env : σ) :
    ∃ walked, walkRoutes s lookup bundle excludedNodes terminusNodeNbr now routes env = some walked := by
  have hround : ∀ walk : Walk δ σ, ∀ out, (walk.passed ++ walk.rest).length ≤ routes.length →
      walkRound s lookup bundle excludedNodes terminusNodeNbr now walk = out →
      (∃ walk', out = .inl walk' ∧ (walk'.passed ++ walk'.rest).length ≤ routes.length ∧
        roundsToWalk now routes.length walk' < roundsToWalk now routes.length walk) ∨
      ∃ walked, out = .inr (some walked) := by
    intro walk out hn hb
    exact hb ▸ walkRound_progress walk hn
  have hfuel : roundsToWalk now routes.length (⟨[], routes, [], [], env⟩ : Walk δ σ) < walkFuel routes.length := by
    have hcount : expiredRoutes now (⟨[], routes, [], [], env⟩ : Walk δ σ) ≤ routes.length := List.countP_le_length
    have hmul := Nat.mul_le_mul_right (routes.length + 1) hcount
    rw [roundsToWalk, walkFuel, Nat.succ_mul, Nat.mul_succ]
    rw [Nat.mul_succ] at hmul ⊢
    simp only
    omega
  obtain ⟨out, hloop, walked, rfl⟩ := Runs.loop_spec
    (fun walk : Walk δ σ => (walk.passed ++ walk.rest).length ≤ routes.length)
    (fun out => ∃ walked, out = some walked) (roundsToWalk now routes.length)
    (fun walk walk' hn hb => by
      obtain ⟨walk'', he, hn', hlt⟩ | ⟨walked, he⟩ := hround walk _ hn hb
      · exact Sum.inl.inj he ▸ ⟨hn', hlt⟩
      · cases he)
    (fun walk out hn hb => by
      obtain ⟨walk'', he, -⟩ | ⟨walked, he⟩ := hround walk _ hn hb
      · cases he
      · exact ⟨walked, Sum.inr.inj he⟩)
    (walkFuel routes.length) ⟨[], routes, [], [], env⟩ (by simp) hfuel
  exact ⟨walked, by rw [walkRoutes, hloop]; rfl⟩

end WalkEnds
