import CgrJni.RouteLoading

/-!
The contact that ends a route: whether the loading finds it among the hops, by the time at
which the route is said to end.
-/

namespace LimitContacts

open IonDb Libcgr Dijkstra DijkstraCorrect RouteLists RouteSeries InitialContacts RouteLoading

variable {s : IonState} {q : Query} {currentTime : Int} {terminusNodeNbr : Nat} {load load' : Load} {loaded : Loaded}
  {route : CgrRoute} {first : IonCXref} {rest : List IonCXref} {notes : Notes}

/-- Some hop ends when the route is said to. -/
def HasLimit (route : CgrRoute) : Prop := ∃ c ∈ route.hops, c.toTime = route.toTime

/-- The list is loaded to the end, and each of its routes ends with one of its hops. -/
def LimitsFound (s : IonState) (currentTime : Int) (terminusNodeNbr : Nat) : Prop :=
  ∃ loaded, loadRouteList s currentTime terminusNodeNbr = some loaded ∧ loaded.complete = true ∧
    ∀ route ∈ loaded.routes, HasLimit route

theorem foldr_min_choice (hops : List IonCXref) (m : Int) : hops.foldr (fun c t => min c.toTime t) m = m ∨
    ∃ c ∈ hops, c.toTime = hops.foldr (fun c t => min c.toTime t) m := by
  induction hops with
  | nil => exact Or.inl rfl
  | cons d rest ih =>
    rw [List.foldr_cons]
    cases min_choice d.toTime (rest.foldr (fun c t => min c.toTime t) m) with
    | inl hd =>
      rw [hd]
      exact Or.inr ⟨d, List.mem_cons_self, rfl⟩
    | inr hrest =>
      rw [hrest]
      exact ih.imp_right (fun ⟨c, hc, htime⟩ => ⟨c, List.mem_cons_of_mem d hc, htime⟩)

/-- The running minimum is one of the values if one is as low as where it begins. -/
theorem foldr_min_attained {hops : List IonCXref} {m : Int} (h : ∃ c ∈ hops, c.toTime ≤ m) :
    ∃ c ∈ hops, c.toTime = hops.foldr (fun c t => min c.toTime t) m := by
  cases foldr_min_choice hops m with
  | inr hfound => exact hfound
  | inl hstart =>
    obtain ⟨c, hc, hle⟩ := h
    have hmin := foldr_min_le hops m c hc
    exact ⟨c, hc, by omega⟩

/-- A route that is found has its limiting contact exactly if some hop ends by the horizon. -/
theorem Found.hasLimit_iff (h : Found s q notes route first rest) :
    HasLimit route ↔ ∃ c ∈ route.hops, c.toTime ≤ maxTime := by
  rw [HasLimit, h.filled.toTime]
  constructor
  · rintro ⟨c, hc, htime⟩
    exact ⟨c, hc, htime ▸ foldr_min_le_init route.hops maxTime⟩
  · exact foldr_min_attained

/-- Every path that a search could find has a contact that ends by the horizon. -/
def EndsInTime (s : IonState) (q : Query) : Prop :=
  ∀ cs a, Feasible s q (fun _ => false) cs a → ∃ c ∈ cs, c.toTime ≤ maxTime

theorem Found.hasLimit (h : Found s q notes route first rest) (hends : EndsInTime s q) : HasLimit route := by
  apply (Found.hasLimit_iff h).mpr
  rw [h.hops]
  exact hends _ _ (Feasible.of_excluded h.feasible (fun _ _ _ => rfl))

theorem hasLimit_append {routes : List CgrRoute} (h : ∀ r ∈ routes, HasLimit r) (hroute : HasLimit route) :
    ∀ r ∈ routes ++ [route], HasLimit r := by
  intro r hr
  cases List.mem_append.mp hr with
  | inl hold => exact h r hold
  | inr hnew => exact List.mem_singleton.mp hnew ▸ hroute

theorem hasLimit_round (h : ∀ r ∈ load.routes, HasLimit r) (hends : EndsInTime s q)
    (hround : Round s q load (.inl load')) : ∀ r ∈ load'.routes, HasLimit r := by
  obtain hkept | ⟨route, first, rest, hroute, hrecorded⟩ := hround.routes
  · rw [hkept]
    exact h
  · rw [hrecorded]
    exact hasLimit_append h (Found.hasLimit hroute hends)

theorem complete_last (hends : EndsInTime s q) (hround : Round s q load (.inr (some loaded))) :
    loaded.complete = true ∧ loaded.routes = load.routes := by
  cases hround with
  | finished hsearch hnone => exact ⟨rfl, rfl⟩
  | givenUp hroute hanchor hend =>
    obtain ⟨c, hc, htime⟩ := Found.hasLimit hroute hends
    rw [hroute.hops] at hc
    exact absurd htime (hend c hc)

theorem Reached.class_lt {payloadClass : Nat} (h : Reached s currentTime terminusNodeNbr payloadClass load) :
    payloadClass < payloadClasses := by
  induction h with
  | start => decide
  | round h hround ih => exact ih
  | nextClass h hround hcomplete hclass ih => exact hclass

theorem Reached.hasLimit {payloadClass : Nat}
    (hends : ∀ k < payloadClasses, EndsInTime s ⟨currentTime, terminusNodeNbr, k⟩)
    (h : Reached s currentTime terminusNodeNbr payloadClass load) : ∀ r ∈ load.routes, HasLimit r := by
  induction h with
  | start => exact nofun
  | round h hround ih => exact hasLimit_round ih (hends _ (Reached.class_lt h)) (h.cases_round hround)
  | @nextClass k load loaded h hround hcomplete hclass ih =>
    have hlast := complete_last (hends _ (Reached.class_lt h)) (h.cases_round hround)
    show ∀ r ∈ loaded.routes, HasLimit r
    rw [hlast.2]
    exact ih

/-- Where every path has a contact that ends by the horizon, the loading goes through to the end. -/
theorem limitsFound_of_endsInTime (hends : ∀ k < payloadClasses, EndsInTime s ⟨currentTime, terminusNodeNbr, k⟩) :
    LimitsFound s currentTime terminusNodeNbr := by
  obtain ⟨last, load, loaded, hload, hround, -, hrun⟩ := loadRouteList_reached s currentTime terminusNodeNbr
  have hlast := complete_last (hends _ (Reached.class_lt hload)) (hload.cases_round hround)
  refine ⟨loaded, hrun, hlast.1, ?_⟩
  rw [hlast.2]
  exact Reached.hasLimit hends hload

theorem minCapacity_zero_le (payloadClass : Nat) : minCapacity 0 ≤ minCapacity payloadClass := by
  match payloadClass with
  | 0 => decide
  | 1 => decide
  | 2 => decide
  | _ + 3 => exact show 1024 ≤ 2 ^ 64 - 1 by decide

/-- A contact of the local node that outlasts the horizon, and that a search could use. -/
structure Lasting (ownNodeNbr : Nat) (c : IonCXref) : Prop where
  fromNode : c.fromNode = ownNodeNbr
  starts : 0 < c.fromTime
  before : c.fromTime < maxTime
  capacity : minCapacity 0 ≤ contactCapacity c
  outlasts : maxTime < c.toTime

/-- The first hop of a path starts after the epoch, and before the horizon. -/
theorem endsInTime_of_none (h : ∀ c ∈ s.contactIndex, ¬ Lasting s.ownNodeNbr c) (q : Query) : EndsInTime s q := by
  intro cs a hf
  cases cs with
  | nil =>
    obtain ⟨c, hc, -⟩ := hf.terminus
    cases hc
  | cons c rest =>
    refine ⟨c, List.mem_cons_self, ?_⟩
    by_contra hlong
    obtain ⟨husable, hfrom, -, owlt, hrange, hrest⟩ := hf.path
    obtain ⟨r, -, -, -, hpos, hstart, -⟩ := getApplicableRange_mem hrange
    have harrive := FeasibleFrom.le hrest
    have hintime := hf.in_time
    exact h c husable.1 ⟨hfrom, by omega, by omega, (minCapacity_zero_le _).trans husable.2.2, by omega⟩

/-- A database with these contacts, and a range for one of them only. -/
def onlyRange (ownNodeNbr : Nat) (contactIndex : ContactIndex) (c : IonCXref) : IonState :=
  { ionInitialize ownNodeNbr with
    contactIndex := contactIndex
    rangeIndex := ⟨[⟨c.toSpan, 0, 1, 1⟩], List.pairwise_singleton _ _⟩ }

section

variable {ownNodeNbr : Nat} {contactIndex : ContactIndex} {c : IonCXref}

theorem getApplicableRange_onlyRange {d : IonCXref} {owlt : Nat}
    (h : getApplicableRange (onlyRange ownNodeNbr contactIndex c) d = some owlt) :
    d.fromNode = c.fromNode ∧ d.toNode = c.toNode ∧ c.fromTime ≤ d.fromTime := by
  obtain ⟨r, hr, hfrom, hto, -, hstart, -⟩ := getApplicableRange_mem h
  obtain rfl : r = ⟨c.toSpan, 0, 1, 1⟩ := List.mem_singleton.mp hr
  exact ⟨hfrom.symm, hto.symm, hstart⟩

theorem feasible_onlyRange (hc : c ∈ contactIndex) (hlasting : Lasting ownNodeNbr c) :
    Feasible (onlyRange ownNodeNbr contactIndex c) ⟨c.fromTime, c.toNode, 0⟩ (fun _ => false) [c] c.fromTime where
  path := by
    have hinterval := c.interval
    have hrange : getApplicableRange (onlyRange ownNodeNbr contactIndex c) c = some 0 :=
      getApplicableRange_singleton (r := ⟨c.toSpan, 0, 1, 1⟩) rfl rfl rfl hlasting.starts le_rfl hinterval.le
    refine ⟨⟨hc, rfl, hlasting.capacity⟩, hlasting.fromNode, hinterval, 0, hrange, ?_⟩
    have hzero : owltWithMargin 0 = 0 := by decide
    rw [hzero]
    show c.fromTime = max c.fromTime c.fromTime + 0
    omega
  terminus := ⟨c, rfl, rfl⟩
  in_time := hlasting.before

/-- When the contact starts, the best route to its node is over the contact alone. -/
theorem found_onlyRange (hc : c ∈ contactIndex) (hlasting : Lasting ownNodeNbr c)
    (h : Found (onlyRange ownNodeNbr contactIndex c) ⟨c.fromTime, c.toNode, 0⟩ (fun _ => .cleared) route first rest) :
    first = c ∧ rest = [] := by
  have hfeasible := h.feasible
  have hearliest := h.filled.earliest [c] c.fromTime (feasible_onlyRange hc hlasting)
  obtain ⟨husable, hfrom, -, owlt, hrange, hrest⟩ := hfeasible.path
  obtain ⟨hfrom', hto, hstart⟩ := getApplicableRange_onlyRange hrange
  have harrive := FeasibleFrom.le hrest
  constructor
  · apply SortedIndex.key_inj husable.1 hc
    have htime : first.fromTime = c.fromTime := by omega
    show first.toSpan.key = c.toSpan.key
    simp only [Span.key, Span.pair, hfrom', hto, htime]
  · cases rest with
    | nil => rfl
    | cons d rest =>
      obtain ⟨-, -, -, owlt', hrange', -⟩ := hrest
      have hback := h.onward d List.mem_cons_self
      exact absurd ((getApplicableRange_onlyRange hrange').1.trans hlasting.fromNode) hback

/-- The loading is given up with the first route. -/
theorem loadRouteList_onlyRange (hc : c ∈ contactIndex) (hlasting : Lasting ownNodeNbr c) :
    ∃ route, loadRouteList (onlyRange ownNodeNbr contactIndex c) c.fromTime c.toNode = some ⟨[route], some c, false⟩ := by
  obtain ⟨notes, -, ⟨-, hnone⟩ | ⟨route, first, rest, hrun, hroute⟩⟩ := findNextBestRoute_cases
    (s := onlyRange ownNodeNbr contactIndex c) (q := ⟨c.fromTime, c.toNode, 0⟩) (reset_cleared _)
  · exact absurd (feasible_onlyRange hc hlasting) (hnone _ _)
  · obtain ⟨rfl, rfl⟩ := found_onlyRange hc hlasting hroute
    have houtlasts := hlasting.outlasts
    have htime : route.toTime = maxTime := by
      rw [hroute.filled.toTime, hroute.hops]
      exact min_eq_right houtlasts.le
    have hround : loadRound (onlyRange ownNodeNbr contactIndex first) ⟨first.fromTime, first.toNode, 0⟩
        (seriesStart none []) = .inr (some ⟨[route], some first, false⟩) := by
      have hne : ¬ maxTime = first.toTime := by omega
      have hno : [first].find? (fun contact => decide (contact.toTime = maxTime)) = none := by
        simp only [List.find?_singleton, decide_eq_true_eq, if_neg (fun he => hne (Eq.symm he))]
      rw [loadRound, seriesStart, hrun]
      simp only [hroute.hops, recordRoute, htime, if_neg hne, hno, List.nil_append]
    refine ⟨route, ?_⟩
    have hclass : loadClass (onlyRange ownNodeNbr contactIndex first) ⟨first.fromTime, first.toNode, 0⟩ none [] =
        some ⟨[route], some first, false⟩ := congrArg Option.join (Runs.loop_inr hround)
    show loadClasses _ _ _ (0 :: [1, 2]) none [] = _
    rw [loadClasses, hclass]
    rfl

end

/-- For all ranges, termini and times the limiting contact of every route is found, exactly if
no contact of the local node that can carry anything goes on beyond the horizon. -/
theorem limitsFound_iff (ownNodeNbr : Nat) (contactIndex : ContactIndex) :
    (∀ (s : IonState) (currentTime : Int) (terminusNodeNbr : Nat), s.ownNodeNbr = ownNodeNbr →
      s.contactIndex = contactIndex → LimitsFound s currentTime terminusNodeNbr) ↔
    ∀ c ∈ contactIndex, ¬ Lasting ownNodeNbr c := by
  constructor
  · intro h c hc hlasting
    obtain ⟨route, hrun⟩ := loadRouteList_onlyRange hc hlasting
    obtain ⟨loaded, hrun', hcomplete, -⟩ := h (onlyRange ownNodeNbr contactIndex c) c.fromTime c.toNode rfl rfl
    obtain rfl := Option.some.inj (hrun.symm.trans hrun')
    cases hcomplete
  · rintro h s currentTime terminusNodeNbr rfl rfl
    exact limitsFound_of_endsInTime (fun k _ => endsInTime_of_none h _)

/-- A contact of node 1 with node 2 that ends in the year 2038, one second too late. -/
def lastingContact : IonState :=
  (Rfx.rfxInsertRange (Rfx.rfxInsertContact (ionInitialize 1) 0 10 (2 ^ 31) 1 2 1000 1).1 0 10 (2 ^ 31) 1 2 1).1

/-- The route over it is recorded, but its limiting contact is not found. -/
theorem limit_not_found : (loadRouteList lastingContact 20 2).map (fun loaded =>
      (loaded.complete, loaded.routes.map (fun route => (route.toTime, route.hops.map (fun c => c.toTime))))) =
        some (false, [(2 ^ 31 - 1, [2 ^ 31])]) ∧
    ¬ LimitsFound lastingContact 20 2 := by
  have hrun : (loadRouteList lastingContact 20 2).map (fun loaded =>
      (loaded.complete, loaded.routes.map (fun route => (route.toTime, route.hops.map (fun c => c.toTime))))) =
        some (false, [(2 ^ 31 - 1, [2 ^ 31])]) := by
    decide +kernel
  refine ⟨hrun, ?_⟩
  rintro ⟨loaded, hloaded, hcomplete, -⟩
  rw [hloaded, Option.map_some, hcomplete] at hrun
  cases hrun

end LimitContacts
