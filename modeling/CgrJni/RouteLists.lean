import CgrJni.DijkstraCorrect

/-!
The route list of a terminus node: how it is loaded by series of searches, one
for each payload class, and how an expired route in it is recomputed.
-/

namespace RouteLists

open IonDb Libcgr Dijkstra DijkstraCorrect

/-- The best route under the current exclusions, if there is any. -/
def findNextBestRoute (s : IonState) (q : Query) (notes : Notes) : Option (Option CgrRoute × Notes) :=
  (computeDistanceToTerminus s q notes).map
    (fun r => (if r.1.toNodeNbr = 0 then none else some r.1, r.2))

def suppress (notes : Notes) (contact : IonCXref) : Notes :=
  Notes.set notes contact { notes contact with suppressed := true }

/-- A work area made ready for another search of the same series. -/
def resetWork (work : CgrContactNote) : CgrContactNote :=
  { work with arrivalTime := maxTime, predecessor := .null, visited := false }

/-- Contacts that do not leave the local node were only suppressed for the anchored search. -/
def endAnchoredSearch (s : IonState) (notes : Notes) : Notes := fun contact =>
  if contact.fromNode = s.ownNodeNbr then resetWork (notes contact)
  else resetWork { notes contact with suppressed := false }

/-- The variables of `loadRouteList`. -/
structure Load where
  notes : Notes
  anchorContact : Option IonCXref
  routes : List CgrRoute

/-- A list that could not be loaded to the end stays attached as far as it got. -/
structure Loaded where
  routes : List CgrRoute
  anchorContact : Option IonCXref
  complete : Bool

/-- One contact is excluded from the searches that follow. -/
def excludeContact (notes : Notes) (limitContact : IonCXref) : Notes := fun contact =>
  resetWork (suppress notes limitContact contact)

/-- The route is recorded, and the contact in it that ends first is excluded. -/
def recordRoute (load : Load) (route : CgrRoute) (firstContact : IonCXref) : Load ⊕ Option Loaded :=
  let routes := load.routes ++ [route]
  if route.toTime = firstContact.toTime then
    .inl ⟨excludeContact load.notes firstContact, load.anchorContact, routes⟩
  else
    match route.hops.find? (fun contact => contact.toTime = route.toTime) with
    | some limitContact => .inl ⟨excludeContact load.notes limitContact, some firstContact, routes⟩
    | none => .inr (some ⟨routes, some firstContact, false⟩)

/-- One search of a series, and what its route leads to. -/
def loadRound (s : IonState) (q : Query) (load : Load) : Load ⊕ Option Loaded :=
  match findNextBestRoute s q load.notes with
  | none => .inr none
  | some (none, _) => .inr (some ⟨load.routes, load.anchorContact, true⟩)
  | some (some route, notes) =>
    match route.hops with
    | [] => .inr none
    | firstContact :: _ =>
      match load.anchorContact with
      | none => recordRoute { load with notes := notes } route firstContact
      | some anchorContact =>
        if firstContact = anchorContact then recordRoute { load with notes := notes } route firstContact
        else
          .inl { load with
            notes := suppress (endAnchoredSearch s notes) anchorContact, anchorContact := none }

/-- At most so many searches are made in one series for so many contacts. -/
def seriesFuel (contacts : Nat) : Nat := 2 * (contacts + 1) * (contacts + 1) + 1

def loadClass (s : IonState) (q : Query) (anchorContact : Option IonCXref) (routes : List CgrRoute) :
    Option Loaded :=
  (Runs.loop (loadRound s q) (seriesFuel s.contactIndex.entries.length)
    ⟨fun _ => .cleared, anchorContact, routes⟩).join

/-- An anchor left over from one class is still set when the next one begins. -/
def loadClasses (s : IonState) (currentTime : Int) (terminusNodeNbr : Nat) :
    List Nat → Option IonCXref → List CgrRoute → Option Loaded
  | [], anchorContact, routes => some ⟨routes, anchorContact, true⟩
  | payloadClass :: rest, anchorContact, routes =>
    (loadClass s ⟨currentTime, terminusNodeNbr, payloadClass⟩ anchorContact routes).bind (fun loaded =>
      if loaded.complete then
        loadClasses s currentTime terminusNodeNbr rest loaded.anchorContact loaded.routes
      else some loaded)

def loadRouteList (s : IonState) (currentTime : Int) (terminusNodeNbr : Nat) : Option Loaded :=
  loadClasses s currentTime terminusNodeNbr (List.range payloadClasses) none []

/-- The contact in the index on which a route of the list begins. -/
def leadContact (s : IonState) (toNodeNbr : Nat) (fromTime : Int) : Option IonCXref :=
  s.contactIndex.lookup (toLex (toLex (s.ownNodeNbr, toNodeNbr), fromTime))

/-- Other routes' lead contacts are excluded while a route is recomputed. -/
def suppressLead (s : IonState) (toNodeNbr : Nat) (fromTime : Int) (notes : Notes) (route : CgrRoute) :
    Notes :=
  if route.toNodeNbr = toNodeNbr ∧ route.fromTime = fromTime then notes
  else
    match leadContact s route.toNodeNbr route.fromTime with
    | none => notes
    | some contact => suppress notes contact

/-- In arrival-time order, after routes that arrive at the same time. -/
def insertRoute (newRoute : CgrRoute) : List CgrRoute → List CgrRoute
  | [] => [newRoute]
  | route :: rest =>
    if route.arrivalTime ≤ newRoute.arrivalTime then route :: insertRoute newRoute rest
    else newRoute :: route :: rest

/-- The list with a recomputed route, or no list if there is none. -/
def recomputeRouteForContact (s : IonState) (routes : List CgrRoute) (toNodeNbr : Nat) (fromTime : Int)
    (q : Query) : Option (Option (List CgrRoute)) :=
  match leadContact s toNodeNbr fromTime with
  | none => some none
  | some contact =>
    if contact.toTime ≤ q.currentTime then some none
    else
      (findNextBestRoute s q (routes.foldl (suppressLead s toNodeNbr fromTime) (fun _ => .cleared))).map
        (fun r => r.1.map (fun newRoute => insertRoute newRoute routes))

/-- A route over contacts that are on record, shutting down with the first of them to end. -/
structure OnRecord (s : IonState) (route : CgrRoute) : Prop where
  hop_mem : ∀ c ∈ route.hops, c ∈ s.contactIndex
  toTime_le : ∀ c ∈ route.hops, route.toTime ≤ c.toTime
  toTime_le_max : route.toTime ≤ maxTime
  xmitRate_pos : ∀ c ∈ route.hops, 0 < c.xmitRate
  toNodeNbr_ne : route.toNodeNbr ≠ 0
  arrivalTime_pos : 0 < route.arrivalTime

variable {s : IonState} {q : Query}

theorem feasible_hop_usable {suppressed : IonCXref → Bool} {node : Nat} {t a : Int} {cs : List IonCXref}
    (h : FeasibleFrom s (Usable s q suppressed) owltWithMargin node t cs a) :
    ∀ c ∈ cs, Usable s q suppressed c := by
  induction cs generalizing node t with
  | nil => simp
  | cons c rest ih =>
    obtain ⟨hu, -, -, owlt, -, hrest⟩ := h
    intro d hd
    cases List.mem_cons.mp hd with
    | inl hd => exact hd ▸ hu
    | inr hd => exact ih hrest d hd

/-- Every payload class asks for some capacity, and a contact without a rate has none. -/
theorem usable_xmitRate_pos {suppressed : IonCXref → Bool} {c : IonCXref} (h : Usable s q suppressed c) :
    0 < c.xmitRate := by
  obtain ⟨-, -, hcapacity⟩ := h
  have hmin : 0 < minCapacity q.payloadClass := by
    unfold minCapacity
    split <;> omega
  by_contra hno
  have hzero : c.xmitRate = 0 := by omega
  rw [contactCapacity, hzero, Nat.zero_mul, Nat.zero_mod] at hcapacity
  omega

theorem foldr_min_le_init (hops : List IonCXref) (m : Int) : hops.foldr (fun c t => min c.toTime t) m ≤ m := by
  induction hops with
  | nil => exact Int.le_refl m
  | cons c rest ih => exact (min_le_right _ _).trans ih

theorem foldr_min_le (hops : List IonCXref) (m : Int) :
    ∀ c ∈ hops, hops.foldr (fun c t => min c.toTime t) m ≤ c.toTime := by
  induction hops with
  | nil => simp
  | cons d rest ih =>
    intro c hc
    rw [List.foldr_cons]
    cases List.mem_cons.mp hc with
    | inl hc => exact hc ▸ min_le_left _ _
    | inr hc => exact (min_le_right _ _).trans (ih c hc)

/-- Nothing arrives before the first contact starts. -/
theorem filledRoute_arrivalTime_pos {suppressed : IonCXref → Bool} {route : CgrRoute}
    (h : FilledRoute s q suppressed route) : 0 < route.arrivalTime := by
  obtain ⟨c, hhead, -⟩ := h.first_hop
  obtain ⟨rest, hhops⟩ := List.head?_eq_some_iff.mp hhead
  have hpath := h.feasible.path
  rw [hhops] at hpath
  obtain ⟨-, -, -, owlt, howlt, hrest⟩ := hpath
  have hstarts := getApplicableRange_starts howlt
  have hle := hrest.le
  omega

theorem filledRoute_onRecord {suppressed : IonCXref → Bool} {route : CgrRoute}
    (h : FilledRoute s q suppressed route) : OnRecord s route where
  hop_mem c hc := (feasible_hop_usable h.feasible.path c hc).1
  toTime_le := by
    rw [h.toTime]
    exact foldr_min_le _ _
  toTime_le_max := by
    rw [h.toTime]
    exact foldr_min_le_init _ _
  xmitRate_pos c hc := usable_xmitRate_pos (feasible_hop_usable h.feasible.path c hc)
  toNodeNbr_ne := h.toNodeNbr_ne
  arrivalTime_pos := filledRoute_arrivalTime_pos h

/-- The capacities noted by earlier searches of a series are those of the contacts. -/
def CapacityNoted (s : IonState) (notes : Notes) : Prop :=
  ∀ c ∈ s.contactIndex, (notes c).capacity = 0 ∨ (notes c).capacity = contactCapacity c

/-- A search from reset work areas comes to an end, its route is on record, and it
leaves the capacities to the next search. -/
theorem findNextBestRoute_spec {notes : Notes} (h : Reset s notes) :
    ∃ found notes', findNextBestRoute s q notes = some (found, notes') ∧ CapacityNoted s notes' ∧
      ∀ route, found = some route → OnRecord s route := by
  obtain ⟨route, notes', hrun, hok, hroute⟩ := computeDistanceToTerminus_cases (q := q) h
  refine ⟨_, notes', by rw [findNextBestRoute, hrun]; rfl, hok.capacity_eq, ?_⟩
  intro route' hfound
  cases hroute with
  | inl hfill =>
    rw [if_neg hfill.toNodeNbr_ne] at hfound
    exact Option.some.inj hfound ▸ filledRoute_onRecord hfill
  | inr hzero =>
    rw [hzero.1, if_pos (by rfl)] at hfound
    cases hfound

theorem suppress_capacity (notes : Notes) (d c : IonCXref) :
    (suppress notes d c).capacity = (notes c).capacity := by
  by_cases h : c = d
  · simp [suppress, Notes.set, h]
  · simp [suppress, Notes.set, h]

theorem reset_excludeContact {notes : Notes} (h : CapacityNoted s notes) (limitContact : IonCXref) :
    Reset s (excludeContact notes limitContact) where
  arrivalTime _ _ := rfl
  visited _ _ := rfl
  capacity c hc := by
    have heq := suppress_capacity notes limitContact c
    simp only [excludeContact, resetWork]
    rw [heq]
    exact h c hc

theorem reset_endAnchoredSearch {notes : Notes} (h : CapacityNoted s notes) (anchorContact : IonCXref) :
    Reset s (suppress (endAnchoredSearch s notes) anchorContact) := by
  have hend : ∀ c, (endAnchoredSearch s notes c).arrivalTime = maxTime ∧
      (endAnchoredSearch s notes c).visited = false ∧
      (endAnchoredSearch s notes c).capacity = (notes c).capacity := by
    intro c
    unfold endAnchoredSearch
    split
    · exact ⟨rfl, rfl, rfl⟩
    · exact ⟨rfl, rfl, rfl⟩
  refine ⟨fun c _ => ?_, fun c _ => ?_, fun c hc => ?_⟩
  · by_cases h : c = anchorContact
    · simp [suppress, Notes.set, h, hend]
    · simp [suppress, Notes.set, h, hend]
  · by_cases h : c = anchorContact
    · simp [suppress, Notes.set, h, hend]
    · simp [suppress, Notes.set, h, hend]
  · rw [suppress_capacity, (hend c).2.2]
    exact h c hc

/-- What every round of a series keeps. -/
structure Loading (s : IonState) (load : Load) : Prop where
  reset : Reset s load.notes
  routes : ∀ route ∈ load.routes, OnRecord s route

/-- What holds after a round of a series, whether it goes on or not. -/
def RoundKeeps (s : IonState) : Load ⊕ Option Loaded → Prop
  | .inl load => Loading s load
  | .inr none => True
  | .inr (some loaded) => ∀ route ∈ loaded.routes, OnRecord s route

theorem recordRoute_keeps {load : Load} {route : CgrRoute} (firstContact : IonCXref)
    (hcap : CapacityNoted s load.notes) (hroutes : ∀ r ∈ load.routes, OnRecord s r)
    (hroute : OnRecord s route) : RoundKeeps s (recordRoute load route firstContact) := by
  have hall : ∀ r ∈ load.routes ++ [route], OnRecord s r := by
    intro r hr
    cases List.mem_append.mp hr with
    | inl hr => exact hroutes r hr
    | inr hr => exact List.mem_singleton.mp hr ▸ hroute
  by_cases hfirst : route.toTime = firstContact.toTime
  · rw [recordRoute, if_pos hfirst]
    exact ⟨reset_excludeContact hcap _, hall⟩
  · rw [recordRoute, if_neg hfirst]
    cases route.hops.find? (fun contact => contact.toTime = route.toTime) with
    | some limitContact => exact ⟨reset_excludeContact hcap _, hall⟩
    | none => exact hall

theorem loadRound_keeps {load : Load} (h : Loading s load) : RoundKeeps s (loadRound s q load) := by
  obtain ⟨found, notes, hrun, hcap, hroute⟩ := findNextBestRoute_spec (q := q) h.reset
  rw [loadRound, hrun]
  cases found with
  | none => exact h.routes
  | some route =>
    have hr := hroute route rfl
    have hrecord : ∀ first, RoundKeeps s (recordRoute { load with notes := notes } route first) :=
      fun first => recordRoute_keeps first hcap h.routes hr
    cases hhops : route.hops with
    | nil =>
      simp only [hhops]
      exact trivial
    | cons first rest =>
      cases hanchor : load.anchorContact with
      | none =>
        rw [hanchor] at hrecord
        simp only [hhops]
        exact hrecord first
      | some anchor =>
        rw [hanchor] at hrecord
        simp only [hhops]
        by_cases hfirst : first = anchor
        · rw [if_pos hfirst]
          exact hrecord first
        · rw [if_neg hfirst]
          exact ⟨reset_endAnchoredSearch hcap anchor, h.routes⟩

theorem loadClass_onRecord {anchorContact : Option IonCXref} {routes : List CgrRoute} {loaded : Loaded}
    (hroutes : ∀ r ∈ routes, OnRecord s r) (h : loadClass s q anchorContact routes = some loaded) :
    ∀ r ∈ loaded.routes, OnRecord s r := by
  rw [loadClass, Option.join_eq_some_iff] at h
  have hstart : Loading s ⟨fun _ => .cleared, anchorContact, routes⟩ :=
    ⟨reset_cleared s, hroutes⟩
  have hkeeps : RoundKeeps s (.inr (some loaded)) := by
    refine Runs.loop_partial (Loading s) (fun result => RoundKeeps s (.inr result)) ?_ ?_ _ _ hstart _ h
    · intro load load' hl hb
      have hk := loadRound_keeps (q := q) hl
      rw [hb] at hk
      exact hk
    · intro load result hl hb
      have hk := loadRound_keeps (q := q) hl
      rw [hb] at hk
      exact hk
  exact hkeeps

theorem loadClasses_onRecord {currentTime : Int} {terminusNodeNbr : Nat} (classes : List Nat)
    {anchorContact : Option IonCXref} {routes : List CgrRoute} {loaded : Loaded}
    (hroutes : ∀ r ∈ routes, OnRecord s r)
    (h : loadClasses s currentTime terminusNodeNbr classes anchorContact routes = some loaded) :
    ∀ r ∈ loaded.routes, OnRecord s r := by
  induction classes generalizing anchorContact routes with
  | nil =>
    rw [loadClasses] at h
    exact Option.some.inj h ▸ hroutes
  | cons payloadClass rest ih =>
    rw [loadClasses, Option.bind_eq_some_iff] at h
    obtain ⟨first, hfirst, h⟩ := h
    have hon := loadClass_onRecord hroutes hfirst
    by_cases hc : first.complete
    · rw [if_pos hc] at h
      exact ih hon h
    · rw [if_neg hc] at h
      exact Option.some.inj h ▸ hon

/-- Every route of a list that has just been loaded is over contacts on record. -/
theorem loadRouteList_onRecord {currentTime : Int} {terminusNodeNbr : Nat} {loaded : Loaded}
    (h : loadRouteList s currentTime terminusNodeNbr = some loaded) :
    ∀ r ∈ loaded.routes, OnRecord s r :=
  loadClasses_onRecord _ (by simp) h

theorem insertRoute_split (newRoute : CgrRoute) (routes : List CgrRoute) :
    ∃ before after, routes = before ++ after ∧ insertRoute newRoute routes = before ++ newRoute :: after := by
  induction routes with
  | nil => exact ⟨[], [], rfl, rfl⟩
  | cons route rest ih =>
    rw [insertRoute]
    split
    · obtain ⟨before, after, hrest, hinsert⟩ := ih
      exact ⟨route :: before, after, by rw [hrest, List.cons_append], by rw [hinsert, List.cons_append]⟩
    · exact ⟨[], route :: rest, rfl, rfl⟩

theorem insertRoute_perm (newRoute : CgrRoute) (routes : List CgrRoute) :
    (insertRoute newRoute routes).Perm (newRoute :: routes) := by
  obtain ⟨before, after, hroutes, hinsert⟩ := insertRoute_split newRoute routes
  rw [hinsert, hroutes]
  exact List.perm_middle

theorem mem_insertRoute {newRoute route : CgrRoute} {routes : List CgrRoute} :
    route ∈ insertRoute newRoute routes ↔ route = newRoute ∨ route ∈ routes :=
  (insertRoute_perm newRoute routes).mem_iff.trans List.mem_cons

theorem suppressLead_reset {toNodeNbr : Nat} {fromTime : Int} (routes : List CgrRoute) {notes : Notes}
    (h : Reset s notes) : Reset s (routes.foldl (suppressLead s toNodeNbr fromTime) notes) := by
  induction routes generalizing notes with
  | nil => exact h
  | cons route rest ih =>
    apply ih
    unfold suppressLead
    split
    · exact h
    · split
      · exact h
      · rename_i contact hlead
        refine ⟨fun c hc => ?_, fun c hc => ?_, fun c hc => ?_⟩
        · by_cases hcc : c = contact
          · have := h.arrivalTime c hc
            simp_all [suppress, Notes.set]
          · simpa [suppress, Notes.set, hcc] using h.arrivalTime c hc
        · by_cases hcc : c = contact
          · have := h.visited c hc
            simp_all [suppress, Notes.set]
          · simpa [suppress, Notes.set, hcc] using h.visited c hc
        · rw [suppress_capacity]
          exact h.capacity c hc

/-- Without a contact that is still open there is no recomputation; with one it is a search. -/
theorem recomputeRouteForContact_search (s : IonState) (routes : List CgrRoute) (toNodeNbr : Nat) (fromTime : Int)
    (q : Query) :
    (recomputeRouteForContact s routes toNodeNbr fromTime q = some none ∧
      ∀ c, leadContact s toNodeNbr fromTime = some c → c.toTime ≤ q.currentTime) ∨
    (∃ c, leadContact s toNodeNbr fromTime = some c ∧ q.currentTime < c.toTime) ∧
      Reset s (routes.foldl (suppressLead s toNodeNbr fromTime) (fun _ => .cleared)) ∧
      recomputeRouteForContact s routes toNodeNbr fromTime q =
        (findNextBestRoute s q (routes.foldl (suppressLead s toNodeNbr fromTime) (fun _ => .cleared))).map
          (fun r => r.1.map (fun newRoute => insertRoute newRoute routes)) := by
  unfold recomputeRouteForContact
  cases hlead : leadContact s toNodeNbr fromTime with
  | none => exact Or.inl ⟨rfl, nofun⟩
  | some contact =>
    by_cases hended : contact.toTime ≤ q.currentTime
    · exact Or.inl ⟨if_pos hended, fun c hc => Option.some.inj hc ▸ hended⟩
    · exact Or.inr ⟨⟨contact, rfl, not_le.mp hended⟩, suppressLead_reset routes (reset_cleared s), if_neg hended⟩

/-- A recomputation adds one route to the list, and that route is on record. -/
theorem recomputeRouteForContact_spec {routes routes' : List CgrRoute} {toNodeNbr : Nat} {fromTime : Int}
    (h : recomputeRouteForContact s routes toNodeNbr fromTime q = some (some routes')) :
    ∃ newRoute, routes' = insertRoute newRoute routes ∧ OnRecord s newRoute := by
  obtain ⟨hnone, -⟩ | ⟨-, hreset, hsearch⟩ := recomputeRouteForContact_search s routes toNodeNbr fromTime q
  · rw [hnone] at h
    cases h
  · obtain ⟨found, notes, hrun, -, hroute⟩ := findNextBestRoute_spec (q := q) hreset
    rw [hsearch, hrun, Option.map_some, Option.some.injEq, Option.map_eq_some_iff] at h
    obtain ⟨newRoute, hnew, rfl⟩ := h
    exact ⟨newRoute, rfl, hroute newRoute hnew⟩

end RouteLists
