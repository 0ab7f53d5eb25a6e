import CgrJni.RouteLists
import CgrJni.OnwardHops

/-!
A series of searches for one payload class: what each round excludes and what it
readmits, and why the series comes to an end.
-/

namespace RouteSeries

open IonDb Libcgr Dijkstra DijkstraCorrect RouteLists

/-- The contacts that a search with these work areas leaves out. -/
def excluded (notes : Notes) (c : IonCXref) : Bool := (notes c).suppressed

/-- A route found, its first contact, and the others, which do not leave the local node. -/
structure Found (s : IonState) (q : Query) (notes : Notes) (route : CgrRoute) (firstContact : IonCXref)
    (rest : List IonCXref) : Prop where
  search : ∃ notes', findNextBestRoute s q notes = some (some route, notes')
  hops : route.hops = firstContact :: rest
  filled : FilledRoute s q (excluded notes) route
  onward : ∀ c ∈ rest, c.fromNode ≠ s.ownNodeNbr

/-- What a round of a series can do: the series ends, or an anchored search does, or a
route is recorded and one of its contacts excluded, or it is recorded and the loading given up. -/
inductive Round (s : IonState) (q : Query) (load : Load) : Load ⊕ Option Loaded → Prop
  | finished (hsearch : ∃ notes', findNextBestRoute s q load.notes = some (none, notes'))
    (hnone : ∀ cs a, ¬ Feasible s q (excluded load.notes) cs a) :
    Round s q load (.inr (some ⟨load.routes, load.anchorContact, true⟩))
  | endAnchored {route : CgrRoute} {first anchor : IonCXref} {rest : List IonCXref} {notes : Notes}
    (hroute : Found s q load.notes route first rest) (hnotes : NotesOk s (excluded load.notes) notes)
    (hanchor : load.anchorContact = some anchor) (hne : first ≠ anchor) :
    Round s q load (.inl ⟨suppress (endAnchoredSearch s notes) anchor, none, load.routes⟩)
  | excludeFirst {route : CgrRoute} {first : IonCXref} {rest : List IonCXref} {notes : Notes}
    (hroute : Found s q load.notes route first rest) (hnotes : NotesOk s (excluded load.notes) notes)
    (hanchor : load.anchorContact = none ∨ load.anchorContact = some first) (htime : route.toTime = first.toTime) :
    Round s q load (.inl ⟨excludeContact notes first, load.anchorContact, load.routes ++ [route]⟩)
  | excludeLimit {route : CgrRoute} {first limit : IonCXref} {rest : List IonCXref} {notes : Notes}
    (hroute : Found s q load.notes route first rest) (hnotes : NotesOk s (excluded load.notes) notes)
    (hanchor : load.anchorContact = none ∨ load.anchorContact = some first) (hlimit : limit ∈ rest)
    (htime : limit.toTime = route.toTime) (hearlier : route.toTime < first.toTime) :
    Round s q load (.inl ⟨excludeContact notes limit, some first, load.routes ++ [route]⟩)
  | givenUp {route : CgrRoute} {first : IonCXref} {rest : List IonCXref}
    (hroute : Found s q load.notes route first rest)
    (hanchor : load.anchorContact = none ∨ load.anchorContact = some first)
    (hend : ∀ c ∈ first :: rest, c.toTime ≠ route.toTime) :
    Round s q load (.inr (some ⟨load.routes ++ [route], some first, false⟩))

variable {s : IonState} {q : Query} {notes notes' : Notes} {load load' : Load}

theorem findNextBestRoute_cases (h : Reset s notes) :
    ∃ notes', NotesOk s (excluded notes) notes' ∧
      ((findNextBestRoute s q notes = some (none, notes') ∧ ∀ cs a, ¬ Feasible s q (excluded notes) cs a) ∨
        ∃ route first rest, findNextBestRoute s q notes = some (some route, notes') ∧
          Found s q notes route first rest) := by
  obtain ⟨route, notes', hrun, hok, hroute⟩ := computeDistanceToTerminus_cases (q := q) h
  have honward := OnwardHops.computeDistanceToTerminus_onward h hrun
  refine ⟨notes', hok, ?_⟩
  cases hroute with
  | inl hfill =>
    obtain ⟨first, hhead, -, -⟩ := hfill.first_hop
    obtain ⟨rest, hhops⟩ := List.head?_eq_some_iff.mp hhead
    rw [hhops] at honward
    have hfound : findNextBestRoute s q notes = some (some route, notes') := by
      rw [findNextBestRoute, hrun, Option.map_some, if_neg hfill.toNodeNbr_ne]
    exact Or.inr ⟨route, first, rest, hfound, ⟨notes', hfound⟩, hhops, hfill, honward⟩
  | inr hzero =>
    refine Or.inl ⟨?_, hzero.2⟩
    rw [findNextBestRoute, hrun, Option.map_some, hzero.1, if_pos (by rfl)]

theorem recordRoute_round {route : CgrRoute} {first : IonCXref} {rest : List IonCXref}
    (hroute : Found s q load.notes route first rest) (hnotes : NotesOk s (excluded load.notes) notes)
    (hanchor : load.anchorContact = none ∨ load.anchorContact = some first) :
    Round s q load (recordRoute { load with notes := notes } route first) := by
  by_cases hfirst : route.toTime = first.toTime
  · rw [recordRoute, if_pos hfirst]
    exact Round.excludeFirst hroute hnotes hanchor hfirst
  · rw [recordRoute, if_neg hfirst, hroute.hops]
    cases hfind : (first :: rest).find? (fun contact => contact.toTime = route.toTime) with
    | some limit =>
      have htime : limit.toTime = route.toTime := by simpa using List.find?_some hfind
      have hne : limit ≠ first := fun he => hfirst (he ▸ htime.symm)
      have hmem := List.mem_of_find?_eq_some hfind
      have hle := (filledRoute_onRecord hroute.filled).toTime_le first (hroute.hops ▸ List.mem_cons_self)
      exact Round.excludeLimit hroute hnotes hanchor ((List.mem_cons.mp hmem).resolve_left hne) htime (by omega)
    | none =>
      refine Round.givenUp hroute hanchor ?_
      simpa using List.find?_eq_none.mp hfind

theorem loadRound_round (h : Reset s load.notes) : Round s q load (loadRound s q load) := by
  obtain ⟨notes, hok, ⟨hrun, hnone⟩ | ⟨route, first, rest, hrun, hroute⟩⟩ := findNextBestRoute_cases (q := q) h
  · rw [loadRound, hrun]
    exact Round.finished ⟨notes, hrun⟩ hnone
  · have hrecord : load.anchorContact = none ∨ load.anchorContact = some first →
        Round s q load (recordRoute { load with notes := notes } route first) := recordRoute_round hroute hok
    rw [loadRound, hrun]
    simp only [hroute.hops]
    cases hanchor : load.anchorContact with
    | none =>
      rw [hanchor] at hrecord
      exact hrecord (Or.inl rfl)
    | some anchor =>
      rw [hanchor] at hrecord
      by_cases hfirst : first = anchor
      · simp only [if_pos hfirst]
        exact hrecord (Or.inr (congrArg some hfirst.symm))
      · simp only [if_neg hfirst]
        exact Round.endAnchored hroute hok hanchor hfirst

theorem excluded_suppress (notes : Notes) (c d : IonCXref) :
    excluded (suppress notes c) d = (decide (d = c) || excluded notes d) := by
  by_cases h : d = c
  · simp [excluded, suppress, Notes.set, h]
  · simp [excluded, suppress, Notes.set, h]

theorem excluded_endAnchoredSearch (s : IonState) (notes : Notes) (d : IonCXref) :
    excluded (endAnchoredSearch s notes) d = (decide (d.fromNode = s.ownNodeNbr) && excluded notes d) := by
  unfold excluded endAnchoredSearch
  by_cases h : d.fromNode = s.ownNodeNbr
  · simp [h, resetWork]
  · simp [h, resetWork]

/-- A recorded route takes one more contact out of the searches that follow. -/
theorem excluded_recorded (hnotes : NotesOk s (excluded notes) notes') (c : IonCXref) {d : IonCXref}
    (hd : d ∈ s.contactIndex) :
    excluded (excludeContact notes' c) d = true ↔ d = c ∨ excluded notes d = true := by
  have hsame : excluded notes' d = excluded notes d := hnotes.suppressed_eq d hd
  have hreset : excluded (excludeContact notes' c) d = excluded (suppress notes' c) d := rfl
  rw [hreset, excluded_suppress, hsame, Bool.or_eq_true, decide_eq_true_eq]

/-- The end of an anchored search readmits the contacts of other nodes and takes out the anchor. -/
theorem excluded_ended (hnotes : NotesOk s (excluded notes) notes') (c : IonCXref) {d : IonCXref}
    (hd : d ∈ s.contactIndex) :
    excluded (suppress (endAnchoredSearch s notes') c) d = true ↔
      d = c ∨ d.fromNode = s.ownNodeNbr ∧ excluded notes d = true := by
  have hsame : excluded notes' d = excluded notes d := hnotes.suppressed_eq d hd
  rw [excluded_suppress, excluded_endAnchoredSearch, hsame, Bool.or_eq_true, Bool.and_eq_true, decide_eq_true_eq,
    decide_eq_true_eq]

theorem FeasibleFrom.imp {usable usable' : IonCXref → Prop} {latency : Nat → Nat} {node : Nat} {t a : Int}
    {cs : List IonCXref} (h : FeasibleFrom s usable latency node t cs a) (hi : ∀ c ∈ cs, usable c → usable' c) :
    FeasibleFrom s usable' latency node t cs a := by
  induction cs generalizing node t with
  | nil => exact h
  | cons c rest ih =>
    obtain ⟨hu, hfrom, hopen, owlt, hrange, hrest⟩ := h
    exact ⟨hi c List.mem_cons_self hu, hfrom, hopen, owlt, hrange,
      ih hrest (fun d hd => hi d (List.mem_cons_of_mem _ hd))⟩

/-- Whether a path is feasible only depends on which of its own contacts are left out. -/
theorem Feasible.of_excluded {out out' : IonCXref → Bool} {cs : List IonCXref} {a : Int}
    (h : Feasible s q out cs a) (hi : ∀ c ∈ cs, out c = false → out' c = false) : Feasible s q out' cs a where
  path := FeasibleFrom.imp h.path (fun c hc hu => ⟨hu.1, hi c hc hu.2.1, hu.2.2⟩)
  terminus := h.terminus
  in_time := h.in_time

theorem Feasible.usable {out : IonCXref → Bool} {cs : List IonCXref} {a : Int} (h : Feasible s q out cs a) :
    ∀ c ∈ cs, Usable s q out c := feasible_hop_usable h.path

theorem Feasible.head_local {out : IonCXref → Bool} {c : IonCXref} {cs : List IonCXref} {a : Int}
    (h : Feasible s q out (c :: cs) a) : c.fromNode = s.ownNodeNbr := h.path.2.1

variable {route : CgrRoute} {first : IonCXref} {rest : List IonCXref}

theorem Found.feasible (h : Found s q notes route first rest) :
    Feasible s q (excluded notes) (first :: rest) route.arrivalTime := h.hops ▸ h.filled.feasible

theorem Found.usable (h : Found s q notes route first rest) :
    ∀ c ∈ first :: rest, Usable s q (excluded notes) c := Feasible.usable h.feasible

theorem Found.first_mem (h : Found s q notes route first rest) : first ∈ s.contactIndex :=
  (h.usable first List.mem_cons_self).1

theorem Found.first_local (h : Found s q notes route first rest) : first.fromNode = s.ownNodeNbr :=
  Feasible.head_local h.feasible

theorem Found.first_open (h : Found s q notes route first rest) : excluded notes first = false :=
  (h.usable first List.mem_cons_self).2.1

/-- The contacts of a group that are not excluded. -/
def left (s : IonState) (group : IonCXref → Bool) (notes : Notes) : Nat :=
  s.contactIndex.entries.countP (fun c => group c && !excluded notes c)

def isLocal (s : IonState) (c : IonCXref) : Bool := decide (c.fromNode = s.ownNodeNbr)

/-- A search that is still anchored on a contact excluded before has one more end to come. -/
def anchorExcluded (load : Load) : Nat :=
  match load.anchorContact with
  | none => 0
  | some anchor => if excluded load.notes anchor then 1 else 0

/-- The rounds of a series that may still come. -/
def roundsLeft (s : IonState) (load : Load) : Nat :=
  (2 * left s (isLocal s) load.notes + anchorExcluded load) * (s.contactIndex.entries.length + 1) +
    left s (fun c => !isLocal s c) load.notes

theorem countP_lt_of_imp {α : Type} {p p' : α → Bool} {l : List α} (h : ∀ x ∈ l, p x = true → p' x = true)
    {x : α} (hx : x ∈ l) (hp' : p' x = true) (hp : p x = false) : l.countP p < l.countP p' := by
  induction l with
  | nil => cases hx
  | cons y rest ih =>
    have hle : rest.countP p ≤ rest.countP p' :=
      List.countP_mono_left (fun z hz => h z (List.mem_cons_of_mem _ hz))
    rw [List.countP_cons, List.countP_cons]
    cases List.mem_cons.mp hx with
    | inl he =>
      rw [← he, if_pos hp', hp]
      simp only [Bool.false_eq_true, if_false]
      omega
    | inr hr =>
      have hlt := ih (fun z hz => h z (List.mem_cons_of_mem _ hz)) hr
      by_cases hy : p y = true
      · rw [if_pos hy, if_pos (h y List.mem_cons_self hy)]
        omega
      · rw [if_neg hy]
        omega

theorem left_imp {group : IonCXref → Bool} (hex : ∀ d ∈ s.contactIndex, group d = true →
    excluded notes d = true → excluded notes' d = true) :
    ∀ d ∈ s.contactIndex.entries, (group d && !excluded notes' d) = true →
      (group d && !excluded notes d) = true := by
  intro d hd
  simp only [Bool.and_eq_true, Bool.not_eq_true']
  rintro ⟨hgroup, hopen⟩
  refine ⟨hgroup, ?_⟩
  by_contra hno
  rw [Bool.not_eq_false] at hno
  rw [hex d hd hgroup hno] at hopen
  cases hopen

theorem left_le {group : IonCXref → Bool} (hex : ∀ d ∈ s.contactIndex, group d = true →
    excluded notes d = true → excluded notes' d = true) : left s group notes' ≤ left s group notes :=
  List.countP_mono_left (left_imp hex)

theorem left_lt {group : IonCXref → Bool} (hex : ∀ d ∈ s.contactIndex, group d = true →
    excluded notes d = true → excluded notes' d = true) {c : IonCXref} (hc : c ∈ s.contactIndex)
    (hgroup : group c = true) (hopen : excluded notes c = false) (hout : excluded notes' c = true) :
    left s group notes' < left s group notes :=
  countP_lt_of_imp (left_imp hex) hc (by simp [hgroup, hopen]) (by simp [hout])

theorem left_le_length (s : IonState) (group : IonCXref → Bool) (notes : Notes) :
    left s group notes ≤ s.contactIndex.entries.length := List.countP_le_length

theorem anchorExcluded_le (load : Load) : anchorExcluded load ≤ 1 := by
  unfold anchorExcluded
  split
  · omega
  · split <;> omega

/-- The anchor of a search is a contact of the local node. -/
def AnchorLocal (s : IonState) (load : Load) : Prop :=
  ∀ anchor, load.anchorContact = some anchor → anchor ∈ s.contactIndex ∧ anchor.fromNode = s.ownNodeNbr

theorem anchorLocal_none (h : load.anchorContact = none) : AnchorLocal s load := by
  intro a ha
  cases h.symm.trans ha

theorem Found.anchorLocal (h : Found s q notes route first rest) (notes' : Notes) (routes : List CgrRoute) :
    AnchorLocal s ⟨notes', some first, routes⟩ := by
  intro a ha
  obtain rfl := Option.some.inj ha
  exact ⟨h.first_mem, h.first_local⟩

/-- Every round leaves the work areas reset for the next. -/
theorem Round.reset (h : Round s q load (.inl load')) : Reset s load'.notes := by
  cases h with
  | endAnchored hroute hnotes hanchor hne => exact reset_endAnchoredSearch hnotes.capacity_eq _
  | excludeFirst hroute hnotes hanchor htime => exact reset_excludeContact hnotes.capacity_eq _
  | excludeLimit hroute hnotes hanchor hlimit htime hearlier => exact reset_excludeContact hnotes.capacity_eq _

theorem Round.anchorLocal (h : Round s q load (.inl load')) (hlocal : AnchorLocal s load) : AnchorLocal s load' := by
  cases h with
  | endAnchored hroute hnotes hanchor hne => exact anchorLocal_none rfl
  | excludeFirst hroute hnotes hanchor htime => exact hlocal
  | excludeLimit hroute hnotes hanchor hlimit htime hearlier => exact hroute.anchorLocal _ _

theorem lex_lt {a a' d d' n : Nat} (h : a' < a ∨ a' = a ∧ d' < d) (hd : d' ≤ n) :
    a' * (n + 1) + d' < a * (n + 1) + d := by
  cases h with
  | inl hlt =>
    have hmul : (a' + 1) * (n + 1) ≤ a * (n + 1) := Nat.mul_le_mul_right (n + 1) hlt
    rw [Nat.succ_mul] at hmul
    omega
  | inr heq =>
    rw [heq.1]
    omega

/-- Either a contact of the local node is taken out for good, or another contact is taken out
until the anchored search ends, or an anchored search ends. -/
theorem Round.roundsLeft_lt (h : Round s q load (.inl load')) (hlocal : AnchorLocal s load) :
    roundsLeft s load' < roundsLeft s load := by
  apply lex_lt _ (left_le_length s _ _)
  cases h with
  | @endAnchored route first anchor rest notes hroute hnotes hanchor hne =>
    obtain ⟨hmem, hfrom⟩ := hlocal anchor hanchor
    have hkeep : ∀ d ∈ s.contactIndex, isLocal s d = true → excluded load.notes d = true →
        excluded (suppress (endAnchoredSearch s notes) anchor) d = true :=
      fun d hd hdl he => (excluded_ended hnotes anchor hd).mpr (Or.inr ⟨of_decide_eq_true hdl, he⟩)
    have hnone : anchorExcluded ⟨suppress (endAnchoredSearch s notes) anchor, none, load.routes⟩ = 0 := rfl
    cases hex : excluded load.notes anchor with
    | true =>
      have hone : anchorExcluded load = 1 := by
        simp only [anchorExcluded, hanchor, hex, if_true]
      have hl := left_le hkeep
      simp only
      omega
    | false =>
      have hout := (excluded_ended hnotes anchor hmem).mpr (Or.inl rfl)
      have hl := left_lt hkeep hmem (decide_eq_true hfrom) hex hout
      simp only
      omega
  | @excludeFirst route first rest notes hroute hnotes hanchor htime =>
    have hkeep : ∀ d ∈ s.contactIndex, isLocal s d = true → excluded load.notes d = true →
        excluded (excludeContact notes first) d = true :=
      fun d hd _ he => (excluded_recorded hnotes first hd).mpr (Or.inr he)
    have hout := (excluded_recorded hnotes first hroute.first_mem).mpr (Or.inl rfl)
    have hl := left_lt hkeep hroute.first_mem (decide_eq_true hroute.first_local) hroute.first_open hout
    have hle := anchorExcluded_le ⟨excludeContact notes first, load.anchorContact, load.routes ++ [route]⟩
    simp only at hle ⊢
    omega
  | @excludeLimit route first limit rest notes hroute hnotes hanchor hlimit htime hearlier =>
    have hne : limit ≠ first := fun he => absurd (he ▸ htime) hearlier.ne'
    have hkeep : ∀ d ∈ s.contactIndex, excluded load.notes d = true →
        excluded (excludeContact notes limit) d = true :=
      fun d hd he => (excluded_recorded hnotes limit hd).mpr (Or.inr he)
    have hu := hroute.usable limit (List.mem_cons_of_mem _ hlimit)
    have hout := (excluded_recorded hnotes limit hu.1).mpr (Or.inl rfl)
    have honward : (!isLocal s limit) = true := by
      simp [isLocal, hroute.onward limit hlimit]
    have hl := left_le (fun d hd (_ : isLocal s d = true) => hkeep d hd)
    have ho := left_lt (fun d hd (_ : (!isLocal s d) = true) => hkeep d hd) hu.1 honward hu.2.1 hout
    have hzero : anchorExcluded ⟨excludeContact notes limit, some first, load.routes ++ [route]⟩ = 0 := by
      have hopen : excluded (excludeContact notes limit) first = false := by
        by_contra hno
        rw [Bool.not_eq_false, excluded_recorded hnotes limit hroute.first_mem] at hno
        rw [hroute.first_open] at hno
        simp [Ne.symm hne] at hno
      simp only [anchorExcluded, hopen, Bool.false_eq_true, if_false]
    simp only at hzero ⊢
    omega

/-- A round records the route that it has found, or none. -/
theorem Round.routes (h : Round s q load (.inl load')) : load'.routes = load.routes ∨
    ∃ route first rest, Found s q load.notes route first rest ∧ load'.routes = load.routes ++ [route] := by
  cases h with
  | endAnchored hroute hnotes hanchor hne => exact Or.inl rfl
  | excludeFirst hroute hnotes hanchor htime => exact Or.inr ⟨_, _, _, hroute, rfl⟩
  | excludeLimit hroute hnotes hanchor hlimit htime hearlier => exact Or.inr ⟨_, _, _, hroute, rfl⟩

/-- So does the last round. -/
theorem Round.last_routes {loaded : Loaded} (h : Round s q load (.inr (some loaded))) : loaded.routes = load.routes ∨
    ∃ route first rest, Found s q load.notes route first rest ∧ loaded.routes = load.routes ++ [route] := by
  cases h with
  | finished hsearch hnone => exact Or.inl rfl
  | givenUp hroute hanchor hend => exact Or.inr ⟨_, _, _, hroute, rfl⟩

/-- Some route of the class in the list begins with the contact. -/
def Led (payloadClass : Nat) (routes : List CgrRoute) (c : IonCXref) : Prop :=
  ∃ route ∈ routes, route.payloadClass = payloadClass ∧ route.hops.head? = some c

/-- A feasible path begins with the contact and does not come back to the local node. -/
def StartsOnward (s : IonState) (q : Query) (c : IonCXref) : Prop :=
  ∃ cs a, Feasible s q (fun _ => false) (c :: cs) a ∧ ∀ d ∈ cs, d.fromNode ≠ s.ownNodeNbr

/-- What holds of the first contacts between the rounds of a series, for the contact that
the series has lost, if it has lost one. -/
structure InSeries (s : IonState) (q : Query) (lost : Option IonCXref) (load : Load) : Prop where
  reset : Reset s load.notes
  anchor_local : AnchorLocal s load
  led_onward : ∀ c, Led q.payloadClass load.routes c → StartsOnward s q c
  led_excluded : ∀ c, Led q.payloadClass load.routes c →
    excluded load.notes c = true ∨ load.anchorContact = some c
  excluded_led : ∀ c ∈ s.contactIndex, c.fromNode = s.ownNodeNbr → excluded load.notes c = true →
    Led q.payloadClass load.routes c ∨ lost = some c
  lost_excluded : ∀ c, lost = some c → c ∈ s.contactIndex ∧ c.fromNode = s.ownNodeNbr ∧
    excluded load.notes c = true ∧ ¬ Led q.payloadClass load.routes c
  readmitted : load.anchorContact = none → ∀ c ∈ s.contactIndex, c.fromNode ≠ s.ownNodeNbr →
    excluded load.notes c = false

theorem led_append {payloadClass : Nat} {routes : List CgrRoute} {c : IonCXref} :
    Led payloadClass (routes ++ [route]) c ↔
      Led payloadClass routes c ∨ route.payloadClass = payloadClass ∧ route.hops.head? = some c := by
  simp only [Led, List.mem_append, List.mem_singleton, or_and_right, exists_or, exists_eq_left]

theorem Found.led (h : Found s q notes route first rest) {routes : List CgrRoute} {c : IonCXref} :
    Led q.payloadClass (routes ++ [route]) c ↔ Led q.payloadClass routes c ∨ first = c := by
  rw [led_append, h.hops, h.filled.payloadClass]
  simp

theorem Found.startsOnward (h : Found s q notes route first rest) : StartsOnward s q first :=
  ⟨rest, route.arrivalTime, Feasible.of_excluded h.feasible (fun _ _ _ => rfl), h.onward⟩

theorem StartsOnward.mem {c : IonCXref} (h : StartsOnward s q c) :
    c ∈ s.contactIndex ∧ c.fromNode = s.ownNodeNbr := by
  obtain ⟨cs, a, hf, -⟩ := h
  exact ⟨(Feasible.usable hf c List.mem_cons_self).1, Feasible.head_local hf⟩

variable {lost : Option IonCXref}

/-- Recording a route takes out its first contact, or anchors the search on it and takes
out a contact that another node sends on. -/
theorem InSeries.record (h : InSeries s q lost load) (hroute : Found s q load.notes route first rest)
    (hnotes : NotesOk s (excluded load.notes) notes')
    (hanchor : load.anchorContact = none ∨ load.anchorContact = some first) {limit : IonCXref}
    {anchor : Option IonCXref} (hlimit : limit = first ∧ anchor = load.anchorContact ∨
      limit ∈ rest ∧ anchor = some first) :
    InSeries s q lost ⟨excludeContact notes' limit, anchor, load.routes ++ [route]⟩ := by
  have hanchor' : ∀ a, anchor = some a → a = first := by
    intro a ha
    cases hlimit with
    | inl hl =>
      rw [ha] at hl
      cases hanchor with
      | inl hn => cases hl.2.trans hn
      | inr hs => exact Option.some.inj (hl.2.trans hs)
    | inr hl => exact Option.some.inj (ha.symm.trans hl.2)
  have hfirst : excluded (excludeContact notes' limit) first = true ∨ anchor = some first := by
    cases hlimit with
    | inl hl => exact Or.inl ((excluded_recorded hnotes limit hroute.first_mem).mpr (Or.inl hl.1.symm))
    | inr hl => exact Or.inr hl.2
  constructor
  case reset => exact reset_excludeContact hnotes.capacity_eq limit
  case anchor_local =>
    intro a ha
    rw [hanchor' a ha]
    exact ⟨hroute.first_mem, hroute.first_local⟩
  case led_onward =>
    intro c hc
    cases hroute.led.mp hc with
    | inl hold => exact h.led_onward c hold
    | inr hnew => exact hnew ▸ hroute.startsOnward
  case led_excluded =>
    intro c hc
    cases hroute.led.mp hc with
    | inr hnew => exact hnew ▸ hfirst
    | inl hold =>
      cases h.led_excluded c hold with
      | inl hex => exact Or.inl ((excluded_recorded hnotes limit (h.led_onward c hold).mem.1).mpr (Or.inr hex))
      | inr ha =>
        cases hanchor with
        | inl hn => cases ha.symm.trans hn
        | inr hs => exact Option.some.inj (hs.symm.trans ha) ▸ hfirst
  case excluded_led =>
    intro c hc hlocal hex
    cases (excluded_recorded hnotes limit hc).mp hex with
    | inr hold => exact (h.excluded_led c hc hlocal hold).imp_left (fun hl => hroute.led.mpr (Or.inl hl))
    | inl hnew =>
      cases hlimit with
      | inl hl => exact Or.inl (hroute.led.mpr (Or.inr (hnew.trans hl.1).symm))
      | inr hl => exact absurd (hnew ▸ hlocal) (hroute.onward limit hl.1)
  case lost_excluded =>
    intro c hc
    obtain ⟨hmem, hlocal, hex, hnot⟩ := h.lost_excluded c hc
    refine ⟨hmem, hlocal, (excluded_recorded hnotes limit hmem).mpr (Or.inr hex), ?_⟩
    intro hled
    cases hroute.led.mp hled with
    | inl hold => exact hnot hold
    | inr hnew =>
      rw [← hnew, hroute.first_open] at hex
      cases hex
  case readmitted =>
    intro hnone c hc honward
    cases hlimit with
    | inr hl => cases hl.2.symm.trans hnone
    | inl hl =>
      by_contra hno
      rw [Bool.not_eq_false, excluded_recorded hnotes limit hc, h.readmitted (hl.2.symm.trans hnone) c hc honward] at hno
      simp only [Bool.false_eq_true, or_false] at hno
      exact honward (hno.trans hl.1 ▸ hroute.first_local)

/-- The end of an anchored search takes the anchor out, which is lost if it leads no route. -/
theorem InSeries.endAnchored (h : InSeries s q lost load) (hnotes : NotesOk s (excluded load.notes) notes')
    {anchor : IonCXref} (hanchor : load.anchorContact = some anchor) {lost' : Option IonCXref}
    (hlost : Led q.payloadClass load.routes anchor ∧ lost' = lost ∨
      ¬ Led q.payloadClass load.routes anchor ∧ lost = none ∧ lost' = some anchor) :
    InSeries s q lost' ⟨suppress (endAnchoredSearch s notes') anchor, none, load.routes⟩ := by
  obtain ⟨hmem, hlocal⟩ := h.anchor_local anchor hanchor
  constructor
  case reset => exact reset_endAnchoredSearch hnotes.capacity_eq anchor
  case anchor_local =>
    intro a ha
    cases ha
  case led_onward => exact h.led_onward
  case led_excluded =>
    intro c hc
    obtain ⟨hcmem, hclocal⟩ := (h.led_onward c hc).mem
    apply Or.inl
    rw [excluded_ended hnotes anchor hcmem]
    cases h.led_excluded c hc with
    | inl hex => exact Or.inr ⟨hclocal, hex⟩
    | inr ha => exact Or.inl (Option.some.inj (ha.symm.trans hanchor))
  case excluded_led =>
    intro c hc hclocal hex
    cases (excluded_ended hnotes anchor hc).mp hex with
    | inl he =>
      cases hlost with
      | inl hl => exact Or.inl (he ▸ hl.1)
      | inr hl => exact Or.inr (he ▸ hl.2.2)
    | inr hold =>
      cases hlost with
      | inl hl => exact hl.2 ▸ h.excluded_led c hc hclocal hold.2
      | inr hl =>
        have hled := h.excluded_led c hc hclocal hold.2
        rw [hl.2.1] at hled
        exact Or.inl (hled.resolve_right nofun)
  case lost_excluded =>
    intro c hc
    cases hlost with
    | inl hl =>
      obtain ⟨hcmem, hclocal, hex, hnot⟩ := h.lost_excluded c (hl.2 ▸ hc)
      exact ⟨hcmem, hclocal, (excluded_ended hnotes anchor hcmem).mpr (Or.inr ⟨hclocal, hex⟩), hnot⟩
    | inr hl =>
      obtain rfl := Option.some.inj (hc.symm.trans hl.2.2)
      exact ⟨hmem, hlocal, (excluded_ended hnotes c hmem).mpr (Or.inl rfl), hl.1⟩
  case readmitted =>
    intro _ c hc honward
    by_contra hno
    rw [Bool.not_eq_false, excluded_ended hnotes anchor hc] at hno
    cases hno with
    | inl he => exact honward (he ▸ hlocal)
    | inr hl => exact honward hl.1

end RouteSeries
