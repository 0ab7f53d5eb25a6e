import CgrJni.LimitContacts

/-!
Contact graphs from which the loading of a route list loses no initial contact. An anchored
search excludes contacts that end early on the paths from its anchor; no harm is done where the
contacts whose turn comes later have paths that avoid these.
-/

namespace Detours

open IonDb Libcgr Dijkstra DijkstraCorrect RouteLists RouteSeries InitialContacts RouteLoading LimitContacts

/-- A feasible path that does not come back to the local node. -/
structure Onward (s : IonState) (q : Query) (c : IonCXref) (cs : List IonCXref) (t : Int) : Prop where
  feasible : Feasible s q (fun _ => false) (c :: cs) t
  onward : ∀ d ∈ cs, d.fromNode ≠ s.ownNodeNbr

/-- A contact that is the first to end on an earliest path from another, without some that were so before. -/
inductive Limits (s : IonState) (q : Query) (a : IonCXref) : IonCXref → Prop
  | on (d : IonCXref) (cs : List IonCXref) (t : Int) (without : IonCXref → Prop) :
      (∀ e, without e → Limits s q a e) → Onward s q a cs t → (∀ e ∈ cs, ¬ without e) →
      (∀ cs' t', Onward s q a cs' t' → (∀ e ∈ cs', ¬ without e) → t ≤ t') →
      d ∈ cs → d.toTime < a.toTime → (∀ e ∈ cs, d.toTime ≤ e.toTime) → Limits s q a d

/-- Some path from a contact arrives no later than any path from another. -/
def NoLater (s : IonState) (q : Query) (a c : IonCXref) : Prop :=
  ∃ cs t, Onward s q a cs t ∧ ∀ cs' t', Onward s q c cs' t' → t ≤ t'

variable {s : IonState} {q : Query} {currentTime : Int} {terminusNodeNbr : Nat} {load load' : Load} {loaded : Loaded}
  {route : CgrRoute} {first c : IonCXref} {rest : List IonCXref} {notes : Notes} {anchorContact : Option IonCXref}
  {routes : List CgrRoute}

theorem Onward.hop_mem {cs : List IonCXref} {t : Int} (h : Onward s q c cs t) : ∀ d ∈ c :: cs, d ∈ s.contactIndex :=
  fun d hd => (Feasible.usable h.feasible d hd).1

theorem Found.onwardPath (h : Found s q notes route first rest) : Onward s q first rest route.arrivalTime :=
  ⟨Feasible.of_excluded h.feasible (fun _ _ _ => rfl), h.onward⟩

/-- What has been excluded in a series, and in which order the contacts came. -/
structure Anchoring (s : IonState) (q : Query) (anchorContact : Option IonCXref) (load : Load) : Prop where
  reset : Reset s load.notes
  anchor_local : AnchorLocal s load
  limits : ∀ d ∈ s.contactIndex, d.fromNode ≠ s.ownNodeNbr → excluded load.notes d = true →
    ∃ a, load.anchorContact = some a ∧ Limits s q a d ∧
      ∀ c ∈ s.contactIndex, excluded load.notes c = false → NoLater s q a c
  anchor : ∀ a, load.anchorContact = some a → anchorContact = some a ∨ ∃ d, Limits s q a d
  order : ∀ c, Led q.payloadClass load.routes c → ∀ a ∈ s.contactIndex, a.fromNode = s.ownNodeNbr →
    excluded load.notes a = false ∨ load.anchorContact = some a → NoLater s q c a

/-- The route found comes no later than those from the contacts that are left. -/
theorem Anchoring.found_noLater (h : Anchoring s q anchorContact load) (hroute : Found s q load.notes route first rest)
    (hanchor : load.anchorContact = none ∨ load.anchorContact = some first) :
    ∀ c ∈ s.contactIndex, excluded load.notes c = false → NoLater s q first c := by
  by_cases hany : ∃ d ∈ s.contactIndex, d.fromNode ≠ s.ownNodeNbr ∧ excluded load.notes d = true
  · obtain ⟨d, hd, honward, hex⟩ := hany
    obtain ⟨a, ha, -, hnoLater⟩ := h.limits d hd honward hex
    cases hanchor with
    | inl hnone => cases hnone.symm.trans ha
    | inr hfirst => exact Option.some.inj (hfirst.symm.trans ha) ▸ hnoLater
  · intro c _ hopen
    refine ⟨rest, route.arrivalTime, Found.onwardPath hroute, fun cs t hpath => hroute.filled.earliest (c :: cs) t ?_⟩
    apply Feasible.of_excluded hpath.feasible
    intro d hd _
    cases List.mem_cons.mp hd with
    | inl he => exact he ▸ hopen
    | inr hr =>
      rw [← Bool.not_eq_true]
      exact fun hex => hany ⟨d, hpath.hop_mem d hd, hpath.onward d hr, hex⟩

/-- Where a contact of the route ends before the first one, it is a limit of that. -/
theorem Anchoring.limits_first (h : Anchoring s q anchorContact load) (hroute : Found s q load.notes route first rest)
    (hanchor : load.anchorContact = none ∨ load.anchorContact = some first) {limit : IonCXref} (hlimit : limit ∈ rest)
    (htime : limit.toTime = route.toTime) (hearlier : route.toTime < first.toTime) : Limits s q first limit := by
  have hopen : ∀ e ∈ rest, ¬ excluded load.notes e = true := by
    intro e he
    rw [(hroute.usable e (List.mem_cons_of_mem first he)).2.1]
    exact Bool.false_ne_true
  have htoTime := (filledRoute_onRecord hroute.filled).toTime_le
  rw [hroute.hops] at htoTime
  refine Limits.on limit rest route.arrivalTime
    (fun e => e ∈ s.contactIndex ∧ e.fromNode ≠ s.ownNodeNbr ∧ excluded load.notes e = true) ?_
    (Found.onwardPath hroute) (fun e he hout => hopen e he hout.2.2) ?_ hlimit (htime ▸ hearlier)
    (fun e he => htime ▸ htoTime e (List.mem_cons_of_mem _ he))
  · rintro e ⟨he, honward, hex⟩
    obtain ⟨a, ha, hlimits, -⟩ := h.limits e he honward hex
    cases hanchor with
    | inl hnone => cases hnone.symm.trans ha
    | inr hfirst => exact Option.some.inj (hfirst.symm.trans ha) ▸ hlimits
  · intro cs t hpath havoids
    apply hroute.filled.earliest (first :: cs) t
    apply Feasible.of_excluded hpath.feasible
    intro d hd _
    cases List.mem_cons.mp hd with
    | inl he => exact he ▸ hroute.first_open
    | inr hr =>
      rw [← Bool.not_eq_true]
      exact fun hex => havoids d hr ⟨hpath.hop_mem d hd, hpath.onward d hr, hex⟩

/-- A recorded route takes out its first contact, or anchors the search on it. -/
theorem Anchoring.record (h : Anchoring s q anchorContact load) (hroute : Found s q load.notes route first rest)
    (hnotes : NotesOk s (excluded load.notes) notes)
    (hanchor : load.anchorContact = none ∨ load.anchorContact = some first) {limit : IonCXref}
    {anchor : Option IonCXref} (hlimit : limit = first ∧ anchor = load.anchorContact ∨
      Limits s q first limit ∧ anchor = some first) :
    Anchoring s q anchorContact ⟨excludeContact notes limit, anchor, load.routes ++ [route]⟩ := by
  have hnoLater := h.found_noLater hroute hanchor
  have hex := fun d hd => excluded_recorded hnotes limit (d := d) hd
  have hopen : ∀ c ∈ s.contactIndex, excluded (excludeContact notes limit) c = false → excluded load.notes c = false := by
    intro c hc hfalse
    rw [← Bool.not_eq_true] at hfalse ⊢
    exact fun htrue => hfalse ((hex c hc).mpr (Or.inr htrue))
  have hfirst : ∀ a, load.anchorContact = some a → a = first := by
    intro a ha
    cases hanchor with
    | inl hnone => cases hnone.symm.trans ha
    | inr hsome => exact Option.some.inj (ha.symm.trans hsome)
  have hkept : ∀ a, anchor = some a → a = first ∧ (load.anchorContact = some a ∨ Limits s q first limit) := by
    intro a ha
    cases hlimit with
    | inl hl =>
      have hold : load.anchorContact = some a := hl.2.symm.trans ha
      exact ⟨hfirst a hold, Or.inl hold⟩
    | inr hl => exact ⟨(Option.some.inj (hl.2.symm.trans ha)).symm, Or.inr hl.1⟩
  constructor
  case reset => exact reset_excludeContact hnotes.capacity_eq limit
  case anchor_local =>
    intro a ha
    rw [(hkept a ha).1]
    exact ⟨hroute.first_mem, hroute.first_local⟩
  case limits =>
    intro d hd honward hout
    cases (hex d hd).mp hout with
    | inl hd' =>
      cases hlimit with
      | inl hl => exact absurd hroute.first_local (hl.1 ▸ hd' ▸ honward)
      | inr hl => exact ⟨first, hl.2, hd' ▸ hl.1, fun c hc hc' => hnoLater c hc (hopen c hc hc')⟩
    | inr hold =>
      obtain ⟨a, ha, hlimits, -⟩ := h.limits d hd honward hold
      obtain rfl := hfirst a ha
      refine ⟨a, ?_, hlimits, fun c hc hc' => hnoLater c hc (hopen c hc hc')⟩
      cases hlimit with
      | inl hl => exact hl.2.trans ha
      | inr hl => exact hl.2
  case anchor =>
    intro a ha
    obtain ⟨rfl, hold | hl⟩ := hkept a ha
    · exact h.anchor a hold
    · exact Or.inr ⟨limit, hl⟩
  case order =>
    intro c hc a hmem hlocal ha
    have hleft : excluded load.notes a = false ∨ load.anchorContact = some a := by
      cases ha with
      | inl hfalse => exact Or.inl (hopen a hmem hfalse)
      | inr hsome => exact Or.inl ((hkept a hsome).1 ▸ hroute.first_open)
    cases hroute.led.mp hc with
    | inl hold => exact h.order c hold a hmem hlocal hleft
    | inr hnew =>
      subst hnew
      cases hleft with
      | inl hfalse => exact hnoLater a hmem hfalse
      | inr hsome => exact hnoLater a hmem (hfirst a hsome ▸ hroute.first_open)

theorem Anchoring.endAnchored (h : Anchoring s q anchorContact load) (hnotes : NotesOk s (excluded load.notes) notes)
    {anchor : IonCXref} (hanchor : load.anchorContact = some anchor) :
    Anchoring s q anchorContact ⟨suppress (endAnchoredSearch s notes) anchor, none, load.routes⟩ := by
  obtain ⟨hmem, hlocal⟩ := h.anchor_local anchor hanchor
  have hex := fun d hd => excluded_ended hnotes anchor (d := d) hd
  constructor
  case reset => exact reset_endAnchoredSearch hnotes.capacity_eq anchor
  case anchor_local => exact anchorLocal_none rfl
  case limits =>
    intro d hd honward hout
    cases (hex d hd).mp hout with
    | inl he => exact absurd hlocal (he ▸ honward)
    | inr hl => exact absurd hl.1 honward
  case anchor => exact nofun
  case order =>
    intro c hc a ha hfrom hopen
    refine h.order c hc a ha hfrom (Or.inl ?_)
    cases hopen with
    | inr hnone => cases hnone
    | inl hfalse =>
      rw [← Bool.not_eq_true] at hfalse ⊢
      exact fun htrue => hfalse ((hex a ha).mpr (Or.inr ⟨hfrom, htrue⟩))

theorem Anchoring.round (h : Anchoring s q anchorContact load) (hround : Round s q load (.inl load')) :
    Anchoring s q anchorContact load' := by
  cases hround with
  | endAnchored hroute hnotes hanchor hne => exact h.endAnchored hnotes hanchor
  | excludeFirst hroute hnotes hanchor htime => exact h.record hroute hnotes hanchor (Or.inl ⟨rfl, rfl⟩)
  | excludeLimit hroute hnotes hanchor hlimit htime hearlier =>
    exact h.record hroute hnotes hanchor (Or.inr ⟨h.limits_first hroute hanchor hlimit htime hearlier, rfl⟩)

/-- On every path one and the same contact ends first, before all others. -/
def Bottleneck (s : IonState) (q : Query) (d : IonCXref) : Prop :=
  ∀ c cs t, Onward s q c cs t → d ∈ cs ∧ ∀ e ∈ c :: cs, e ≠ d → d.toTime < e.toTime

/-- Before the first round of a class, or after one in which the bottleneck was excluded. -/
def OneLed (q : Query) (d : IonCXref) (load : Load) : Prop :=
  load = seriesStart none [] ∨
    ∃ first, excluded load.notes d = true ∧ ∀ c, Led q.payloadClass load.routes c → c = first

theorem Bottleneck.found {d : IonCXref} (h : Bottleneck s q d) (hroute : Found s q notes route first rest) :
    d ∈ s.contactIndex ∧ excluded notes d = false ∧ route.toTime ≤ d.toTime ∧
      ∀ e ∈ first :: rest, e ≠ d → d.toTime < e.toTime := by
  obtain ⟨hd, hearlier⟩ := h first rest route.arrivalTime (Found.onwardPath hroute)
  have hmem := List.mem_cons_of_mem first hd
  have hu := hroute.usable d hmem
  exact ⟨hu.1, hu.2.1, (filledRoute_onRecord hroute.filled).toTime_le d (hroute.hops ▸ hmem), hearlier⟩

theorem Bottleneck.ne_first {d : IonCXref} (h : Bottleneck s q d)
    (hroute : Found s q notes route first rest) : first ≠ d := by
  intro he
  exact hroute.onward d (h first rest route.arrivalTime (Found.onwardPath hroute)).1 (he ▸ hroute.first_local)

theorem led_single {c : IonCXref} (hroute : Found s q notes route first rest) (hc : Led q.payloadClass ([] ++ [route]) c) :
    c = first := by
  cases hroute.led.mp hc with
  | inl hold => simp [Led] at hold
  | inr hnew => exact hnew.symm

theorem OneLed.round {d : IonCXref} (hd : Bottleneck s q d) (h : OneLed q d load)
    (hround : Round s q load (.inl load')) : OneLed q d load' := by
  cases h with
  | inl hstart =>
    subst hstart
    cases hround with
    | endAnchored hroute hnotes hanchor hne => cases hanchor
    | @excludeFirst route first rest notes hroute hnotes hanchor htime =>
      obtain ⟨-, -, hle, hends⟩ := hd.found hroute
      have hlt := hends first List.mem_cons_self (hd.ne_first hroute)
      omega
    | @excludeLimit route first limit rest notes hroute hnotes hanchor hlimit htime hearlier =>
      obtain ⟨hmem, -, hle, hends⟩ := hd.found hroute
      have hlimit' : limit = d := by
        by_contra hne
        have hlt := hends limit (List.mem_cons_of_mem first hlimit) hne
        omega
      exact Or.inr ⟨first, (excluded_recorded hnotes limit hmem).mpr (Or.inl hlimit'.symm), fun c hc => led_single hroute hc⟩
  | inr h =>
    obtain ⟨first', hex, -⟩ := h
    have hnone : ∀ {route first rest}, ¬ Found s q load.notes route first rest := by
      intro route first rest hroute
      rw [(hd.found hroute).2.1] at hex
      cases hex
    cases hround with
    | endAnchored hroute hnotes hanchor hne => exact absurd hroute hnone
    | excludeFirst hroute hnotes hanchor htime => exact absurd hroute hnone
    | excludeLimit hroute hnotes hanchor hlimit htime hearlier => exact absurd hroute hnone

/-- All routes of the first class that are in the list begin with the same contact. -/
def OneLeader (routes : List CgrRoute) : Prop := ∀ c c', Led 0 routes c → Led 0 routes c' → c = c'

theorem OneLed.last {d : IonCXref} (hd : Bottleneck s ⟨currentTime, terminusNodeNbr, 0⟩ d)
    (h : OneLed ⟨currentTime, terminusNodeNbr, 0⟩ d load)
    (hround : Round s ⟨currentTime, terminusNodeNbr, 0⟩ load (.inr (some loaded))) : OneLeader loaded.routes := by
  obtain hkept | ⟨route, first, rest, hroute, hrecorded⟩ := hround.last_routes
  · rw [hkept]
    obtain rfl | ⟨first, -, hled⟩ := h
    · intro c c' hc
      simp [Led, seriesStart] at hc
    · exact fun c c' hc hc' => (hled c hc).trans (hled c' hc').symm
  · obtain rfl | ⟨first', hex, -⟩ := h
    · rw [hrecorded]
      exact fun c c' hc hc' => (led_single hroute hc).trans (led_single hroute hc').symm
    · rw [(hd.found hroute).2.1] at hex
      cases hex

/-- The routes of a later class are of no matter to the first one. -/
theorem led_zero_append (hroute : Found s q notes route first rest) (hclass : 0 < q.payloadClass) (old : List CgrRoute)
    (c : IonCXref) : Led 0 (old ++ [route]) c ↔ Led 0 old c := by
  rw [led_append, hroute.filled.payloadClass]
  simp [hclass.ne']

theorem OneLeader.append (h : OneLeader routes) (hclass : 0 < q.payloadClass) {routes' : List CgrRoute}
    (hcases : routes' = routes ∨ ∃ route first rest, Found s q notes route first rest ∧ routes' = routes ++ [route]) :
    OneLeader routes' := by
  obtain rfl | ⟨route, first, rest, hroute, rfl⟩ := hcases
  · exact h
  · intro c c' hc hc'
    exact h c c' ((led_zero_append hroute hclass routes c).mp hc) ((led_zero_append hroute hclass routes c').mp hc')

end Detours
