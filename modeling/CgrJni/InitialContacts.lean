import CgrJni.RouteSeries

/-!
Which contacts of the local node the loading of a route list covers: every contact
that begins a path, but for those whose paths need a contact that is still excluded
for the sake of an anchor, and for an anchor that is given up in the next class.
-/

namespace InitialContacts

open IonDb Libcgr Dijkstra DijkstraCorrect RouteLists RouteSeries

/-- A feasible path begins with the contact. -/
def Starts (s : IonState) (q : Query) (c : IonCXref) : Prop :=
  ∃ cs a, Feasible s q (fun _ => false) (c :: cs) a

/-- A search with these work areas would find a route. -/
def routeLeft (s : IonState) (q : Query) (notes : Notes) : Bool :=
  match findNextBestRoute s q notes with
  | some (some _, _) => true
  | _ => false

def seriesStart (anchorContact : Option IonCXref) (routes : List CgrRoute) : Load :=
  ⟨fun _ => .cleared, anchorContact, routes⟩

/-- Work areas that leave only one contact of the local node to begin with. -/
def onlyThrough (s : IonState) (c : IonCXref) : Notes := fun d =>
  if d.fromNode = s.ownNodeNbr ∧ d ≠ c then { CgrContactNote.cleared with suppressed := true } else .cleared

/-- The anchor left over from the class before, where the first route begins elsewhere. -/
def lostAnchor (s : IonState) (q : Query) (anchorContact : Option IonCXref) : Option IonCXref :=
  match anchorContact, findNextBestRoute s q (fun _ => .cleared) with
  | some anchor, some (some route, _) => if route.hops.head? = some anchor then none else some anchor
  | _, _ => none

/-- The anchor left over from the class before is excluded, although a route begins with it. -/
def AnchorGivenUp (s : IonState) (q : Query) (anchorContact : Option IonCXref) : Prop :=
  ∃ anchor, lostAnchor s q anchorContact = some anchor ∧ routeLeft s q (onlyThrough s anchor) = true

/-- The series ends while it is anchored, and there would be another route after the end of
the anchored search. -/
def CutShort (s : IonState) (q : Query) (anchorContact : Option IonCXref) (routes : List CgrRoute) : Prop :=
  ∃ load loaded anchor,
    Runs.lastRound (loadRound s q) (seriesFuel s.contactIndex.entries.length) (seriesStart anchorContact routes) =
      some load ∧
    loadRound s q load = .inr (some loaded) ∧ loaded.anchorContact = some anchor ∧
    routeLeft s q (suppress (endAnchoredSearch s load.notes) anchor) = true

/-- No class gives up an anchor it needs or is cut short, and where the loading is given up
the classes to come have no route. -/
def NothingLost (s : IonState) (currentTime : Int) (terminusNodeNbr : Nat) :
    List Nat → Option IonCXref → List CgrRoute → Prop
  | [], _, _ => True
  | payloadClass :: rest, anchorContact, routes =>
    ¬ AnchorGivenUp s ⟨currentTime, terminusNodeNbr, payloadClass⟩ anchorContact ∧
    ¬ CutShort s ⟨currentTime, terminusNodeNbr, payloadClass⟩ anchorContact routes ∧
    ∀ loaded, loadClass s ⟨currentTime, terminusNodeNbr, payloadClass⟩ anchorContact routes = some loaded →
      if loaded.complete then NothingLost s currentTime terminusNodeNbr rest loaded.anchorContact loaded.routes
      else ∀ k ∈ rest, routeLeft s ⟨currentTime, terminusNodeNbr, k⟩ (fun _ => .cleared) = false

variable {s : IonState} {q : Query} {notes : Notes}

theorem reset_notesOk (h : Reset s notes) : NotesOk s (excluded notes) notes :=
  (h.searching (q := ⟨0, 0, 0⟩)).notes

theorem routeLeft_eq_true (h : Reset s notes) :
    routeLeft s q notes = true ↔ ∃ route first rest, Found s q notes route first rest := by
  obtain ⟨notes', -, ⟨hrun, hnone⟩ | ⟨route, first, rest, hrun, hroute⟩⟩ := findNextBestRoute_cases (q := q) h
  · rw [routeLeft, hrun]
    simp only [Bool.false_eq_true, false_iff]
    rintro ⟨route, first, rest, hroute⟩
    exact hnone _ _ hroute.feasible
  · rw [routeLeft, hrun]
    exact ⟨fun _ => ⟨route, first, rest, hroute⟩, fun _ => rfl⟩

theorem routeLeft_eq_false (h : Reset s notes) :
    routeLeft s q notes = false ↔ ∀ cs a, ¬ Feasible s q (excluded notes) cs a := by
  obtain ⟨notes', -, ⟨hrun, hnone⟩ | ⟨route, first, rest, hrun, hroute⟩⟩ := findNextBestRoute_cases (q := q) h
  · rw [routeLeft, hrun]
    exact ⟨fun _ => hnone, fun _ => rfl⟩
  · rw [routeLeft, hrun]
    simp only [Bool.true_eq_false, false_iff]
    intro hno
    exact hno _ _ hroute.feasible

theorem excluded_onlyThrough (s : IonState) (c d : IonCXref) :
    excluded (onlyThrough s c) d = true ↔ d.fromNode = s.ownNodeNbr ∧ d ≠ c := by
  unfold excluded onlyThrough
  split
  · rename_i h
    exact ⟨fun _ => h, fun _ => rfl⟩
  · rename_i h
    simp [CgrContactNote.cleared, h]

theorem reset_onlyThrough (s : IonState) (c : IonCXref) : Reset s (onlyThrough s c) := by
  constructor
  · intro d _
    unfold onlyThrough
    split <;> rfl
  · intro d _
    unfold onlyThrough
    split <;> rfl
  · intro d _
    apply Or.inl
    unfold onlyThrough
    split <;> rfl

/-- A search that can only begin with the contact shows whether a path begins with it. -/
theorem routeLeft_onlyThrough {c : IonCXref} :
    routeLeft s q (onlyThrough s c) = true ↔ StartsOnward s q c := by
  constructor
  · intro h
    obtain ⟨route, first, rest, hroute⟩ := (routeLeft_eq_true (reset_onlyThrough s c)).mp h
    have hfirst : first = c := by
      by_contra hne
      have hopen := hroute.first_open
      rw [(excluded_onlyThrough s c first).mpr ⟨hroute.first_local, hne⟩] at hopen
      cases hopen
    exact hfirst ▸ hroute.startsOnward
  · rintro ⟨cs, a, hf, honward⟩
    by_contra hno
    rw [Bool.not_eq_true, routeLeft_eq_false (reset_onlyThrough s c)] at hno
    apply hno (c :: cs) a
    apply Feasible.of_excluded hf
    intro d hd _
    rw [← Bool.not_eq_true, excluded_onlyThrough]
    rintro ⟨hlocal, hne⟩
    cases List.mem_cons.mp hd with
    | inl he => exact hne he
    | inr hr => exact honward d hr hlocal

theorem routeLeft_cleared : routeLeft s q (fun _ => .cleared) = false ↔ ∀ c, ¬ StartsOnward s q c := by
  constructor
  · rintro h c ⟨cs, a, hf, -⟩
    exact (routeLeft_eq_false (reset_cleared s)).mp h (c :: cs) a (Feasible.of_excluded hf (fun _ _ _ => rfl))
  · intro h
    rw [← Bool.not_eq_true, routeLeft_eq_true (reset_cleared s)]
    rintro ⟨route, first, rest, hroute⟩
    exact h first hroute.startsOnward

variable {lost : Option IonCXref} {load load' : Load} {loaded : Loaded}

/-- What holds when a series has come to its end. -/
structure Ended (s : IonState) (q : Query) (lost : Option IonCXref) (load : Load) (loaded : Loaded) : Prop where
  reset : Reset s load.notes
  anchor_local : ∀ a, loaded.anchorContact = some a → a ∈ s.contactIndex ∧ a.fromNode = s.ownNodeNbr
  anchor_led : ∀ a, loaded.anchorContact = some a → StartsOnward s q a → Led q.payloadClass loaded.routes a
  led_onward : ∀ c, Led q.payloadClass loaded.routes c → StartsOnward s q c
  led_excluded : ∀ c, Led q.payloadClass loaded.routes c →
    excluded load.notes c = true ∨ loaded.anchorContact = some c
  excluded_led : ∀ c ∈ s.contactIndex, c.fromNode = s.ownNodeNbr → excluded load.notes c = true →
    Led q.payloadClass loaded.routes c ∨ lost = some c
  lost_not_led : ∀ c, lost = some c → ¬ Led q.payloadClass loaded.routes c
  none_left : loaded.anchorContact = none → (∀ cs a, ¬ Feasible s q (excluded load.notes) cs a) ∧
    ∀ c ∈ s.contactIndex, c.fromNode ≠ s.ownNodeNbr → excluded load.notes c = false

theorem inSeries_ended (h : InSeries s q lost load)
    (hled : ∀ a, load.anchorContact = some a → Led q.payloadClass load.routes a ∨
      ∀ c, excluded load.notes c = false) {out : Option Loaded} (hround : Round s q load (.inr out)) :
    ∃ loaded, out = some loaded ∧ Ended s q lost load loaded := by
  cases hround with
  | finished hsearch hnone =>
    refine ⟨_, rfl, h.reset, h.anchor_local, ?_, h.led_onward, h.led_excluded, h.excluded_led,
      fun c hc => (h.lost_excluded c hc).2.2.2, fun hn => ⟨hnone, h.readmitted hn⟩⟩
    rintro a ha ⟨cs, t, hf, -⟩
    cases hled a ha with
    | inl hl => exact hl
    | inr hfresh => exact absurd (Feasible.of_excluded hf (fun c _ _ => hfresh c)) (hnone _ _)
  | @givenUp route first rest hroute hanchor hend =>
    refine ⟨_, rfl, h.reset, ?_, ?_, ?_, ?_, ?_, ?_, nofun⟩
    · intro a ha
      cases ha
      exact ⟨hroute.first_mem, hroute.first_local⟩
    · intro a ha _
      exact hroute.led.mpr (Or.inr (Option.some.inj ha))
    · intro c hc
      cases hroute.led.mp hc with
      | inl hold => exact h.led_onward c hold
      | inr hnew => exact hnew ▸ hroute.startsOnward
    · intro c hc
      cases hroute.led.mp hc with
      | inr hnew => exact Or.inr (congrArg some hnew)
      | inl hold =>
        cases h.led_excluded c hold with
        | inl hex => exact Or.inl hex
        | inr ha =>
          cases hanchor with
          | inl hn => cases ha.symm.trans hn
          | inr hs => exact Or.inr (hs.symm.trans ha)
    · intro c hc hlocal hex
      exact (h.excluded_led c hc hlocal hex).imp_left (fun hl => hroute.led.mpr (Or.inl hl))
    · intro c hc hl
      obtain ⟨-, -, hex, hnot⟩ := h.lost_excluded c hc
      cases hroute.led.mp hl with
      | inl hold => exact hnot hold
      | inr hnew =>
        rw [← hnew, hroute.first_open] at hex
        cases hex

/-- At the end of a series every first contact leads a route exactly if no anchor has been
lost and the end of the anchored search would not bring another route. -/
theorem Ended.covers_iff (h : Ended s q lost load loaded) :
    (∀ c, StartsOnward s q c → Led q.payloadClass loaded.routes c) ↔
      (∀ c, lost = some c → ¬ StartsOnward s q c) ∧ ∀ a, loaded.anchorContact = some a →
        routeLeft s q (suppress (endAnchoredSearch s load.notes) a) = false := by
  have hended := fun a d hd => excluded_ended (reset_notesOk h.reset) a (d := d) hd
  have hreset := reset_endAnchoredSearch h.reset.capacity
  constructor
  · intro hall
    refine ⟨fun c hc hstart => h.lost_not_led c hc (hall c hstart), ?_⟩
    intro a ha
    by_contra hno
    rw [Bool.not_eq_false, routeLeft_eq_true (hreset a)] at hno
    obtain ⟨route, first, rest, hroute⟩ := hno
    have hopen := hroute.first_open
    have hout : excluded (suppress (endAnchoredSearch s load.notes) a) first = true := by
      rw [hended a first hroute.first_mem]
      cases h.led_excluded first (hall first hroute.startsOnward) with
      | inl hex => exact Or.inr ⟨hroute.first_local, hex⟩
      | inr hanchor => exact Or.inl (Option.some.inj (hanchor.symm.trans ha))
    rw [hout] at hopen
    cases hopen
  · rintro ⟨hlost, hleft⟩ c hstart
    obtain ⟨hmem, hlocal⟩ := hstart.mem
    by_contra hno
    have hopen : excluded load.notes c = false := by
      by_contra hex
      rw [Bool.not_eq_false] at hex
      cases h.excluded_led c hmem hlocal hex with
      | inl hled => exact hno hled
      | inr hl => exact hlost c hl hstart
    have hstart' := hstart
    obtain ⟨cs, t, hf, honward⟩ := hstart
    have hcs : ∀ d ∈ cs, d ∈ s.contactIndex := fun d hd => (Feasible.usable hf d (List.mem_cons_of_mem _ hd)).1
    cases ha : loaded.anchorContact with
    | none =>
      obtain ⟨hnone, hreadmitted⟩ := h.none_left ha
      apply hnone (c :: cs) t
      apply Feasible.of_excluded hf
      intro d hd _
      cases List.mem_cons.mp hd with
      | inl he => exact he ▸ hopen
      | inr hr => exact hreadmitted d (hcs d hr) (honward d hr)
    | some a =>
      apply (routeLeft_eq_false (hreset a)).mp (hleft a ha) (c :: cs) t
      apply Feasible.of_excluded hf
      intro d hd _
      rw [← Bool.not_eq_true]
      cases List.mem_cons.mp hd with
      | inl he =>
        rw [he, hended a c hmem]
        rintro (hca | ⟨-, hex⟩)
        · exact hno (h.anchor_led c (hca ▸ ha) hstart')
        · rw [hopen] at hex
          cases hex
      | inr hr =>
        rw [hended a d (hcs d hr)]
        rintro (hda | ⟨hl, -⟩)
        · exact honward d hr (hda ▸ (h.anchor_local a ha).2)
        · exact honward d hr hl

variable {anchorContact : Option IonCXref} {routes : List CgrRoute}

/-- The states between the rounds of a series: its start, or any state after it. -/
def Going (s : IonState) (q : Query) (anchorContact : Option IonCXref) (routes : List CgrRoute) (load : Load) :
    Prop :=
  load = seriesStart anchorContact routes ∨ InSeries s q (lostAnchor s q anchorContact) load ∧
    ∀ a, load.anchorContact = some a → Led q.payloadClass load.routes a

theorem seriesStart_inSeries (hanchor : AnchorLocal s (seriesStart anchorContact routes))
    (hfresh : ∀ c, ¬ Led q.payloadClass routes c) : InSeries s q none (seriesStart anchorContact routes) where
  reset := reset_cleared s
  anchor_local := hanchor
  led_onward c hc := absurd hc (hfresh c)
  led_excluded c hc := absurd hc (hfresh c)
  excluded_led _ _ _ hex := by cases hex
  lost_excluded _ hc := by cases hc
  readmitted _ _ _ _ := rfl

/-- The first route of a class decides whether the anchor of the class before is lost. -/
theorem lostAnchor_of_ne {route : CgrRoute} {first a : IonCXref} {rest : List IonCXref}
    (h : Found s q (fun _ => .cleared) route first rest) (hne : first ≠ a) :
    lostAnchor s q (some a) = some a := by
  obtain ⟨notes', hsearch⟩ := h.search
  simp only [lostAnchor, hsearch, h.hops, List.head?_cons, Option.some.injEq, if_neg hne]

theorem lostAnchor_of_recorded {route : CgrRoute} {first : IonCXref} {rest : List IonCXref}
    (h : Found s q (fun _ => .cleared) route first rest)
    (hanchor : anchorContact = none ∨ anchorContact = some first) : lostAnchor s q anchorContact = none := by
  obtain ⟨notes', hsearch⟩ := h.search
  cases hanchor with
  | inl hn => simp only [lostAnchor, hn]
  | inr hs => simp only [lostAnchor, hs, hsearch, h.hops, List.head?_cons, if_true]

theorem inSeries_going (h : InSeries s q lost load) (hround : Round s q load (.inl load'))
    (hled : ∀ a, load.anchorContact = some a → Led q.payloadClass load.routes a) :
    InSeries s q lost load' ∧ ∀ a, load'.anchorContact = some a → Led q.payloadClass load'.routes a := by
  cases hround with
  | endAnchored hroute hnotes hanchor hne =>
    refine ⟨h.endAnchored hnotes hanchor (Or.inl ⟨hled _ hanchor, rfl⟩), ?_⟩
    intro a ha
    cases ha
  | excludeFirst hroute hnotes hanchor htime =>
    refine ⟨h.record hroute hnotes hanchor (Or.inl ⟨rfl, rfl⟩), ?_⟩
    intro a ha
    exact hroute.led.mpr (Or.inl (hled a ha))
  | excludeLimit hroute hnotes hanchor hlimit htime hearlier =>
    refine ⟨h.record hroute hnotes hanchor (Or.inr ⟨hlimit, rfl⟩), ?_⟩
    intro a ha
    exact hroute.led.mpr (Or.inr (Option.some.inj ha))

theorem Going.round (hstart : InSeries s q none (seriesStart anchorContact routes))
    (hfresh : ∀ c, ¬ Led q.payloadClass routes c) (h : Going s q anchorContact routes load)
    (hround : Round s q load (.inl load')) : Going s q anchorContact routes load' := by
  cases h with
  | inr h => exact Or.inr (inSeries_going h.1 hround h.2)
  | inl h =>
    subst h
    apply Or.inr
    cases hround with
    | @endAnchored route first a rest notes' hroute hnotes hanchor hne =>
      have hsome : anchorContact = some a := hanchor
      have hlost : lostAnchor s q anchorContact = some a := by
        rw [hsome]
        exact lostAnchor_of_ne hroute hne
      refine ⟨hstart.endAnchored hnotes hanchor (Or.inr ⟨hfresh a, rfl, hlost⟩), ?_⟩
      intro a' ha'
      cases ha'
    | excludeFirst hroute hnotes hanchor htime =>
      have hlost : lostAnchor s q anchorContact = none := lostAnchor_of_recorded hroute hanchor
      rw [hlost]
      refine ⟨hstart.record hroute hnotes hanchor (Or.inl ⟨rfl, rfl⟩), ?_⟩
      intro a ha
      cases hanchor with
      | inl hn => cases ha.symm.trans hn
      | inr hs => exact hroute.led.mpr (Or.inr (Option.some.inj (hs.symm.trans ha)))
    | excludeLimit hroute hnotes hanchor hlimit htime hearlier =>
      have hlost : lostAnchor s q anchorContact = none := lostAnchor_of_recorded hroute hanchor
      rw [hlost]
      refine ⟨hstart.record hroute hnotes hanchor (Or.inr ⟨hlimit, rfl⟩), ?_⟩
      intro a ha
      exact hroute.led.mpr (Or.inr (Option.some.inj ha))

theorem Going.ended (hstart : InSeries s q none (seriesStart anchorContact routes))
    (h : Going s q anchorContact routes load) {out : Option Loaded} (hround : Round s q load (.inr out)) :
    ∃ loaded, out = some loaded ∧ Ended s q (lostAnchor s q anchorContact) load loaded := by
  cases h with
  | inr h => exact inSeries_ended h.1 (fun a ha => Or.inl (h.2 a ha)) hround
  | inl h =>
    subst h
    have hnone : lostAnchor s q anchorContact = none := by
      cases hround with
      | finished hsearch _ =>
        obtain ⟨notes', hrun⟩ := hsearch
        have hrun' : findNextBestRoute s q (fun _ => .cleared) = some (none, notes') := hrun
        simp only [lostAnchor, hrun']
      | givenUp hroute hanchor _ => exact lostAnchor_of_recorded hroute hanchor
    rw [hnone]
    exact inSeries_ended hstart (fun _ _ => Or.inr (fun _ => rfl)) hround

theorem seriesStart_roundsLeft (s : IonState) (anchorContact : Option IonCXref) (routes : List CgrRoute) :
    roundsLeft s (seriesStart anchorContact routes) < seriesFuel s.contactIndex.entries.length := by
  have hanchor := anchorExcluded_le (seriesStart anchorContact routes)
  have hlocal := left_le_length s (isLocal s) (seriesStart anchorContact routes).notes
  apply lex_lt _ (left_le_length s _ _)
  omega

theorem Going.reset (hstart : InSeries s q none (seriesStart anchorContact routes))
    (h : Going s q anchorContact routes load) : Reset s load.notes ∧ AnchorLocal s load := by
  cases h with
  | inl h => exact h ▸ ⟨hstart.reset, hstart.anchor_local⟩
  | inr h => exact ⟨h.1.reset, h.1.anchor_local⟩

/-- Every series comes to its end, from a state in which it was going on. -/
theorem series_ends (hanchor : AnchorLocal s (seriesStart anchorContact routes))
    (hfresh : ∀ c, ¬ Led q.payloadClass routes c) :
    ∃ load loaded, Runs.lastRound (loadRound s q) (seriesFuel s.contactIndex.entries.length)
        (seriesStart anchorContact routes) = some load ∧
      loadRound s q load = .inr (some loaded) ∧ Ended s q (lostAnchor s q anchorContact) load loaded := by
  have hstart := seriesStart_inSeries hanchor hfresh
  have hround : ∀ load out, Going s q anchorContact routes load → loadRound s q load = out → Round s q load out :=
    fun load out h hb => hb ▸ loadRound_round (h.reset hstart).1
  have hnext : ∀ load load', Going s q anchorContact routes load → loadRound s q load = .inl load' →
      Going s q anchorContact routes load' :=
    fun load load' h hb => h.round hstart hfresh (hround load _ h hb)
  obtain ⟨out, hloop, -⟩ := Runs.loop_spec (Going s q anchorContact routes) (fun _ => True) (roundsLeft s)
    (fun load load' h hb => ⟨hnext load load' h hb, (hround load _ h hb).roundsLeft_lt (h.reset hstart).2⟩)
    (fun _ _ _ _ => trivial) _ (seriesStart anchorContact routes) (Or.inl rfl)
    (seriesStart_roundsLeft s anchorContact routes)
  obtain ⟨load, hlast, hb⟩ := Runs.loop_eq_some_iff.mp hloop
  have hgoing := Runs.lastRound_invariant _ hnext _ _ load (Or.inl rfl) hlast
  obtain ⟨loaded, rfl, hended⟩ := hgoing.ended hstart (hround load _ hgoing hb)
  exact ⟨load, loaded, hlast, hb, hended⟩

/-- The routes of other classes are those that there were before. -/
theorem loadClass_other {k : Nat} (hk : k ≠ q.payloadClass) (h : loadClass s q anchorContact routes = some loaded)
    (c : IonCXref) : Led k loaded.routes c ↔ Led k routes c := by
  have hadd : ∀ {notes : Notes} {route : CgrRoute} {first : IonCXref} {rest : List IonCXref},
      Found s q notes route first rest → ∀ old, Led k (old ++ [route]) c ↔ Led k old c := by
    intro notes route first rest hroute old
    rw [led_append, hroute.filled.payloadClass]
    simp [Ne.symm hk]
  rw [loadClass, Option.join_eq_some_iff] at h
  refine Runs.loop_partial (fun load => Reset s load.notes ∧ (Led k load.routes c ↔ Led k routes c))
    (fun out => ∀ loaded, out = some loaded → (Led k loaded.routes c ↔ Led k routes c)) ?_ ?_ _ _
    ⟨reset_cleared s, Iff.rfl⟩ _ h loaded rfl
  · rintro load load' ⟨hreset, hsame⟩ hb
    have hround : Round s q load (.inl load') := hb ▸ loadRound_round hreset
    refine ⟨hround.reset, ?_⟩
    obtain hkept | ⟨route, first, rest, hroute, hrecorded⟩ := hround.routes
    · rw [hkept]
      exact hsame
    · rw [hrecorded]
      exact (hadd hroute _).trans hsame
  · rintro load out ⟨hreset, hsame⟩ hb loaded hout
    subst hout
    have hround : Round s q load (.inr (some loaded)) := hb ▸ loadRound_round hreset
    obtain hkept | ⟨route, first, rest, hroute, hrecorded⟩ := hround.last_routes
    · rw [hkept]
      exact hsame
    · rw [hrecorded]
      exact (hadd hroute _).trans hsame

theorem loadClass_covers_iff (hanchor : AnchorLocal s (seriesStart anchorContact routes))
    (hfresh : ∀ c, ¬ Led q.payloadClass routes c) :
    ∃ loaded, loadClass s q anchorContact routes = some loaded ∧
      AnchorLocal s (seriesStart loaded.anchorContact loaded.routes) ∧
      (∀ c, Led q.payloadClass loaded.routes c → StartsOnward s q c) ∧
      ((∀ c, StartsOnward s q c → Led q.payloadClass loaded.routes c) ↔
        ¬ AnchorGivenUp s q anchorContact ∧ ¬ CutShort s q anchorContact routes) := by
  obtain ⟨load, loaded, hlast, hb, hended⟩ := series_ends hanchor hfresh
  have hclass : loadClass s q anchorContact routes = some loaded := by
    rw [loadClass, Option.join_eq_some_iff, Runs.loop_eq_some_iff]
    exact ⟨load, hlast, hb⟩
  refine ⟨loaded, hclass, hended.anchor_local, hended.led_onward, ?_⟩
  rw [hended.covers_iff]
  apply and_congr
  · simp only [AnchorGivenUp, routeLeft_onlyThrough, not_exists, not_and]
  · constructor
    · rintro hleft ⟨load', loaded', a, hlast', hb', ha, htrue⟩
      obtain rfl := Option.some.inj (hlast.symm.trans hlast')
      obtain rfl := Option.some.inj (Sum.inr.inj (hb.symm.trans hb'))
      rw [hleft a ha] at htrue
      cases htrue
    · intro hcut a ha
      rw [← Bool.not_eq_true]
      intro htrue
      exact hcut ⟨load, loaded, a, hlast, hb, ha, htrue⟩

theorem loadClasses_covers_iff (currentTime : Int) (terminusNodeNbr : Nat) (classes : List Nat)
    (hnodup : classes.Nodup) (hanchor : AnchorLocal s (seriesStart anchorContact routes))
    (hfresh : ∀ k ∈ classes, ∀ c, ¬ Led k routes c) :
    ∃ loaded, loadClasses s currentTime terminusNodeNbr classes anchorContact routes = some loaded ∧
      (∀ k, k ∉ classes → ∀ c, Led k loaded.routes c ↔ Led k routes c) ∧
      (∀ k ∈ classes, ∀ c, Led k loaded.routes c → StartsOnward s ⟨currentTime, terminusNodeNbr, k⟩ c) ∧
      ((∀ k ∈ classes, ∀ c, StartsOnward s ⟨currentTime, terminusNodeNbr, k⟩ c → Led k loaded.routes c) ↔
        NothingLost s currentTime terminusNodeNbr classes anchorContact routes) := by
  induction classes generalizing anchorContact routes with
  | nil => exact ⟨_, rfl, fun _ _ _ => Iff.rfl, nofun, fun _ => trivial, fun _ => nofun⟩
  | cons k rest ih =>
    obtain ⟨hk, hrest⟩ := List.nodup_cons.mp hnodup
    obtain ⟨first, hfirst, hlocal, honward, hcovers⟩ :=
      loadClass_covers_iff (q := ⟨currentTime, terminusNodeNbr, k⟩) hanchor (hfresh k List.mem_cons_self)
    have hother : ∀ j, j ≠ k → ∀ c, Led j first.routes c ↔ Led j routes c :=
      fun j hj c => loadClass_other hj hfirst c
    have hfresh' : ∀ j ∈ rest, ∀ c, ¬ Led j first.routes c := by
      intro j hj c
      rw [hother j (fun he => hk (he ▸ hj)) c]
      exact hfresh j (List.mem_cons_of_mem _ hj) c
    by_cases hcomplete : first.complete = true
    · obtain ⟨loaded, hloaded, hsame, hclasses, hiff⟩ := ih hrest hlocal hfresh'
      refine ⟨loaded, ?_, ?_, ?_, ?_⟩
      · rw [loadClasses, hfirst, Option.bind_some, if_pos hcomplete]
        exact hloaded
      · intro j hj c
        obtain ⟨hjk, hjrest⟩ := not_or.mp (fun h => hj (List.mem_cons.mpr h))
        exact (hsame j hjrest c).trans (hother j hjk c)
      · intro j hj c hc
        cases List.mem_cons.mp hj with
        | inr hjrest => exact hclasses j hjrest c hc
        | inl hjk =>
          subst hjk
          exact honward c ((hsame j hk c).mp hc)
      · simp only [NothingLost, hfirst, Option.some.injEq, forall_eq', hcomplete, if_true, List.forall_mem_cons,
          ← hiff, hsame k hk]
        rw [← and_assoc]
        exact and_congr_left' hcovers
    · refine ⟨first, ?_, ?_, ?_, ?_⟩
      · rw [loadClasses, hfirst, Option.bind_some, if_neg hcomplete]
      · intro j hj c
        exact hother j (fun he => hj (he ▸ List.mem_cons_self)) c
      · intro j hj c hc
        cases List.mem_cons.mp hj with
        | inr hjrest => exact absurd hc (hfresh' j hjrest c)
        | inl hjk =>
          subst hjk
          exact honward c hc
      · simp only [NothingLost, hfirst, Option.some.injEq, forall_eq', if_neg hcomplete, List.forall_mem_cons]
        rw [← and_assoc]
        apply and_congr hcovers
        simp only [routeLeft_cleared]
        constructor
        · intro hall j hj c hc
          exact hfresh' j hj c (hall j hj c hc)
        · intro hno j hj c hc
          exact absurd hc (hno j hj c)

/-- The loading of a route list comes to an end in every class. -/
theorem loadRouteList_ends (s : IonState) (currentTime : Int) (terminusNodeNbr : Nat) :
    ∃ loaded, loadRouteList s currentTime terminusNodeNbr = some loaded := by
  have hanchor : AnchorLocal s (seriesStart none []) := anchorLocal_none rfl
  obtain ⟨loaded, hloaded, -⟩ := loadClasses_covers_iff currentTime terminusNodeNbr (List.range payloadClasses)
    List.nodup_range hanchor (fun _ _ _ => by simp [Led])
  exact ⟨loaded, hloaded⟩

theorem StartsOnward.starts {c : IonCXref} (h : StartsOnward s q c) : Starts s q c := by
  obtain ⟨cs, a, hf, -⟩ := h
  exact ⟨cs, a, hf⟩

end InitialContacts
