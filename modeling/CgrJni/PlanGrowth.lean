import CgrJni.FirstRoutes
import CgrJni.SimpleRoutes

/-!
What a change of the plan does to the best routes: contacts that are added, and an earlier
start, never make the best route of a class arrive later, and contacts that are removed never
make it arrive earlier.
-/

namespace PlanGrowth

open IonDb Rfx RfxContacts Libcgr Dijkstra DijkstraCorrect EarliestArrival RouteLists RouteLoading LimitContacts FirstRoutes

/-- The plan has every contact that it had, and the same ranges. -/
structure Grows (s s' : IonState) : Prop where
  ownNodeNbr : s'.ownNodeNbr = s.ownNodeNbr
  contacts : ∀ c ∈ s.contactIndex, c ∈ s'.contactIndex
  ranges : SameRanges s s'

theorem Grows.refl (s : IonState) : Grows s s := ⟨rfl, fun _ hc => hc, SameRanges.refl s⟩

theorem Grows.trans {s t u : IonState} (h : Grows s t) (h' : Grows t u) : Grows s u :=
  ⟨h'.ownNodeNbr.trans h.ownNodeNbr, fun c hc => h'.contacts c (h.contacts c hc), h.ranges.trans h'.ranges⟩

theorem addContact_grows (s : IonState) (now : Int) (span : Span) (xmitRate : Nat) (prob : ℚ)
    (h : s.contactIndex.lookup span.key = none) : Grows s (addContact s now span xmitRate prob h).1 where
  ownNodeNbr := rfl
  contacts c hc := by
    rw [addContact, insertCXref, SortedIndex.mem_insert]
    exact Or.inr hc
  ranges := addContact_sameRanges s now span xmitRate prob h

theorem rfxInsertContact_grows (s : IonState) (now fromTime toTime : Int) (fromNode toNode xmitRate : Nat) (prob : ℚ) :
    Grows s (rfxInsertContact s now fromTime toTime fromNode toNode xmitRate prob).1 := by
  rcases rfxInsertContact_cases s now fromTime toTime fromNode toNode xmitRate prob with
    h | ⟨span, -, -, -, h⟩ <;> rw [h]
  · exact Grows.refl s
  · rcases insertContact_cases s now span xmitRate prob with ⟨c, -, h⟩ | ⟨-, -, h⟩ | ⟨hk, -, h⟩ <;> rw [h]
    · exact Grows.refl s
    · exact Grows.refl s
    · exact addContact_grows s now span xmitRate prob hk

theorem deleteContact_grows (s : IonState) (now : Int) (c : IonCXref) : Grows (deleteContact s now c) s where
  ownNodeNbr := rfl
  contacts _ hd := (SortedIndex.mem_erase.mp hd).1
  ranges := ⟨rfl, rfl⟩

theorem rfxRemoveContact_grows {s t : IonState} {now fromTime : Int} {fromNode toNode : Nat}
    (h : rfxRemoveContact s now fromTime fromNode toNode = some t) : Grows t s := by
  obtain ⟨u, hu, hgrows⟩ := rfxRemoveContact_spec (fun t => Grows t s) now fromTime fromNode toNode
    (fun v c hv _ _ => (deleteContact_grows v now c).trans hv) s (Grows.refl s)
  rw [h] at hu
  exact Option.some.inj hu ▸ hgrows

def Inserts : Edit → Prop
  | .insertContact .. => True
  | _ => False

def Removes : Edit → Prop
  | .removeContact .. => True
  | _ => False

variable {s s' : IonState} {calls : List (Int × Edit)}

theorem run_inserts (hcalls : ∀ call ∈ calls, Inserts call.2) (h : Runs.run edit s calls = some s') : Grows s s' := by
  induction calls generalizing s with
  | nil =>
    rw [← Option.some.inj h]
    exact Grows.refl s
  | cons call rest ih =>
    obtain ⟨t, ht, hrest⟩ := Option.bind_eq_some_iff.mp h
    have hlater := ih (fun next hnext => hcalls next (List.mem_cons_of_mem _ hnext)) hrest
    have hcall := hcalls call List.mem_cons_self
    obtain ⟨now, e⟩ := call
    cases e with
    | insertContact fromTime toTime fromNode toNode xmitRate prob =>
      rw [← Option.some.inj ht] at hlater
      exact (rfxInsertContact_grows s now fromTime toTime fromNode toNode xmitRate prob).trans hlater
    | removeContact => cases hcall
    | insertRange => cases hcall
    | removeRange => cases hcall

theorem run_removes (hcalls : ∀ call ∈ calls, Removes call.2) (h : Runs.run edit s calls = some s') : Grows s' s := by
  induction calls generalizing s with
  | nil =>
    rw [← Option.some.inj h]
    exact Grows.refl s
  | cons call rest ih =>
    obtain ⟨t, ht, hrest⟩ := Option.bind_eq_some_iff.mp h
    have hlater := ih (fun next hnext => hcalls next (List.mem_cons_of_mem _ hnext)) hrest
    have hcall := hcalls call List.mem_cons_self
    obtain ⟨now, e⟩ := call
    cases e with
    | removeContact fromTime fromNode toNode => exact hlater.trans (rfxRemoveContact_grows ht)
    | insertContact => cases hcall
    | insertRange => cases hcall
    | removeRange => cases hcall

variable {now now' : Int} {terminusNodeNbr payloadClass : Nat}

theorem Grows.usable (h : Grows s s') {c : IonCXref} {out : IonCXref → Bool}
    (hc : Usable s ⟨now, terminusNodeNbr, payloadClass⟩ out c) : Usable s' ⟨now', terminusNodeNbr, payloadClass⟩ out c :=
  ⟨h.contacts c hc.1, hc.2⟩

theorem Grows.toNodeOf (h : Grows s s') (u : Option IonCXref) : toNodeOf s' u = toNodeOf s u := by
  cases u with
  | none => exact h.ownNodeNbr
  | some c => rfl

theorem Grows.getApplicableRange (h : Grows s s') (c : IonCXref) : getApplicableRange s' c = getApplicableRange s c := by
  rw [Libcgr.getApplicableRange, Libcgr.getApplicableRange, h.ranges.rangeIndex]

/-- A contact that can be gone on to still can, and from an earlier time no later. -/
theorem Grows.improves (h : Grows s s') (hnow : now' ≤ now) (out : IonCXref → Bool) :
    Improves (network s ⟨now, terminusNodeNbr, payloadClass⟩ out) (network s' ⟨now', terminusNodeNbr, payloadClass⟩ out) where
  start_le := hnow
  step_le u c t a hstep t' ht := by
    obtain ⟨hu, hfrom, hopen, owlt, hrange, rfl⟩ := step_eq_some.mp hstep
    have hrange' : Libcgr.getApplicableRange s' c = some owlt := (h.getApplicableRange c).trans hrange
    refine ⟨_, step_eq_some.mpr ⟨h.usable hu, hfrom.trans (h.toNodeOf u).symm, by omega, owlt, hrange', rfl⟩, ?_⟩
    rw [transmitTime_eq, transmitTime_eq]
    omega

theorem Grows.feasible (h : Grows s s') (hnow : now' ≤ now) {out : IonCXref → Bool} {cs : List IonCXref} {a : Int}
    (hf : Feasible s ⟨now, terminusNodeNbr, payloadClass⟩ out cs a) :
    ∃ a', Feasible s' ⟨now', terminusNodeNbr, payloadClass⟩ out cs a' ∧ a' ≤ a := by
  have hpath := (feasibleFrom_iff (u := none)).mp hf.path
  obtain ⟨a', hpath', hle⟩ := arrive_improves (h.improves hnow out) hnow hpath
  exact ⟨a', ⟨(feasibleFrom_iff (u := none)).mpr hpath', hf.terminus, hle.trans_lt hf.in_time⟩, hle⟩

/-- A route that a search has filled in goes over a path of its class that is feasible with nothing suppressed. -/
def OverPath (s : IonState) (now : Int) (terminusNodeNbr : Nat) (route : CgrRoute) : Prop :=
  Feasible s ⟨now, terminusNodeNbr, route.payloadClass⟩ (fun _ => false) route.hops route.arrivalTime

theorem searched_overPath (route : CgrRoute) (h : SimpleRoutes.Searched s now terminusNodeNbr route) :
    OverPath s now terminusNodeNbr route := by
  obtain ⟨payloadClass, notes, notes', hreset, hfound⟩ := h
  obtain ⟨hfilled, -⟩ := SimpleRoutes.findNextBestRoute_filled hreset hfound
  have hclass : route.payloadClass = payloadClass := hfilled.payloadClass
  subst hclass
  exact RouteSeries.Feasible.of_excluded hfilled.feasible (fun _ _ _ => rfl)

theorem firstOfClass_feasible {loaded : Loaded} {route : CgrRoute}
    (hload : loadRouteList s now terminusNodeNbr = some loaded)
    (hfirst : firstOfClass payloadClass loaded.routes = some route) :
    Feasible s ⟨now, terminusNodeNbr, payloadClass⟩ (fun _ => false) route.hops route.arrivalTime := by
  rw [firstOfClass] at hfirst
  have hclass : route.payloadClass = payloadClass := by
    simpa using List.find?_some hfirst
  have hpath : OverPath s now terminusNodeNbr route :=
    SimpleRoutes.loadRouteList_routes searched_overPath hload route (List.mem_of_find?_eq_some hfirst)
  rw [OverPath, hclass] at hpath
  exact hpath

/-- With the other plan and the other time, each class that has a route on its list has one on
the other list, and the first of them arrives no later. -/
def BestNoLater (s : IonState) (now : Int) (s' : IonState) (now' : Int) : Prop :=
  ∀ (terminusNodeNbr payloadClass : Nat) (loaded : Loaded) (route : CgrRoute),
    payloadClass < payloadClasses → loadRouteList s now terminusNodeNbr = some loaded →
    firstOfClass payloadClass loaded.routes = some route →
    ∃ loaded' route', loadRouteList s' now' terminusNodeNbr = some loaded' ∧
      firstOfClass payloadClass loaded'.routes = some route' ∧ route'.arrivalTime ≤ route.arrivalTime

/-- Loading settles every class, where each path has a contact that ends by the horizon. -/
theorem loadRouteList_settled (hends : ∀ c ∈ s.contactIndex, c.toTime ≤ maxTime) (now : Int) (terminusNodeNbr : Nat) :
    ∃ loaded, loadRouteList s now terminusNodeNbr = some loaded ∧
      ∀ k < payloadClasses, Settled s ⟨now, terminusNodeNbr, k⟩ loaded.routes := by
  have hintime : ∀ q, EndsInTime s q := by
    intro q cs a hf
    obtain ⟨c, hc, -⟩ := hf.terminus
    have hmem := List.mem_of_getLast? hc
    exact ⟨c, hmem, hends c (RouteSeries.Feasible.usable hf c hmem).1⟩
  obtain ⟨last, load, loaded, hload, hround, hthrough, hrun⟩ := loadRouteList_reached s now terminusNodeNbr
  have hcases := hload.cases_round hround
  have hcomplete := (complete_last (hintime _) hcases).1
  obtain ⟨hbefore, hinclass⟩ := Reached.settled hload
  obtain ⟨hsettled, hroutes⟩ := hinclass.last hcases hcomplete
  have hlast := hthrough hcomplete
  refine ⟨loaded, hrun, fun k hk => ?_⟩
  cases Nat.lt_or_eq_of_le (show k ≤ last by omega) with
  | inl hlt =>
    rw [hroutes]
    exact hbefore k hlt
  | inr heq =>
    rw [heq]
    exact hsettled

theorem Grows.bestNoLater (h : Grows s s') (hends : ∀ c ∈ s'.contactIndex, c.toTime ≤ maxTime) (hnow : now' ≤ now) :
    BestNoLater s now s' now' := by
  intro terminusNodeNbr payloadClass loaded route hclass hload hfirst
  obtain ⟨a, hf, hle⟩ := h.feasible hnow (firstOfClass_feasible hload hfirst)
  obtain ⟨loaded', hload', hsettled⟩ := loadRouteList_settled hends now' terminusNodeNbr
  obtain ⟨route', hfirst', hoptimal⟩ := hsettled payloadClass hclass route.hops a hf
  exact ⟨loaded', route', hload', hfirst', (hoptimal.earliest route.hops a hf).trans hle⟩

/-- After any number of contact insertions no class has a later best route, at no later a time,
and after any number of contact removals none has an earlier one, at no earlier a time. -/
theorem best_routes_monotone (s s' : IonState) (calls : List (Int × Edit)) (hrun : Runs.run edit s calls = some s') :
    ((∀ call ∈ calls, Inserts call.2) → (∀ c ∈ s'.contactIndex, c.toTime ≤ maxTime) →
      ∀ now now', now' ≤ now → BestNoLater s now s' now') ∧
    ((∀ call ∈ calls, Removes call.2) → (∀ c ∈ s.contactIndex, c.toTime ≤ maxTime) →
      ∀ now now', now ≤ now' → BestNoLater s' now' s now) := by
  constructor
  · intro hcalls hends now now' hnow
    exact (run_inserts hcalls hrun).bestNoLater hends hnow
  · intro hcalls hends now now' hnow
    exact (run_removes hcalls hrun).bestNoLater hends hnow

/-- Node 1 reaches node 4 by way of node 3 at 21. -/
def slowPlan : List (Int × Edit) :=
  [(0, .insertContact 10 100 1 3 100000 1), (0, .insertRange 10 100 1 3 1), (0, .insertContact 20 60 3 4 100000 1),
    (0, .insertRange 20 60 3 4 1), (0, .insertRange 10 100 1 2 1), (0, .insertRange 10 50 2 4 1)]

/-- With a contact to node 2 and one from there, node 4 is reached at 12. -/
def detour : List (Int × Edit) := [(0, .insertContact 10 100 1 2 100000 1), (0, .insertContact 10 50 2 4 100000 1)]

def bestArrival (s : IonState) (now : Int) (terminusNodeNbr payloadClass : Nat) : Option Int :=
  (loadRouteList s now terminusNodeNbr).bind (fun loaded =>
    (firstOfClass payloadClass loaded.routes).map CgrRoute.arrivalTime)

theorem detour_inserts : ∀ call ∈ detour, Inserts call.2 := by
  simp [detour, Inserts]

theorem best_routes_monotone_detour :
    ∃ s s', Runs.run edit (ionInitialize 1) slowPlan = some s ∧ Runs.run edit s detour = some s' ∧
      bestArrival s 10 4 0 = some 21 ∧ bestArrival s' 10 4 0 = some 12 ∧ BestNoLater s 15 s' 10 := by
  have hruns : (Runs.run edit (ionInitialize 1) slowPlan).any (fun s => (Runs.run edit s detour).any (fun s' =>
      decide (bestArrival s 10 4 0 = some 21 ∧ bestArrival s' 10 4 0 = some 12 ∧
        ∀ c ∈ s'.contactIndex.entries, c.toTime ≤ maxTime))) = true := by
    decide +kernel
  obtain ⟨s, hs, hruns⟩ := (Option.any_eq_true _ _).mp hruns
  obtain ⟨s', hs', hrun⟩ := (Option.any_eq_true _ _).mp hruns
  obtain ⟨hbefore, hafter, hends⟩ := of_decide_eq_true hrun
  exact ⟨s, s', hs, hs', hbefore, hafter,
    (best_routes_monotone s s' detour hs').1 detour_inserts hends 15 10 (by decide)⟩

end PlanGrowth
