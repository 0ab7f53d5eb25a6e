import CgrJni.ProjectedArrival

/-!
The best-case arrival of a route, as the search computes it, against the arrivals that are
projected for the route later on: the one allows for the movement of the receiving nodes,
the other for the time of transmission.
-/

namespace BestCase

open IonDb Libcgr Dijkstra DijkstraCorrect RouteLists Forward Scalar Journeys Projection ProjectedArrival

variable {s : IonState} {q : Query} {route : CgrRoute} {c : IonCXref} {rest : List IonCXref}

/-- A hop as the search goes over it. -/
def bestLeg (s : IonState) (c : IonCXref) : Leg Int := ⟨c.fromTime, owltWithMargin (owltOf s c)⟩

theorem feasibleFrom_arrive {usable : IonCXref → Prop} {node : Nat} {t a : Int} {cs : List IonCXref}
    (h : FeasibleFrom s usable owltWithMargin node t cs a) : a = arrive t (cs.map (bestLeg s)) := by
  induction cs generalizing node t with
  | nil => exact h
  | cons c rest ih =>
    obtain ⟨-, -, -, owlt, howlt, hrest⟩ := h
    have hc : owltOf s c = owlt := by rw [owltOf, howlt, Option.getD_some]
    rw [ih hrest, List.map_cons, arrive, bestLeg, hc]

/-- What the search allows at a hop for the movement of the receiving node. -/
def margin (s : IonState) (c : IonCXref) : Int := (owltWithMargin (owltOf s c) : Int) - owltOf s c

def margins (s : IonState) (hops : List IonCXref) : Int := (hops.map (margin s)).sum

/-- The whole seconds that a bundle takes to transmit, at all hops together. -/
def transmissions (size : Int) (hops : List IonCXref) : Int := (hops.map (fun c => seconds size c.xmitRate)).sum

theorem bestLeg_takes (s : IonState) (c : IonCXref) : (bestLeg s c).takes = owltOf s c + margin s c := by
  rw [margin, add_sub_cancel]
  rfl

theorem total_bestLeg (s : IonState) (hops : List IonCXref) :
    total (hops.map (bestLeg s)) = (hops.map (fun c => (owltOf s c : Int))).sum + margins s hops := by
  induction hops with
  | nil => rfl
  | cons c rest ih =>
    simp only [margins, List.map_cons, total_cons, List.sum_cons, bestLeg_takes] at ih ⊢
    rw [ih]
    ring

/-- Where the bundle waits for a hop, and for none after it, the margins from there on have to be covered. -/
theorem bestCase_beaten_of_wait {suppressed : IonCXref → Bool} (hfilled : FilledRoute s q suppressed route) {now size : Int}
    {bundle : Bundle} {outduct : Outduct} {later : List IonCXref} (hsuffix : c :: later <:+ route.hops)
    (hwait : computeArrivalTime s route bundle now outduct =
      c.fromTime + ((c :: later).map (fun d => (owltOf s d : Int))).sum + transmissions size (c :: later))
    (hmargins : transmissions size (c :: later) < margins s (c :: later)) :
    computeArrivalTime s route bundle now outduct < route.arrivalTime := by
  have hbest : c.fromTime + total ((c :: later).map (bestLeg s)) ≤ route.arrivalTime := by
    rw [feasibleFrom_arrive hfilled.feasible.path]
    exact le_arrive_iff.mpr
      ⟨_, mem_sums.mpr (Or.inr ⟨bestLeg s c, later.map (bestLeg s), hsuffix.map (bestLeg s), rfl⟩), le_rfl⟩
  rw [total_bestLeg] at hbest
  linarith

end BestCase
