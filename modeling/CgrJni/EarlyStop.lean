import CgrJni.InitialContacts
import CgrJni.WalkEnds

/-!
The walk along a route list stops at the first open route that arrives past the
deadline. What the routes behind it would have brought, and when that is nothing.
-/

namespace EarlyStop

open IonDb Libcgr Dijkstra DijkstraCorrect RouteLists RouteSeries Forward RouteWalk

variable {δ σ : Type}

def nodeRank (node : ProximateNode δ) : Int ×ₗ Nat := toLex (node.arrivalTime, node.hopCount)

def routeRank (route : CgrRoute) (est : Estimate) : Int ×ₗ Nat := toLex (est.arrivalTime, route.hops.length)

/-- The best arrival noted for a neighbor, with its number of hops. -/
def standing : List (ProximateNode δ) → Nat → WithTop (Int ×ₗ Nat)
  | [], _ => ⊤
  | node :: rest, n => if node.neighborNodeNbr = n then nodeRank node else standing rest n

theorem improve_rank (node : ProximateNode δ) (route : CgrRoute) (est : Estimate) :
    nodeRank (node.improve route est) = min (nodeRank node) (routeRank route est) := by
  unfold ProximateNode.improve
  by_cases hlt : est.arrivalTime < node.arrivalTime
  · rw [if_pos hlt, min_eq_right]
    · rfl
    · exact Prod.Lex.toLex_le_toLex.mpr (Or.inl hlt)
  · rw [if_neg hlt]
    by_cases heq : est.arrivalTime = node.arrivalTime ∧ route.hops.length < node.hopCount
    · rw [if_pos heq, min_eq_right]
      · rfl
      · exact Prod.Lex.toLex_le_toLex.mpr (Or.inr ⟨heq.1, heq.2.le⟩)
    · rw [if_neg heq, min_eq_left]
      apply Prod.Lex.toLex_le_toLex.mpr
      by_cases hsame : node.arrivalTime = est.arrivalTime
      · exact Or.inr ⟨hsame, by omega⟩
      · exact Or.inl (by show node.arrivalTime < est.arrivalTime; omega)

/-- Noting a route sets its neighbor to the better of the two ranks, and no other neighbor. -/
theorem standing_noteProximateNode (directive : δ) (route : CgrRoute) (est : Estimate)
    (nodes : List (ProximateNode δ)) (n : Nat) :
    standing (noteProximateNode directive route est nodes) n =
      if n = route.toNodeNbr then min (standing nodes n) (routeRank route est) else standing nodes n := by
  induction nodes with
  | nil =>
    simp only [noteProximateNode, standing, eq_comm (a := n)]
    split
    · exact (min_eq_right le_top).symm
    · rfl
  | cons node rest ih =>
    rw [noteProximateNode]
    by_cases hnode : node.neighborNodeNbr = route.toNodeNbr
    · obtain ⟨hnbr, -, -⟩ := improve_arrivalTime node route est
      rw [if_pos hnode]
      simp only [standing, hnbr, improve_rank, hnode, eq_comm (a := n)]
      split
      · exact WithTop.coe_min _ _
      · rfl
    · rw [if_neg hnode]
      simp only [standing, ih]
      by_cases hn : node.neighborNodeNbr = n
      · rw [if_pos hn, if_neg (fun he => hnode (hn.trans he)), if_pos hn]
      · rw [if_neg hn, if_neg hn]

theorem standing_noteProximateNode_le (directive : δ) (route : CgrRoute) (est : Estimate)
    (nodes : List (ProximateNode δ)) (n : Nat) :
    standing (noteProximateNode directive route est nodes) n ≤ standing nodes n := by
  rw [standing_noteProximateNode]
  split
  · exact min_le_left _ _
  · exact le_rfl

/-- The routes that are passed over without being tried. -/
def passedOver (s : IonState) (bundle : Bundle) (excludedNodes : List Nat) (route : CgrRoute) : Prop :=
  (route.toNodeNbr = s.ownNodeNbr ∧ ¬ (bundle.cbhe ∧ bundle.destination = route.toNodeNbr)) ∨
    route.maxCapacity < bundle.payloadLength ∨ route.toNodeNbr ∈ excludedNodes

/-- The routes to be examined: still open, and with an arrival by the deadline. -/
def inTime (bundle : Bundle) (now : Int) (route : CgrRoute) : Prop :=
  now ≤ route.toTime ∧ route.arrivalTime ≤ deadline bundle

instance (s : IonState) (bundle : Bundle) (excludedNodes : List Nat) (route : CgrRoute) :
    Decidable (passedOver s bundle excludedNodes route) := inferInstanceAs (Decidable (_ ∨ _))

instance (bundle : Bundle) (now : Int) (route : CgrRoute) : Decidable (inTime bundle now route) :=
  inferInstanceAs (Decidable (_ ∧ _))

/-- What a route would bring if it were examined: the estimate with which it is accepted. -/
def offer (s : IonState) (lookup : CgrLookup δ σ) (bundle : Bundle) (excludedNodes : List Nat) (now : Int)
    (route : CgrRoute) (env : σ) : Option Estimate × σ :=
  if inTime bundle now route ∧ ¬ passedOver s bundle excludedNodes route then
    match lookup.getDirective route.toNodeNbr bundle env with
    | (none, env) => (none, env)
    | (some directive, env) =>
      match assessRoute s route bundle now (lookup.readOutduct env directive) with
      | .accepted est => (some est, env)
      | _ => (none, env)
  else (none, env)

variable {s : IonState} {lookup : CgrLookup δ σ} {bundle : Bundle} {excludedNodes : List Nat}
  {terminusNodeNbr : Nat} {now : Int}

theorem considerRoute_passedOver {route : CgrRoute} (h : passedOver s bundle excludedNodes route)
    (walk : Walk δ σ) : considerRoute s lookup bundle excludedNodes now route walk = walk := by
  unfold considerRoute
  split
  · rfl
  split
  · rfl
  split
  · rfl
  rename_i h1 h2 h3
  exact absurd h (not_or.mpr ⟨h1, not_or.mpr ⟨h2, h3⟩⟩)

theorem considerRoute_tried {route : CgrRoute} (h : ¬ passedOver s bundle excludedNodes route)
    (walk : Walk δ σ) :
    considerRoute s lookup bundle excludedNodes now route walk = tryRoute s lookup bundle now route walk := by
  obtain ⟨h1, h2⟩ := not_or.mp h
  obtain ⟨h2, h3⟩ := not_or.mp h2
  rw [considerRoute, if_neg h1, if_neg h2, if_neg h3]

/-- Behind a route past the deadline none is listed that the walk would try. -/
def InOrder (s : IonState) (bundle : Bundle) (excludedNodes : List Nat) (now : Int) (routes : List CgrRoute) : Prop :=
  routes.Pairwise (fun a b =>
    deadline bundle < a.arrivalTime → ¬ (inTime bundle now b ∧ ¬ passedOver s bundle excludedNodes b))

instance (s : IonState) (bundle : Bundle) (excludedNodes : List Nat) (now : Int) (routes : List CgrRoute) :
    Decidable (InOrder s bundle excludedNodes now routes) := inferInstanceAs (Decidable (List.Pairwise _ routes))

/-- A list in ascending order of arrival is in order for all bundles, at all times. -/
theorem inOrder_of_ascending {routes : List CgrRoute} (h : routes.Pairwise (fun a b => a.arrivalTime ≤ b.arrivalTime)) :
    InOrder s bundle excludedNodes now routes := by
  refine h.imp ?_
  rintro a b hle hlate ⟨⟨-, hearly⟩, -⟩
  omega

end EarlyStop
