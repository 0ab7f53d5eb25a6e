import CgrJni.EarlyStop
import CgrJni.Process

/-!
The neighbor that a bundle goes to if it is not critical: the proximate nodes stand for the
best of the accepted routes, each for those through one neighbor, and the choice among them
only depends on which routes were accepted.
-/

namespace BestNeighbor

open IonDb Libcgr Rfx RouteLists Forward RouteWalk Process EarlyStop

variable {δ σ : Type}

/-- The routes that were accepted, with their projections, in whatever order and however often. -/
def accepted (tried : List (CgrRoute × Verdict)) : Set (CgrRoute × Estimate) :=
  {x | (x.1, Verdict.accepted x.2) ∈ tried}

/-- Arrivals and numbers of hops of the accepted routes through a neighbor. -/
def ranksThrough (tried : List (CgrRoute × Verdict)) (n : Nat) : Set (Int ×ₗ Nat) :=
  {r | ∃ x ∈ accepted tried, x.1.toNodeNbr = n ∧ routeRank x.1 x.2 = r}

/-- A proximate node carries the values of an accepted route through its neighbor. -/
def Carries (node : ProximateNode δ) (x : CgrRoute × Estimate) : Prop :=
  x.1.toNodeNbr = node.neighborNodeNbr ∧ routeRank x.1 x.2 = nodeRank node ∧ node.forfeitTime = x.1.toTime

/-- There is one proximate node for each neighbor of an accepted route, and it carries the
values of the best of these routes. -/
structure BestNodes (tried : List (CgrRoute × Verdict)) (nodes : List (ProximateNode δ)) : Prop where
  nodup : (nodes.map ProximateNode.neighborNodeNbr).Nodup
  covers : ∀ x ∈ accepted tried, x.1.toNodeNbr ∈ nodes.map ProximateNode.neighborNodeNbr
  least : ∀ node ∈ nodes, IsLeast (ranksThrough tried node.neighborNodeNbr) (nodeRank node)
  carries : ∀ node ∈ nodes, ∃ x ∈ accepted tried, Carries node x

/-- The order of preference: arrival, then hops, then node number. -/
def choiceRank (node : ProximateNode δ) : Int ×ₗ (Nat ×ₗ Nat) :=
  toLex (node.arrivalTime, toLex (node.hopCount, node.neighborNodeNbr))

def routeChoice (x : CgrRoute × Estimate) : Int ×ₗ (Nat ×ₗ Nat) :=
  toLex (x.2.arrivalTime, toLex (x.1.hops.length, x.1.toNodeNbr))

/-- The bundle goes to one neighbor, unless no route was accepted, and to the best one. -/
structure Chosen (tried : List (CgrRoute × Verdict)) (selected : List (ProximateNode δ)) : Prop where
  once : selected.length ≤ 1
  none_iff : selected = [] ↔ accepted tried = ∅
  best : ∀ node ∈ selected, IsLeast (Set.image routeChoice (accepted tried)) (choiceRank node)
  carries : ∀ node ∈ selected, ∃ x ∈ accepted tried, Carries node x

/-- The neighbor is not excluded, and is the local node only if that is the destination. -/
def MayReceive (s : IonState) (bundle : Bundle) (excludedNodes : List Nat) (n : Nat) : Prop :=
  n ∉ excludedNodes ∧ (n = s.ownNodeNbr → bundle.cbhe = true ∧ bundle.destination = n)

section

variable {tried : List (CgrRoute × Verdict)} {nodes : List (ProximateNode δ)} {route : CgrRoute} {est : Estimate}

theorem mem_noteProximateNode_carries {directive : δ} {node : ProximateNode δ}
    (h : node ∈ noteProximateNode directive route est nodes) : node ∈ nodes ∨ Carries node (route, est) := by
  induction nodes with
  | nil =>
    obtain rfl := List.mem_singleton.mp h
    exact Or.inr ⟨rfl, rfl, rfl⟩
  | cons head rest ih =>
    rw [noteProximateNode] at h
    split at h
    · rename_i hhead
      cases List.mem_cons.mp h with
      | inr hrest => exact Or.inl (List.mem_cons_of_mem head hrest)
      | inl hnew =>
        rw [hnew, ProximateNode.improve]
        split
        · exact Or.inr ⟨hhead.symm, rfl, rfl⟩
        split
        · exact Or.inr ⟨hhead.symm, rfl, rfl⟩
        · exact Or.inl List.mem_cons_self
    · cases List.mem_cons.mp h with
      | inl hhead => exact Or.inl (hhead ▸ List.mem_cons_self)
      | inr hrest => exact (ih hrest).imp_left (List.mem_cons_of_mem head)

theorem noteProximateNode_neighbors (directive : δ) (route : CgrRoute) (est : Estimate) (nodes : List (ProximateNode δ)) :
    (noteProximateNode directive route est nodes).map ProximateNode.neighborNodeNbr =
      if route.toNodeNbr ∈ nodes.map ProximateNode.neighborNodeNbr then nodes.map ProximateNode.neighborNodeNbr
      else nodes.map ProximateNode.neighborNodeNbr ++ [route.toNodeNbr] := by
  induction nodes with
  | nil => rfl
  | cons head rest ih =>
    rw [noteProximateNode]
    by_cases hhead : head.neighborNodeNbr = route.toNodeNbr
    · rw [if_pos hhead, List.map_cons, List.map_cons, (improve_arrivalTime head route est).1, ← hhead,
        if_pos List.mem_cons_self]
    · rw [if_neg hhead, List.map_cons, ih, List.map_cons]
      by_cases hrest : route.toNodeNbr ∈ rest.map ProximateNode.neighborNodeNbr
      · rw [if_pos hrest, if_pos (List.mem_cons_of_mem _ hrest)]
      · have hno : route.toNodeNbr ∉ head.neighborNodeNbr :: rest.map ProximateNode.neighborNodeNbr := by
          intro hmem
          cases List.mem_cons.mp hmem with
          | inl he => exact hhead he.symm
          | inr hr => exact hrest hr
        rw [if_neg hrest, if_neg hno, List.cons_append]

/-- Where each neighbor has one node, what is noted for it is the rank of its node. -/
theorem standing_of_mem (hnodup : (nodes.map ProximateNode.neighborNodeNbr).Nodup) {node : ProximateNode δ}
    (h : node ∈ nodes) : standing nodes node.neighborNodeNbr = nodeRank node := by
  induction nodes with
  | nil => cases h
  | cons head rest ih =>
    rw [List.map_cons, List.nodup_cons] at hnodup
    rw [standing]
    cases List.mem_cons.mp h with
    | inl hhead => rw [hhead, if_pos rfl]
    | inr hrest =>
      have hne : head.neighborNodeNbr ≠ node.neighborNodeNbr := by
        intro he
        exact hnodup.1 (he ▸ List.mem_map_of_mem hrest)
      rw [if_neg hne]
      exact ih hnodup.2 hrest

theorem standing_of_not_mem {n : Nat} (h : n ∉ nodes.map ProximateNode.neighborNodeNbr) : standing nodes n = ⊤ := by
  induction nodes with
  | nil => rfl
  | cons head rest ih =>
    rw [List.map_cons, List.mem_cons, not_or] at h
    rw [standing, if_neg (fun he => h.1 he.symm)]
    exact ih h.2

/-- What is noted after some routes have been tried. -/
structure Noted (tried : List (CgrRoute × Verdict)) (nodes : List (ProximateNode δ)) : Prop where
  nodup : (nodes.map ProximateNode.neighborNodeNbr).Nodup
  carries : ∀ node ∈ nodes, ∃ x ∈ accepted tried, Carries node x
  standing_le : ∀ x ∈ accepted tried, standing nodes x.1.toNodeNbr ≤ routeRank x.1 x.2

theorem mem_accepted_append {verdict : Verdict} {x : CgrRoute × Estimate} :
    x ∈ accepted (tried ++ [(route, verdict)]) ↔ x ∈ accepted tried ∨ x.1 = route ∧ verdict = .accepted x.2 := by
  show (x.1, Verdict.accepted x.2) ∈ tried ++ [(route, verdict)] ↔ _
  rw [List.mem_append, List.mem_singleton, Prod.mk.injEq, eq_comm (a := verdict)]
  rfl

theorem accepted_nil : accepted [] = ∅ := Set.eq_empty_iff_forall_notMem.mpr (fun _ => List.not_mem_nil)

theorem noted_nil : Noted [] ([] : List (ProximateNode δ)) where
  nodup := List.nodup_nil
  carries _ hnode := absurd hnode List.not_mem_nil
  standing_le _ hx := absurd hx List.not_mem_nil

theorem chosen_nil : Chosen [] ([] : List (ProximateNode δ)) where
  once := Nat.zero_le 1
  none_iff := ⟨fun _ => accepted_nil, fun _ => rfl⟩
  best _ hnode := absurd hnode List.not_mem_nil
  carries _ hnode := absurd hnode List.not_mem_nil

/-- A route that is not accepted changes nothing. -/
theorem Noted.skip (h : Noted tried nodes) {verdict : Verdict} (hno : ∀ est, verdict ≠ .accepted est) :
    Noted (tried ++ [(route, verdict)]) nodes := by
  have hsame : accepted (tried ++ [(route, verdict)]) = accepted tried := by
    ext x
    rw [mem_accepted_append]
    exact or_iff_left (fun hx => hno x.2 hx.2)
  constructor
  · exact h.nodup
  · rw [hsame]
    exact h.carries
  · rw [hsame]
    exact h.standing_le

/-- An accepted route is noted for its neighbor. -/
theorem Noted.accept (h : Noted tried nodes) (directive : δ) (route : CgrRoute) (est : Estimate) :
    Noted (tried ++ [(route, .accepted est)]) (noteProximateNode directive route est nodes) := by
  have hnew : (route, est) ∈ accepted (tried ++ [(route, .accepted est)]) :=
    mem_accepted_append.mpr (Or.inr ⟨rfl, rfl⟩)
  constructor
  case nodup =>
    rw [noteProximateNode_neighbors]
    split
    · exact h.nodup
    · rename_i hno
      exact List.nodup_append'.mpr ⟨h.nodup, List.nodup_singleton _, List.disjoint_singleton.mpr hno⟩
  case carries =>
    intro node hnode
    cases mem_noteProximateNode_carries hnode with
    | inr hthis => exact ⟨_, hnew, hthis⟩
    | inl hold =>
      obtain ⟨x, hx, hcarries⟩ := h.carries node hold
      exact ⟨x, mem_accepted_append.mpr (Or.inl hx), hcarries⟩
  case standing_le =>
    intro x hx
    cases mem_accepted_append.mp hx with
    | inl hold => exact (standing_noteProximateNode_le directive route est nodes _).trans (h.standing_le x hold)
    | inr hthis =>
      obtain ⟨hroute, hverdict⟩ := hthis
      rw [hroute, standing_noteProximateNode, if_pos rfl, Verdict.accepted.inj hverdict]
      exact min_le_right _ _

theorem Noted.noteVerdict (h : Noted tried nodes) (directive : δ) (route : CgrRoute) (verdict : Verdict) :
    Noted (tried ++ [(route, verdict)]) (noteVerdict directive route nodes verdict) := by
  cases verdict with
  | accepted est => exact h.accept directive route est
  | noDirective => exact h.skip nofun
  | blocked => exact h.skip nofun
  | tooLong => exact h.skip nofun
  | unusable => exact h.skip nofun
  | expires est => exact h.skip nofun

theorem Noted.bestNodes (h : Noted tried nodes) : BestNodes tried nodes where
  nodup := h.nodup
  carries := h.carries
  covers x hx := by
    by_contra hno
    have hle := h.standing_le x hx
    rw [standing_of_not_mem hno] at hle
    exact WithTop.coe_ne_top (top_le_iff.mp hle)
  least node hnode := by
    constructor
    · obtain ⟨x, hx, hto, hrank, -⟩ := h.carries node hnode
      exact ⟨x, hx, hto, hrank⟩
    · rintro r ⟨x, hx, hto, rfl⟩
      have hle := h.standing_le x hx
      rw [hto, standing_of_mem h.nodup hnode] at hle
      exact WithTop.coe_le_coe.mp hle

end

section

variable {s : IonState} {lookup : CgrLookup δ σ} {bundle : Bundle} {excludedNodes : List Nat} {terminusNodeNbr : Nat}
  {now : Int}

theorem walkRoutes_best {routes : List CgrRoute} {env : σ} {walked : Walked δ σ}
    (h : walkRoutes s lookup bundle excludedNodes terminusNodeNbr now routes env = some walked) :
    BestNodes walked.tried walked.proximateNodes := by
  apply Noted.bestNodes
  apply walkRoutes_tries (J := fun tried nodes _ => Noted tried nodes) _ _ noted_nil h
  · intro tried nodes route env env' _ hnoted
    exact hnoted.skip nofun
  · intro tried nodes route env directive env' _ hnoted
    exact hnoted.noteVerdict directive route _

theorem mayReceive_of_not_passedOver {route : CgrRoute} (h : ¬ passedOver s bundle excludedNodes route) :
    MayReceive s bundle excludedNodes route.toNodeNbr := by
  obtain ⟨hself, hrest⟩ := not_or.mp h
  obtain ⟨-, hexcluded⟩ := not_or.mp hrest
  refine ⟨hexcluded, ?_⟩
  intro hlocal
  by_contra hno
  exact hself ⟨hlocal, hno⟩

theorem walkRoutes_mayReceive {routes : List CgrRoute} {env : σ} {walked : Walked δ σ}
    (h : walkRoutes s lookup bundle excludedNodes terminusNodeNbr now routes env = some walked) :
    ∀ t ∈ walked.tried, MayReceive s bundle excludedNodes t.1.toNodeNbr := by
  apply walkRoutes_considers (J := fun tried _ _ => ∀ t ∈ tried, MayReceive s bundle excludedNodes t.1.toNodeNbr)
    _ (fun _ ht => absurd ht List.not_mem_nil) h
  intro route walk hall t ht
  by_cases hpass : passedOver s bundle excludedNodes route
  · rw [considerRoute_passedOver hpass] at ht
    exact hall t ht
  · cases (considerRoute_frame route walk).2.2 t ht with
    | inl hold => exact hall t hold
    | inr hthis => exact hthis ▸ mayReceive_of_not_passedOver hpass

/-- The callback answers for a node as it did before, whatever it was asked in between. -/
def Steady (lookup : CgrLookup δ σ) (bundle : Bundle) (outductFor : Nat → Option Outduct) : Prop :=
  ∀ n env found env', lookup.getDirective n bundle env = (found, env') → found.map (lookup.readOutduct env') = outductFor n

/-- What becomes of a route if its neighbor is reached over an outduct, or over none. -/
def verdictFor (s : IonState) (bundle : Bundle) (now : Int) (route : CgrRoute) : Option Outduct → Verdict
  | none => .noDirective
  | some outduct => assessRoute s route bundle now outduct

theorem walkRoutes_steady {outductFor : Nat → Option Outduct} (hsteady : Steady lookup bundle outductFor)
    {routes : List CgrRoute} {env : σ} {walked : Walked δ σ}
    (h : walkRoutes s lookup bundle excludedNodes terminusNodeNbr now routes env = some walked) :
    ∀ t ∈ walked.tried, t.2 = verdictFor s bundle now t.1 (outductFor t.1.toNodeNbr) := by
  have hadd : ∀ (tried : List (CgrRoute × Verdict)) (route : CgrRoute) (verdict : Verdict),
      verdict = verdictFor s bundle now route (outductFor route.toNodeNbr) →
      (∀ t ∈ tried, t.2 = verdictFor s bundle now t.1 (outductFor t.1.toNodeNbr)) →
      ∀ t ∈ tried ++ [(route, verdict)], t.2 = verdictFor s bundle now t.1 (outductFor t.1.toNodeNbr) := by
    intro tried route verdict hverdict hall t ht
    cases List.mem_append.mp ht with
    | inl hold => exact hall t hold
    | inr hnew => exact List.mem_singleton.mp hnew ▸ hverdict
  apply walkRoutes_tries (J := fun tried _ _ =>
    ∀ t ∈ tried, t.2 = verdictFor s bundle now t.1 (outductFor t.1.toNodeNbr)) _ _
    (fun _ ht => absurd ht List.not_mem_nil) h
  · intro tried nodes route env env' hdirective hall
    apply hadd tried route _ _ hall
    rw [← hsteady route.toNodeNbr env _ _ hdirective]
    rfl
  · intro tried nodes route env directive env' hdirective hall
    apply hadd tried route _ _ hall
    rw [← hsteady route.toNodeNbr env _ _ hdirective]
    rfl

/-- Where the callback is steady, it only matters which routes are tried. -/
theorem accepted_eq_of_steady {outductFor : Nat → Option Outduct} {tried tried' : List (CgrRoute × Verdict)}
    (h : ∀ t ∈ tried, t.2 = verdictFor s bundle now t.1 (outductFor t.1.toNodeNbr))
    (h' : ∀ t ∈ tried', t.2 = verdictFor s bundle now t.1 (outductFor t.1.toNodeNbr))
    (hsame : ∀ route, route ∈ tried.map Prod.fst ↔ route ∈ tried'.map Prod.fst) : accepted tried = accepted tried' := by
  have hiff : ∀ tried : List (CgrRoute × Verdict),
      (∀ t ∈ tried, t.2 = verdictFor s bundle now t.1 (outductFor t.1.toNodeNbr)) → ∀ x, x ∈ accepted tried ↔
        x.1 ∈ tried.map Prod.fst ∧ verdictFor s bundle now x.1 (outductFor x.1.toNodeNbr) = .accepted x.2 := by
    intro tried hall x
    constructor
    · intro hx
      exact ⟨List.mem_map_of_mem (f := Prod.fst) hx, (hall _ hx).symm⟩
    · rintro ⟨hroute, hverdict⟩
      obtain ⟨t, ht, hfst⟩ := List.mem_map.mp hroute
      have hsnd := hall t ht
      rw [hfst, hverdict] at hsnd
      show (x.1, Verdict.accepted x.2) ∈ tried
      rw [← hfst, ← hsnd]
      exact ht
  ext x
  rw [hiff tried h, hiff tried' h', hsame]

theorem identifyProximateNodes_steady {outductFor : Nat → Option Outduct} (hsteady : Steady lookup bundle outductFor)
    {routingObject : Option (List CgrRoute)} {env : σ} {identified : Identified δ σ}
    (h : identifyProximateNodes s lookup bundle excludedNodes terminusNodeNbr now routingObject env = some identified) :
    ∀ t ∈ identified.walked.tried, t.2 = verdictFor s bundle now t.1 (outductFor t.1.toNodeNbr) := by
  obtain ⟨routes, -, -, -, hw⟩ | ⟨-, -, list, -, ⟨-, hw⟩ | ⟨-, hw⟩⟩ := identifyProximateNodes_cases h
  · exact walkRoutes_steady hsteady hw
  · exact walkRoutes_steady hsteady hw
  · rw [hw]
    exact fun _ ht => absurd ht List.not_mem_nil

theorem identifyProximateNodes_best {routingObject : Option (List CgrRoute)} {env : σ} {identified : Identified δ σ}
    (h : identifyProximateNodes s lookup bundle excludedNodes terminusNodeNbr now routingObject env = some identified) :
    BestNodes identified.walked.tried identified.walked.proximateNodes ∧
      ∀ t ∈ identified.walked.tried, MayReceive s bundle excludedNodes t.1.toNodeNbr := by
  obtain ⟨routes, -, -, -, hw⟩ | ⟨-, -, list, -, ⟨-, hw⟩ | ⟨-, hw⟩⟩ := identifyProximateNodes_cases h
  · exact ⟨walkRoutes_best hw, walkRoutes_mayReceive hw⟩
  · exact ⟨walkRoutes_best hw, walkRoutes_mayReceive hw⟩
  · rw [hw]
    exact ⟨noted_nil.bestNodes, fun _ ht => absurd ht List.not_mem_nil⟩

theorem identifyProximateNodes_ends (s : IonState) (lookup : CgrLookup δ σ) (bundle : Bundle) (excludedNodes : List Nat)
    (terminusNodeNbr : Nat) (now : Int) (routingObject : Option (List CgrRoute)) (env : σ) :
    ∃ identified, identifyProximateNodes s lookup bundle excludedNodes terminusNodeNbr now routingObject env =
      some identified := by
  have hends := fun routes => WalkEnds.walkRoutes_ends s lookup bundle excludedNodes terminusNodeNbr now routes env
  cases routingObject with
  | some routes =>
    obtain ⟨walked, hw⟩ := hends routes
    rw [identifyProximateNodes, hw]
    exact ⟨_, rfl⟩
  | none =>
    obtain ⟨list, hlist⟩ := InitialContacts.loadRouteList_ends s now terminusNodeNbr
    obtain ⟨walked, hw⟩ := hends list.routes
    rw [identifyProximateNodes, hlist, Option.bind_some, hw]
    split
    · exact ⟨_, rfl⟩
    · exact ⟨_, rfl⟩

end

section

variable {tried : List (CgrRoute × Verdict)} {nodes : List (ProximateNode δ)} {bundle : Bundle}

theorem preferNode_eq (best node : ProximateNode δ) :
    preferNode (some best) node = if choiceRank node < choiceRank best then some node else some best := by
  have hlt : choiceRank node < choiceRank best ↔ node.arrivalTime < best.arrivalTime ∨
      node.arrivalTime = best.arrivalTime ∧ (node.hopCount < best.hopCount ∨
        node.hopCount = best.hopCount ∧ node.neighborNodeNbr < best.neighborNodeNbr) := by
    simp only [choiceRank, Prod.Lex.toLex_lt_toLex]
  unfold preferNode
  by_cases harrival : node.arrivalTime < best.arrivalTime
  · rw [if_pos (hlt.mpr (Or.inl harrival))]
    exact if_pos harrival
  by_cases hsame : node.arrivalTime = best.arrivalTime
  · simp only [if_neg harrival, if_pos hsame]
    by_cases hhops : node.hopCount < best.hopCount
    · rw [if_pos hhops, if_pos (hlt.mpr (Or.inr ⟨hsame, Or.inl hhops⟩))]
    by_cases hnbr : node.hopCount = best.hopCount ∧ node.neighborNodeNbr < best.neighborNodeNbr
    · rw [if_neg hhops, if_pos hnbr, if_pos (hlt.mpr (Or.inr ⟨hsame, Or.inr hnbr⟩))]
    · rw [if_neg hhops, if_neg hnbr, if_neg]
      intro hcontra
      have hcases := hlt.mp hcontra
      omega
  · simp only [if_neg harrival, if_neg hsame]
    rw [if_neg]
    intro hcontra
    have hcases := hlt.mp hcontra
    omega

/-- The selection is the first node of least rank. -/
theorem foldl_preferNode_eq_argmin (nodes : List (ProximateNode δ)) :
    nodes.foldl preferNode none = nodes.argmin choiceRank := by
  have hstep : preferNode = List.argAux (fun b c : ProximateNode δ => choiceRank b < choiceRank c) := by
    funext selected node
    cases selected with
    | none => rfl
    | some best => exact preferNode_eq best node
  rw [hstep]
  rfl

theorem Carries.choice {node : ProximateNode δ} {x : CgrRoute × Estimate} (h : Carries node x) :
    routeChoice x = choiceRank node := by
  obtain ⟨hto, hrank, -⟩ := h
  have hvalues := Prod.mk.inj (toLex_inj.mp hrank)
  rw [routeChoice, choiceRank, hto, hvalues.1, hvalues.2]

/-- The better rank through a neighbor is the better choice. -/
theorem choiceRank_le {node : ProximateNode δ} {x : CgrRoute × Estimate} (hto : x.1.toNodeNbr = node.neighborNodeNbr)
    (h : nodeRank node ≤ routeRank x.1 x.2) : choiceRank node ≤ routeChoice x := by
  have hcases := Prod.Lex.toLex_le_toLex.mp h
  simp only [choiceRank, routeChoice, Prod.Lex.toLex_le_toLex, hto]
  simp only at hcases
  omega

theorem selectProximateNodes_chosen (hbundle : bundle.minimumLatency = false) (h : BestNodes tried nodes) :
    Chosen tried (selectProximateNodes bundle nodes) := by
  have hselect : selectProximateNodes bundle nodes = (nodes.argmin choiceRank).toList := by
    rw [selectProximateNodes, if_neg (by rw [hbundle]; decide), foldl_preferNode_eq_argmin]
  rw [hselect]
  cases hargmin : nodes.argmin choiceRank with
  | none =>
    have hnil := List.argmin_eq_none.mp hargmin
    have hempty : accepted tried = ∅ := by
      apply Set.eq_empty_iff_forall_notMem.mpr
      intro x hx
      have hcovers := h.covers x hx
      rw [hnil] at hcovers
      cases hcovers
    exact ⟨Nat.zero_le 1, ⟨fun _ => hempty, fun _ => rfl⟩, fun _ h => absurd h List.not_mem_nil,
      fun _ h => absurd h List.not_mem_nil⟩
  | some selected =>
    have hmem := List.argmin_mem hargmin
    obtain ⟨x, hx, hcarries⟩ := h.carries selected hmem
    have hbest : IsLeast (Set.image routeChoice (accepted tried)) (choiceRank selected) := by
      constructor
      · exact ⟨x, hx, hcarries.choice⟩
      · rintro r ⟨y, hy, rfl⟩
        obtain ⟨node, hnode, hto⟩ := List.mem_map.mp (h.covers y hy)
        have hleast := (h.least node hnode).2 ⟨y, hy, hto.symm, rfl⟩
        exact (List.le_of_mem_argmin hnode hargmin).trans (choiceRank_le hto.symm hleast)
    have hone : ∀ node ∈ [selected], node = selected := fun node hnode => List.mem_singleton.mp hnode
    constructor
    · exact le_rfl
    · constructor
      · intro hnil
        cases hnil
      · intro hempty
        rw [hempty] at hx
        cases hx
    · intro node hnode
      exact hone node hnode ▸ hbest
    · intro node hnode
      exact hone node hnode ▸ ⟨x, hx, hcarries⟩

/-- The same accepted routes lead to the same choice. -/
theorem Chosen.unique {tried' : List (CgrRoute × Verdict)} {selected selected' : List (ProximateNode δ)}
    (h : Chosen tried selected) (h' : Chosen tried' selected') (hsame : accepted tried = accepted tried') :
    selected.map choiceRank = selected'.map choiceRank := by
  cases selected with
  | nil =>
    have hempty : accepted tried' = ∅ := hsame ▸ h.none_iff.mp rfl
    rw [h'.none_iff.mpr hempty]
  | cons node rest =>
    cases selected' with
    | nil =>
      have hempty : accepted tried = ∅ := hsame ▸ h'.none_iff.mp rfl
      cases h.none_iff.mpr hempty
    | cons node' rest' =>
      have honce := h.once
      have honce' := h'.once
      obtain rfl : rest = [] := List.eq_nil_of_length_eq_zero (by rw [List.length_cons] at honce; omega)
      obtain rfl : rest' = [] := List.eq_nil_of_length_eq_zero (by rw [List.length_cons] at honce'; omega)
      have hbest := h.best node List.mem_cons_self
      have hbest' := h'.best node' List.mem_cons_self
      rw [← hsame] at hbest'
      rw [List.map_singleton, List.map_singleton, hbest.unique hbest']

end

section

variable {lookup : CgrLookup δ σ} {bundle : Bundle} {terminusNodeNbr : Nat} {now : Int} {env : σ}

/-- A call selects nothing and tries nothing, or selects from what it has identified at its node. -/
theorem cgrForward_selected {p p' : IonProcess} {nodeNbr : Nat} {forwarding : Forwarding δ σ}
    (h : cgrForward p nodeNbr lookup bundle terminusNodeNbr now env = some (p', forwarding)) :
    (forwarding.selected = [] ∧ forwarding.tried = []) ∨
    ∃ part terminusNode routingObject identified, p.partitions nodeNbr = some part ∧
      findNode part.ion.nodes terminusNodeNbr = some terminusNode ∧
      identifyProximateNodes part.ion lookup bundle (excludedNodes bundle terminusNode) terminusNodeNbr now
        routingObject env = some identified ∧
      forwarding.selected = selectProximateNodes bundle identified.walked.proximateNodes ∧
      forwarding.tried = identified.walked.tried := by
  unfold cgrForward at h
  cases hpart : p.partitions nodeNbr with
  | none => simp [hpart] at h
  | some part =>
    cases hvdb : p.cgrvdb with
    | none => simp [hpart, hvdb] at h
    | some vdb =>
      simp only [hpart, hvdb] at h
      by_cases hzero : terminusNodeNbr = 0
      · rw [if_pos hzero, Option.some.injEq, Prod.mk.injEq] at h
        obtain ⟨-, rfl⟩ := h
        exact Or.inl ⟨rfl, rfl⟩
      · rw [if_neg hzero, routeBundle] at h
        obtain ⟨part', hpart', h⟩ := Option.bind_eq_some_iff.mp h
        have hion : part'.ion = part.ion := by
          cases refresh_cases p vdb part.ion.lastEditTime now with
          | inl hkept =>
            rw [hkept.2, hpart] at hpart'
            exact Option.some.inj hpart' ▸ rfl
          | inr hdue =>
            rw [hdue.2.1, hpart, Option.map_some] at hpart'
            exact Option.some.inj hpart' ▸ rfl
        cases hnode : findNode part'.ion.nodes terminusNodeNbr with
        | none =>
          simp only [hnode, Option.some.injEq, Prod.mk.injEq] at h
          obtain ⟨-, rfl⟩ := h
          exact Or.inl ⟨rfl, rfl⟩
        | some terminusNode =>
          simp only [hnode] at h
          obtain ⟨identified, hidentified, he⟩ := Option.map_eq_some_iff.mp h
          obtain ⟨-, rfl⟩ := Prod.mk.inj he
          rw [hion] at hnode hidentified
          refine Or.inr ⟨part, terminusNode, _, identified, rfl, hnode, hidentified, ?_, rfl⟩
          obtain ⟨-, -, -, hdone, -⟩ | ⟨-, -, list, -, ⟨hdone, -⟩ | ⟨hfailed, hw⟩⟩ :=
            identifyProximateNodes_cases hidentified
          · exact if_neg (by rw [hdone]; decide)
          · exact if_neg (by rw [hdone]; decide)
          · rw [hw]
            show (if identified.failed then [] else _) = _
            rw [if_pos hfailed]
            unfold selectProximateNodes
            split
            · rfl
            · rfl

/-- What a call reports, for some process, node, terminus and time. -/
def Reports (lookup : CgrLookup δ σ) (bundle : Bundle) (forwarding : Forwarding δ σ) : Prop :=
  ∃ p nodeNbr terminusNodeNbr now env p', cgrForward p nodeNbr lookup bundle terminusNodeNbr now env = some (p', forwarding)

theorem reports_chosen (hbundle : bundle.minimumLatency = false) {forwarding : Forwarding δ σ}
    (h : Reports lookup bundle forwarding) : Chosen forwarding.tried forwarding.selected := by
  obtain ⟨p, nodeNbr, terminusNodeNbr, now, env, p', hrun⟩ := h
  obtain ⟨hselected, htried⟩ | ⟨part, terminusNode, routingObject, identified, -, -, hidentified, hselected, htried⟩ :=
    cgrForward_selected hrun
  · rw [hselected, htried]
    exact chosen_nil
  · rw [hselected, htried]
    exact selectProximateNodes_chosen hbundle (identifyProximateNodes_best hidentified).1

/-- The best neighbor is identified for every route list and all excluded nodes, it is the one
that a bundle is forwarded to, and it does not depend on the order in which routes were accepted,
nor, with a steady callback, on that in which they were tried. -/
structure ForwardsToBest (lookup : CgrLookup δ σ) (bundle : Bundle) : Prop where
  identified : ∀ s excludedNodes terminusNodeNbr now routingObject env, ∃ identified,
    identifyProximateNodes s lookup bundle excludedNodes terminusNodeNbr now routingObject env = some identified ∧
      BestNodes identified.walked.tried identified.walked.proximateNodes ∧
      Chosen identified.walked.tried (selectProximateNodes bundle identified.walked.proximateNodes) ∧
      ∀ node ∈ selectProximateNodes bundle identified.walked.proximateNodes,
        MayReceive s bundle excludedNodes node.neighborNodeNbr
  chosen : ∀ forwarding, Reports lookup bundle forwarding → Chosen forwarding.tried forwarding.selected
  permitted : ∀ p nodeNbr terminusNodeNbr now env p' forwarding,
    cgrForward p nodeNbr lookup bundle terminusNodeNbr now env = some (p', forwarding) →
    ∀ node ∈ forwarding.selected, ∃ part terminusNode, p.partitions nodeNbr = some part ∧
      findNode part.ion.nodes terminusNodeNbr = some terminusNode ∧
      MayReceive part.ion bundle (excludedNodes bundle terminusNode) node.neighborNodeNbr
  unordered : ∀ forwarding forwarding', Reports lookup bundle forwarding → Reports lookup bundle forwarding' →
    accepted forwarding.tried = accepted forwarding'.tried →
    forwarding.selected.map choiceRank = forwarding'.selected.map choiceRank
  same_routes : ∀ outductFor, Steady lookup bundle outductFor →
    ∀ s now excludedNodes excludedNodes' terminusNodeNbr terminusNodeNbr' routingObject routingObject' env env'
      identified identified',
      identifyProximateNodes s lookup bundle excludedNodes terminusNodeNbr now routingObject env = some identified →
      identifyProximateNodes s lookup bundle excludedNodes' terminusNodeNbr' now routingObject' env' = some identified' →
      (∀ route, route ∈ identified.walked.tried.map Prod.fst ↔ route ∈ identified'.walked.tried.map Prod.fst) →
      (selectProximateNodes bundle identified.walked.proximateNodes).map choiceRank =
        (selectProximateNodes bundle identified'.walked.proximateNodes).map choiceRank

theorem selected_mayReceive {s : IonState} {excludedNodes : List Nat} {routingObject : Option (List CgrRoute)}
    (hbundle : bundle.minimumLatency = false) {identified : Identified δ σ}
    (h : identifyProximateNodes s lookup bundle excludedNodes terminusNodeNbr now routingObject env = some identified) :
    ∀ node ∈ selectProximateNodes bundle identified.walked.proximateNodes,
      MayReceive s bundle excludedNodes node.neighborNodeNbr := by
  intro node hnode
  obtain ⟨hbest, hmay⟩ := identifyProximateNodes_best h
  obtain ⟨x, hx, hto, -⟩ := (selectProximateNodes_chosen hbundle hbest).carries node hnode
  exact hto ▸ hmay _ hx

/-- A bundle that is not critical is forwarded to the best neighbor. -/
theorem cgrForward_best (lookup : CgrLookup δ σ) (hbundle : bundle.minimumLatency = false) :
    ForwardsToBest lookup bundle := by
  constructor
  case identified =>
    intro s excludedNodes terminusNodeNbr now routingObject env
    obtain ⟨identified, hidentified⟩ :=
      identifyProximateNodes_ends s lookup bundle excludedNodes terminusNodeNbr now routingObject env
    have hbest := (identifyProximateNodes_best hidentified).1
    exact ⟨identified, hidentified, hbest, selectProximateNodes_chosen hbundle hbest,
      selected_mayReceive hbundle hidentified⟩
  case chosen =>
    intro forwarding h
    exact reports_chosen hbundle h
  case permitted =>
    intro p nodeNbr terminusNodeNbr now env p' forwarding h node hnode
    obtain ⟨hnone, -⟩ | ⟨part, terminusNode, routingObject, identified, hpart, hfind, hidentified, hselected, -⟩ :=
      cgrForward_selected h
    · rw [hnone] at hnode
      cases hnode
    · rw [hselected] at hnode
      exact ⟨part, terminusNode, hpart, hfind, selected_mayReceive hbundle hidentified node hnode⟩
  case unordered =>
    intro forwarding forwarding' h h' hsame
    exact (reports_chosen hbundle h).unique (reports_chosen hbundle h') hsame
  case same_routes =>
    intro outductFor hsteady s now _ _ _ _ _ _ _ _ identified identified' h h' hsame
    have hchosen := selectProximateNodes_chosen hbundle (identifyProximateNodes_best h).1
    have hchosen' := selectProximateNodes_chosen hbundle (identifyProximateNodes_best h').1
    exact hchosen.unique hchosen' (accepted_eq_of_steady (identifyProximateNodes_steady hsteady h)
      (identifyProximateNodes_steady hsteady h') hsame)

theorem cgrForward_best_openDucts : ForwardsToBest openDucts (bundleTo 3) := cgrForward_best openDucts rfl

example (bundle : Bundle) : Steady openDucts bundle (fun _ => some ⟨"", false, 2 ^ 30, ⟨0, 0⟩⟩) := by
  intro n env found env' h
  cases h
  rfl

end

end BestNeighbor
