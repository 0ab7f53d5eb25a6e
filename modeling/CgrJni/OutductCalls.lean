import CgrJni.RepeatedCalls

/-!
The call in the managed memory against the call on a plain list of outducts: as long as the
memory lasts, the two choose the same neighbor and do the same to the router.
-/

namespace OutductCalls

open IonDb Libcgr Rfx RouteLists Forward RouteWalk Process

variable {δ δ' σ σ' : Type} {s : IonState} {lookup : CgrLookup δ σ} {lookup' : CgrLookup δ' σ'} {bundle : Bundle}
  {excluded : List Nat} {terminusNodeNbr : Nat} {now : Int}

/-! Two callbacks, and what the walk makes of their answers. -/

/-- A neighbor without its directive. -/
def facts (node : ProximateNode δ) : ProximateNode Unit where
  neighborNodeNbr := node.neighborNodeNbr
  directive := ()
  forfeitTime := node.forfeitTime
  arrivalTime := node.arrivalTime
  overbooked := node.overbooked
  protect := node.protect
  hopCount := node.hopCount

theorem facts_improve (node : ProximateNode δ) (route : CgrRoute) (est : Estimate) :
    facts (node.improve route est) = (facts node).improve route est := by
  rw [ProximateNode.improve, apply_ite facts, apply_ite facts]
  rfl

/-- Neighbors are noted whatever the directive is. -/
theorem facts_noteProximateNode (directive : δ) (route : CgrRoute) (est : Estimate) (nodes : List (ProximateNode δ)) :
    (noteProximateNode directive route est nodes).map facts = noteProximateNode () route est (nodes.map facts) := by
  induction nodes with
  | nil => rfl
  | cons node rest ih =>
    rw [noteProximateNode, apply_ite (List.map facts), List.map_cons, List.map_cons, facts_improve, ih]
    rfl

theorem facts_noteVerdict (directive : δ) (route : CgrRoute) (nodes : List (ProximateNode δ)) (verdict : Verdict) :
    (noteVerdict directive route nodes verdict).map facts = noteVerdict () route (nodes.map facts) verdict := by
  cases verdict with
  | accepted est => exact facts_noteProximateNode directive route est nodes
  | noDirective => rfl
  | blocked => rfl
  | tooLong => rfl
  | unusable => rfl
  | expires est => rfl

theorem facts_preferNode (selected : Option (ProximateNode δ)) (node : ProximateNode δ) :
    (preferNode selected node).map facts = preferNode (selected.map facts) (facts node) := by
  cases selected with
  | none => rfl
  | some best =>
    simp only [preferNode, apply_ite (Option.map facts)]
    rfl

theorem facts_foldl_preferNode (nodes : List (ProximateNode δ)) (selected : Option (ProximateNode δ)) :
    (nodes.foldl preferNode selected).map facts = (nodes.map facts).foldl preferNode (selected.map facts) := by
  induction nodes generalizing selected with
  | nil => rfl
  | cons node rest ih => rw [List.foldl_cons, List.map_cons, List.foldl_cons, ih, facts_preferNode]

theorem facts_selectProximateNodes (nodes : List (ProximateNode δ)) :
    (selectProximateNodes bundle nodes).map facts = selectProximateNodes bundle (nodes.map facts) := by
  unfold selectProximateNodes
  split
  · rfl
  · rw [← Option.toList_map, facts_foldl_preferNode]
    rfl

/-- From records that correspond, two callbacks find directives that say the same. The first may fail,
and then it has failed for good. -/
structure AnswersAlike (lookup : CgrLookup δ σ) (lookup' : CgrLookup δ' σ') (bundle : Bundle) (R : σ → σ' → Prop)
    (Failed : σ → Prop) : Prop where
  failed : ∀ n env found next, Failed env → lookup.getDirective n bundle env = (found, next) → Failed next
  answer : ∀ n env env' found next found' next', R env env' → lookup.getDirective n bundle env = (found, next) →
    lookup'.getDirective n bundle env' = (found', next') →
    Failed next ∨ R next next' ∧ found.map (lookup.readOutduct next) = found'.map (lookup'.readOutduct next')

/-- The callback has failed, or the neighbors are the same but for their directives. -/
def SameNodes (R : σ → σ' → Prop) (Failed : σ → Prop) (env : σ) (nodes : List (ProximateNode δ)) (env' : σ')
    (nodes' : List (ProximateNode δ')) : Prop :=
  Failed env ∨ R env env' ∧ nodes.map facts = nodes'.map facts

structure Alike (R : σ → σ' → Prop) (Failed : σ → Prop) (walk : Walk δ σ) (walk' : Walk δ' σ') : Prop where
  passed : walk.passed = walk'.passed
  rest : walk.rest = walk'.rest
  nodes : SameNodes R Failed walk.env walk.proximateNodes walk'.env walk'.proximateNodes

variable {R : σ → σ' → Prop} {Failed : σ → Prop} {walk : Walk δ σ} {walk' : Walk δ' σ'}

theorem Alike.tryRoute (hl : AnswersAlike lookup lookup' bundle R Failed) (h : Alike R Failed walk walk') (route : CgrRoute) :
    Alike R Failed (tryRoute s lookup bundle now route walk) (tryRoute s lookup' bundle now route walk') := by
  obtain ⟨hpassed, hrest, hnodes⟩ := h
  unfold Forward.tryRoute
  rcases hfound : lookup.getDirective route.toNodeNbr bundle walk.env with ⟨found, next⟩
  rcases hfound' : lookup'.getDirective route.toNodeNbr bundle walk'.env with ⟨found', next'⟩
  have hframe : ∀ (nodes : List (ProximateNode δ)) (nodes' : List (ProximateNode δ'))
      (tried tried' : List (CgrRoute × Verdict)),
      SameNodes R Failed next nodes next' nodes' →
      Alike R Failed (⟨walk.passed, walk.rest, nodes, tried, next⟩ : Walk δ σ)
        ⟨walk'.passed, walk'.rest, nodes', tried', next'⟩ :=
    fun nodes nodes' _ _ hsame => ⟨hpassed, hrest, hsame⟩
  have hcases : Failed next ∨ (R next next' ∧ found.map (lookup.readOutduct next) = found'.map (lookup'.readOutduct next')) ∧
      walk.proximateNodes.map facts = walk'.proximateNodes.map facts := by
    cases hnodes with
    | inl hfailed => exact Or.inl (hl.failed _ _ _ _ hfailed hfound)
    | inr hsame => exact (hl.answer _ _ _ _ _ _ _ hsame.1 hfound hfound').imp_right (fun hanswer => ⟨hanswer, hsame.2⟩)
  cases found with
  | none =>
    cases found' with
    | none => exact hframe _ _ _ _ (hcases.imp_right (fun h => ⟨h.1.1, h.2⟩))
    | some directive' =>
      obtain hfailed | ⟨⟨-, hanswer⟩, -⟩ := hcases
      · exact hframe _ _ _ _ (Or.inl hfailed)
      · cases hanswer
  | some directive =>
    cases found' with
    | none =>
      obtain hfailed | ⟨⟨-, hanswer⟩, -⟩ := hcases
      · exact hframe _ _ _ _ (Or.inl hfailed)
      · cases hanswer
    | some directive' =>
      refine hframe _ _ _ _ (hcases.imp_right ?_)
      rintro ⟨⟨hR, hanswer⟩, hsame⟩
      rw [Option.map_some, Option.map_some, Option.some.injEq] at hanswer
      exact ⟨hR, by rw [facts_noteVerdict, facts_noteVerdict, hsame, hanswer]⟩

theorem Alike.considerRoute (hl : AnswersAlike lookup lookup' bundle R Failed) (h : Alike R Failed walk walk')
    (route : CgrRoute) : Alike R Failed (considerRoute s lookup bundle excluded now route walk)
      (considerRoute s lookup' bundle excluded now route walk') := by
  unfold Forward.considerRoute
  split
  · exact h
  · split
    · exact h
    · split
      · exact h
      · exact h.tryRoute hl route

/-- Two walks have left the same list, and noted the same neighbors unless the callback has failed. -/
structure WalkedAlike (R : σ → σ' → Prop) (Failed : σ → Prop) (walked : Walked δ σ) (walked' : Walked δ' σ') : Prop where
  routes : walked.routes = walked'.routes
  nodes : SameNodes R Failed walked.env walked.proximateNodes walked'.env walked'.proximateNodes

theorem Alike.finish (h : Alike R Failed walk walk') (stoppedAt : Option CgrRoute) :
    WalkedAlike R Failed (walk.finish stoppedAt) (walk'.finish stoppedAt) :=
  ⟨by simp [Walk.finish, h.passed, h.rest], h.nodes⟩

theorem Alike.round (hl : AnswersAlike lookup lookup' bundle R Failed) (h : Alike R Failed walk walk') :
    (∃ next next', walkRound s lookup bundle excluded terminusNodeNbr now walk = .inl next ∧
        walkRound s lookup' bundle excluded terminusNodeNbr now walk' = .inl next' ∧ Alike R Failed next next') ∨
      ∃ r r', walkRound s lookup bundle excluded terminusNodeNbr now walk = .inr r ∧
        walkRound s lookup' bundle excluded terminusNodeNbr now walk' = .inr r' ∧
        ∀ walked, r = some walked → ∃ walked', r' = some walked' ∧ WalkedAlike R Failed walked walked' := by
  have hfinish : ∀ stoppedAt walked, some (walk.finish stoppedAt) = some walked →
      ∃ walked', some (walk'.finish stoppedAt) = some walked' ∧ WalkedAlike R Failed walked walked' := by
    intro stoppedAt walked hw
    exact ⟨_, rfl, Option.some.inj hw ▸ h.finish stoppedAt⟩
  rw [walkRound, walkRound, h.rest, h.passed]
  cases hroutes : walk'.rest with
  | nil => exact Or.inr ⟨_, _, rfl, rfl, hfinish none⟩
  | cons route rest =>
    dsimp only
    by_cases hexpired : route.toTime < now
    · rw [if_pos hexpired, if_pos hexpired]
      cases recomputeRouteForContact s (walk'.passed ++ rest) route.toNodeNbr route.fromTime
          ⟨now, terminusNodeNbr, route.payloadClass⟩ with
      | none =>
        refine Or.inr ⟨_, _, rfl, rfl, ?_⟩
        intro walked hw
        cases hw
      | some recomputed =>
        cases recomputed with
        | none => exact Or.inl ⟨_, _, rfl, rfl, rfl, rfl, h.nodes⟩
        | some routes => exact Or.inl ⟨_, _, rfl, rfl, rfl, rfl, h.nodes⟩
    · rw [if_neg hexpired, if_neg hexpired]
      by_cases hdeadline : deadline bundle < route.arrivalTime
      · rw [if_pos hdeadline, if_pos hdeadline]
        exact Or.inr ⟨_, _, rfl, rfl, hfinish (some route)⟩
      · rw [if_neg hdeadline, if_neg hdeadline]
        have hnext : Alike R Failed { walk with passed := walk'.passed ++ [route], rest := rest }
            { walk' with passed := walk'.passed ++ [route], rest := rest } := ⟨rfl, rfl, h.nodes⟩
        exact Or.inl ⟨_, _, rfl, rfl, hnext.considerRoute hl route⟩

theorem walkRoutes_alike (hl : AnswersAlike lookup lookup' bundle R Failed) {routes : List CgrRoute} {env : σ} {env' : σ'}
    (hR : R env env') {walked : Walked δ σ}
    (h : walkRoutes s lookup bundle excluded terminusNodeNbr now routes env = some walked) :
    ∃ walked', walkRoutes s lookup' bundle excluded terminusNodeNbr now routes env' = some walked' ∧
      WalkedAlike R Failed walked walked' := by
  have hstart : Alike R Failed (⟨[], routes, [], [], env⟩ : Walk δ σ) (⟨[], routes, [], [], env'⟩ : Walk δ' σ') :=
    ⟨rfl, rfl, Or.inr ⟨hR, rfl⟩⟩
  rw [walkRoutes, Option.join_eq_some_iff] at h
  obtain ⟨hnone, -⟩ | ⟨r, r', hr, hr', hresult⟩ :=
    Runs.loop_simulates (Alike R Failed) _ (fun _ _ halike => halike.round hl) (walkFuel routes.length) _ _ hstart
  · rw [hnone] at h
    cases h
  · obtain ⟨walked', rfl, hwalked⟩ := hresult walked (Option.some.inj (hr.symm.trans h))
    exact ⟨walked', by rw [walkRoutes, Option.join_eq_some_iff, hr'], hwalked⟩

theorem identifyProximateNodes_alike (hl : AnswersAlike lookup lookup' bundle R Failed)
    {routingObject : Option (List CgrRoute)} {env : σ} {env' : σ'} (hR : R env env') {identified : Identified δ σ}
    (h : identifyProximateNodes s lookup bundle excluded terminusNodeNbr now routingObject env = some identified) :
    ∃ identified',
      identifyProximateNodes s lookup' bundle excluded terminusNodeNbr now routingObject env' = some identified' ∧
      WalkedAlike R Failed identified.walked identified'.walked ∧ identified.loaded = identified'.loaded ∧
      identified.failed = identified'.failed := by
  cases routingObject with
  | some routes =>
    obtain ⟨walked, hw, rfl⟩ := Option.map_eq_some_iff.mp h
    obtain ⟨walked', hw', halike⟩ := walkRoutes_alike hl hR hw
    exact ⟨⟨walked', false, false⟩, by rw [identifyProximateNodes, hw', Option.map_some], halike, rfl, rfl⟩
  | none =>
    obtain ⟨list, hlist, h⟩ := Option.bind_eq_some_iff.mp h
    rw [identifyProximateNodes, hlist, Option.bind_some]
    split at h
    · rename_i hcomplete
      obtain ⟨walked, hw, rfl⟩ := Option.map_eq_some_iff.mp h
      obtain ⟨walked', hw', halike⟩ := walkRoutes_alike hl hR hw
      exact ⟨⟨walked', true, false⟩, by rw [if_pos hcomplete, hw', Option.map_some], halike, rfl, rfl⟩
    · rename_i hcomplete
      obtain rfl := Option.some.inj h
      exact ⟨_, if_neg hcomplete, ⟨rfl, Or.inr ⟨hR, rfl⟩⟩, rfl, rfl⟩

/-- Routing calls end with the same result, and with the same choice unless the callback has failed. -/
structure ForwardsAlike (R : σ → σ' → Prop) (Failed : σ → Prop) (forwarding : Forwarding δ σ)
    (forwarding' : Forwarding δ' σ') : Prop where
  result : forwarding.result = forwarding'.result
  selected : SameNodes R Failed forwarding.env forwarding.selected forwarding'.env forwarding'.selected

theorem keepRoutes_alike {p : IonProcess} {nodeNbr : Nat} {part : Partition} {identified : Identified δ σ}
    {identified' : Identified δ' σ'} (hroutes : identified.walked.routes = identified'.walked.routes)
    (hloaded : identified.loaded = identified'.loaded) :
    keepRoutes p nodeNbr terminusNodeNbr part identified = keepRoutes p nodeNbr terminusNodeNbr part identified' := by
  rw [keepRoutes, keepRoutes, hroutes, hloaded]

theorem forwardsAlike_of {identified : Identified δ σ} {identified' : Identified δ' σ'}
    (h : WalkedAlike R Failed identified.walked identified'.walked) (hfailed : identified.failed = identified'.failed) :
    ForwardsAlike R Failed (Forwarding.of bundle identified) (Forwarding.of bundle identified') := by
  constructor
  · simp only [Forwarding.of, hfailed]
  · refine h.nodes.imp_right (fun hsame => ⟨hsame.1, ?_⟩)
    simp only [Forwarding.of, hfailed]
    split
    · rfl
    · rw [facts_selectProximateNodes, facts_selectProximateNodes, hsame.2]

theorem routeBundle_alike (hl : AnswersAlike lookup lookup' bundle R Failed) {p p' : IonProcess} {nodeNbr : Nat} {env : σ}
    {env' : σ'} (hR : R env env') {forwarding : Forwarding δ σ}
    (h : routeBundle p nodeNbr lookup bundle terminusNodeNbr now env = some (p', forwarding)) :
    ∃ forwarding', routeBundle p nodeNbr lookup' bundle terminusNodeNbr now env' = some (p', forwarding') ∧
      ForwardsAlike R Failed forwarding forwarding' := by
  obtain ⟨part, hpart, h⟩ := Option.bind_eq_some_iff.mp h
  rw [routeBundle, hpart, Option.bind_some]
  cases hnode : findNode part.ion.nodes terminusNodeNbr with
  | none =>
    simp only [hnode, Option.some.injEq, Prod.mk.injEq] at h
    obtain ⟨rfl, rfl⟩ := h
    exact ⟨_, rfl, rfl, Or.inr ⟨hR, rfl⟩⟩
  | some terminusNode =>
    simp only [hnode] at h ⊢
    obtain ⟨identified, hid, he⟩ := Option.map_eq_some_iff.mp h
    obtain ⟨rfl, rfl⟩ := Prod.mk.inj he
    obtain ⟨identified', hid', halike, hloaded, hfailed⟩ := identifyProximateNodes_alike hl hR hid
    refine ⟨Forwarding.of bundle identified', ?_, forwardsAlike_of halike hfailed⟩
    rw [hid', Option.map_some, keepRoutes_alike halike.routes hloaded]

/-- Where two callbacks answer alike, a routing call does the same to the process, whichever it is made with. -/
theorem cgrForward_alike (hl : AnswersAlike lookup lookup' bundle R Failed) {p p' : IonProcess} {nodeNbr : Nat} {env : σ}
    {env' : σ'} (hR : R env env') {forwarding : Forwarding δ σ}
    (h : cgrForward p nodeNbr lookup bundle terminusNodeNbr now env = some (p', forwarding)) :
    ∃ forwarding', cgrForward p nodeNbr lookup' bundle terminusNodeNbr now env' = some (p', forwarding') ∧
      ForwardsAlike R Failed forwarding forwarding' := by
  unfold cgrForward at h ⊢
  split at h
  · rename_i part vdb hpart hvdb
    split at h
    · rename_i hzero
      obtain ⟨rfl, rfl⟩ := Prod.mk.inj (Option.some.inj h)
      exact ⟨_, if_pos hzero, rfl, Or.inr ⟨hR, rfl⟩⟩
    · rename_i hzero
      rw [if_neg hzero]
      exact routeBundle_alike hl hR h
  · cases h

/-! The callback over the memory and the one over a plain list. -/

section

open Router Fallible Psm OutductList Snapshots RepeatedCalls
open Interface (OneEnv ionOutduct getOutductName atol ionBundle)

variable {sim : Simulator} {malloc : SdrMalloc} {java : Outducts} {base heap : SdrHeap} {outductList : PsmAddress}
  {snapshots : List Snapshot}

/-- In the course of a call that has not failed: both have converted outducts of the same router. -/
structure Corresponds (sim : Simulator) (java : Outducts) (base : SdrHeap) (state : CallState) (env : OneEnv) : Prop where
  inCall : InCall sim java base state
  running : state.failed = none
  inOrder : InOrder java.router env
  quiet : env.exception = false

/-- Where there is an outduct to every host, a directive is found or the call fails. -/
theorem getONEDirective_found (hcreated : ∀ host ∈ sim.hosts, java.created host = true) (nodeNbr : Nat) (heap : SdrHeap)
    (outductList : PsmAddress) :
    Ends (fun _ => True) (fun r => r.1 ≠ none) (OutductList.getONEDirective sim malloc java nodeNbr heap outductList) := by
  have hhost : Ends (fun _ => True) (fun found => found ≠ none) (getONEOutductToNode sim java nodeNbr) := by
    unfold getONEOutductToNode
    cases hfound : getHostFromNumber sim nodeNbr with
    | none => trivial
    | some host =>
      simp [hcreated host (Reports.getHostFromNumber_eq_some hfound).1]
  have hany : ∀ {α : Type} (x : Except Failure α), Ends (fun _ => True) (fun _ => True) x := by
    intro α x
    cases x <;> trivial
  unfold OutductList.getONEDirective
  apply hhost.bind
  intro found hfound
  cases found with
  | none => exact absurd rfl hfound
  | some host =>
    apply (hany _).bind
    rintro ⟨list, heap'⟩ -
    dsimp only
    split
    · apply (hany _).bind
      rintro ⟨outductElt, heap''⟩ -
      exact Option.some_ne_none _
    · exact Option.some_ne_none _

theorem lookupOutduct_found (hcreated : ∀ host ∈ sim.hosts, java.created host = true) {state next : CallState} {n : Nat}
    (h : lookupOutduct sim malloc java n state = (none, next)) : next.failed ≠ none := by
  unfold lookupOutduct at h
  split at h
  · rename_i failure hfailed
    obtain ⟨-, rfl⟩ := Prod.mk.inj h
    rw [hfailed]
    exact Option.some_ne_none _
  · cases hget : OutductList.getONEDirective sim malloc java n state.heap state.outductList with
    | error failure =>
      rw [hget] at h
      obtain ⟨-, rfl⟩ := Prod.mk.inj h
      exact Option.some_ne_none _
    | ok r =>
      obtain ⟨directive, outductList, heap⟩ := r
      have hfound := (getONEDirective_found hcreated n state.heap state.outductList).post hget
      cases directive with
      | none => exact absurd rfl hfound
      | some outductElt =>
        rw [hget] at h
        dsimp only at h
        split at h
        · obtain ⟨-, rfl⟩ := Prod.mk.inj h
          exact Option.some_ne_none _
        · cases (Prod.mk.inj h).1

theorem oneLookups_alike (hclean : ∀ host, base.located (getOutductName host) = none)
    (hcreated : ∀ host ∈ sim.hosts, java.created host = true) (bundle : Bundle) :
    AnswersAlike (OutductList.oneLookup sim malloc java) (Interface.oneLookup sim) bundle (Corresponds sim java base)
      (fun state => state.failed ≠ none) := by
  constructor
  · intro n state found next hfailed hr
    obtain ⟨failure, hsome⟩ := Option.ne_none_iff_exists'.mp hfailed
    obtain ⟨-, rfl⟩ := Prod.mk.inj ((lookupOutduct_failed hsome n).symm.trans hr)
    exact hfailed
  · intro n state env found next found' next' h hr hr'
    have hinCall := (oneLookup_keeps hclean bundle).inv n state found next h.inCall hr
    have hsteady := oneLookup_steadyOn sim java.router bundle
    have hinOrder := hsteady.inv n env found' next' h.inOrder hr'
    have hanswer := hsteady.answer n env found' next' h.inOrder hr'
    obtain ⟨snapshots, hlisted⟩ := h.inCall.listed h.running
    obtain ⟨failure, -, -, rfl⟩ | ⟨hrunning, later, hlater, -, ⟨rfl, -⟩ | ⟨snapshot, hsnap, rfl, rfl, -⟩⟩ :=
      lookupOutduct_cases hlisted h.running hclean hr
    · exact Or.inl (Option.some_ne_none failure)
    · exact absurd hrunning (lookupOutduct_found hcreated hr)
    · right
      have hhost := (hlater.hosts snapshot hsnap).1
      rw [RouterQueues.getHostFromNumber_of_mem hhost, Option.map_some] at hanswer
      have hquiet : next'.exception = false := by
        obtain ⟨rfl, -⟩ | ⟨-, ⟨elt, -, -, rfl⟩ | ⟨-, rfl⟩⟩ := Reports.getONEDirective_cases hr'
        · cases hanswer
        · exact h.quiet
        · exact h.quiet
      refine ⟨⟨hinCall, hrunning, hinOrder, hquiet⟩, ?_⟩
      rw [hanswer]
      simp only [OutductList.oneLookup, Option.map_some, hlater.readOutduct_eq hsnap]
      rfl

/-! What is enqueued. -/

theorem insertBundleIntoOutduct_created (hcreated : ∀ host ∈ sim.hosts, java.created host = true)
    {router router' : ContactGraphRouter} {m : Message} {toNodeNbr : Int}
    (h : OutductList.insertBundleIntoOutduct sim java router m toNodeNbr = .ok router') :
    Router.insertBundleIntoOutduct sim router m toNodeNbr = some router' := by
  unfold OutductList.insertBundleIntoOutduct at h
  unfold Router.insertBundleIntoOutduct
  cases hhost : getHostFromNumber sim toNodeNbr with
  | none =>
    rw [hhost] at h
    cases h
  | some host =>
    rw [hhost] at h
    simp only [hcreated host (Reports.getHostFromNumber_eq_some hhost).1, if_true, Except.ok.injEq] at h
    rw [Option.map_some, h]

/-- The records of the call lead the selected neighbor to the outduct with its name. -/
def Named (env : OneEnv) (neighbor : ProximateNode Nat) : Prop :=
  (Interface.readOutduct env neighbor.directive).name = getOutductName neighbor.neighborNodeNbr

/-- The directive of a neighbor is the element of its record. -/
def Recorded (snapshots : List Snapshot) (neighbor : ProximateNode PsmAddress) : Prop :=
  ∃ snapshot ∈ snapshots, snapshot.outductElt = neighbor.directive ∧ snapshot.host = neighbor.neighborNodeNbr

theorem bpEnqueONE_alike (h : Listed sim java base heap outductList snapshots)
    (hcreated : ∀ host ∈ sim.hosts, java.created host = true) {overdueElt : PsmAddress} {neighbor : ProximateNode PsmAddress}
    {neighbor' : ProximateNode Nat} {env : OneEnv}
    (hevent : heap.memory overdueElt = some (.object (.event neighbor.forfeitTime)))
    (hsame : facts neighbor = facts neighbor') (hrecorded : Recorded snapshots neighbor) (hnamed : Named env neighbor')
    {reference : Int} {m : Message} {router : ContactGraphRouter} {forwardResult : Int} {x : ContactGraphRouter × Int}
    (hrun : OutductList.bpEnqueONE sim java reference m router heap overdueElt neighbor.directive = .ok x) :
    Interface.bpEnqueONE sim reference m env (router, forwardResult) neighbor' = some x := by
  obtain ⟨snapshot, hmem, helt, hhost⟩ := hrecorded
  simp only [facts, ProximateNode.mk.injEq] at hsame
  obtain ⟨hnumber, -, hforfeit, -⟩ := hsame
  have hname : (ionOutduct java.router snapshot.host).name = (Interface.readOutduct env neighbor'.directive).name := by
    rw [hnamed, ← hnumber, ← hhost]
    rfl
  unfold OutductList.bpEnqueONE at hrun
  rw [readEvent_eq h.sound hevent, ← helt, h.readOutduct_eq hmem] at hrun
  simp only [bind, Except.bind, hname] at hrun
  split at hrun
  · cases hrun
  · rename_i router' hinsert
    rw [Interface.bpEnqueONE, ← hforfeit, insertBundleIntoOutduct_created hcreated hinsert]
    exact congrArg some (Except.ok.inj hrun)

/-- Without memory for the event there is an error; else the bundle is enqueued as it is over the plain list. -/
theorem enqueueToNeighbor_alike {state state' : Enqueued} (h : Listed sim java base state.heap outductList snapshots)
    (hcreated : ∀ host ∈ sim.hosts, java.created host = true) {bundleObj : PsmAddress}
    (hbundle : base.memory bundleObj ≠ none)
    {neighbor : ProximateNode PsmAddress} {neighbor' : ProximateNode Nat} {env : OneEnv}
    (hsame : facts neighbor = facts neighbor')
    (hrecorded : Recorded snapshots neighbor) (hnamed : Named env neighbor') {reference : Int} {m : Message}
    (hrun : enqueueToNeighbor sim malloc java reference m bundleObj state neighbor = .ok state') :
    state'.result < 0 ∨
      Interface.bpEnqueONE sim reference m env (state.router, state.forwardResult) neighbor' =
        some (state'.router, state'.forwardResult) := by
  obtain ⟨⟨overdueElt, heap'⟩, hinsert, h', hunused, hevent⟩ :=
    (insertBpTimelineEvent_ends malloc h neighbor.forfeitTime).total
  unfold enqueueToNeighbor sdrWrite at hrun
  rw [hinsert] at hrun
  simp only [bind, Except.bind] at hrun
  by_cases hnull : overdueElt = 0
  · rw [if_pos hnull] at hrun
    obtain rfl := Except.ok.inj hrun
    exact Or.inl (show (-1 : Int) < 0 by decide)
  · have hlive := h'.kept bundleObj hbundle
    have hne : overdueElt ≠ bundleObj := by
      intro heq
      exact h.kept bundleObj hbundle (heq ▸ hunused)
    have h'' := h'.put hlive (h'.notMem_blocks hbundle) (.object .bundle)
    have hevent' := heap'.put_of_ne (.object .bundle) hne
    rw [hevent hnull] at hevent'
    rw [if_neg hnull, assign_eq h'.sound hlive] at hrun
    dsimp only at hrun
    split at hrun
    · cases hrun
    · rename_i x henqueue
      obtain rfl := Except.ok.inj hrun
      exact Or.inr (bpEnqueONE_alike h'' hcreated hevent' hsame hrecorded hnamed henqueue)

theorem enqueueToAll_alike {bundleObj : PsmAddress} (hbundle : base.memory bundleObj ≠ none)
    (hcreated : ∀ host ∈ sim.hosts, java.created host = true) {env : OneEnv} {reference : Int} {m : Message}
    {neighbors : List (ProximateNode PsmAddress)} {neighbors' : List (ProximateNode Nat)} {state state' : Enqueued}
    (h : Listed sim java base state.heap outductList snapshots) (hsame : neighbors.map facts = neighbors'.map facts)
    (hrecorded : ∀ neighbor ∈ neighbors, Recorded snapshots neighbor) (hnamed : ∀ neighbor ∈ neighbors', Named env neighbor)
    (hrun : enqueueToAll sim malloc java reference m bundleObj neighbors state = .ok state') :
    state'.result < 0 ∨
      Runs.run (Interface.bpEnqueONE sim reference m env) (state.router, state.forwardResult) neighbors' =
        some (state'.router, state'.forwardResult) := by
  induction neighbors generalizing state neighbors' with
  | nil =>
    obtain rfl := List.map_eq_nil_iff.mp hsame.symm
    obtain rfl := Except.ok.inj hrun
    exact Or.inr (Runs.run_nil _)
  | cons neighbor rest ih =>
    cases neighbors' with
    | nil => cases hsame
    | cons neighbor' rest' =>
      obtain ⟨hfirst, hrest⟩ := List.cons.inj hsame
      have hhead := hrecorded neighbor List.mem_cons_self
      obtain ⟨snapshot, hmem, helt, -⟩ := id hhead
      rw [enqueueToAll] at hrun
      cases hstep : enqueueToNeighbor sim malloc java reference m bundleObj state neighbor with
      | error failure =>
        rw [hstep] at hrun
        cases hrun
      | ok next =>
        have hlisted := (enqueueToNeighbor_ends h hbundle ⟨snapshot, hmem, helt⟩ reference m).post hstep
        have halike := enqueueToNeighbor_alike h hcreated hbundle hfirst hhead (hnamed neighbor' List.mem_cons_self) hstep
        rw [hstep] at hrun
        simp only [bind, Except.bind] at hrun
        split at hrun
        · rename_i hfailed
          obtain rfl := Except.ok.inj hrun
          exact Or.inl hfailed
        · rename_i hgoes
          have hone := halike.resolve_left hgoes
          rw [Runs.run_cons, hone, Option.bind_some]
          exact ih hlisted hrest (fun other hother => hrecorded other (List.mem_cons_of_mem _ hother))
            (fun other hother => hnamed other (List.mem_cons_of_mem _ hother)) hrun

/-- All that is known of the list names the same hosts. -/
theorem recorded_of_leadsTo {state : CallState} (hlisted : Listed sim java base state.heap state.outductList snapshots)
    (hrunning : state.failed = none) {neighbor : ProximateNode PsmAddress}
    (h : LeadsTo sim java base state neighbor.neighborNodeNbr neighbor.directive) : Recorded snapshots neighbor := by
  obtain ⟨snapshots', hlisted', snapshot, hmem, helt, hhost⟩ := h hrunning
  obtain ⟨same, hsame, heq⟩ := hlisted.elt_mem hlisted' hmem
  have hread := hlisted.readOutduct_eq hsame
  rw [heq, hlisted'.readOutduct_eq hmem, Except.ok.injEq] at hread
  have hname : getOutductName snapshot.host = getOutductName same.host := congrArg Forward.Outduct.name hread
  exact ⟨same, hsame, heq.trans helt, (getOutductName_injective hname).symm.trans hhost⟩

/-- A call that returns an error says so; else the bundle was enqueued for all that were selected. -/
theorem finishForwarding_eq_ok {call : ForwardCall} {bundleObj : PsmAddress} {forwarding : Forwarding PsmAddress CallState}
    {returned : Returned} (h : finishForwarding sim malloc call bundleObj forwarding = .ok returned) :
    forwarding.env.failed = none ∧ (returned.result < 0 ∨ ¬ forwarding.result < 0 ∧ ∃ state,
      enqueueToAll sim malloc call.java call.reference call.message bundleObj forwarding.selected
        ⟨0, call.java.router, 0, forwarding.env.heap⟩ = .ok state ∧ ¬ state.result < 0 ∧
      returned.result = state.forwardResult ∧ returned.router = state.router) := by
  unfold finishForwarding at h
  cases hfailed : forwarding.env.failed with
  | some failure => simp [hfailed] at h
  | none =>
    simp only [hfailed] at h
    refine ⟨rfl, ?_⟩
    cases hstate : enqueueSelected sim malloc call bundleObj forwarding with
    | error failure =>
      rw [hstate] at h
      cases h
    | ok state =>
      rw [hstate] at h
      simp only [bind, Except.bind] at h
      split at h
      · cases h
      split at h
      · cases h
      obtain rfl := Except.ok.inj h
      unfold enqueueSelected at hstate
      split at hstate
      · obtain rfl := Except.ok.inj hstate
        exact Or.inl (show (-1 : Int) < 0 by decide)
      · rename_i hgoes
        by_cases hlost : state.result < 0
        · exact Or.inl (by rwa [if_pos hlost])
        · exact Or.inr ⟨hgoes, state, hstate, hlost, if_neg hlost, rfl⟩

/-- What a call over the memory returns, unless it is an error, is what the call over the plain list returns, and
the router is left the same. -/
theorem cgrForwardONE_refines (h : Reachable sim malloc heap) {call : ForwardCall}
    (hcreated : ∀ host ∈ sim.hosts, call.java.created host = true) {performed : Performed} {returned : Returned}
    (hrun : OutductList.cgrForwardONE sim malloc call heap = some performed) (hok : performed.outcome = .ok returned) :
    returned.result < 0 ∨ ∃ out,
      Interface.cgrForwardONE sim call.process (OneEnv.start call.java.router) call.message call.ttl call.now call.reference
          call.terminusNodeNbr = some out ∧
        out.result = returned.result ∧ out.env.router = returned.router := by
  obtain rfl | ⟨base, bundleObj, process', forwarding, hbase, hbundle, hf, hI, hdir, rfl⟩ :=
    cgrForwardONE_walks (reachable_betweenCalls h) hrun
  · cases hok
  have hstart : Corresponds sim call.java base (CallState.start base) (OneEnv.start call.java.router) :=
    ⟨inCall_start hbase.sound, rfl, inOrder_start, rfl⟩
  obtain ⟨forwarding', hf', hresult, hselected⟩ := cgrForward_alike (oneLookups_alike hbase.clean hcreated _) hstart hf
  obtain ⟨hrunning, hlost | ⟨hgoes, state, hstate, hlost, hreturned, hrouter⟩⟩ := finishForwarding_eq_ok hok
  · exact Or.inl hlost
  obtain ⟨hcorresponds, hsame⟩ := hselected.resolve_left (fun hno => hno hrunning)
  obtain ⟨snapshots, hlisted⟩ := hI.listed hrunning
  have hrecorded : ∀ neighbor ∈ forwarding.selected, Recorded snapshots neighbor :=
    fun neighbor hmem => recorded_of_leadsTo hlisted hrunning (hdir neighbor hmem)
  have hnamed : ∀ neighbor ∈ forwarding'.selected, Named forwarding'.env neighbor := by
    intro neighbor hmem
    obtain ⟨-, outduct, helt, hname⟩ := (Reports.cgrForward_env rfl hf').2.2 neighbor hmem
    rw [Named, readOutduct_of_get helt, hname]
  have hsent : Runs.run (Interface.bpEnqueONE sim call.reference call.message forwarding'.env) (call.java.router, 0)
      forwarding'.selected = some (state.router, state.forwardResult) :=
    (enqueueToAll_alike hbundle hcreated hlisted hsame hrecorded hnamed hstate).resolve_left hlost
  right
  rw [hreturned, hrouter, Interface.cgrForwardONE, hf', Option.bind_some]
  dsimp only [OneEnv.start]
  rw [hcorresponds.quiet, if_neg Bool.false_ne_true, ← hresult, if_neg hgoes, hsent]
  exact ⟨_, rfl, rfl, rfl⟩

end

end OutductCalls
