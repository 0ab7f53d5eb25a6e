import CgrJni.Lysts
import CgrJni.Process

/-!
A call of `cgrForward` down to its two lists, the neighbors found and the nodes excluded, and to the
records in them. A call ends with a failure where a record is read or released that is not allocated.
-/

namespace NeighborLists

open IonDb Libcgr Rfx RouteLists Forward Process Lysts TakenBlocks
open Psm (Failure)

variable {δ σ : Type}

/-- The records that are allocated during a call. -/
inductive Record (δ : Type)
  | nodeId (nbr : Nat)
  | proximateNode (node : ProximateNode δ)

abbrev CgrMemory (δ : Type) := Memory (Record δ)

/-- The two lists of a call. -/
structure CallLists where
  proximateNodes : Nat
  excludedNodes : Nat

def isNode (nodeNbr : Nat) : Record δ → Except Failure Bool
  | .nodeId nbr => .ok (nbr = nodeNbr)
  | .proximateNode _ => .error .wrongBlock

def isNeighbor (nodeNbr : Nat) : Record δ → Except Failure Bool
  | .proximateNode node => .ok (node.neighborNodeNbr = nodeNbr)
  | .nodeId _ => .error .wrongBlock

def isExcluded (m : CgrMemory δ) (nodeNbr excludedNodes : Nat) : Except Failure Bool := do
  return (← findObject m excludedNodes (isNode nodeNbr)).isSome

def readProximateNode (m : CgrMemory δ) (proxNode : PsmAddress) : Except Failure (ProximateNode δ) := do
  match ← deref m proxNode with
  | .proximateNode node => return node
  | .nodeId _ => .error .wrongBlock

section

variable (malloc : Malloc (Record δ))

def excludeNode (m : CgrMemory δ) (excludedNodes nodeNbr : Nat) : Except Failure (Int × CgrMemory δ) := do
  let (node, m) := mtake malloc m
  if node = 0 then return (-1, m)
  let m ← assign m node (.nodeId nodeNbr)
  let (_, m) := lystInsertLast m excludedNodes node
  return (0, m)

/-- An embargo whose probe is due does not exclude its neighbor. -/
def excludeEmbargoes (excludedNodes : Nat) : List Embargo → CgrMemory δ → Except Failure (Int × CgrMemory δ)
  | [], m => .ok (0, m)
  | embargo :: rest, m =>
    if embargo.probeIsDue then excludeEmbargoes excludedNodes rest m
    else do
      let (result, m) ← excludeNode malloc m excludedNodes embargo.nodeNbr
      if result ≠ 0 then return (-1, m)
      excludeEmbargoes excludedNodes rest m

def excludeNodes (m : CgrMemory δ) (excludedNodes : Nat) (bundle : Bundle) (terminusNode : IonNode) :
    Except Failure (Int × CgrMemory δ) :=
  if bundle.returnToSender then excludeEmbargoes malloc excludedNodes terminusNode.embargoes m
  else do
    let (result, m) ← excludeNode malloc m excludedNodes bundle.senderNodeNbr
    if result ≠ 0 then return (-1, m)
    excludeEmbargoes malloc excludedNodes terminusNode.embargoes m

/-- The record is in the list before it is filled in. -/
def addProximateNode (m : CgrMemory δ) (proximateNodes : Nat) (node : ProximateNode δ) :
    Except Failure (Int × CgrMemory δ) := do
  let (proxNode, m) := mtake malloc m
  if proxNode = 0 then return (-1, m)
  let (_, m) := lystInsertLast m proximateNodes proxNode
  let m ← assign m proxNode (.proximateNode node)
  return (0, m)

def noteProximateNode (m : CgrMemory δ) (proximateNodes : Nat) (directive : δ) (route : CgrRoute) (est : Estimate) :
    Except Failure (Int × CgrMemory δ) := do
  match ← findObject m proximateNodes (isNeighbor route.toNodeNbr) with
  | some proxNode =>
    let node ← readProximateNode m proxNode
    let m ← assign m proxNode (.proximateNode (node.improve route est))
    return (0, m)
  | none =>
    addProximateNode malloc m proximateNodes
      ⟨route.toNodeNbr, directive, route.toTime, est.arrivalTime, est.overbooked, est.protect, route.hops.length⟩

/-- A position in the route list, with the memory. -/
structure Walking (δ σ : Type) where
  passed : List CgrRoute
  rest : List CgrRoute
  memory : CgrMemory δ
  env : σ

def tryRoute (s : IonState) (lookup : CgrLookup δ σ) (bundle : Bundle) (lists : CallLists) (currentTime : Int)
    (route : CgrRoute) (walk : Walking δ σ) : Except Failure (Int × Walking δ σ) :=
  match lookup.getDirective route.toNodeNbr bundle walk.env with
  | (none, env) => .ok (0, { walk with env := env })
  | (some directive, env) =>
    match assessRoute s route bundle currentTime (lookup.readOutduct env directive) with
    | .accepted est => do
      let (result, m) ← noteProximateNode malloc walk.memory lists.proximateNodes directive route est
      return (result, { walk with memory := m, env := env })
    | _ => .ok (0, { walk with env := env })

def considerRoute (s : IonState) (lookup : CgrLookup δ σ) (bundle : Bundle) (lists : CallLists) (currentTime : Int)
    (route : CgrRoute) (walk : Walking δ σ) : Except Failure (Int × Walking δ σ) :=
  if route.toNodeNbr = s.ownNodeNbr ∧ ¬ (bundle.cbhe ∧ bundle.destination = route.toNodeNbr) then .ok (0, walk)
  else if route.maxCapacity < bundle.payloadLength then .ok (0, walk)
  else do
    if ← isExcluded walk.memory route.toNodeNbr lists.excludedNodes then return (0, walk)
    tryRoute malloc s lookup bundle lists currentTime route walk

/-- What `identifyProximateNodes` returns, with the routes of the list as it leaves them. -/
structure Found (δ σ : Type) where
  result : Int
  routes : List CgrRoute
  loaded : Bool
  memory : CgrMemory δ
  env : σ

def Walking.finish (walk : Walking δ σ) (result : Int) : Found δ σ where
  result := result
  routes := walk.passed ++ walk.rest
  loaded := false
  memory := walk.memory
  env := walk.env

/-- The walk also ends where there is no memory for a neighbor. -/
def walkRound (s : IonState) (lookup : CgrLookup δ σ) (bundle : Bundle) (lists : CallLists) (terminusNodeNbr : Nat)
    (currentTime : Int) (walk : Walking δ σ) : Walking δ σ ⊕ Option (Except Failure (Found δ σ)) :=
  match walk.rest with
  | [] => .inr (some (.ok (walk.finish 0)))
  | route :: rest =>
    if route.toTime < currentTime then
      match recomputeRouteForContact s (walk.passed ++ rest) route.toNodeNbr route.fromTime
          ⟨currentTime, terminusNodeNbr, route.payloadClass⟩ with
      | none => .inr none
      | some none => .inl { walk with rest := rest }
      | some (some routes) => .inl { walk with passed := [], rest := routes }
    else if deadline bundle < route.arrivalTime then .inr (some (.ok (walk.finish 0)))
    else
      match considerRoute malloc s lookup bundle lists currentTime route
          { walk with passed := walk.passed ++ [route], rest := rest } with
      | .error failure => .inr (some (.error failure))
      | .ok (result, walk) => if result < 0 then .inr (some (.ok (walk.finish (-1)))) else .inl walk

def walkRoutes (s : IonState) (lookup : CgrLookup δ σ) (bundle : Bundle) (lists : CallLists) (terminusNodeNbr : Nat)
    (currentTime : Int) (routes : List CgrRoute) (m : CgrMemory δ) (env : σ) : Option (Except Failure (Found δ σ)) :=
  (Runs.loop (walkRound malloc s lookup bundle lists terminusNodeNbr currentTime) (walkFuel routes.length)
    ⟨[], routes, m, env⟩).join

def identifyProximateNodes (s : IonState) (lookup : CgrLookup δ σ) (bundle : Bundle) (lists : CallLists)
    (terminusNodeNbr : Nat) (currentTime : Int) (routingObject : Option (List CgrRoute)) (m : CgrMemory δ) (env : σ) :
    Option (Except Failure (Found δ σ)) :=
  match routingObject with
  | some routes => walkRoutes malloc s lookup bundle lists terminusNodeNbr currentTime routes m env
  | none =>
    (loadRouteList s currentTime terminusNodeNbr).bind (fun list =>
      if list.complete then
        (walkRoutes malloc s lookup bundle lists terminusNodeNbr currentTime list.routes m env).map
          (fun found => found.map (fun found => { found with loaded := true }))
      else some (.ok ⟨-1, list.routes, true, m, env⟩))

end

/-- What is done with a bundle once its neighbors are known. None of it has to do with the lists. -/
structure Sending (δ σ : Type) where
  enqueueToNeighbor : ProximateNode δ → σ → Int × σ
  bpClone : σ → Int × σ
  manageOverbooking : ProximateNode δ → σ → Int × σ

structure Returned (δ σ : Type) where
  result : Int
  memory : CgrMemory δ
  env : σ

section

variable (sending : Sending δ σ) (preview : Bool)

def enqueue (m : CgrMemory δ) (proxNode : PsmAddress) (env : σ) : Except Failure (Int × σ) := do
  if preview then return (0, env)
  return sending.enqueueToNeighbor (← readProximateNode m proxNode) env

/-- Every transmission after the first is that of a clone. -/
def sendToEach (proximateNodes : Nat) : Nat → CgrMemory δ → σ → Option Nat → Except Failure (Returned δ σ)
  | _, m, env, none => do return ⟨0, ← lystDestroy m proximateNodes, env⟩
  | 0, _, _, some _ => .error .endless
  | fuel + 1, m, env, some elt => do
    let nextElt := lystNext m elt
    let (proxNode, m) := lystDataSet m elt 0
    let m ← lystDelete m elt
    let (result, env) ← enqueue sending preview m proxNode env
    if result ≠ 0 then return ⟨-1, ← lystDestroy m proximateNodes, env⟩
    let m ← mrelease m proxNode
    if nextElt.isNone then sendToEach proximateNodes fuel m env nextElt
    else
      let (result, env) := sending.bpClone env
      if result < 0 then return ⟨-1, ← lystDestroy m proximateNodes, env⟩
      sendToEach proximateNodes fuel m env nextElt

/-- Earlier arrival, then fewer hops, then the smaller node number. -/
def Prefers (proxNode selectedNeighbor : ProximateNode δ) : Prop :=
  proxNode.arrivalTime < selectedNeighbor.arrivalTime ∨
    proxNode.arrivalTime = selectedNeighbor.arrivalTime ∧
      (proxNode.hopCount < selectedNeighbor.hopCount ∨
        proxNode.hopCount = selectedNeighbor.hopCount ∧
          proxNode.neighborNodeNbr < selectedNeighbor.neighborNodeNbr)

instance (proxNode selectedNeighbor : ProximateNode δ) : Decidable (Prefers proxNode selectedNeighbor) := by
  unfold Prefers
  infer_instance

/-- Of two neighbors, the one that is not preferred is released at once; 0 is `NULL`. -/
def selectNeighbor : Nat → CgrMemory δ → PsmAddress → Option Nat → Except Failure (PsmAddress × CgrMemory δ)
  | _, m, selectedNeighbor, none => .ok (selectedNeighbor, m)
  | 0, _, _, some _ => .error .endless
  | fuel + 1, m, selectedNeighbor, some elt => do
    let nextElt := lystNext m elt
    let (proxNode, m) := lystDataSet m elt 0
    let m ← lystDelete m elt
    if selectedNeighbor = 0 then selectNeighbor fuel m proxNode nextElt
    else if Prefers (← readProximateNode m proxNode) (← readProximateNode m selectedNeighbor) then
      selectNeighbor fuel (← mrelease m selectedNeighbor) proxNode nextElt
    else selectNeighbor fuel (← mrelease m proxNode) selectedNeighbor nextElt

def sendToOne (m : CgrMemory δ) (selectedNeighbor : PsmAddress) (env : σ) : Except Failure (Returned δ σ) := do
  let (result, env) ← enqueue sending preview m selectedNeighbor env
  if result ≠ 0 then return ⟨-1, m, env⟩
  if preview then return ⟨0, ← mrelease m selectedNeighbor, env⟩
  let (result, env) := sending.manageOverbooking (← readProximateNode m selectedNeighbor) env
  if result ≠ 0 then return ⟨-1, m, env⟩
  return ⟨0, ← mrelease m selectedNeighbor, env⟩

def sendToBest (m : CgrMemory δ) (proximateNodes : Nat) (env : σ) : Except Failure (Returned δ σ) := do
  let (selectedNeighbor, m) ←
    selectNeighbor (m.lysts proximateNodes).list.length m 0 (lystFirst m proximateNodes)
  let m ← lystDestroy m proximateNodes
  if selectedNeighbor = 0 then return ⟨0, m, env⟩
  sendToOne sending preview m selectedNeighbor env

def destroyLists (m : CgrMemory δ) (lists : CallLists) : Except Failure (CgrMemory δ) := do
  lystDestroy (← lystDestroy m lists.excludedNodes) lists.proximateNodes

def send (bundle : Bundle) (lists : CallLists) (found : Found δ σ) : Except Failure (Returned δ σ) := do
  if found.result < 0 then return ⟨-1, ← destroyLists found.memory lists, found.env⟩
  let m ← lystDestroy found.memory lists.excludedNodes
  if bundle.minimumLatency then
    sendToEach sending preview lists.proximateNodes (m.lysts lists.proximateNodes).list.length m found.env
      (lystFirst m lists.proximateNodes)
  else sendToBest sending preview m lists.proximateNodes found.env

/-- The two lists of a call, empty, with the function that releases their objects. -/
def createLists (m : CgrMemory δ) : CallLists × CgrMemory δ :=
  let (proximateNodes, m) := lystCreateUsing m
  let (excludedNodes, m) := lystCreateUsing m
  let m := lystDeleteSet m proximateNodes .deleteObject
  (⟨proximateNodes, excludedNodes⟩, lystDeleteSet m excludedNodes .deleteObject)

variable (malloc : Malloc (Record δ))

/-- The routes as the walk leaves them, in the process. -/
def Found.identified (found : Found δ σ) : Identified δ σ where
  walked := ⟨found.routes, [], [], none, found.env⟩
  loaded := found.loaded
  failed := decide (found.result < 0)

def routeBundle (p : IonProcess) (nodeNbr : Nat) (lookup : CgrLookup δ σ) (bundle : Bundle) (terminusNodeNbr : Nat)
    (now : Int) (m : CgrMemory δ) (env : σ) : Option (Except Failure (IonProcess × Returned δ σ)) :=
  (p.partitions nodeNbr).bind (fun part =>
    match findNode part.ion.nodes terminusNodeNbr with
    | none => some (.ok (p, ⟨0, m, env⟩))
    | some terminusNode =>
      let (lists, m) := createLists m
      match excludeNodes malloc m lists.excludedNodes bundle terminusNode with
      | .error failure => some (.error failure)
      | .ok (result, m) =>
        if result ≠ 0 then some ((destroyLists m lists).map (fun m => (p, ⟨-1, m, env⟩)))
        else
          (identifyProximateNodes malloc part.ion lookup bundle lists terminusNodeNbr now
            (part.routingObject terminusNodeNbr) m env).map (fun outcome => do
              let found ← outcome
              return (keepRoutes p nodeNbr terminusNodeNbr part found.identified,
                ← send sending preview bundle lists found)))

def cgrForward (p : IonProcess) (nodeNbr : Nat) (lookup : CgrLookup δ σ) (bundle : Bundle) (terminusNodeNbr : Nat)
    (now : Int) (m : CgrMemory δ) (env : σ) : Option (Except Failure (IonProcess × Returned δ σ)) :=
  match p.partitions nodeNbr, p.cgrvdb with
  | some part, some vdb =>
    if terminusNodeNbr = 0 then some (.ok (p, ⟨-1, m, env⟩))
    else
      routeBundle sending preview malloc (refresh p vdb part.ion.lastEditTime now) nodeNbr lookup bundle
        terminusNodeNbr now m env
  | _, _ => none

end

/-- The two lists with their records, which are all that is allocated on top of the base. -/
structure Parts (base : PsmAddress → Option (Record δ)) (m : CgrMemory δ) (lists : CallLists)
    (ns xs : List (Entry (Record δ))) : Prop where
  nodes : Keeps m lists.proximateNodes ns
  excluded : Keeps m lists.excludedNodes xs
  apart : lists.proximateNodes ≠ lists.excludedNodes
  taken : Taken base m.blocks (blocksOf ns ++ blocksOf xs)

/-- The lists stand for these neighbors and these excluded nodes. -/
def Holds (base : PsmAddress → Option (Record δ)) (m : CgrMemory δ) (lists : CallLists) (nodes : List (ProximateNode δ))
    (excluded : List Nat) : Prop :=
  ∃ ns xs, Parts base m lists ns xs ∧ ns.map Entry.block = nodes.map Record.proximateNode ∧
    xs.map Entry.block = excluded.map Record.nodeId

/-- There was no memory for a record, and the lists are still in order. -/
def Exhausted (malloc : Malloc (Record δ)) (base : PsmAddress → Option (Record δ)) (lists : CallLists)
    (m : CgrMemory δ) : Prop :=
  (∃ m, malloc.pointer m = 0) ∧ ∃ nodes excluded, Holds base m lists nodes excluded

/-- A step that succeeds with certain lists, or fails for want of memory. -/
def Yields (malloc : Malloc (Record δ)) (base : PsmAddress → Option (Record δ)) (lists : CallLists)
    (nodes : List (ProximateNode δ)) (excluded : List Nat) (outcome : Except Failure (Int × CgrMemory δ)) : Prop :=
  ∃ result m, outcome = .ok (result, m) ∧
    (result = 0 ∧ Holds base m lists nodes excluded ∨ result = -1 ∧ Exhausted malloc base lists m)

variable (malloc : Malloc (Record δ)) {base : PsmAddress → Option (Record δ)} {m m' : CgrMemory δ} {lists : CallLists}
  {nodes : List (ProximateNode δ)} {excluded : List Nat} {ns xs : List (Entry (Record δ))}

theorem holds_create (m : CgrMemory δ) : Holds m.blocks (createLists m).2 (createLists m).1 [] [] := by
  refine ⟨[], [], ⟨?_, ?_, ?_, Taken.nil _⟩, rfl, rfl⟩
  · constructor <;> simp [createLists, lystCreateUsing, lystDeleteSet]
  · constructor <;> simp [createLists, lystCreateUsing, lystDeleteSet]
  · simp [createLists, lystCreateUsing]

theorem Parts.counted (h : Parts base m lists ns xs) (mallocs : Nat) :
    Parts base { m with mallocs := mallocs } lists ns xs :=
  ⟨h.nodes.blocks m.blocks mallocs, h.excluded.blocks m.blocks mallocs, h.apart, h.taken⟩

/-- A new record at the end of the list of excluded nodes. -/
theorem Parts.exclude (h : Parts base m lists ns xs) {a : PsmAddress} (hne : a ≠ 0) (ha : m.blocks a = none)
    (record : Record δ) (mallocs : Nat) :
    Parts base (lystInsertLast { m with blocks := Function.update m.blocks a (some record), mallocs := mallocs }
      lists.excludedNodes a).2 lists ns (xs ++ [⟨m.made, a, record⟩]) := by
  have hx := (h.excluded.blocks (Function.update m.blocks a (some record)) mallocs).insertLast hne record
  have hn := (h.nodes.blocks (Function.update m.blocks a (some record)) mallocs).apart
    (apart_insertLast _ lists.excludedNodes a) h.apart
  refine ⟨hn, hx, h.apart, ?_⟩
  refine (h.taken.take ha).perm ?_
  rw [blocksOf_append, ← List.append_assoc]
  exact (List.perm_append_singleton _ _).symm

theorem Parts.note (h : Parts base m lists ns xs) {a : PsmAddress} (hne : a ≠ 0) (ha : m.blocks a = none)
    (record : Record δ) (mallocs : Nat) :
    Parts base (lystInsertLast { m with blocks := Function.update m.blocks a (some record), mallocs := mallocs }
      lists.proximateNodes a).2 lists (ns ++ [⟨m.made, a, record⟩]) xs := by
  have hn := (h.nodes.blocks (Function.update m.blocks a (some record)) mallocs).insertLast hne record
  have hx := (h.excluded.blocks (Function.update m.blocks a (some record)) mallocs).apart
    (apart_insertLast _ lists.proximateNodes a) h.apart.symm
  refine ⟨hn, hx, h.apart, ?_⟩
  refine (h.taken.take ha).perm ?_
  rw [blocksOf_append, List.append_assoc]
  exact List.perm_middle.symm

theorem excludeNode_yields (h : Holds base m lists nodes excluded) (nodeNbr : Nat) :
    Yields malloc base lists nodes (excluded ++ [nodeNbr]) (excludeNode malloc m lists.excludedNodes nodeNbr) := by
  obtain ⟨ns, xs, hparts, hns, hxs⟩ := h
  unfold excludeNode
  obtain ⟨hzero, htake⟩ | ⟨a, hne, ha, htake⟩ := mtake_cases malloc m
  · refine ⟨-1, _, by rw [htake]; rfl, Or.inr ⟨rfl, ⟨m, hzero⟩, nodes, excluded, ns, xs, hparts.counted _, hns, hxs⟩⟩
  · refine ⟨0, _, ?_, Or.inl ⟨rfl, ns, _, hparts.exclude hne ha (.nodeId nodeNbr) (m.mallocs + 1), hns, ?_⟩⟩
    · rw [htake]
      simp [hne, assign, deref, bind, Except.bind, pure, Except.pure]
    · simp [hxs]

theorem excludeEmbargoes_yields (embargoes : List Embargo) (h : Holds base m lists nodes excluded) :
    Yields malloc base lists nodes
      (excluded ++ (embargoes.filter (fun embargo => !embargo.probeIsDue)).map (fun embargo => embargo.nodeNbr))
      (excludeEmbargoes malloc lists.excludedNodes embargoes m) := by
  induction embargoes generalizing m excluded with
  | nil => exact ⟨0, m, rfl, Or.inl ⟨rfl, by simpa using h⟩⟩
  | cons embargo rest ih =>
    rw [excludeEmbargoes]
    cases hdue : embargo.probeIsDue with
    | true => simpa [hdue] using ih h
    | false =>
      obtain ⟨result, m₁, hstep, ⟨rfl, h₁⟩ | ⟨rfl, h₁⟩⟩ :=
        excludeNode_yields malloc h embargo.nodeNbr
      · simp only [hstep, bind, Except.bind]
        simpa [hdue] using ih h₁
      · exact ⟨-1, m₁, by simp [hstep, bind, Except.bind, pure, Except.pure], Or.inr ⟨rfl, h₁⟩⟩

theorem excludeNodes_yields (bundle : Bundle) (terminusNode : IonNode) (h : Holds base m lists nodes []) :
    Yields malloc base lists nodes (Forward.excludedNodes bundle terminusNode)
      (excludeNodes malloc m lists.excludedNodes bundle terminusNode) := by
  rw [excludeNodes, Forward.excludedNodes]
  cases hreturn : bundle.returnToSender with
  | true => simpa using excludeEmbargoes_yields malloc terminusNode.embargoes h
  | false =>
    obtain ⟨result, m₁, hstep, ⟨rfl, h₁⟩ | ⟨rfl, h₁⟩⟩ := excludeNode_yields malloc h bundle.senderNodeNbr
    · simp only [hstep, bind, Except.bind]
      simpa using excludeEmbargoes_yields malloc terminusNode.embargoes h₁
    · exact ⟨-1, m₁, by simp [hstep, bind, Except.bind, pure, Except.pure], Or.inr ⟨rfl, h₁⟩⟩

theorem Parts.nodeBlocks (h : Parts base m lists ns xs) : ∀ e ∈ ns, m.blocks e.address = some e.block := by
  intro e he
  exact h.taken.kept (e.address, e.block) (List.mem_append_left _ (List.mem_map.mpr ⟨e, he, rfl⟩))

theorem Parts.excludedBlocks (h : Parts base m lists ns xs) : ∀ e ∈ xs, m.blocks e.address = some e.block := by
  intro e he
  exact h.taken.kept (e.address, e.block) (List.mem_append_right _ (List.mem_map.mpr ⟨e, he, rfl⟩))

@[simp] theorem passes_isNode (nodeNbr nbr : Nat) :
    passes (isNode nodeNbr) (.nodeId nbr : Record δ) = decide (nbr = nodeNbr) := rfl

@[simp] theorem passes_isNeighbor (nodeNbr : Nat) (node : ProximateNode δ) :
    passes (isNeighbor nodeNbr) (.proximateNode node) = decide (node.neighborNodeNbr = nodeNbr) := rfl

theorem isNode_tests (hxs : xs.map Entry.block = excluded.map Record.nodeId) (nodeNbr : Nat) :
    ∀ e ∈ xs, ∃ b, isNode nodeNbr e.block = .ok b := by
  intro e he
  have hrecord : e.block ∈ excluded.map Record.nodeId := hxs ▸ List.mem_map_of_mem he
  obtain ⟨nbr, -, hnbr⟩ := List.mem_map.mp hrecord
  exact ⟨_, by rw [← hnbr]; rfl⟩

theorem isNeighbor_tests (hns : ns.map Entry.block = nodes.map Record.proximateNode) (nodeNbr : Nat) :
    ∀ e ∈ ns, ∃ b, isNeighbor nodeNbr e.block = .ok b := by
  intro e he
  have hrecord : e.block ∈ nodes.map Record.proximateNode := hns ▸ List.mem_map_of_mem he
  obtain ⟨node, -, hnode⟩ := List.mem_map.mp hrecord
  exact ⟨_, by rw [← hnode]; rfl⟩

theorem isExcluded_eq (h : Holds base m lists nodes excluded) (nodeNbr : Nat) :
    isExcluded m nodeNbr lists.excludedNodes = .ok (decide (nodeNbr ∈ excluded)) := by
  obtain ⟨ns, xs, hparts, -, hxs⟩ := h
  have hfound : (xs.find? (fun e => passes (isNode nodeNbr) e.block)).isSome = decide (nodeNbr ∈ excluded) := by
    have hmap := List.find?_map (f := Entry.block) (p := passes (isNode nodeNbr)) (l := xs)
    rw [hxs, List.find?_map] at hmap
    have hsome := congrArg Option.isSome hmap
    rw [Option.isSome_map, Option.isSome_map] at hsome
    refine hsome.symm.trans ?_
    rw [Bool.eq_iff_iff, List.find?_isSome, decide_eq_true_eq]
    simp
  simp only [isExcluded, hparts.excluded.findObject hparts.excludedBlocks (isNode_tests hxs nodeNbr), bind, Except.bind, pure, Except.pure,
    Option.isSome_map, hfound]

theorem noteProximateNode_append {directive : δ} {route : CgrRoute} {est : Estimate} {pre post : List (ProximateNode δ)}
    {node : ProximateNode δ} (hpre : ∀ x ∈ pre, x.neighborNodeNbr ≠ route.toNodeNbr)
    (hnode : node.neighborNodeNbr = route.toNodeNbr) :
    Forward.noteProximateNode directive route est (pre ++ node :: post) = pre ++ node.improve route est :: post := by
  induction pre with
  | nil => simp [Forward.noteProximateNode, hnode]
  | cons x pre ih =>
    simp [Forward.noteProximateNode, hpre x List.mem_cons_self, ih (fun y hy => hpre y (List.mem_cons_of_mem _ hy))]

theorem noteProximateNode_new {directive : δ} {route : CgrRoute} {est : Estimate} {nodes : List (ProximateNode δ)}
    (h : ∀ x ∈ nodes, x.neighborNodeNbr ≠ route.toNodeNbr) :
    Forward.noteProximateNode directive route est nodes =
      nodes ++ [⟨route.toNodeNbr, directive, route.toTime, est.arrivalTime, est.overbooked, est.protect,
        route.hops.length⟩] := by
  induction nodes with
  | nil => rfl
  | cons x nodes ih =>
    simp [Forward.noteProximateNode, h x List.mem_cons_self, ih (fun y hy => h y (List.mem_cons_of_mem _ hy))]

theorem addProximateNode_yields (h : Holds base m lists nodes excluded) (node : ProximateNode δ) :
    Yields malloc base lists (nodes ++ [node]) excluded (addProximateNode malloc m lists.proximateNodes node) := by
  obtain ⟨ns, xs, hparts, hns, hxs⟩ := h
  unfold addProximateNode
  obtain ⟨hzero, htake⟩ | ⟨a, hne, ha, htake⟩ := mtake_cases malloc m
  · refine ⟨-1, _, by rw [htake]; rfl, Or.inr ⟨rfl, ⟨m, hzero⟩, nodes, excluded, ns, xs, hparts.counted _, hns, hxs⟩⟩
  · refine ⟨0, _, ?_, Or.inl ⟨rfl, _, xs, hparts.note hne ha (.proximateNode node) (m.mallocs + 1), ?_, hxs⟩⟩
    · rw [htake]
      simp [hne, assign, deref, lystInsertLast, setList, bind, Except.bind, pure, Except.pure]
    · simp [hns]

theorem Parts.overwrite {pre post : List (Entry (Record δ))} {e : Entry (Record δ)}
    (h : Parts base m lists (pre ++ e :: post) xs) (record : Record δ) :
    Parts base { m with blocks := Function.update m.blocks e.address (some record) } lists
      (pre ++ { e with block := record } :: post) xs := by
  refine ⟨(h.nodes.overwrite record).blocks _ m.mallocs, h.excluded.blocks _ m.mallocs, h.apart, ?_⟩
  have hfront : ∀ block, (blocksOf (pre ++ { e with block := block } :: post) ++ blocksOf xs).Perm
      ((e.address, block) :: (blocksOf pre ++ blocksOf post ++ blocksOf xs)) := by
    intro block
    rw [blocksOf_append, blocksOf_cons]
    exact List.perm_middle.append_right (blocksOf xs)
  exact (h.taken.perm (hfront e.block)).put.perm (hfront record).symm

/-- The search and the update, or the new record, are those of the list of neighbors. -/
theorem noteProximateNode_yields (h : Holds base m lists nodes excluded) (directive : δ) (route : CgrRoute)
    (est : Estimate) :
    Yields malloc base lists (Forward.noteProximateNode directive route est nodes) excluded
      (noteProximateNode malloc m lists.proximateNodes directive route est) := by
  have hlists := h
  obtain ⟨ns, xs, hparts, hns, hxs⟩ := h
  unfold noteProximateNode
  rw [hparts.nodes.findObject hparts.nodeBlocks (isNeighbor_tests hns route.toNodeNbr)]
  cases hfind : ns.find? (fun e => passes (isNeighbor route.toNodeNbr) e.block) with
  | none =>
    have hnone : ∀ node ∈ nodes, node.neighborNodeNbr ≠ route.toNodeNbr := by
      intro node hnode
      have hmem : Record.proximateNode node ∈ ns.map Entry.block := hns ▸ List.mem_map_of_mem hnode
      obtain ⟨e, he, hblock⟩ := List.mem_map.mp hmem
      simpa [hblock] using List.find?_eq_none.mp hfind e he
    rw [noteProximateNode_new hnone]
    exact addProximateNode_yields malloc hlists _
  | some e =>
    obtain ⟨hpass, pre, post, rfl, hpre⟩ := List.find?_eq_some_iff_append.mp hfind
    obtain ⟨before, rest, rfl, hbefore, hrest⟩ := List.map_eq_append_iff.mp (hns.symm.trans List.map_append)
    obtain ⟨node, after, rfl, hnode, hafter⟩ := List.map_eq_cons_iff.mp hrest
    have hpassed : node.neighborNodeNbr = route.toNodeNbr := by
      simpa [← hnode] using hpass
    have hearlier : ∀ x ∈ before, x.neighborNodeNbr ≠ route.toNodeNbr := by
      intro x hx
      have hmem : Record.proximateNode x ∈ pre.map Entry.block := hbefore ▸ List.mem_map_of_mem hx
      obtain ⟨e', he', hblock⟩ := List.mem_map.mp hmem
      simpa [hblock] using hpre e' he'
    have hnonnull := hparts.nodes.nonnull e (by simp)
    have hblock := hparts.nodeBlocks e (by simp)
    have hread := deref_eq hnonnull hblock
    rw [noteProximateNode_append hearlier hpassed]
    refine ⟨0, _, ?_, Or.inl ⟨rfl, _, xs, hparts.overwrite (.proximateNode (node.improve route est)), ?_, hxs⟩⟩
    · simp only [Option.map_some, readProximateNode, bind, Except.bind, hread, ← hnode, pure, Except.pure]
      simp [assign_eq hnonnull hblock]
    · simp [hbefore, hafter]

/-- A position in the walk and one in the walk over the list of neighbors. -/
structure Follows (base : PsmAddress → Option (Record δ)) (lists : CallLists) (excluded : List Nat)
    (walk : Walking δ σ) (walk' : Walk δ σ) : Prop where
  passed : walk.passed = walk'.passed
  rest : walk.rest = walk'.rest
  env : walk.env = walk'.env
  holds : Holds base walk.memory lists walk'.proximateNodes excluded

/-- The result of the walk, or of loading the list. -/
structure Agrees (base : PsmAddress → Option (Record δ)) (lists : CallLists) (excluded : List Nat)
    (found : Found δ σ) (identified : Identified δ σ) : Prop where
  result : found.result = if identified.failed then -1 else 0
  routes : found.routes = identified.walked.routes
  loaded : found.loaded = identified.loaded
  env : found.env = identified.walked.env
  holds : Holds base found.memory lists identified.walked.proximateNodes excluded

variable (s : IonState) (lookup : CgrLookup δ σ) (bundle : Bundle) (terminusNodeNbr : Nat) (now : Int)
  {walk : Walking δ σ} {walk' : Walk δ σ}

theorem Follows.tryRoute (h : Follows base lists excluded walk walk') (route : CgrRoute) :
    ∃ result walk₁, tryRoute malloc s lookup bundle lists now route walk = .ok (result, walk₁) ∧
      (result = 0 ∧ Follows base lists excluded walk₁ (Forward.tryRoute s lookup bundle now route walk') ∨
        result = -1 ∧ Exhausted malloc base lists walk₁.memory) := by
  obtain ⟨hpassed, hrest, henv, hholds⟩ := h
  rw [NeighborLists.tryRoute, Forward.tryRoute, henv]
  cases hdirective : lookup.getDirective route.toNodeNbr bundle walk'.env with
  | mk found env =>
    cases found with
    | none => exact ⟨0, _, rfl, Or.inl ⟨rfl, hpassed, hrest, rfl, hholds⟩⟩
    | some directive =>
      dsimp only
      cases hverdict : assessRoute s route bundle now (lookup.readOutduct env directive) with
      | accepted est =>
        dsimp only
        obtain ⟨result, m₁, hnote, ⟨rfl, h₁⟩ | ⟨rfl, h₁⟩⟩ :=
          noteProximateNode_yields malloc hholds directive route est
        · exact ⟨0, ⟨walk.passed, walk.rest, m₁, env⟩, by rw [hnote]; rfl, Or.inl ⟨rfl, hpassed, hrest, rfl, h₁⟩⟩
        · exact ⟨-1, ⟨walk.passed, walk.rest, m₁, env⟩, by rw [hnote]; rfl, Or.inr ⟨rfl, h₁⟩⟩
      | _ => exact ⟨0, _, rfl, Or.inl ⟨rfl, hpassed, hrest, rfl, hholds⟩⟩

theorem Follows.considerRoute (h : Follows base lists excluded walk walk') (route : CgrRoute) :
    ∃ result walk₁, considerRoute malloc s lookup bundle lists now route walk = .ok (result, walk₁) ∧
      (result = 0 ∧ Follows base lists excluded walk₁ (Forward.considerRoute s lookup bundle excluded now route walk') ∨
        result = -1 ∧ Exhausted malloc base lists walk₁.memory) := by
  rw [NeighborLists.considerRoute, Forward.considerRoute, isExcluded_eq h.holds]
  split
  · exact ⟨0, walk, rfl, Or.inl ⟨rfl, h⟩⟩
  split
  · exact ⟨0, walk, rfl, Or.inl ⟨rfl, h⟩⟩
  by_cases hexcluded : route.toNodeNbr ∈ excluded
  · exact ⟨0, walk, by simp [hexcluded, bind, Except.bind, pure, Except.pure], Or.inl ⟨rfl, by rwa [if_pos hexcluded]⟩⟩
  · simp only [hexcluded, bind, Except.bind, decide_false, if_false]
    exact h.tryRoute malloc s lookup bundle now route

theorem Follows.round (h : Follows base lists excluded walk walk') :
    (∃ next next', walkRound malloc s lookup bundle lists terminusNodeNbr now walk = .inl next ∧
        Forward.walkRound s lookup bundle excluded terminusNodeNbr now walk' = .inl next' ∧
        Follows base lists excluded next next') ∨
      (∃ r r', walkRound malloc s lookup bundle lists terminusNodeNbr now walk = .inr r ∧
        Forward.walkRound s lookup bundle excluded terminusNodeNbr now walk' = .inr r' ∧
        (r = none ∧ r' = none ∨ ∃ found walked, r = some (.ok found) ∧ r' = some walked ∧
          Agrees base lists excluded found ⟨walked, false, false⟩)) ∨
      ∃ r, walkRound malloc s lookup bundle lists terminusNodeNbr now walk = .inr r ∧
        ∃ found, r = some (.ok found) ∧ found.result = -1 ∧ Exhausted malloc base lists found.memory := by
  obtain ⟨hpassed, hrest, henv, hholds⟩ := h
  have hfinish : ∀ stoppedAt, Agrees base lists excluded (walk.finish 0) ⟨walk'.finish stoppedAt, false, false⟩ := by
    intro stoppedAt
    exact ⟨rfl, by simp [Walking.finish, Walk.finish, hpassed, hrest], rfl, henv, hholds⟩
  rw [walkRound, Forward.walkRound, hrest, hpassed]
  cases hroutes : walk'.rest with
  | nil => exact Or.inr (Or.inl ⟨_, _, rfl, rfl, Or.inr ⟨_, _, rfl, rfl, hfinish none⟩⟩)
  | cons route rest =>
    dsimp only
    by_cases hexpired : route.toTime < now
    · rw [if_pos hexpired, if_pos hexpired]
      cases recomputeRouteForContact s (walk'.passed ++ rest) route.toNodeNbr route.fromTime
          ⟨now, terminusNodeNbr, route.payloadClass⟩ with
      | none => exact Or.inr (Or.inl ⟨_, _, rfl, rfl, Or.inl ⟨rfl, rfl⟩⟩)
      | some recomputed =>
        cases recomputed with
        | none => exact Or.inl ⟨_, _, rfl, rfl, rfl, rfl, henv, hholds⟩
        | some routes => exact Or.inl ⟨_, _, rfl, rfl, rfl, rfl, henv, hholds⟩
    · rw [if_neg hexpired, if_neg hexpired]
      by_cases hdeadline : deadline bundle < route.arrivalTime
      · rw [if_pos hdeadline, if_pos hdeadline]
        exact Or.inr (Or.inl ⟨_, _, rfl, rfl, Or.inr ⟨_, _, rfl, rfl, hfinish (some route)⟩⟩)
      · rw [if_neg hdeadline, if_neg hdeadline]
        have hstart : Follows base lists excluded { walk with passed := walk'.passed ++ [route], rest := rest }
            { walk' with passed := walk'.passed ++ [route], rest := rest } := ⟨rfl, rfl, henv, hholds⟩
        obtain ⟨result, walk₁, hconsider, ⟨rfl, h₁⟩ | ⟨rfl, h₁⟩⟩ :=
          hstart.considerRoute malloc s lookup bundle now route
        · exact Or.inl ⟨_, _, by rw [hconsider]; rfl, rfl, h₁⟩
        · exact Or.inr (Or.inr ⟨_, by rw [hconsider]; rfl, _, rfl, rfl, h₁⟩)

/-- The routes are walked as over the list of neighbors, unless there is no memory for one of these. -/
def Walked (malloc : Malloc (Record δ)) (base : PsmAddress → Option (Record δ)) (lists : CallLists) (excluded : List Nat)
    (outcome : Option (Except Failure (Found δ σ))) (identified : Option (Identified δ σ)) : Prop :=
  (outcome = none ∧ identified = none) ∨
    (∃ found id, outcome = some (.ok found) ∧ identified = some id ∧ Agrees base lists excluded found id) ∨
    ∃ found, outcome = some (.ok found) ∧ found.result = -1 ∧ Exhausted malloc base lists found.memory

theorem walkRoutes_walked (routes : List CgrRoute) {m : CgrMemory δ} (h : Holds base m lists [] excluded) (env : σ) :
    Walked malloc base lists excluded (walkRoutes malloc s lookup bundle lists terminusNodeNbr now routes m env)
      ((Forward.walkRoutes s lookup bundle excluded terminusNodeNbr now routes env).map
        (fun walked => ⟨walked, false, false⟩)) := by
  have hstart : Follows base lists excluded (⟨[], routes, m, env⟩ : Walking δ σ) ⟨[], routes, [], [], env⟩ :=
    ⟨rfl, rfl, rfl, h⟩
  rw [walkRoutes, Forward.walkRoutes]
  obtain ⟨hc, ha⟩ | ⟨r, r', hc, ha, ⟨rfl, rfl⟩ | ⟨found, walked, rfl, rfl, hagrees⟩⟩ | ⟨r, hc, found, rfl, hresult, hex⟩ :=
    Runs.loop_simulates_or_gives_up _ _ _
      (fun walk walk' (h : Follows base lists excluded walk walk') => h.round malloc s lookup bundle terminusNodeNbr now)
      (walkFuel routes.length) _ _ hstart
  · rw [hc, ha]
    exact Or.inl ⟨rfl, rfl⟩
  · rw [hc, ha]
    exact Or.inl ⟨rfl, rfl⟩
  · rw [hc, ha]
    exact Or.inr (Or.inl ⟨found, _, rfl, rfl, hagrees⟩)
  · rw [hc]
    exact Or.inr (Or.inr ⟨found, rfl, hresult, hex⟩)

theorem identifyProximateNodes_walked (routingObject : Option (List CgrRoute)) {m : CgrMemory δ}
    (h : Holds base m lists [] excluded) (env : σ) :
    Walked malloc base lists excluded
      (identifyProximateNodes malloc s lookup bundle lists terminusNodeNbr now routingObject m env)
      (Forward.identifyProximateNodes s lookup bundle excluded terminusNodeNbr now routingObject env) := by
  cases routingObject with
  | some routes => exact walkRoutes_walked malloc s lookup bundle terminusNodeNbr now routes h env
  | none =>
    rw [identifyProximateNodes, Forward.identifyProximateNodes]
    cases loadRouteList s now terminusNodeNbr with
    | none => exact Or.inl ⟨rfl, rfl⟩
    | some list =>
      simp only [Option.bind_some]
      cases hcomplete : list.complete with
      | false => exact Or.inr (Or.inl ⟨_, _, rfl, rfl, rfl, rfl, rfl, rfl, h⟩)
      | true =>
        obtain ⟨hc, ha⟩ | ⟨found, id, hc, ha, hagrees⟩ | ⟨found, hc, hresult, hex⟩ :=
          walkRoutes_walked malloc s lookup bundle terminusNodeNbr now list.routes h env
        · rw [Option.map_eq_none_iff] at ha
          rw [if_pos rfl, if_pos rfl, hc, ha]
          exact Or.inl ⟨rfl, rfl⟩
        · obtain ⟨walked, hwalked, rfl⟩ := Option.map_eq_some_iff.mp ha
          rw [if_pos rfl, if_pos rfl, hc, hwalked]
          exact Or.inr (Or.inl ⟨_, _, rfl, rfl, hagrees.result, hagrees.routes, rfl, hagrees.env, hagrees.holds⟩)
        · rw [if_pos rfl, hc]
          exact Or.inr (Or.inr ⟨_, rfl, hresult, hex⟩)

/-! What is sent, over the list of the neighbors themselves. -/

/-- With the neighbors whose records are left over. -/
structure Sent (δ σ : Type) where
  result : Int
  env : σ
  lost : List (ProximateNode δ)

variable (sending : Sending δ σ) (preview : Bool)

def enqueued (node : ProximateNode δ) (env : σ) : Int × σ :=
  if preview then (0, env) else sending.enqueueToNeighbor node env

/-- The record of a neighbor is lost if the bundle cannot be enqueued for it. -/
def sendEach : List (ProximateNode δ) → σ → Sent δ σ
  | [], env => ⟨0, env, []⟩
  | node :: rest, env =>
    let (result, env) := enqueued sending preview node env
    if result ≠ 0 then ⟨-1, env, [node]⟩
    else if rest.isEmpty then ⟨0, env, []⟩
    else
      let (result, env) := sending.bpClone env
      if result < 0 then ⟨-1, env, []⟩ else sendEach rest env

def sendOne (node : ProximateNode δ) (env : σ) : Sent δ σ :=
  let (result, env) := enqueued sending preview node env
  if result ≠ 0 then ⟨-1, env, [node]⟩
  else if preview then ⟨0, env, []⟩
  else
    let (result, env) := sending.manageOverbooking node env
    if result ≠ 0 then ⟨-1, env, [node]⟩ else ⟨0, env, []⟩

def sendSelected (selected : List (ProximateNode δ)) (env : σ) : Sent δ σ :=
  if bundle.minimumLatency then sendEach sending preview selected env
  else
    match selected with
    | [] => ⟨0, env, []⟩
    | node :: _ => sendOne sending preview node env

theorem readProximateNode_eq {a : PsmAddress} {node : ProximateNode δ} (hne : a ≠ 0)
    (ha : m.blocks a = some (.proximateNode node)) : readProximateNode m a = .ok node := by
  simp [readProximateNode, deref_eq hne ha, bind, Except.bind, pure, Except.pure]

theorem enqueue_eq {a : PsmAddress} {node : ProximateNode δ} (hne : a ≠ 0)
    (ha : m.blocks a = some (.proximateNode node)) (env : σ) :
    enqueue sending preview m a env = .ok (enqueued sending preview node env) := by
  cases preview with
  | true => rfl
  | false => simp [enqueue, enqueued, readProximateNode_eq hne ha, bind, Except.bind, pure, Except.pure]

/-- One record is left when the lists are gone. -/
theorem leaves_one {list : Nat} {a : PsmAddress} {record : Record δ} (h : Keeps m list ns)
    (ht : Taken base m.blocks ((a, record) :: blocksOf ns)) :
    ∃ m', lystDestroy m list = .ok m' ∧ Leaves base m'.blocks [record] := by
  have hlast : Taken base m.blocks (blocksOf ns ++ [(a, record)]) := ht.perm (List.perm_append_singleton _ _).symm
  obtain ⟨m', hdestroy, -, ht', -⟩ := h.destroy hlast
  exact ⟨m', hdestroy, _, rfl, ht'⟩

theorem leaves_none {list : Nat} (h : Keeps m list ns) (ht : Taken base m.blocks (blocksOf ns)) :
    ∃ m', lystDestroy m list = .ok m' ∧ Leaves base m'.blocks [] := by
  have hlast : Taken base m.blocks (blocksOf ns ++ []) := by simpa using ht
  obtain ⟨m', hdestroy, -, ht', -⟩ := h.destroy hlast
  exact ⟨m', hdestroy, _, rfl, ht'⟩

theorem sendToEach_none (list fuel : Nat) (m : CgrMemory δ) (env : σ) :
    sendToEach sending preview list fuel m env none =
      (lystDestroy m list).map (fun m => ⟨0, m, env⟩) := by
  cases fuel <;> cases hdestroy : lystDestroy m list <;>
    simp [sendToEach, hdestroy, bind, Except.bind, Except.map, pure, Except.pure]

/-- The record of the first neighbor leaves the list, which does not release it. -/
theorem takeNeighbor {list : Nat} {e : Entry (Record δ)} {node : ProximateNode δ} {held : List (PsmAddress × Record δ)}
    (h : Keeps m list (e :: ns)) (ht : Taken base m.blocks (blocksOf (e :: ns) ++ held))
    (hnode : Record.proximateNode node = e.block) :
    (lystDataSet m e.elt 0).1 = e.address ∧ e.address ≠ 0 ∧
      ∃ m', lystDelete (lystDataSet m e.elt 0).2 e.elt = .ok m' ∧ Keeps m' list ns ∧
        Taken base m'.blocks ((e.address, .proximateNode node) :: (blocksOf ns ++ held)) := by
  obtain ⟨haddress, m', hdelete, h', hblocks, -⟩ := h.takeFirst
  refine ⟨haddress, h.nonnull e List.mem_cons_self, m', hdelete, h', ?_⟩
  rw [hblocks, hnode]
  exact ht

/-- The loop takes the records out of the list one by one, and releases each before the next. -/
theorem sendToEach_sends {list fuel : Nat} (h : Keeps m list ns) (ht : Taken base m.blocks (blocksOf ns))
    (hns : ns.map Entry.block = nodes.map Record.proximateNode) (env : σ) (hfuel : ns.length ≤ fuel) :
    ∃ m', sendToEach sending preview list fuel m env (ns.head?.map Entry.elt) =
        .ok ⟨(sendEach sending preview nodes env).result, m', (sendEach sending preview nodes env).env⟩ ∧
      Leaves base m'.blocks ((sendEach sending preview nodes env).lost.map Record.proximateNode) := by
  induction ns generalizing m nodes env fuel with
  | nil =>
    obtain rfl := List.map_eq_nil_iff.mp hns.symm
    obtain ⟨m', hdestroy, hleaves⟩ := leaves_none h ht
    refine ⟨m', ?_, hleaves⟩
    rw [List.head?_nil, Option.map_none, sendToEach_none, hdestroy]
    rfl
  | cons e rest ih =>
    obtain ⟨node, others, rfl, hnode, hothers⟩ := List.map_eq_cons_iff.mp hns.symm
    cases fuel with
    | zero => simp at hfuel
    | succ fuel =>
      have hnext := h.lystNext_first
      have hstart : Taken base m.blocks (blocksOf (e :: rest) ++ []) := by simpa using ht
      obtain ⟨haddress, hnonnull, m₁, hdelete, h₁, ht₁⟩ := takeNeighbor h hstart hnode
      rw [List.append_nil] at ht₁
      have hrecord : m₁.blocks e.address = some (.proximateNode node) := ht₁.kept _ List.mem_cons_self
      have henqueue := enqueue_eq sending preview hnonnull hrecord env
      have hrelease := mrelease_eq hnonnull hrecord
      have h₂ := h₁.blocks (Function.update m₁.blocks e.address none) m₁.mallocs
      simp only [List.head?_cons, Option.map_some, sendToEach, hnext, haddress, hdelete, henqueue, bind, Except.bind]
      rw [sendEach]
      cases henq : enqueued sending preview node env with
      | mk result env₁ =>
        dsimp only
        by_cases hresult : result ≠ 0
        · obtain ⟨m', hdestroy, hleaves⟩ := leaves_one h₁ ht₁
          rw [if_pos hresult, if_pos hresult, hdestroy]
          exact ⟨m', rfl, hleaves⟩
        · rw [if_neg hresult, if_neg hresult, hrelease]
          cases rest with
          | nil =>
            obtain rfl := List.map_eq_nil_iff.mp hothers
            obtain ⟨m', hdestroy, hleaves⟩ := leaves_none h₂ ht₁.release
            refine ⟨m', ?_, hleaves⟩
            simp only [List.head?_nil, Option.map_none, Option.isNone_none, if_true, sendToEach_none]
            rw [hdestroy]
            rfl
          | cons e' rest =>
            obtain ⟨node', others, rfl, hnode', hothers'⟩ := List.map_eq_cons_iff.mp hothers
            simp only [List.head?_cons, Option.map_some, Option.isNone_some, List.isEmpty_cons, Bool.false_eq_true, if_false]
            by_cases hfailed : (sending.bpClone env₁).1 < 0
            · obtain ⟨m', hdestroy, hleaves⟩ := leaves_none h₂ ht₁.release
              rw [if_pos hfailed, if_pos hfailed, hdestroy]
              exact ⟨m', rfl, hleaves⟩
            · rw [if_neg hfailed, if_neg hfailed]
              exact ih h₂ ht₁.release hothers.symm _ (Nat.le_of_succ_le_succ hfuel)

/-- The neighbor selected so far is in a record of its own, if there is one. -/
def SelectedAs (selectedNeighbor : PsmAddress) : Option (ProximateNode δ) → List (PsmAddress × Record δ) → Prop
  | none, held => selectedNeighbor = 0 ∧ held = []
  | some node, held => selectedNeighbor ≠ 0 ∧ held = [(selectedNeighbor, .proximateNode node)]

theorem preferNode_some (best node : ProximateNode δ) :
    preferNode (some best) node = if Prefers node best then some node else some best := by
  by_cases hprefers : Prefers node best
  · rw [if_pos hprefers]
    rcases hprefers with harrival | ⟨harrival, hhops | ⟨hhops, hnbr⟩⟩
    · simp [preferNode, harrival]
    · simp [preferNode, harrival, hhops]
    · simp [preferNode, harrival, hhops, hnbr]
  · rw [if_neg hprefers]
    simp only [Prefers, not_or, not_and] at hprefers
    obtain ⟨harrival, hties⟩ := hprefers
    simp only [preferNode, if_neg harrival]
    by_cases hsame : node.arrivalTime = best.arrivalTime
    · have hrest := hties hsame
      rw [if_pos hsame, if_neg hrest.1, if_neg (fun hboth => hrest.2 hboth.1 hboth.2)]
    · rw [if_neg hsame]

theorem selectNeighbor_none (fuel : Nat) (m : CgrMemory δ) (selectedNeighbor : PsmAddress) :
    selectNeighbor fuel m selectedNeighbor none = .ok (selectedNeighbor, m) := by
  cases fuel <;> simp [selectNeighbor]

/-- Of the records taken out of the list only that of the best neighbor is kept. -/
theorem selectNeighbor_selects {list fuel : Nat} {selectedNeighbor : PsmAddress} {best : Option (ProximateNode δ)}
    {held : List (PsmAddress × Record δ)} (h : Keeps m list ns) (hselected : SelectedAs selectedNeighbor best held)
    (ht : Taken base m.blocks (blocksOf ns ++ held)) (hns : ns.map Entry.block = nodes.map Record.proximateNode)
    (hfuel : ns.length ≤ fuel) :
    ∃ selected m' held', selectNeighbor fuel m selectedNeighbor (ns.head?.map Entry.elt) = .ok (selected, m') ∧
      Keeps m' list ([] : List (Entry (Record δ))) ∧ SelectedAs selected (nodes.foldl preferNode best) held' ∧
      Taken base m'.blocks held' := by
  induction ns generalizing m nodes selectedNeighbor best held fuel with
  | nil =>
    obtain rfl := List.map_eq_nil_iff.mp hns.symm
    exact ⟨selectedNeighbor, m, held, by simp [selectNeighbor_none], h, hselected, by simpa using ht⟩
  | cons e rest ih =>
    obtain ⟨node, others, rfl, hnode, hothers⟩ := List.map_eq_cons_iff.mp hns.symm
    cases fuel with
    | zero => simp at hfuel
    | succ fuel =>
      have hlength := Nat.le_of_succ_le_succ hfuel
      have hnext := h.lystNext_first
      obtain ⟨haddress, hnonnull, m₁, hdelete, h₁, ht₁⟩ := takeNeighbor h ht hnode
      have hrecord : m₁.blocks e.address = some (.proximateNode node) := ht₁.kept _ List.mem_cons_self
      simp only [List.head?_cons, Option.map_some, selectNeighbor, hnext, haddress, hdelete, bind, Except.bind,
        List.foldl_cons]
      cases best with
      | none =>
        obtain ⟨rfl, rfl⟩ := hselected
        rw [if_pos rfl]
        have hheld : SelectedAs e.address (some node) [(e.address, .proximateNode node)] := ⟨hnonnull, rfl⟩
        refine ih h₁ hheld (ht₁.perm ?_) hothers.symm hlength
        rw [List.append_nil]
        exact (List.perm_append_singleton _ _).symm
      | some best =>
        obtain ⟨hne, rfl⟩ := hselected
        have hbest : m₁.blocks selectedNeighbor = some (.proximateNode best) :=
          ht₁.kept (selectedNeighbor, .proximateNode best) (by simp)
        rw [if_neg hne, readProximateNode_eq hnonnull hrecord, readProximateNode_eq hne hbest, preferNode_some]
        dsimp only
        by_cases hprefers : Prefers node best
        · rw [if_pos hprefers, if_pos hprefers, mrelease_eq hne hbest]
          have hfront := ht₁.perm (List.perm_append_singleton (selectedNeighbor, Record.proximateNode best)
            ((e.address, .proximateNode node) :: blocksOf rest))
          refine ih (h₁.blocks _ m₁.mallocs) ⟨hnonnull, rfl⟩ (hfront.release.perm ?_) hothers.symm hlength
          exact (List.perm_append_singleton _ _).symm
        · rw [if_neg hprefers, if_neg hprefers, mrelease_eq hnonnull hrecord]
          exact ih (h₁.blocks _ m₁.mallocs) ⟨hne, rfl⟩ ht₁.release hothers.symm hlength

theorem sendToOne_sends {selectedNeighbor : PsmAddress} {node : ProximateNode δ} (hne : selectedNeighbor ≠ 0)
    (ht : Taken base m.blocks [(selectedNeighbor, .proximateNode node)]) (env : σ) :
    ∃ m', sendToOne sending preview m selectedNeighbor env =
        .ok ⟨(sendOne sending preview node env).result, m', (sendOne sending preview node env).env⟩ ∧
      Leaves base m'.blocks ((sendOne sending preview node env).lost.map Record.proximateNode) := by
  have hrecord : m.blocks selectedNeighbor = some (.proximateNode node) := ht.kept _ List.mem_cons_self
  have hkept : Leaves base m.blocks [Record.proximateNode node] := ⟨_, rfl, ht⟩
  have hgone : Leaves base (Function.update m.blocks selectedNeighbor none) [] := ⟨[], rfl, ht.release⟩
  simp only [sendToOne, sendOne, enqueue_eq sending preview hne hrecord, bind, Except.bind]
  cases enqueued sending preview node env with
  | mk result env₁ =>
    dsimp only
    by_cases hresult : result ≠ 0
    · rw [if_pos hresult, if_pos hresult]
      exact ⟨m, rfl, hkept⟩
    · rw [if_neg hresult, if_neg hresult]
      cases preview with
      | true =>
        refine ⟨{ m with blocks := Function.update m.blocks selectedNeighbor none }, ?_, hgone⟩
        simp [mrelease_eq hne hrecord, pure, Except.pure]
      | false =>
        simp only [Bool.false_eq_true, if_false, readProximateNode_eq hne hrecord, mrelease_eq hne hrecord]
        by_cases hfailed : (sending.manageOverbooking node env₁).1 ≠ 0
        · rw [if_pos hfailed, if_pos hfailed]
          exact ⟨m, rfl, hkept⟩
        · rw [if_neg hfailed, if_neg hfailed]
          exact ⟨_, rfl, hgone⟩

theorem sendToBest_sends {list : Nat} (h : Keeps m list ns) (ht : Taken base m.blocks (blocksOf ns))
    (hns : ns.map Entry.block = nodes.map Record.proximateNode) (hordinary : bundle.minimumLatency = false) (env : σ) :
    ∃ m', sendToBest sending preview m list env =
        .ok ⟨(sendSelected bundle sending preview (selectProximateNodes bundle nodes) env).result, m',
          (sendSelected bundle sending preview (selectProximateNodes bundle nodes) env).env⟩ ∧
      Leaves base m'.blocks ((sendSelected bundle sending preview (selectProximateNodes bundle nodes) env).lost.map
        Record.proximateNode) := by
  have hlength : (m.lysts list).list.length = ns.length := by rw [h.contents, List.length_map]
  have hstart : Taken base m.blocks (blocksOf ns ++ []) := by simpa using ht
  obtain ⟨selected, m₁, held, hloop, h₁, hselected, ht₁⟩ :=
    selectNeighbor_selects h (show SelectedAs 0 none [] from ⟨rfl, rfl⟩) hstart hns le_rfl
  obtain ⟨m₂, hdestroy, -, ht₂, -⟩ := h₁.destroy (show Taken base m₁.blocks (blocksOf [] ++ held) from ht₁)
  rw [sendToBest, hlength, h.lystFirst, hloop]
  simp only [bind, Except.bind, hdestroy, sendSelected, selectProximateNodes, hordinary, Bool.false_eq_true, if_false]
  cases hbest : nodes.foldl preferNode none with
  | none =>
    rw [hbest] at hselected
    obtain ⟨rfl, rfl⟩ := hselected
    exact ⟨m₂, rfl, [], rfl, ht₂⟩
  | some node =>
    rw [hbest] at hselected
    obtain ⟨hne, rfl⟩ := hselected
    rw [if_neg hne]
    exact sendToOne_sends sending preview hne ht₂ env

theorem Parts.destroyExcluded (h : Parts base m lists ns xs) :
    ∃ m', lystDestroy m lists.excludedNodes = .ok m' ∧ Keeps m' lists.proximateNodes ns ∧
      Taken base m'.blocks (blocksOf ns) := by
  obtain ⟨m', hdestroy, -, ht, ha⟩ := h.excluded.destroy (h.taken.perm List.perm_append_comm)
  exact ⟨m', hdestroy, h.nodes.apart ha h.apart, ht⟩

theorem destroyLists_leaves (h : Holds base m lists nodes excluded) :
    ∃ m', destroyLists m lists = .ok m' ∧ Leaves base m'.blocks [] := by
  obtain ⟨ns, xs, hparts, -, -⟩ := h
  obtain ⟨m₁, hexcluded, h₁, ht₁⟩ := hparts.destroyExcluded
  obtain ⟨m₂, hnodes, hleaves⟩ := leaves_none h₁ ht₁
  exact ⟨m₂, by simp [destroyLists, hexcluded, hnodes, bind, Except.bind], hleaves⟩

/-- What is sent when the neighbors are known, or have not been found out. -/
def forwarded (forwarding : Forwarding δ σ) : Sent δ σ :=
  if forwarding.result < 0 then ⟨-1, forwarding.env, []⟩
  else sendSelected bundle sending preview forwarding.selected forwarding.env

/-- A call that returns what is sent, with only the lost records left of all it has allocated. -/
structure Returns (base : PsmAddress → Option (Record δ)) (sent : Sent δ σ) (returned : Returned δ σ) : Prop where
  result : returned.result = sent.result
  env : returned.env = sent.env
  leaves : Leaves base returned.memory.blocks (sent.lost.map Record.proximateNode)

theorem send_returns {found : Found δ σ} {identified : Identified δ σ} (h : Agrees base lists excluded found identified) :
    ∃ returned, send sending preview bundle lists found = .ok returned ∧
      Returns base (forwarded bundle sending preview (Forwarding.of bundle identified)) returned := by
  have hholds := h.holds
  rw [send, h.result, forwarded, Forwarding.of]
  cases hfailed : identified.failed with
  | true =>
    obtain ⟨m', hdestroy, hleaves⟩ := destroyLists_leaves h.holds
    refine ⟨⟨-1, m', found.env⟩, ?_, ?_⟩
    · simp [hdestroy, bind, Except.bind, pure, Except.pure]
    · simpa using Returns.mk rfl h.env hleaves
  | false =>
    obtain ⟨ns, xs, hparts, hns, -⟩ := hholds
    obtain ⟨m₁, hexcluded, h₁, ht₁⟩ := hparts.destroyExcluded
    have hlength : (m₁.lysts lists.proximateNodes).list.length = ns.length := by rw [h₁.contents, List.length_map]
    simp only [Bool.false_eq_true, if_false, lt_irrefl, hexcluded, bind, Except.bind, h.env]
    cases hcritical : bundle.minimumLatency with
    | true =>
      obtain ⟨m', hsend, hleaves⟩ :=
        sendToEach_sends sending preview h₁ ht₁ hns identified.walked.env hlength.ge
      refine ⟨_, by rw [if_pos rfl, h₁.lystFirst]; exact hsend, ?_⟩
      simpa [sendSelected, selectProximateNodes, hcritical] using Returns.mk rfl rfl hleaves
    | false =>
      obtain ⟨m', hsend, hleaves⟩ :=
        sendToBest_sends bundle sending preview h₁ ht₁ hns hcritical identified.walked.env
      exact ⟨_, by rw [if_neg (by decide)]; exact hsend, rfl, rfl, hleaves⟩

/-- A call with its lists against the call over the plain list of neighbors. -/
def Refines (base : PsmAddress → Option (Record δ)) (outcome : Option (Except Failure (IonProcess × Returned δ σ)))
    (reference : Option (IonProcess × Forwarding δ σ)) : Prop :=
  (outcome = none ∧ reference = none) ∨
    ∃ p returned, outcome = some (.ok (p, returned)) ∧
      ((∃ m, malloc.pointer m = 0) ∧ returned.result = -1 ∧ returned.memory.blocks = base ∨
        ∃ forwarding, reference = some (p, forwarding) ∧
          Returns base (forwarded bundle sending preview forwarding) returned)

theorem refines_early (p : IonProcess) (m : CgrMemory δ) (env : σ) {result : Int} (hresult : result = 0 ∨ result = -1) :
    Refines malloc bundle sending preview m.blocks (some (.ok (p, ⟨result, m, env⟩)))
      (some (p, Forwarding.without result env)) := by
  refine Or.inr ⟨p, _, rfl, Or.inr ⟨_, rfl, ?_⟩⟩
  have hsent : forwarded bundle sending preview (Forwarding.without result env) = ⟨result, env, []⟩ := by
    cases hresult with
    | inl hzero =>
      subst hzero
      cases hcritical : bundle.minimumLatency <;> simp [forwarded, Forwarding.without, sendSelected, sendEach, hcritical]
    | inr hfailed =>
      subst hfailed
      simp [forwarded, Forwarding.without]
  rw [hsent]
  exact ⟨rfl, rfl, leaves_nil.mpr rfl⟩

theorem send_exhausted {found : Found δ σ} (hresult : found.result = -1) (hex : Exhausted malloc base lists found.memory) :
    ∃ returned, send sending preview bundle lists found = .ok returned ∧ returned.result = -1 ∧
      returned.memory.blocks = base := by
  obtain ⟨-, nodes, excluded, hholds⟩ := hex
  obtain ⟨m', hdestroy, hleaves⟩ := destroyLists_leaves hholds
  exact ⟨⟨-1, m', found.env⟩, by simp [send, hresult, hdestroy, bind, Except.bind, pure, Except.pure], rfl,
    leaves_nil.mp hleaves⟩

theorem keepRoutes_agrees (p : IonProcess) (nodeNbr : Nat) (part : Partition) {found : Found δ σ}
    {identified : Identified δ σ} (h : Agrees base lists excluded found identified) :
    keepRoutes p nodeNbr terminusNodeNbr part found.identified = keepRoutes p nodeNbr terminusNodeNbr part identified := by
  simp [keepRoutes, Found.identified, h.routes, h.loaded]

theorem routeBundle_refines (p : IonProcess) (nodeNbr : Nat) (m : CgrMemory δ) (env : σ) :
    Refines malloc bundle sending preview m.blocks
      (routeBundle sending preview malloc p nodeNbr lookup bundle terminusNodeNbr now m env)
      (Process.routeBundle p nodeNbr lookup bundle terminusNodeNbr now env) := by
  rw [routeBundle, Process.routeBundle]
  cases p.partitions nodeNbr with
  | none => exact Or.inl ⟨rfl, rfl⟩
  | some part =>
    simp only [Option.bind_some]
    cases findNode part.ion.nodes terminusNodeNbr with
    | none => exact refines_early malloc bundle sending preview p m env (Or.inl rfl)
    | some terminusNode =>
      have hcreated := holds_create m
      cases hcreate : createLists m with
      | mk lists m₁ =>
        rw [hcreate] at hcreated
        dsimp only at hcreated ⊢
        obtain ⟨result, m₂, hexclude, ⟨rfl, h₂⟩ | ⟨rfl, hwant, nodes, excluded, h₂⟩⟩ :=
          excludeNodes_yields malloc bundle terminusNode hcreated
        · rw [hexclude]
          obtain ⟨hc, ha⟩ | ⟨found, id, hc, ha, hagrees⟩ | ⟨found, hc, hresult, hex⟩ :=
            identifyProximateNodes_walked malloc part.ion lookup bundle terminusNodeNbr now
              (part.routingObject terminusNodeNbr) h₂ env
          · simp only [ne_eq, not_true_eq_false, if_false, hc, ha]
            exact Or.inl ⟨rfl, rfl⟩
          · obtain ⟨returned, hsend, hreturns⟩ := send_returns bundle sending preview hagrees
            simp only [ne_eq, not_true_eq_false, if_false, hc, ha, Option.map_some, bind, Except.bind, hsend,
              keepRoutes_agrees terminusNodeNbr p nodeNbr part hagrees]
            exact Or.inr ⟨_, returned, rfl, Or.inr ⟨_, rfl, hreturns⟩⟩
          · obtain ⟨returned, hsend, hfailed, hblocks⟩ :=
              send_exhausted malloc bundle sending preview hresult hex
            simp only [ne_eq, not_true_eq_false, if_false, hc, Option.map_some, bind, Except.bind, hsend]
            exact Or.inr ⟨_, returned, rfl, Or.inl ⟨hex.1, hfailed, hblocks⟩⟩
        · rw [hexclude]
          obtain ⟨m', hdestroy, hleaves⟩ := destroyLists_leaves h₂
          refine Or.inr ⟨p, ⟨-1, m', env⟩, ?_, Or.inl ⟨hwant, rfl, leaves_nil.mp hleaves⟩⟩
          simp [hdestroy, Except.map]

/-- With its lists and their records a call does what it does over the plain list of neighbors, or gives
up for want of memory. No record is read or released that is not allocated, and of all those of the call
only that of a neighbor is left for which the bundle cannot be enqueued. -/
theorem cgrForward_returns (p : IonProcess) (nodeNbr : Nat) (m : CgrMemory δ) (env : σ) :
    Refines malloc bundle sending preview m.blocks
      (cgrForward sending preview malloc p nodeNbr lookup bundle terminusNodeNbr now m env)
      (Process.cgrForward p nodeNbr lookup bundle terminusNodeNbr now env) := by
  rw [cgrForward, Process.cgrForward]
  cases p.partitions nodeNbr with
  | none => exact Or.inl ⟨rfl, rfl⟩
  | some part =>
    cases p.cgrvdb with
    | none => exact Or.inl ⟨rfl, rfl⟩
    | some vdb =>
      dsimp only
      split
      · exact refines_early malloc bundle sending preview p m env (Or.inr rfl)
      · exact routeBundle_refines malloc lookup bundle terminusNodeNbr now sending preview _ nodeNbr m env

/-! Runs of calls, each with lists of its own. -/

/-- With the results of the routing calls so far. -/
structure World (δ : Type) where
  process : IonProcess
  memory : CgrMemory δ
  results : List Int

/-- A call, with whether a routing call is a preview. -/
def step (w : World δ) (a : Addressed σ × Bool) : Option (World δ) :=
  match a.1.call with
  | .cgrForward bundle terminusNodeNbr env =>
    match cgrForward sending a.2 malloc w.process a.1.nodeNbr lookup bundle terminusNodeNbr a.1.time w.memory env with
    | some (.ok (p, returned)) => some ⟨p, returned.memory, w.results ++ [returned.result]⟩
    | _ => none
  | _ => (Process.step lookup w.process a.1).map (fun p => { w with process := p })

theorem sendEach_lost (nodes : List (ProximateNode δ)) (env : σ) :
    (sendEach sending preview nodes env).lost.length ≤ [(sendEach sending preview nodes env).result].count (-1) := by
  induction nodes generalizing env with
  | nil => simp [sendEach]
  | cons node rest ih =>
    rw [sendEach]
    cases enqueued sending preview node env with
    | mk result env₁ =>
      dsimp only
      split
      · simp
      split
      · simp
      split
      · simp
      · exact ih _

theorem sendOne_lost (node : ProximateNode δ) (env : σ) :
    (sendOne sending preview node env).lost.length ≤ [(sendOne sending preview node env).result].count (-1) := by
  rw [sendOne]
  cases enqueued sending preview node env with
  | mk result env₁ =>
    dsimp only
    split
    · simp
    split
    · simp
    split
    · simp
    · simp

/-- At most one record is lost, and then the result is an error. -/
theorem forwarded_lost (forwarding : Forwarding δ σ) :
    (forwarded bundle sending preview forwarding).lost.length ≤
      [(forwarded bundle sending preview forwarding).result].count (-1) := by
  rw [forwarded]
  split
  · simp
  unfold sendSelected
  split
  · exact sendEach_lost sending preview _ _
  · cases forwarding.selected with
    | nil => simp
    | cons node rest => exact sendOne_lost sending preview node _

/-- What is left over is accounted for by the calls that have failed. -/
def Accounted (base : PsmAddress → Option (Record δ)) (w : World δ) : Prop :=
  ∃ lost : List (ProximateNode δ), Leaves base w.memory.blocks (lost.map Record.proximateNode) ∧
    lost.length ≤ w.results.count (-1)

theorem Accounted.step {w w' : World δ} {a : Addressed σ × Bool} (h : Accounted base w)
    (hstep : step malloc lookup sending w a = some w') : Accounted base w' := by
  obtain ⟨lost, hleaves, hlength⟩ := h
  rw [NeighborLists.step] at hstep
  cases hcall : a.1.call with
  | cgrForward bundle terminusNodeNbr env =>
    rw [hcall] at hstep
    dsimp only at hstep
    obtain ⟨hnone, -⟩ | ⟨p, returned, hsome, hreturned⟩ :=
      cgrForward_returns malloc lookup bundle terminusNodeNbr a.1.time sending a.2 w.process a.1.nodeNbr w.memory env
    · rw [hnone] at hstep
      cases hstep
    · rw [hsome] at hstep
      obtain rfl := Option.some.inj hstep
      obtain ⟨-, hfailed, hblocks⟩ | ⟨forwarding, -, hreturns⟩ := hreturned
      · exact ⟨lost, by rw [hblocks]; exact hleaves, by rw [List.count_append]; omega⟩
      · refine ⟨lost ++ (forwarded bundle sending a.2 forwarding).lost, ?_, ?_⟩
        · rw [List.map_append]
          exact hleaves.trans hreturns.leaves
        · have hcall := forwarded_lost bundle sending a.2 forwarding
          rw [List.length_append, List.count_append, hreturns.result]
          omega
  | _ =>
    rw [hcall] at hstep
    obtain ⟨p, -, rfl⟩ := Option.map_eq_some_iff.mp hstep
    exact ⟨lost, hleaves, hlength⟩

/-- However many calls there have been, no more records are left over than calls that have failed, and the
next call does what it does over the plain list of neighbors, or gives up for want of memory. -/
theorem memory_accounted (p : IonProcess) (m : CgrMemory δ) (calls : List (Addressed σ × Bool)) (w : World δ)
    (h : Runs.run (step malloc lookup sending) ⟨p, m, []⟩ calls = some w) :
    Accounted m.blocks w ∧ ∀ nodeNbr bundle terminusNodeNbr now preview env,
      Refines malloc bundle sending preview w.memory.blocks
        (cgrForward sending preview malloc w.process nodeNbr lookup bundle terminusNodeNbr now w.memory env)
        (Process.cgrForward w.process nodeNbr lookup bundle terminusNodeNbr now env) := by
  constructor
  · exact Runs.run_invariant (fun _ _ _ hI hstep => hI.step malloc lookup sending hstep) calls _ w
      ⟨[], leaves_nil.mpr rfl, by simp⟩ h
  · intro nodeNbr bundle terminusNodeNbr now preview env
    exact cgrForward_returns malloc lookup bundle terminusNodeNbr now sending preview w.process nodeNbr w.memory env

/-- An allocator that gives out one address after the other, each if it is free. -/
def firstFit : Malloc (Record Unit) where
  pointer m := if (m.blocks (m.mallocs + 1)).isNone then m.mallocs + 1 else 0
  contents _ := .nodeId 0
  fresh := by
    intro m hne
    split at hne
    · rename_i hfree
      rw [if_pos hfree]
      exact Option.isNone_iff_eq_none.mp hfree
    · exact absurd rfl hne

/-- Nothing can be enqueued. -/
def refusing : Sending Unit Unit := ⟨fun _ env => (-1, env), fun env => (0, env), fun _ env => (0, env)⟩

def emptyMemory : CgrMemory Unit := ⟨fun _ => none, 0, fun _ => ⟨[], none⟩, fun _ => ⟨0, 0⟩, 0⟩

/-- A bundle that cannot be enqueued for its neighbor, and the preview of another one. -/
def refusedAndPreviewed : List (Addressed Unit × Bool) :=
  [(⟨1, 0, .initializeNode⟩, false), (⟨1, 0, .edit (.insertContact 10 100 1 2 1000 1)⟩, false),
    (⟨1, 0, .edit (.insertRange 10 100 1 2 1)⟩, false), (⟨1, 15, .cgrForward (bundleTo 2) 2 ()⟩, false),
    (⟨1, 15, .cgrForward (bundleTo 2) 2 ()⟩, true)]

theorem memory_accounted_refusedAndPreviewed :
    ∃ w, Runs.run (step firstFit openDucts refusing) ⟨IonProcess.start, emptyMemory, []⟩ refusedAndPreviewed = some w ∧
      w.results = [-1, 0] ∧ (w.memory.blocks 1).isSome = true ∧ (w.memory.blocks 2).isSome = false ∧
      Accounted emptyMemory.blocks w := by
  have hsome : (Runs.run (step firstFit openDucts refusing) ⟨IonProcess.start, emptyMemory, []⟩ refusedAndPreviewed).any
      (fun w => decide (w.results = [-1, 0] ∧ (w.memory.blocks 1).isSome = true ∧
        (w.memory.blocks 2).isSome = false)) = true := by
    decide +kernel
  obtain ⟨w, hrun, hsome⟩ := (Option.any_eq_true _ _).mp hsome
  obtain ⟨hresults, hlost, hreleased⟩ := of_decide_eq_true hsome
  exact ⟨w, hrun, hresults, hlost, hreleased,
    (memory_accounted firstFit openDucts refusing IonProcess.start emptyMemory refusedAndPreviewed w hrun).1⟩

end NeighborLists
