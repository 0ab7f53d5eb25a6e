import CgrJni.RouteLists
import CgrJni.Scalar

/-!
Forwarding of a bundle: the walk along the route list of the terminus node, the
projection of each route for the bundle, and the choice among the neighbors.
-/

namespace Forward

open IonDb Libcgr Dijkstra RouteLists Scalar

structure Bundle where
  senderNodeNbr : Nat
  returnToSender : Bool
  destination : Nat
  cbhe : Bool
  expirationTime : Nat
  payloadLength : Nat
  doesNotFragment : Bool
  minimumLatency : Bool
  dictionaryLength : Nat
  prePayloadLength : Int
  postPayloadLength : Int

structure Outduct where
  name : String
  blocked : Bool
  maxPayloadLen : Nat
  stdBacklog : Scalar
  deriving DecidableEq

/-- The callback that finds the directive for a node, and what a directive says. It
may keep records of its own from one call to the next. -/
structure CgrLookup (δ σ : Type) where
  getDirective : Nat → Bundle → σ → Option δ × σ
  readOutduct : σ → δ → Outduct

def epoch2000Sec : Nat := 946684800

/-- `expirationTime + EPOCH_2000_SEC`, both unsigned 32-bit. -/
def deadline (bundle : Bundle) : Int := ((bundle.expirationTime + epoch2000Sec) % 2 ^ 32 : Nat)

def nominalPrimaryBlksize : Int := 29

def guessBundleSize (bundle : Bundle) : Int :=
  toInt32 (nominalPrimaryBlksize + bundle.dictionaryLength + bundle.prePayloadLength +
    bundle.payloadLength + bundle.postPayloadLength)

def computeECCC (bundleSize : Int) : Int := bundleSize

/-- What is computed for a route and a bundle, before the test for expiration. -/
structure Estimate where
  arrivalTime : Int
  overbooked : Scalar
  protect : Scalar
  eto : Int
  deriving DecidableEq

/-- The running values of the scan over the contacts with the first neighbor. -/
structure Claims where
  priorClaims : Scalar
  protect : Scalar
  capacity : Scalar
  allotment : Scalar

def later (a b : Int) : Int := if b < a then a else b

/-- One contact with the neighbor takes its share of the backlog. -/
def allot (currentTime : Int) (contact : IonCXref) (claims : Claims) : Claims :=
  let startTime := later currentTime contact.fromTime
  let secRemaining := toInt32 (contact.toTime - startTime)
  let capacity := multiplyScalar (loadScalar secRemaining) (toInt32 contact.xmitRate)
  let spare := subtractFromScalar capacity claims.protect
  let remaining := subtractFromScalar claims.protect capacity
  { claims with
    capacity := capacity
    allotment := if scalarIsValid spare then claims.protect else capacity
    protect := if scalarIsValid remaining then remaining else loadScalar 0 }

def servePriorClaims (claims : Claims) : Claims :=
  let remaining := subtractFromScalar claims.priorClaims claims.capacity
  { claims with priorClaims := if scalarIsValid remaining then remaining else loadScalar 0 }

/-- The scan up to the initial contact of the route; a later contact ends it without a result,
the end of the index does not. -/
def scanContacts (s : IonState) (route : CgrRoute) (currentTime : Int) :
    List IonCXref → Claims → Option Claims
  | [], claims => some claims
  | contact :: rest, claims =>
    if s.ownNodeNbr < contact.fromNode ∨ route.toNodeNbr < contact.toNode ∨
        route.fromTime < contact.fromTime then none
    else if contact.toTime < currentTime then scanContacts s route currentTime rest claims
    else
      let claims := allot currentTime contact claims
      if route.fromTime ≤ contact.fromTime then some claims
      else scanContacts s route currentTime rest (servePriorClaims claims)

/-- Whole seconds for the transmission of so many bytes. -/
def radiationLatency (volume : Scalar) (xmitRate : Nat) : Int :=
  intValue (divideScalar volume (toInt32 xmitRate))

/-- From hop to hop: each must still be open when transmission is over, and have a range. -/
def hopArrival (s : IonState) (eccc : Int) : Int → List IonCXref → Option Int
  | _, [] => none
  | transmitTime, contact :: rest =>
    if contact.toTime ≤ transmitTime then none
    else
      match getApplicableRange s contact with
      | none => none
      | some owlt =>
        match rest with
        | [] => some (transmitTime + owlt)
        | next :: _ =>
          hopArrival s eccc
            (later (transmitTime + owlt) next.fromTime +
              radiationLatency (loadScalar eccc) next.xmitRate) rest

/-- The projection of a route for a bundle; `none` where the source returns 0. An
initial contact of rate 0 makes it return -1. -/
def projectArrival (s : IonState) (route : CgrRoute) (bundle : Bundle) (currentTime : Int)
    (outduct : Outduct) : Option Estimate :=
  (scanContacts s route currentTime (s.contactIndex.scan (wildKey s.ownNodeNbr route.toNodeNbr))
      ⟨outduct.stdBacklog, outduct.stdBacklog, loadScalar 0, loadScalar 0⟩).bind (fun claims =>
    let eccc := computeECCC (guessBundleSize bundle)
    let excess := subtractFromScalar (increaseScalar claims.allotment eccc) claims.capacity
    let overbooked := if scalarIsValid excess then excess else loadScalar 0
    match route.hops with
    | [] => none
    | contact :: _ =>
      if contact.xmitRate = 0 then some ⟨-1, overbooked, claims.protect, 0⟩
      else
        let eto := later currentTime route.fromTime +
          radiationLatency (increaseScalar claims.priorClaims eccc) contact.xmitRate
        (hopArrival s eccc eto route.hops).map
          (fun arrivalTime => ⟨arrivalTime, overbooked, claims.protect, eto⟩))

/-- Zero if the route cannot be used. -/
def computeArrivalTime (s : IonState) (route : CgrRoute) (bundle : Bundle) (currentTime : Int)
    (outduct : Outduct) : Int :=
  match projectArrival s route bundle currentTime outduct with
  | none => 0
  | some est => if deadline bundle < est.arrivalTime then 0 else est.arrivalTime

/-- What becomes of a route that is tried. -/
inductive Verdict
  | noDirective
  | blocked
  | tooLong
  | unusable
  | expires (est : Estimate)
  | accepted (est : Estimate)
  deriving DecidableEq

def assessRoute (s : IonState) (route : CgrRoute) (bundle : Bundle) (currentTime : Int)
    (outduct : Outduct) : Verdict :=
  if outduct.blocked then .blocked
  else if bundle.doesNotFragment ∧ outduct.maxPayloadLen ≠ 0 ∧
      outduct.maxPayloadLen < bundle.payloadLength then .tooLong
  else
    match projectArrival s route bundle currentTime outduct with
    | none => .unusable
    | some est =>
      if computeArrivalTime s route bundle currentTime outduct = 0 then
        if deadline bundle < est.arrivalTime then .expires est else .unusable
      else .accepted est

structure ProximateNode (δ : Type) where
  neighborNodeNbr : Nat
  directive : δ
  forfeitTime : Int
  arrivalTime : Int
  overbooked : Scalar
  protect : Scalar
  hopCount : Nat

section

variable {δ σ : Type}

def ProximateNode.update (node : ProximateNode δ) (route : CgrRoute) (est : Estimate) : ProximateNode δ :=
  { node with
    arrivalTime := est.arrivalTime
    hopCount := route.hops.length
    forfeitTime := route.toTime
    overbooked := est.overbooked
    protect := est.protect }

/-- A neighbor keeps the better of two routes: earlier arrival, then fewer hops. -/
def ProximateNode.improve (node : ProximateNode δ) (route : CgrRoute) (est : Estimate) : ProximateNode δ :=
  if est.arrivalTime < node.arrivalTime then node.update route est
  else if est.arrivalTime = node.arrivalTime ∧ route.hops.length < node.hopCount then
    node.update route est
  else node

def noteProximateNode (directive : δ) (route : CgrRoute) (est : Estimate) :
    List (ProximateNode δ) → List (ProximateNode δ)
  | [] =>
    [⟨route.toNodeNbr, directive, route.toTime, est.arrivalTime, est.overbooked, est.protect,
      route.hops.length⟩]
  | node :: rest =>
    if node.neighborNodeNbr = route.toNodeNbr then node.improve route est :: rest
    else node :: noteProximateNode directive route est rest

/-- A position in the route list. The routes tried are kept with their verdicts, as a
record of the walk; nothing in the walk depends on it. -/
structure Walk (δ σ : Type) where
  passed : List CgrRoute
  rest : List CgrRoute
  proximateNodes : List (ProximateNode δ)
  tried : List (CgrRoute × Verdict)
  env : σ

/-- Only an accepted route makes, or improves, a proximate node. -/
def noteVerdict (directive : δ) (route : CgrRoute) (nodes : List (ProximateNode δ)) :
    Verdict → List (ProximateNode δ)
  | .accepted est => noteProximateNode directive route est nodes
  | _ => nodes

def tryRoute (s : IonState) (lookup : CgrLookup δ σ) (bundle : Bundle) (currentTime : Int)
    (route : CgrRoute) (walk : Walk δ σ) : Walk δ σ :=
  match lookup.getDirective route.toNodeNbr bundle walk.env with
  | (none, env) => { walk with tried := walk.tried ++ [(route, .noDirective)], env := env }
  | (some directive, env) =>
    let verdict := assessRoute s route bundle currentTime (lookup.readOutduct env directive)
    { walk with
      proximateNodes := noteVerdict directive route walk.proximateNodes verdict
      tried := walk.tried ++ [(route, verdict)]
      env := env }

/-- The tests on an unexpired route before it is tried. -/
def considerRoute (s : IonState) (lookup : CgrLookup δ σ) (bundle : Bundle) (excludedNodes : List Nat)
    (currentTime : Int) (route : CgrRoute) (walk : Walk δ σ) : Walk δ σ :=
  if route.toNodeNbr = s.ownNodeNbr ∧ ¬ (bundle.cbhe ∧ bundle.destination = route.toNodeNbr) then walk
  else if route.maxCapacity < bundle.payloadLength then walk
  else if route.toNodeNbr ∈ excludedNodes then walk
  else tryRoute s lookup bundle currentTime route walk

/-- The list as the walk leaves it; `stoppedAt` is the route that is past the deadline. -/
structure Walked (δ σ : Type) where
  routes : List CgrRoute
  proximateNodes : List (ProximateNode δ)
  tried : List (CgrRoute × Verdict)
  stoppedAt : Option CgrRoute
  env : σ

def Walk.finish (walk : Walk δ σ) (stoppedAt : Option CgrRoute) : Walked δ σ where
  routes := walk.passed ++ walk.rest
  proximateNodes := walk.proximateNodes
  tried := walk.tried
  stoppedAt := stoppedAt
  env := walk.env

/-- An expired route is deleted and recomputed; if that succeeds the walk starts again. -/
def walkRound (s : IonState) (lookup : CgrLookup δ σ) (bundle : Bundle) (excludedNodes : List Nat)
    (terminusNodeNbr : Nat) (currentTime : Int) (walk : Walk δ σ) : Walk δ σ ⊕ Option (Walked δ σ) :=
  match walk.rest with
  | [] => .inr (some (walk.finish none))
  | route :: rest =>
    if route.toTime < currentTime then
      match recomputeRouteForContact s (walk.passed ++ rest) route.toNodeNbr route.fromTime
          ⟨currentTime, terminusNodeNbr, route.payloadClass⟩ with
      | none => .inr none
      | some none => .inl { walk with rest := rest }
      | some (some routes) => .inl { walk with passed := [], rest := routes }
    else if deadline bundle < route.arrivalTime then .inr (some (walk.finish (some route)))
    else
      .inl (considerRoute s lookup bundle excludedNodes currentTime route
        { walk with passed := walk.passed ++ [route], rest := rest })

/-- Every restart leaves fewer expired routes in the list. -/
def walkFuel (routes : Nat) : Nat := (routes + 1) * (routes + 2)

def walkRoutes (s : IonState) (lookup : CgrLookup δ σ) (bundle : Bundle) (excludedNodes : List Nat)
    (terminusNodeNbr : Nat) (currentTime : Int) (routes : List CgrRoute) (env : σ) :
    Option (Walked δ σ) :=
  (Runs.loop (walkRound s lookup bundle excludedNodes terminusNodeNbr currentTime)
    (walkFuel routes.length) ⟨[], routes, [], [], env⟩).join

/-- The result of `identifyProximateNodes`, with whether it loaded the route list first. -/
structure Identified (δ σ : Type) where
  walked : Walked δ σ
  loaded : Bool
  failed : Bool

def identifyProximateNodes (s : IonState) (lookup : CgrLookup δ σ) (bundle : Bundle)
    (excludedNodes : List Nat) (terminusNodeNbr : Nat) (currentTime : Int)
    (routingObject : Option (List CgrRoute)) (env : σ) : Option (Identified δ σ) :=
  match routingObject with
  | some routes =>
    (walkRoutes s lookup bundle excludedNodes terminusNodeNbr currentTime routes env).map
      (fun walked => ⟨walked, false, false⟩)
  | none =>
    (loadRouteList s currentTime terminusNodeNbr).bind (fun list =>
      if list.complete then
        (walkRoutes s lookup bundle excludedNodes terminusNodeNbr currentTime list.routes env).map
          (fun walked => ⟨walked, true, false⟩)
      else some ⟨⟨list.routes, [], [], none, env⟩, true, true⟩)

/-- Earlier arrival, then fewer hops, then the smaller node number. -/
def preferNode (selected : Option (ProximateNode δ)) (node : ProximateNode δ) : Option (ProximateNode δ) :=
  match selected with
  | none => some node
  | some best =>
    if node.arrivalTime < best.arrivalTime then some node
    else if node.arrivalTime = best.arrivalTime then
      if node.hopCount < best.hopCount then some node
      else if node.hopCount = best.hopCount ∧ node.neighborNodeNbr < best.neighborNodeNbr then some node
      else some best
    else some best

/-- A critical bundle goes to all proximate nodes, any other to the best of them. -/
def selectProximateNodes (bundle : Bundle) (nodes : List (ProximateNode δ)) : List (ProximateNode δ) :=
  if bundle.minimumLatency then nodes else (nodes.foldl preferNode none).toList

def excludedNodes (bundle : Bundle) (terminusNode : IonNode) : List Nat :=
  (if bundle.returnToSender then [] else [bundle.senderNodeNbr]) ++
    (terminusNode.embargoes.filter (fun embargo => !embargo.probeIsDue)).map (fun embargo => embargo.nodeNbr)

end

end Forward
