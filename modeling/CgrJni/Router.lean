import CgrJni.Runs

/-!
The message queues of the router: the limbo, one outduct for each host, and the
properties that the messages carry with them.
-/

namespace Router

/-- A message object, without its properties; `ref` is its identity. -/
structure Message where
  ref : Nat
  id : String
  size : Nat
  fromHost : Nat
  toHost : Nat
  deriving DecidableEq

/-- What the simulator provides: the addresses of all hosts, in order, that of the router's
own host, `equals` of message objects, and the superclass of the router, which keeps the
messages under their ids. -/
structure Simulator where
  hosts : List Nat
  hosts_sorted : hosts.Pairwise (· < ·)
  hosts_int : ∀ host ∈ hosts, host < 2 ^ 31
  host : Nat
  equals : Message → Message → Bool
  equals_self : ∀ m, equals m m = true
  id_of_equals : ∀ m m', equals m m' = true → m.id = m'.id
  superAddToMessages : (String → Option Message) → Message → String → Option Message
  superAddToMessages_eq : ∀ messages m, superAddToMessages messages m = Function.update messages m.id (some m)
  superRemoveFromMessages : (String → Option Message) → String → String → Option Message
  superRemoveFromMessages_eq : ∀ messages id, superRemoveFromMessages messages id = Function.update messages id none

def limboId : Int := -1
def noneId : Int := -2

structure Outduct where
  queue : List Message
  totalEnqueuedBytes : Int

/-- `outductRef` and `forwardTimelimit` are properties of the message objects; `known` is a
record of the messages that were created here or accepted. -/
structure ContactGraphRouter where
  messages : String → Option Message
  limbo : Outduct
  outducts : Nat → Outduct
  outductRef : Message → Int
  forwardTimelimit : Message → Int
  known : List Message

def ContactGraphRouter.init (outductRef forwardTimelimit : Message → Int) : ContactGraphRouter :=
  ⟨fun _ => none, ⟨[], 0⟩, fun _ => ⟨[], 0⟩, outductRef, forwardTimelimit, []⟩

variable (sim : Simulator)

def getHostFromNumber (nodeNbr : Int) : Option Nat :=
  sim.hosts.find? (fun host => (host : Int) = nodeNbr)

/-- Only the first equal message is removed. -/
def Outduct.removeMessage (o : Outduct) (m : Message) : Option Outduct :=
  if o.queue.any (fun m1 => sim.equals m1 m) then
    some ⟨o.queue.eraseP (fun m1 => sim.equals m1 m), o.totalEnqueuedBytes - m.size⟩
  else none

def updateOutductRef (r : ContactGraphRouter) (m : Message) (outductRef : Int) : ContactGraphRouter :=
  { r with outductRef := Function.update r.outductRef m outductRef }

def removeMessageFromOutduct (r : ContactGraphRouter) (host : Nat) (m : Message) : ContactGraphRouter :=
  match (r.outducts host).removeMessage sim m with
  | none => r
  | some o => updateOutductRef { r with outducts := Function.update r.outducts host o } m noneId

def removeMessageFromLimbo (r : ContactGraphRouter) (m : Message) : ContactGraphRouter :=
  match r.limbo.removeMessage sim m with
  | none => updateOutductRef r m noneId
  | some limbo => updateOutductRef { r with limbo := limbo } m noneId

def isMessageIntoLimbo (r : ContactGraphRouter) (m : Message) : Bool :=
  r.limbo.queue.any (fun m1 => m.id == m1.id)

def insertMessageIntoLimbo (r : ContactGraphRouter) (m : Message) : ContactGraphRouter :=
  updateOutductRef { r with limbo := { r.limbo with queue := r.limbo.queue ++ [m] } } m limboId

def insertMessageIntoOutduct (r : ContactGraphRouter) (host : Nat) (m : Message) : ContactGraphRouter :=
  let o := r.outducts host
  let r := { r with outducts := Function.update r.outducts host { o with queue := o.queue ++ [m] } }
  let r := if isMessageIntoLimbo r m then removeMessageFromLimbo sim r m else r
  let r := updateOutductRef r m host
  let o := r.outducts host
  { r with
    outducts := Function.update r.outducts host { o with totalEnqueuedBytes := o.totalEnqueuedBytes + m.size } }

/-- A property that names no host ends in an exception. -/
def putMessageIntoLimbo (r : ContactGraphRouter) (m : Message) : Option ContactGraphRouter :=
  if 0 ≤ r.outductRef m then
    (getHostFromNumber sim (r.outductRef m)).map (fun host =>
      insertMessageIntoLimbo (removeMessageFromOutduct sim r host m) m)
  else some (insertMessageIntoLimbo r m)

def updateMessageForfeitTime (r : ContactGraphRouter) (m : Message) (forfeitTime : Int) : ContactGraphRouter :=
  { r with forwardTimelimit := Function.update r.forwardTimelimit m forfeitTime }

/-- A node number that names no host ends in an exception. -/
def insertBundleIntoOutduct (r : ContactGraphRouter) (m : Message) (toNodeNbr : Int) :
    Option ContactGraphRouter :=
  (getHostFromNumber sim toNodeNbr).map (fun host => insertMessageIntoOutduct sim r host m)

/-- What a call of the native `cgrForward` can do to the router. -/
inductive Outcome
  | stays
  | enqueued (forfeitTime : Int) (nodeNbr : Int)
  deriving DecidableEq

def cgrForward (r : ContactGraphRouter) (m : Message) : Outcome → Option ContactGraphRouter
  | .stays => some r
  | .enqueued forfeitTime nodeNbr =>
    insertBundleIntoOutduct sim (updateMessageForfeitTime r m forfeitTime) m nodeNbr

def superAddToMessages (r : ContactGraphRouter) (m : Message) : ContactGraphRouter :=
  { r with messages := sim.superAddToMessages r.messages m, known := m :: r.known }

def addToMessages (r : ContactGraphRouter) (m : Message) (newMessage : Bool) (outcome : Outcome) :
    Option ContactGraphRouter :=
  if newMessage ∧ m.toHost = sim.host then some r
  else
    (putMessageIntoLimbo sim r m).bind (fun r => cgrForward sim (superAddToMessages sim r m) m outcome)

def createNewMessage (r : ContactGraphRouter) (m : Message) (outcome : Outcome) : Option ContactGraphRouter :=
  addToMessages sim (updateOutductRef (updateMessageForfeitTime r m 0) m noneId) m true outcome

def removeFromOutducts (r : ContactGraphRouter) (id : String) : Option ContactGraphRouter :=
  match r.messages id with
  | none => some r
  | some removed =>
    if r.outductRef removed = limboId then
      some (match r.limbo.removeMessage sim removed with
        | none => r
        | some limbo => updateOutductRef { r with limbo := limbo } removed noneId)
    else if r.outductRef removed = noneId then some r
    else
      (getHostFromNumber sim (r.outductRef removed)).map (fun host => removeMessageFromOutduct sim r host removed)

def removeFromMessages (r : ContactGraphRouter) (id : String) : Option ContactGraphRouter :=
  (removeFromOutducts sim r id).map (fun r => { r with messages := sim.superRemoveFromMessages r.messages id })

/-- The router with the outcomes of the calls of `cgrForward` that are still to come. -/
structure Rerouting where
  router : ContactGraphRouter
  outcomes : List Outcome

def Rerouting.cgrForward (x : Rerouting) (m : Message) : Option Rerouting :=
  match x.outcomes with
  | [] => some x
  | outcome :: rest => (Router.cgrForward sim x.router m outcome).map (fun r => ⟨r, rest⟩)

def tryRouteForMessageIntoLimbo (x : Rerouting) : Option Rerouting :=
  Runs.run (Rerouting.cgrForward sim) x x.router.limbo.queue

/-- A message whose route has expired goes to the limbo and is routed again. -/
def reroute (host : Nat) (x : Rerouting) (m : Message) : Option Rerouting :=
  (putMessageIntoLimbo sim (removeMessageFromOutduct sim x.router host m) m).bind (fun r =>
    Rerouting.cgrForward sim ⟨r, x.outcomes⟩ m)

/-- A message that was not routed yet ends the search in all outducts. -/
def checkOutducts (now : Int) : List Nat → Rerouting → Option Rerouting
  | [], x => some x
  | host :: rest, x =>
    if (x.router.outducts host).queue.any (fun m => x.router.forwardTimelimit m = 0) then some x
    else
      (Runs.run (reroute sim host) x
        ((x.router.outducts host).queue.filter (fun m => x.router.forwardTimelimit m < now))).bind
        (checkOutducts now rest)

def checkExpiredRoutes (now : Int) (x : Rerouting) : Option Rerouting := checkOutducts sim now sim.hosts x

inductive Step
  | createNewMessage (m : Message) (outcome : Outcome)
  | receive (m : Message) (outductRef forwardTimelimit : Int) (outcome : Outcome)
  | cgrForward (m : Message) (outcome : Outcome)
  | checkExpiredRoutes (now : Int) (outcomes : List Outcome)
  | tryRouteForMessageIntoLimbo (outcomes : List Outcome)
  | removeFromMessages (id : String)
  | transferDone (id : String)

/-- A replica comes with the properties it had at the sender. It is taken for granted that no message is
accepted whose id is held; a step that ends in an exception has no next state. -/
def step (r : ContactGraphRouter) : Step → Option ContactGraphRouter
  | .createNewMessage m outcome =>
    if (r.messages m.id).isSome then some r else createNewMessage sim r m outcome
  | .receive m outductRef forwardTimelimit outcome =>
    if (r.messages m.id).isSome then some r
    else
      addToMessages sim (updateOutductRef (updateMessageForfeitTime r m forwardTimelimit) m outductRef) m false
        outcome
  | .cgrForward m outcome => if m ∈ r.limbo.queue then cgrForward sim r m outcome else none
  | .checkExpiredRoutes now outcomes => (checkExpiredRoutes sim now ⟨r, outcomes⟩).map Rerouting.router
  | .tryRouteForMessageIntoLimbo outcomes =>
    (tryRouteForMessageIntoLimbo sim ⟨r, outcomes⟩).map Rerouting.router
  | .removeFromMessages id => removeFromMessages sim r id
  | .transferDone id => removeFromOutducts sim r id

end Router
