import CgrJni.Reports
import CgrJni.Smlist

/-!
The outducts that a call of `cgrForwardONE` converts, in the managed memory of the
node: a list of records, each with its element in the catalogue under the name of
the outduct, that is to be gone when the call returns.
-/

namespace OutductList

open IonDb Forward Process Router Scalar Fallible Psm Smlist
open Interface (ionOutduct getOutductName atol ionBundle)

/-- The objects that the interface keeps in the memory of the node. -/
inductive SdrObject
  | bundle
  | event (time : Int)
  | outduct (outduct : Forward.Outduct)

abbrev SdrHeap := Heap (Block SdrObject)

abbrev SdrMalloc := Malloc (Block SdrObject)

/-- What the Java side has during a call: the router, and which hosts it made an outduct for. -/
structure Outducts where
  router : ContactGraphRouter
  created : Nat → Bool

def sdrFind (heap : SdrHeap) (name : String) : PsmAddress := (heap.located name).getD 0

/-- Nothing is read from `NULL`, and the buffer stays as it was. -/
def sdrRead (heap : SdrHeap) (address : PsmAddress) : Except Failure SdrObject :=
  if address = 0 then .error .uninitialized
  else do
    match ← deref heap address with
    | .object object => return object
    | _ => .error .wrongBlock

def sdrWrite (heap : SdrHeap) (address : PsmAddress) (object : SdrObject) : Except Failure SdrHeap :=
  assign heap address (.object object)

/-- The record that an element of the list stands for. -/
def readOutduct (heap : SdrHeap) (outductElt : PsmAddress) : Except Failure Forward.Outduct := do
  match ← sdrRead heap (← smListData heap outductElt) with
  | .outduct outduct => return outduct
  | _ => .error .wrongBlock

section

variable (sim : Simulator) (malloc : SdrMalloc) (java : Outducts)

/-- A number that names no host ends in an exception. -/
def getONEOutductToNode (toNodeNbr : Nat) : Except Failure (Option Nat) :=
  match getHostFromNumber sim toNodeNbr with
  | none => .error .exception
  | some host => .ok (if java.created host then some host else none)

def initOutductList (heap : SdrHeap) (outductList : PsmAddress) : Except Failure (PsmAddress × SdrHeap) :=
  if outductList = 0 then smListCreate malloc heap else .ok (outductList, heap)

/-- The record of the outduct to a host is put into the list, and its element into the catalogue. -/
def convertOutduct (heap : SdrHeap) (outductList : PsmAddress) (host : Nat) : Except Failure (PsmAddress × SdrHeap) := do
  let (outductObj, heap) := psmZalloc malloc heap
  let heap ← sdrWrite heap outductObj (.outduct (ionOutduct java.router host))
  let (outductElt, heap) ← smListInsertFirst malloc heap outductList outductObj
  return (outductElt, psmCatlg heap (getOutductName host) outductElt)

/-- With the element, if there is a directive, the list, which is made when it is first needed. -/
def getONEDirective (nodeNbr : Nat) (heap : SdrHeap) (outductList : PsmAddress) :
    Except Failure (Option PsmAddress × PsmAddress × SdrHeap) := do
  match ← getONEOutductToNode sim java nodeNbr with
  | none => return (none, outductList, heap)
  | some host =>
    let (outductList, heap) ← initOutductList malloc heap outductList
    let outductElt := sdrFind heap (getOutductName host)
    if outductElt = 0 then
      let (outductElt, heap) ← convertOutduct malloc java heap outductList host
      return (some outductElt, outductList, heap)
    else return (some outductElt, outductList, heap)

/-- The first loop of `wipe_outduct_list`: the records go, the elements stay. -/
def freeOutducts : Nat → SdrHeap → PsmAddress → Except Failure SdrHeap
  | 0, heap, outductElt => if outductElt = 0 then .ok heap else .error .endless
  | fuel + 1, heap, outductElt =>
    if outductElt = 0 then .ok heap
    else do
      let heap ← psmFree heap (← smListData heap outductElt)
      freeOutducts fuel heap (← smListNext heap outductElt)

def wipeOutductList (heap : SdrHeap) (outductList : PsmAddress) : Except Failure SdrHeap :=
  if outductList = 0 then .ok heap
  else do
    let heap ← freeOutducts heap.partition.addresses.card heap (← smListFirst heap outductList)
    wipeList heap outductList noDeleteFn true

/-- The state that the lookups of a call pass on. The records that were read are kept with the
neighbors they were read for; after a failure nothing is done any more. -/
structure CallState where
  heap : SdrHeap
  outductList : PsmAddress
  reads : List (Nat × Forward.Outduct)
  failed : Option Failure

def CallState.start (heap : SdrHeap) : CallState := ⟨heap, 0, [], none⟩

/-- The directive for a neighbor, and the record that `tryRoute` reads as soon as it has it. -/
def lookupOutduct (nodeNbr : Nat) (state : CallState) : Option PsmAddress × CallState :=
  match state.failed with
  | some _ => (none, state)
  | none =>
    match getONEDirective sim malloc java nodeNbr state.heap state.outductList with
    | .error failure => (none, { state with failed := some failure })
    | .ok (none, outductList, heap) => (none, { state with heap := heap, outductList := outductList })
    | .ok (some outductElt, outductList, heap) =>
      match readOutduct heap outductElt with
      | .error failure => (none, { state with failed := some failure })
      | .ok outduct => (some outductElt, ⟨heap, outductList, state.reads ++ [(nodeNbr, outduct)], none⟩)

def oneLookup : CgrLookup PsmAddress CallState where
  getDirective nodeNbr _ state := lookupOutduct sim malloc java nodeNbr state
  readOutduct state outductElt := (readOutduct state.heap outductElt).toOption.getD ⟨"", true, 0, ⟨0, 0⟩⟩

/-- The event is never released. -/
def insertBpTimelineEvent (heap : SdrHeap) (time : Int) : Except Failure (PsmAddress × SdrHeap) := do
  let (addr, heap) := psmZalloc malloc heap
  if addr = 0 then return (0, heap)
  return (addr, ← sdrWrite heap addr (.event time))

def readEvent (heap : SdrHeap) (overdueElt : PsmAddress) : Except Failure Int := do
  match ← sdrRead heap overdueElt with
  | .event time => return time
  | _ => .error .wrongBlock

def insertBundleIntoOutduct (router : ContactGraphRouter) (m : Message) (toNodeNbr : Int) :
    Except Failure ContactGraphRouter :=
  match getHostFromNumber sim toNodeNbr with
  | none => .error .exception
  | some host => .ok (if java.created host then insertMessageIntoOutduct sim router host m else router)

/-- The router and `forwardResult`; `reference` is the time at which the simulation started. -/
def bpEnqueONE (reference : Int) (m : Message) (router : ContactGraphRouter) (heap : SdrHeap)
    (overdueElt outductElt : PsmAddress) : Except Failure (ContactGraphRouter × Int) := do
  let router := updateMessageForfeitTime router m ((← readEvent heap overdueElt) - reference)
  let proximateNodeNbr := atol (← readOutduct heap outductElt).name
  return (← insertBundleIntoOutduct sim java router m proximateNodeNbr, toInt32 proximateNodeNbr)

structure Enqueued where
  result : Int
  router : ContactGraphRouter
  forwardResult : Int
  heap : SdrHeap

/-- Without memory for the event the bundle is not enqueued, and the result is an error. -/
def enqueueToNeighbor (reference : Int) (m : Message) (bundleObj : PsmAddress) (state : Enqueued)
    (neighbor : ProximateNode PsmAddress) : Except Failure Enqueued := do
  let (overdueElt, heap) ← insertBpTimelineEvent malloc state.heap neighbor.forfeitTime
  if overdueElt = 0 then return { state with result := -1, heap := heap }
  let heap ← sdrWrite heap bundleObj .bundle
  let (router, forwardResult) ← bpEnqueONE sim java reference m state.router heap overdueElt neighbor.directive
  return ⟨0, router, forwardResult, heap⟩

/-- An error ends the loop over the neighbors. -/
def enqueueToAll (reference : Int) (m : Message) (bundleObj : PsmAddress) :
    List (ProximateNode PsmAddress) → Enqueued → Except Failure Enqueued
  | [], state => .ok state
  | neighbor :: rest, state => do
    let state ← enqueueToNeighbor sim malloc java reference m bundleObj state neighbor
    if state.result < 0 then return state
    enqueueToAll reference m bundleObj rest state

end

/-- A call: the bundle, the routing state of the process and the outducts, as they are then. -/
structure ForwardCall where
  process : IonProcess
  java : Outducts
  message : Message
  ttl : Int
  now : Int
  reference : Int
  terminusNodeNbr : Nat

structure Returned where
  result : Int
  router : ContactGraphRouter
  heap : SdrHeap

/-- A call with the records that it read and, unless it came to grief, what it returned. -/
structure Performed where
  reads : List (Nat × Forward.Outduct)
  outcome : Except Failure Returned

variable (sim : Simulator) (malloc : SdrMalloc)

/-- An error of the walk is passed on. -/
def enqueueSelected (call : ForwardCall) (bundleObj : PsmAddress) (forwarding : Forwarding PsmAddress CallState) :
    Except Failure Enqueued :=
  if forwarding.result < 0 then .ok ⟨-1, call.java.router, 0, forwarding.env.heap⟩
  else enqueueToAll sim malloc call.java call.reference call.message bundleObj forwarding.selected
    ⟨0, call.java.router, 0, forwarding.env.heap⟩

/-- The rest of a call after the walk. -/
def finishForwarding (call : ForwardCall) (bundleObj : PsmAddress) (forwarding : Forwarding PsmAddress CallState) :
    Except Failure Returned :=
  match forwarding.env.failed with
  | some failure => .error failure
  | none => do
    let state ← enqueueSelected sim malloc call bundleObj forwarding
    let heap ← wipeOutductList state.heap forwarding.env.outductList
    let heap ← psmFree heap bundleObj
    return ⟨if state.result < 0 then state.result else state.forwardResult, state.router, heap⟩

def cgrForwardONE (call : ForwardCall) (heap : SdrHeap) : Option Performed :=
  let (bundleObj, heap) := psmZalloc malloc heap
  match sdrWrite heap bundleObj .bundle with
  | .error failure => some ⟨[], .error failure⟩
  | .ok heap =>
    (Process.cgrForward call.process sim.host (oneLookup sim malloc call.java)
      (ionBundle call.message call.ttl call.now) call.terminusNodeNbr call.now (CallState.start heap)).map
      (fun r => ⟨r.2.env.reads, finishForwarding sim malloc call bundleObj r.2⟩)

/-- The memory of a node after any number of calls, with whatever else is done to it between them:
blocks that come and go, writes to them, and names that are not those of outducts. -/
inductive Reachable : SdrHeap → Prop
  | start : Reachable Heap.new
  | call (heap : SdrHeap) (call : ForwardCall) (performed : Performed) (returned : Returned) : Reachable heap →
      cgrForwardONE sim malloc call heap = some performed → performed.outcome = .ok returned → Reachable returned.heap
  | allocate (heap : SdrHeap) : Reachable heap → Reachable (psmZalloc malloc heap).2
  | write (heap heap' : SdrHeap) (address : PsmAddress) (block : Block SdrObject) : Reachable heap →
      assign heap address block = .ok heap' → Reachable heap'
  | release (heap heap' : SdrHeap) (address : PsmAddress) : Reachable heap → psmFree heap address = .ok heap' →
      Reachable heap'
  | catalogue (heap : SdrHeap) (name : String) (address : PsmAddress) : Reachable heap →
      (∀ host, name ≠ getOutductName host) → heap.memory address ≠ none → (∀ name', heap.located name' ≠ some address) →
      Reachable (psmCatlg heap name address)

end OutductList
