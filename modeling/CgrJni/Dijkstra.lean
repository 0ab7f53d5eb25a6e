import CgrJni.Libcgr
import CgrJni.EarliestArrival

/-!
The search for the best route to a terminus node: contacts are vertices, and
the cost of going on to a contact depends on the time of arrival before it.
-/

namespace Dijkstra

open IonDb Libcgr EarliestArrival

/-- What a search is given beside the database and the work areas. -/
structure Query where
  currentTime : Int
  terminusNodeNbr : Nat
  payloadClass : Nat

/-- The variables of the search; `none` as current contact is the dummy root. -/
structure Search where
  notes : Notes
  finalContact : Option IonCXref
  earliestFinalArrivalTime : Int

def Notes.set (notes : Notes) (c : IonCXref) (work : CgrContactNote) : Notes :=
  Function.update notes c work

def toNodeOf (s : IonState) : Option IonCXref → Nat
  | none => s.ownNodeNbr
  | some c => c.toNode

def arrivalOf (q : Query) (notes : Notes) : Option IonCXref → Int
  | none => q.currentTime
  | some c => (notes c).arrivalTime

def ptrOf : Option IonCXref → CXrefPtr
  | none => .rootContact
  | some c => .entry c

def transmitTime (contact : IonCXref) (arrivalTime : Int) : Int :=
  if contact.fromTime < arrivalTime then arrivalTime else contact.fromTime

/-- A better arrival is noted, and noted as final if it is at the terminus and the best so far. -/
def noteArrival (q : Query) (current : Option IonCXref) (st : Search) (contact : IonCXref)
    (arrivalTime : Int) : Search :=
  let work := st.notes contact
  if arrivalTime < work.arrivalTime then
    let notes := Notes.set st.notes contact
      { work with arrivalTime := arrivalTime, predecessor := ptrOf current }
    if contact.toNode = q.terminusNodeNbr ∧ arrivalTime < st.earliestFinalArrivalTime then
      ⟨notes, some contact, arrivalTime⟩
    else { st with notes := notes }
  else st

def considerContact (s : IonState) (q : Query) (current : Option IonCXref) (st : Search)
    (contact : IonCXref) : Search :=
  let work := st.notes contact
  if contact.toTime ≤ arrivalOf q st.notes current then st
  else if work.suppressed then st
  else if work.visited then st
  else
    let capacity := if work.capacity = 0 then contactCapacity contact else work.capacity
    let st := { st with notes := Notes.set st.notes contact { work with capacity := capacity } }
    if capacity < minCapacity q.payloadClass then st
    else
      match getApplicableRange s contact with
      | none => st
      | some owlt =>
        noteArrival q current st contact
          (transmitTime contact (arrivalOf q st.notes current) + owltWithMargin owlt)

/-- The contacts that leave the node at which a contact arrives. -/
def nextContacts (s : IonState) (fromNode : Nat) : List IonCXref :=
  (s.contactIndex.scan (wildKey fromNode 0)).takeWhile (fun c => c.fromNode ≤ fromNode)

def markVisited (notes : Notes) : Option IonCXref → Notes
  | none => notes
  | some c => Notes.set notes c { notes c with visited := true }

def visit (s : IonState) (q : Query) (current : Option IonCXref) (st : Search) : Search :=
  let st := (nextContacts s (toNodeOf s current)).foldl (considerContact s q current) st
  { st with notes := markVisited st.notes current }

/-- The scan for the next contact keeps the first of the earliest arrivals. -/
def selectContact (st : Search) (best : Option IonCXref × Int) (contact : IonCXref) :
    Option IonCXref × Int :=
  let work := st.notes contact
  if work.suppressed ∨ work.visited then best
  else if st.earliestFinalArrivalTime < work.arrivalTime then best
  else if work.arrivalTime < best.2 then (some contact, work.arrivalTime)
  else best

def selectNext (s : IonState) (st : Search) : Option IonCXref :=
  (s.contactIndex.entries.foldl (selectContact st) (none, maxTime)).1

def searchRound (s : IonState) (q : Query) (state : Option IonCXref × Search) :
    (Option IonCXref × Search) ⊕ Search :=
  let st := visit s q state.1 state.2
  match selectNext s st with
  | none => .inr st
  | some next => .inl (some next, st)

/-- Follows the predecessors to the dummy root; a null pointer on the way has no result. -/
def backtrack (notes : Notes) : Nat → CXrefPtr → CgrRoute → Option CgrRoute
  | 0, _, _ => none
  | _ + 1, .null, _ => none
  | _ + 1, .rootContact, route => some route
  | fuel + 1, .entry contact, route =>
    backtrack notes fuel (notes contact).predecessor
      { route with
        hops := contact :: route.hops
        toTime := if contact.toTime < route.toTime then contact.toTime else route.toTime
        maxCapacity := if (notes contact).capacity < route.maxCapacity then (notes contact).capacity
          else route.maxCapacity }

/-- The first contact of the route characterizes it. -/
def characterize (payloadClass : Nat) (route : CgrRoute) : CgrRoute :=
  match route.hops with
  | [] => route
  | contact :: _ =>
    { route with toNodeNbr := contact.toNode, fromTime := contact.fromTime, payloadClass := payloadClass }

def fillRoute (s : IonState) (q : Query) (st : Search) : Option CgrRoute :=
  match st.finalContact with
  | none => some CgrRoute.zero
  | some contact =>
    (backtrack st.notes (s.contactIndex.entries.length + 1) (.entry contact)
      { CgrRoute.zero with
        arrivalTime := st.earliestFinalArrivalTime, toTime := maxTime, maxCapacity := 2 ^ 64 - 1 }).map
      (characterize q.payloadClass)

/-- The route, all zero if there is none, and the work areas as the search leaves them. -/
def computeDistanceToTerminus (s : IonState) (q : Query) (notes : Notes) : Option (CgrRoute × Notes) :=
  (Runs.loop (searchRound s q) (s.contactIndex.entries.length + 2) (none, ⟨notes, none, maxTime⟩)).bind
    (fun st => (fillRoute s q st).map (fun route => (route, st.notes)))

end Dijkstra
