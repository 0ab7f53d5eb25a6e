import CgrJni.RecordIndex
import CgrJni.Rfx

/-!
Insertion and removal of contacts and ranges, down to the records in working memory. The trees hold
addresses, each field is read at the address of its record, and a record that is erased from a tree
is released at once. A call ends with the address if a record is read that has been released.
-/

namespace WorkingMemory

open IonDb RecordIndex

/-- The database with its records in working memory. -/
structure Ionwm where
  ownNodeNbr : Nat
  maxClockError : Int
  contacts : List (Object × IonContact)
  ranges : List (Object × IonRange)
  lastEditTime : Int
  nodes : NodeTree
  contactIndex : List PsmAddress
  rangeIndex : List PsmAddress
  cxrefs : Store IonCXref
  rxrefs : Store IonRXref
  timeline : List IonEvent
  lastAddr : PsmAddress
  lastObject : Object

abbrev rfxOrderContacts : IonCXref → Key := IntervalIndex.key IonCXref.pair (fun c => c.fromTime)

abbrev rfxOrderRanges : IonRXref → Key := IntervalIndex.key IonRXref.pair (fun r => r.fromTime)

def editTime (m : Ionwm) (now toTime : Int) : Int := if now < toTime then now else m.lastEditTime

abbrev contactEntry (m : Ionwm) (span : Span) (xmitRate : Nat) (contactElt : Object) : IonCXref where
  toSpan := span
  xmitRate := xmitRate
  prob := 0
  startXmit := if span.fromNode = m.ownNodeNbr then span.fromTime + m.maxClockError else 0
  stopXmit := if span.fromNode = m.ownNodeNbr then span.toTime - m.maxClockError else 0
  startFire := if span.toNode = m.ownNodeNbr then span.fromTime + m.maxClockError else 0
  stopFire := if span.toNode = m.ownNodeNbr then span.toTime - m.maxClockError else 0
  startRecv := 0
  stopRecv := 0
  purgeTime := if span.toNode = m.ownNodeNbr then 0 else span.toTime
  contactElt := contactElt
  addr := m.lastAddr + 1

/-- The key that is compared, and the times of the events, are those of the caller's buffer. -/
def insertCXref (m : Ionwm) (now : Int) (cxref : IonCXref) : Except PsmAddress Ionwm := do
  let cxrefs := m.cxrefs.insert cxref.addr cxref
  let contactIndex ← insertAddress rfxOrderContacts cxrefs cxref.addr cxref.key m.contactIndex
  return { m with
    nodes := Rfx.loadNode (Rfx.loadNode m.nodes cxref.toNode) cxref.fromNode
    contactIndex := contactIndex
    cxrefs := cxrefs
    timeline := (Rfx.contactEvents cxref).foldl Rfx.insertEvent m.timeline
    lastEditTime := editTime m now cxref.toTime
    lastAddr := cxref.addr }

def addContact (m : Ionwm) (now : Int) (span : Span) (xmitRate : Nat) (prob : ℚ) :
    Except PsmAddress (Ionwm × PsmAddress) := do
  let elt := m.lastObject + 1
  let cxref := contactEntry m span xmitRate elt
  let m ← insertCXref { m with contacts := m.contacts ++ [(elt, ⟨span, xmitRate, prob⟩)], lastObject := elt }
    now cxref
  return (m, cxref.addr)

def insertContact (m : Ionwm) (now : Int) (span : Span) (xmitRate : Nat) (prob : ℚ) :
    Except PsmAddress (Ionwm × PsmAddress) := do
  let (cxelt, nextElt) ← search rfxOrderContacts m.cxrefs span.key m.contactIndex
  match cxelt with
  | some cxaddr =>
    let cxref ← read m.cxrefs cxaddr
    return (m, if cxref.xmitRate = xmitRate then cxaddr else 0)
  | none =>
    let overlaps ← blocked IonCXref.pair (fun c => c.fromTime) (fun c => c.toTime) m.cxrefs m.contactIndex
      span.pair span.fromTime span.toTime nextElt
    if overlaps then return (m, 0) else addContact m now span xmitRate prob

def rfxInsertContact (m : Ionwm) (now fromTime toTime : Int) (fromNode toNode xmitRate : Nat) (prob : ℚ) :
    Except PsmAddress (Ionwm × PsmAddress) :=
  match Span.check fromTime toTime fromNode toNode with
  | none => .ok (m, 0)
  | some span => if 0 < prob ∧ prob ≤ 1 then insertContact m now span xmitRate prob else .ok (m, 0)

/-- `sm_rbt_delete` with `rfx_erase_data`: the record found is released. -/
def eraseContact (m : Ionwm) (k : Key) : Except PsmAddress Ionwm := do
  let (found, contactIndex) ← takeOut rfxOrderContacts m.cxrefs k m.contactIndex
  match found with
  | some cxaddr => return { m with contactIndex := contactIndex, cxrefs := m.cxrefs.erase cxaddr }
  | none => return m

def eraseRange (m : Ionwm) (k : Key) : Except PsmAddress Ionwm := do
  let (found, rangeIndex) ← takeOut rfxOrderRanges m.rxrefs k m.rangeIndex
  match found with
  | some rxaddr => return { m with rangeIndex := rangeIndex, rxrefs := m.rxrefs.erase rxaddr }
  | none => return m

/-- Up to the deletion from the index nothing is released, so one read stands for all of them. The
record in the database is found through the entry when that has gone already. -/
def deleteContact (m : Ionwm) (now : Int) (cxaddr : PsmAddress) : Except PsmAddress Ionwm := do
  let cxref ← read m.cxrefs cxaddr
  let m ← eraseContact
    { m with
      timeline := (Rfx.deletedContactEvents { cxref with addr := cxaddr }).foldl Rfx.deleteEvent m.timeline
      lastEditTime := editTime m now cxref.toTime } cxref.key
  let erased ← read m.cxrefs cxaddr
  return { m with contacts := m.contacts.filter (fun c => c.1 ≠ erased.contactElt) }

/-- One round of a wild-card loop; nothing if the loop is left. -/
def removeNextContact (now : Int) (fromNode toNode : Nat) (m : Ionwm) : Except PsmAddress (Option Ionwm) := do
  let (_, cxelt) ← search rfxOrderContacts m.cxrefs (wildKey fromNode toNode) m.contactIndex
  match cxelt with
  | none => return none
  | some cxaddr =>
    let cxref ← read m.cxrefs cxaddr
    if fromNode < cxref.fromNode ∨ toNode < cxref.toNode then return none
    else
      let m ← deleteContact m now cxaddr
      return some m

def roundOf (step : Ionwm → Except PsmAddress (Option Ionwm)) (m : Ionwm) : Ionwm ⊕ Except PsmAddress Ionwm :=
  match step m with
  | .ok (some m) => .inl m
  | .ok none => .inr (.ok m)
  | .error a => .inr (.error a)

/-- Whatever does not come to an end in so many rounds yields `none`. -/
def rfxRemoveContact (rounds : Nat) (m : Ionwm) (now fromTime : Int) (fromNode toNode : Nat) :
    Option (Except PsmAddress Ionwm) :=
  if fromTime ≠ 0 then
    some (do
      let (cxelt, _) ← search rfxOrderContacts m.cxrefs (toLex (toLex (fromNode, toNode), fromTime)) m.contactIndex
      match cxelt with
      | some cxaddr => deleteContact m now cxaddr
      | none => return m)
  else Runs.loop (roundOf (removeNextContact now fromNode toNode)) rounds m

def indexRange (m : Ionwm) (rxref : IonRXref) : Except PsmAddress Ionwm := do
  let rxrefs := m.rxrefs.insert rxref.addr rxref
  let rangeIndex ← insertAddress rfxOrderRanges rxrefs rxref.addr rxref.key m.rangeIndex
  return { m with
    rangeIndex := rangeIndex
    rxrefs := rxrefs
    timeline := (Rfx.rangeEvents rxref).foldl Rfx.insertEvent m.timeline
    lastAddr := rxref.addr }

def assertRange (m : Ionwm) (now : Int) (rxref : IonRXref) : Except PsmAddress Ionwm := do
  let indexed ← indexRange m rxref
  return { indexed with
    nodes := Rfx.loadNode (Rfx.loadNode m.nodes rxref.toNode) rxref.fromNode
    lastEditTime := editTime m now rxref.toTime }

/-- The imputed range is written into its record, and read from there to be filed. -/
def imputeRange (m : Ionwm) (rxref : IonRXref) : Except PsmAddress Ionwm :=
  if rxref.toNode < rxref.fromNode then return m
  else do
    let (rxelt, _) ← search rfxOrderRanges m.rxrefs rxref.toSpan.reverse.key m.rangeIndex
    match rxelt with
    | some _ => return m
    | none =>
      let rxaddr2 := m.lastAddr + 1
      let m := { m with rxrefs := m.rxrefs.insert rxaddr2 (Rfx.imputedEntry rxref rxaddr2) }
      let rxref2 ← read m.rxrefs rxaddr2
      indexRange m rxref2

def insertRXref (m : Ionwm) (now : Int) (rxref : IonRXref) : Except PsmAddress Ionwm := do
  let m ← assertRange m now rxref
  imputeRange m rxref

abbrev rangeEntry (m : Ionwm) (span : Span) (owlt : Nat) (rangeElt : Object) : IonRXref where
  toSpan := span
  owlt := owlt
  rangeElt := rangeElt
  addr := m.lastAddr + 1

def addRange (m : Ionwm) (now : Int) (span : Span) (owlt : Nat) (nextElt : Option PsmAddress) :
    Except PsmAddress (Ionwm × PsmAddress) := do
  let overlaps ← blocked IonRXref.pair (fun r => r.fromTime) (fun r => r.toTime) m.rxrefs m.rangeIndex
    span.pair span.fromTime span.toTime nextElt
  if overlaps then return (m, 0)
  else
    let elt := m.lastObject + 1
    let rxref := rangeEntry m span owlt elt
    let m ← insertRXref { m with ranges := m.ranges ++ [(elt, ⟨span, owlt⟩)], lastObject := elt } now rxref
    return (m, rxref.addr)

/-- The events of the imputed range are found by its times when it has gone from the index already. -/
def dropImputed (m : Ionwm) (span : Span) (rxaddr : PsmAddress) : Except PsmAddress Ionwm := do
  let m ← eraseRange m span.key
  let started ← read m.rxrefs rxaddr
  let m := { m with timeline := Rfx.deleteEvent m.timeline ⟨started.fromTime, .startImputedRange, rxaddr⟩ }
  let stopped ← read m.rxrefs rxaddr
  return { m with timeline := Rfx.deleteEvent m.timeline ⟨stopped.toTime, .stopImputedRange, rxaddr⟩ }

def insertRange (m : Ionwm) (now : Int) (span : Span) (owlt : Nat) : Except PsmAddress (Ionwm × PsmAddress) := do
  let (rxelt, nextElt) ← search rfxOrderRanges m.rxrefs span.key m.rangeIndex
  match rxelt with
  | some rxaddr =>
    let rxref ← read m.rxrefs rxaddr
    if rxref.imputed then
      let m ← dropImputed m span rxaddr
      addRange m now span owlt nextElt
    else return (m, if rxref.owlt = owlt then rxaddr else 0)
  | none => addRange m now span owlt nextElt

def rfxInsertRange (m : Ionwm) (now fromTime toTime : Int) (fromNode toNode owlt : Nat) :
    Except PsmAddress (Ionwm × PsmAddress) :=
  match Span.check fromTime toTime fromNode toNode with
  | none => .ok (m, 0)
  | some span => insertRange m now span owlt

/-- Nothing is released before the last step, so one read stands for all of them. -/
def deleteRange (m : Ionwm) (now : Int) (rxaddr : PsmAddress) (conditional : Bool) : Except PsmAddress Ionwm := do
  let rxref ← read m.rxrefs rxaddr
  if !rxref.imputed && conditional then return m
  else
    eraseRange
      { m with
        ranges := if rxref.imputed then m.ranges else m.ranges.filter (fun r => r.1 ≠ rxref.rangeElt)
        timeline := (Rfx.rangeEvents { rxref with addr := rxaddr }).foldl Rfx.deleteEvent m.timeline
        lastEditTime := editTime m now rxref.toTime } rxref.key

def removeNextRange (now : Int) (fromNode toNode : Nat) (conditional : Bool) (m : Ionwm) :
    Except PsmAddress (Option Ionwm) := do
  let (_, rxelt) ← search rfxOrderRanges m.rxrefs (wildKey fromNode toNode) m.rangeIndex
  match rxelt with
  | none => return none
  | some rxaddr =>
    let rxref ← read m.rxrefs rxaddr
    if fromNode < rxref.fromNode ∨ toNode < rxref.toNode then return none
    else
      let m ← deleteRange m now rxaddr conditional
      return some m

def removeRanges (rounds : Nat) (m : Ionwm) (now fromTime : Int) (fromNode toNode : Nat) (conditional : Bool) :
    Option (Except PsmAddress Ionwm) :=
  if fromTime ≠ 0 then
    some (do
      let (rxelt, _) ← search rfxOrderRanges m.rxrefs (toLex (toLex (fromNode, toNode), fromTime)) m.rangeIndex
      match rxelt with
      | some rxaddr => deleteRange m now rxaddr conditional
      | none => return m)
  else Runs.loop (roundOf (removeNextRange now fromNode toNode conditional)) rounds m

def rfxRemoveRange (rounds : Nat) (m : Ionwm) (now fromTime : Int) (fromNode toNode : Nat) :
    Option (Except PsmAddress Ionwm) :=
  if toNode < fromNode then removeRanges rounds m now fromTime fromNode toNode false
  else
    match removeRanges rounds m now fromTime fromNode toNode false with
    | some (.ok m) => removeRanges rounds m now fromTime toNode fromNode true
    | result => result

def edit (rounds : Nat) (m : Ionwm) (call : Int × Rfx.Edit) : Option (Except PsmAddress Ionwm) :=
  match call with
  | (now, .insertContact fromTime toTime fromNode toNode xmitRate prob) =>
    some ((rfxInsertContact m now fromTime toTime fromNode toNode xmitRate prob).map Prod.fst)
  | (now, .removeContact fromTime fromNode toNode) => rfxRemoveContact rounds m now fromTime fromNode toNode
  | (now, .insertRange fromTime toTime fromNode toNode owlt) =>
    some ((rfxInsertRange m now fromTime toTime fromNode toNode owlt).map Prod.fst)
  | (now, .removeRange fromTime fromNode toNode) => rfxRemoveRange rounds m now fromTime fromNode toNode

end WorkingMemory
