import CgrJni.IonDb
import CgrJni.Runs

/-!
Insertion and removal of contacts and ranges. A removal that never comes to an
end yields `none`; the time of a call is an argument. Addresses are handed out
in order and never again, so a released record keeps the contents it had.
-/

namespace Rfx

open IonDb IntervalIndex

def findNode (nodes : NodeTree) (nodeNbr : Nat) : Option IonNode := nodes.lookup nodeNbr

def addNode (nodes : NodeTree) (nodeNbr : Nat) (h : findNode nodes nodeNbr = none) : NodeTree :=
  nodes.insert ⟨nodeNbr, []⟩ h

def loadNode (nodes : NodeTree) (nodeNbr : Nat) : NodeTree :=
  match h : findNode nodes nodeNbr with
  | some _ => nodes
  | none => addNode nodes nodeNbr h

def insertEvent (timeline : List IonEvent) (event : IonEvent) : List IonEvent :=
  timeline.orderedInsert (fun a b => a.key ≤ b.key) event

def deleteEvent (timeline : List IonEvent) (event : IonEvent) : List IonEvent :=
  timeline.eraseP (fun e => e.key = event.key)

/-- A time that was never computed is zero and has no event. -/
def eventAt (time : Int) (type : IonEventType) (ref : PsmAddress) : List IonEvent :=
  if time = 0 then [] else [⟨time, type, ref⟩]

/-- The events that an insertion schedules, and those that a deletion looks for. -/
def contactEvents (c : IonCXref) : List IonEvent :=
  eventAt c.startXmit .startXmit c.addr ++ eventAt c.stopXmit .stopXmit c.addr ++
    eventAt c.startFire .startFire c.addr ++ eventAt c.stopFire .stopFire c.addr ++
    eventAt c.purgeTime .purgeContact c.addr

def deletedContactEvents (c : IonCXref) : List IonEvent :=
  eventAt c.startXmit .startXmit c.addr ++ eventAt c.stopXmit .stopXmit c.addr ++
    eventAt c.startFire .startFire c.addr ++ eventAt c.stopFire .stopFire c.addr ++
    eventAt c.startRecv .startRecv c.addr ++ eventAt c.stopRecv .stopRecv c.addr ++
    eventAt c.purgeTime .purgeContact c.addr

def rangeEvents (r : IonRXref) : List IonEvent :=
  if r.imputed then
    [⟨r.fromTime, .startImputedRange, r.addr⟩, ⟨r.toTime, .stopImputedRange, r.addr⟩]
  else
    [⟨r.fromTime, .startAssertedRange, r.addr⟩, ⟨r.toTime, .stopAssertedRange, r.addr⟩]

/-- Only an edit whose interval is not over yet affects routes. -/
def editTime (s : IonState) (now toTime : Int) : Int := if now < toTime then now else s.lastEditTime

/-- The index entry of a new contact: transmission is curtailed at the sending
node, timers at the receiving node, and every other node purges at the end.
The probability is not passed on. -/
abbrev contactEntry (s : IonState) (span : Span) (xmitRate : Nat) (contactElt : Object) : IonCXref where
  toSpan := span
  xmitRate := xmitRate
  prob := 0
  startXmit := if span.fromNode = s.ownNodeNbr then span.fromTime + s.maxClockError else 0
  stopXmit := if span.fromNode = s.ownNodeNbr then span.toTime - s.maxClockError else 0
  startFire := if span.toNode = s.ownNodeNbr then span.fromTime + s.maxClockError else 0
  stopFire := if span.toNode = s.ownNodeNbr then span.toTime - s.maxClockError else 0
  startRecv := 0
  stopRecv := 0
  purgeTime := if span.toNode = s.ownNodeNbr then 0 else span.toTime
  contactElt := contactElt
  addr := s.lastAddr + 1

def insertCXref (s : IonState) (now : Int) (cxref : IonCXref)
    (h : s.contactIndex.lookup cxref.key = none) : IonState :=
  { s with
    nodes := loadNode (loadNode s.nodes cxref.toNode) cxref.fromNode
    contactIndex := s.contactIndex.insert cxref h
    timeline := (contactEvents cxref).foldl insertEvent s.timeline
    lastEditTime := editTime s now cxref.toTime
    lastAddr := cxref.addr }

def addContact (s : IonState) (now : Int) (span : Span) (xmitRate : Nat) (prob : ℚ)
    (h : s.contactIndex.lookup span.key = none) : IonState × PsmAddress :=
  let elt := s.lastObject + 1
  let cxref := contactEntry s span xmitRate elt
  (insertCXref { s with contacts := s.contacts ++ [(elt, ⟨span, xmitRate, prob⟩)], lastObject := elt }
    now cxref h, cxref.addr)

/-- The neighbour test for contacts and for ranges, with the successor that the search reported. -/
def overlapsContact (idx : ContactIndex) (span : Span) : Bool :=
  blocked (fun c => c.toTime) idx span.pair span.fromTime span.toTime (idx.successor span.key)

def overlapsRange (idx : RangeIndex) (span : Span) (nextElt : Option IonRXref) : Bool :=
  blocked (fun r => r.toTime) idx span.pair span.fromTime span.toTime nextElt

def insertContact (s : IonState) (now : Int) (span : Span) (xmitRate : Nat) (prob : ℚ) :
    IonState × PsmAddress :=
  match h : s.contactIndex.lookup span.key with
  | some cxref => (s, if cxref.xmitRate = xmitRate then cxref.addr else 0)
  | none =>
    if overlapsContact s.contactIndex span then (s, 0)
    else addContact s now span xmitRate prob h

def rfxInsertContact (s : IonState) (now fromTime toTime : Int) (fromNode toNode xmitRate : Nat)
    (prob : ℚ) : IonState × PsmAddress :=
  match Span.check fromTime toTime fromNode toNode with
  | none => (s, 0)
  | some span =>
    if 0 < prob ∧ prob ≤ 1 then insertContact s now span xmitRate prob else (s, 0)

def deleteContact (s : IonState) (now : Int) (cxref : IonCXref) : IonState :=
  { s with
    timeline := (deletedContactEvents cxref).foldl deleteEvent s.timeline
    lastEditTime := editTime s now cxref.toTime
    contactIndex := s.contactIndex.erase cxref.key
    contacts := s.contacts.filter (fun c => c.1 ≠ cxref.contactElt) }

/-- One round of the wild-card loop: the first remaining contact of the two nodes goes. -/
def removeContactsRound (now : Int) (fromNode toNode : Nat) (s : IonState) : IonState ⊕ IonState :=
  match s.contactIndex.successor (wildKey fromNode toNode) with
  | none => .inr s
  | some cxref =>
    if fromNode < cxref.fromNode ∨ toNode < cxref.toNode then .inr s
    else .inl (deleteContact s now cxref)

def rfxRemoveContact (s : IonState) (now fromTime : Int) (fromNode toNode : Nat) : Option IonState :=
  if fromTime ≠ 0 then
    match s.contactIndex.lookup (toLex (toLex (fromNode, toNode), fromTime)) with
    | some cxref => some (deleteContact s now cxref)
    | none => some s
  else Runs.loop (removeContactsRound now fromNode toNode) (s.contactIndex.entries.length + 1) s

/-- The index entry and the events of a range, asserted or imputed. -/
def indexRange (s : IonState) (rxref : IonRXref) (h : s.rangeIndex.lookup rxref.key = none) : IonState :=
  { s with
    rangeIndex := s.rangeIndex.insert rxref h
    timeline := (rangeEvents rxref).foldl insertEvent s.timeline
    lastAddr := rxref.addr }

def assertRange (s : IonState) (now : Int) (rxref : IonRXref)
    (h : s.rangeIndex.lookup rxref.key = none) : IonState :=
  { indexRange s rxref h with
    nodes := loadNode (loadNode s.nodes rxref.toNode) rxref.fromNode
    lastEditTime := editTime s now rxref.toTime }

abbrev imputedEntry (rxref : IonRXref) (addr : PsmAddress) : IonRXref where
  toSpan := rxref.toSpan.reverse
  owlt := rxref.owlt
  rangeElt := 0
  addr := addr

/-- The reverse of a canonical assertion is imputed unless an entry starts at
the same time already; it is not checked for overlap. -/
def imputeRange (s : IonState) (rxref : IonRXref) : IonState :=
  if rxref.toNode < rxref.fromNode then s
  else
    match h : s.rangeIndex.lookup rxref.toSpan.reverse.key with
    | some _ => s
    | none => indexRange s (imputedEntry rxref (s.lastAddr + 1)) h

def insertRXref (s : IonState) (now : Int) (rxref : IonRXref)
    (h : s.rangeIndex.lookup rxref.key = none) : IonState :=
  imputeRange (assertRange s now rxref h) rxref

abbrev rangeEntry (s : IonState) (span : Span) (owlt : Nat) (rangeElt : Object) : IonRXref where
  toSpan := span
  owlt := owlt
  rangeElt := rangeElt
  addr := s.lastAddr + 1

def addRange (s : IonState) (now : Int) (span : Span) (owlt : Nat) (nextElt : Option IonRXref)
    (h : s.rangeIndex.lookup span.key = none) : IonState × PsmAddress :=
  if overlapsRange s.rangeIndex span nextElt then (s, 0)
  else
    let elt := s.lastObject + 1
    let rxref := rangeEntry s span owlt elt
    (insertRXref { s with ranges := s.ranges ++ [(elt, ⟨span, owlt⟩)], lastObject := elt }
      now rxref h, rxref.addr)

/-- An imputed range that is being overridden goes, with its events. -/
def dropImputed (s : IonState) (rxref : IonRXref) : IonState :=
  { s with
    rangeIndex := s.rangeIndex.erase rxref.key
    timeline := (rangeEvents rxref).foldl deleteEvent s.timeline }

theorem lookup_dropImputed {s : IonState} {rxref : IonRXref} {span : Span}
    (h : s.rangeIndex.lookup span.key = some rxref) :
    (dropImputed s rxref).rangeIndex.lookup span.key = none := by
  rw [← (SortedIndex.lookup_eq_some.mp h).2, key_range]
  exact SortedIndex.lookup_erase_self _ _

/-- The search that finds the key reports no successor, and an override goes on with that. -/
def insertRange (s : IonState) (now : Int) (span : Span) (owlt : Nat) : IonState × PsmAddress :=
  match h : s.rangeIndex.lookup span.key with
  | some rxref =>
    if rxref.imputed then
      addRange (dropImputed s rxref) now span owlt none (lookup_dropImputed h)
    else (s, if rxref.owlt = owlt then rxref.addr else 0)
  | none => addRange s now span owlt (s.rangeIndex.successor span.key) h

def rfxInsertRange (s : IonState) (now fromTime toTime : Int) (fromNode toNode owlt : Nat) :
    IonState × PsmAddress :=
  match Span.check fromTime toTime fromNode toNode with
  | none => (s, 0)
  | some span => insertRange s now span owlt

/-- A conditional deletion retains an asserted range. -/
def deleteRange (s : IonState) (now : Int) (rxref : IonRXref) (conditional : Bool) : IonState :=
  if !rxref.imputed && conditional then s
  else
    { s with
      ranges := if rxref.imputed then s.ranges
        else s.ranges.filter (fun r => r.1 ≠ rxref.rangeElt)
      timeline := (rangeEvents rxref).foldl deleteEvent s.timeline
      lastEditTime := editTime s now rxref.toTime
      rangeIndex := s.rangeIndex.erase rxref.key }

def removeRangesRound (now : Int) (fromNode toNode : Nat) (conditional : Bool) (s : IonState) :
    IonState ⊕ IonState :=
  match s.rangeIndex.successor (wildKey fromNode toNode) with
  | none => .inr s
  | some rxref =>
    if fromNode < rxref.fromNode ∨ toNode < rxref.toNode then .inr s
    else .inl (deleteRange s now rxref conditional)

/-- Both halves of a removal: of the two nodes as given, then of the reverse direction. -/
def removeRanges (s : IonState) (now fromTime : Int) (fromNode toNode : Nat) (conditional : Bool) :
    Option IonState :=
  if fromTime ≠ 0 then
    match s.rangeIndex.lookup (toLex (toLex (fromNode, toNode), fromTime)) with
    | some rxref => some (deleteRange s now rxref conditional)
    | none => some s
  else
    Runs.loop (removeRangesRound now fromNode toNode conditional) (s.rangeIndex.entries.length + 1) s

def rfxRemoveRange (s : IonState) (now fromTime : Int) (fromNode toNode : Nat) : Option IonState :=
  if toNode < fromNode then removeRanges s now fromTime fromNode toNode false
  else
    (removeRanges s now fromTime fromNode toNode false).bind
      (fun t => removeRanges t now fromTime toNode fromNode true)

/-- The calls that edit the contact plan, with their arguments. -/
inductive Edit
  | insertContact (fromTime toTime : Int) (fromNode toNode xmitRate : Nat) (prob : ℚ)
  | removeContact (fromTime : Int) (fromNode toNode : Nat)
  | insertRange (fromTime toTime : Int) (fromNode toNode owlt : Nat)
  | removeRange (fromTime : Int) (fromNode toNode : Nat)

def edit (s : IonState) (call : Int × Edit) : Option IonState :=
  match call with
  | (now, .insertContact fromTime toTime fromNode toNode xmitRate prob) =>
    some (rfxInsertContact s now fromTime toTime fromNode toNode xmitRate prob).1
  | (now, .removeContact fromTime fromNode toNode) => rfxRemoveContact s now fromTime fromNode toNode
  | (now, .insertRange fromTime toTime fromNode toNode owlt) =>
    some (rfxInsertRange s now fromTime toTime fromNode toNode owlt).1
  | (now, .removeRange fromTime fromNode toNode) => rfxRemoveRange s now fromTime fromNode toNode

end Rfx
