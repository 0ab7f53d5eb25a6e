import CgrJni.Rfx

/-!
The data of contact graph routing: routes, the work areas of contacts, and what
the search computes from a contact and the range index.
-/

namespace Libcgr

open IonDb

def maxTime : Int := 2 ^ 31 - 1

def payloadClasses : Nat := 3

def minCapacity : Nat → Nat
  | 0 => 1024
  | 1 => 1024 * 1024
  | 2 => 1024 * 1024 * 1024
  | _ => 2 ^ 64 - 1

/-- An `IonCXref *`: the dummy root contact is not in the index. -/
inductive CXrefPtr
  | null
  | rootContact
  | entry (c : IonCXref)
  deriving DecidableEq

structure CgrContactNote where
  predecessor : CXrefPtr
  capacity : Nat
  arrivalTime : Int
  visited : Bool
  suppressed : Bool
  deriving DecidableEq

/-- A work area cleared for a series of searches. -/
def CgrContactNote.cleared : CgrContactNote := ⟨.null, 0, maxTime, false, false⟩

/-- The note that is the routing object of each contact. -/
abbrev Notes := IonCXref → CgrContactNote

/-- A route with its hops as values, where the source lists the addresses of index entries: these stay as they
were found, whatever the index has become. -/
structure CgrRoute where
  toNodeNbr : Nat
  fromTime : Int
  toTime : Int
  arrivalTime : Int
  hops : List IonCXref
  maxCapacity : Nat
  payloadClass : Nat
  deriving DecidableEq

def CgrRoute.zero : CgrRoute := ⟨0, 0, 0, 0, [], 0, 0⟩

/-- `xmitRate * (toTime - fromTime)` in an unsigned 64-bit variable. -/
def contactCapacity (c : IonCXref) : Nat := c.xmitRate * (c.toTime - c.fromTime).toNat % 2 ^ 64

def maxSpeedMph : Nat := 150000

/-- Additional latency for the movement of the receiving node, in unsigned 32-bit arithmetic. -/
def owltMargin (owlt : Nat) : Nat := maxSpeedMph / 3600 * owlt % 2 ^ 32 / 186282

/-- `owlt += owltMargin` in an unsigned 32-bit variable. -/
def owltWithMargin (owlt : Nat) : Nat := (owlt + owltMargin owlt) % 2 ^ 32

def applicableRange (contact : IonCXref) : List IonRXref → Option Nat
  | [] => none
  | range :: rest =>
    if contact.fromNode < range.fromNode ∨ contact.toNode < range.toNode then none
    else if range.toTime < contact.fromTime then applicableRange contact rest
    else if contact.fromTime < range.fromTime then none
    else some range.owlt

def getApplicableRange (s : IonState) (contact : IonCXref) : Option Nat :=
  applicableRange contact (s.rangeIndex.scan (wildKey contact.fromNode contact.toNode))

theorem getApplicableRange_above (s : IonState) (c : IonCXref) :
    getApplicableRange s c = applicableRange c (s.rangeIndex.above (wildKey c.fromNode c.toNode)) := by
  rw [getApplicableRange, SortedIndex.scan_of_absent (ranges_absent_wildKey s.rangeIndex c.fromNode c.toNode)]

/-- The range that applies is between the nodes of the contact, and in effect when it starts. -/
theorem getApplicableRange_mem {s : IonState} {c : IonCXref} {owlt : Nat} (h : getApplicableRange s c = some owlt) :
    ∃ r ∈ s.rangeIndex, r.fromNode = c.fromNode ∧ r.toNode = c.toNode ∧ 0 < r.fromTime ∧ r.fromTime ≤ c.fromTime ∧
      c.fromTime ≤ r.toTime := by
  rw [getApplicableRange_above] at h
  have hafter : ∀ r ∈ s.rangeIndex.above (wildKey c.fromNode c.toNode),
      r ∈ s.rangeIndex ∧ wildKey c.fromNode c.toNode < r.toSpan.key := fun r hr => SortedIndex.mem_above.mp hr
  generalize s.rangeIndex.above (wildKey c.fromNode c.toNode) = ranges at h hafter
  induction ranges with
  | nil => cases h
  | cons r rest ih =>
    obtain ⟨hmem, hlt⟩ := hafter r List.mem_cons_self
    have hr := wildKey_lt_key.mp hlt
    rw [applicableRange] at h
    split at h
    · cases h
    split at h
    · exact ih h (fun x hx => hafter x (List.mem_cons_of_mem r hx))
    split at h
    · cases h
    · exact ⟨r, hmem, by omega, by omega, by omega, by omega, by omega⟩

/-- A range only applies to a contact that starts after the epoch. -/
theorem getApplicableRange_starts {s : IonState} {c : IonCXref} {owlt : Nat} (h : getApplicableRange s c = some owlt) :
    0 < c.fromTime := by
  obtain ⟨r, -, -, -, hpos, hle, -⟩ := getApplicableRange_mem h
  omega

/-- The only range on record applies if it does at all. -/
theorem getApplicableRange_singleton {s : IonState} {c : IonCXref} {r : IonRXref} (h : s.rangeIndex.entries = [r])
    (hfrom : r.fromNode = c.fromNode) (hto : r.toNode = c.toNode) (hpos : 0 < r.fromTime)
    (hstart : r.fromTime ≤ c.fromTime) (hend : c.fromTime ≤ r.toTime) : getApplicableRange s c = some r.owlt := by
  have hwild : wildKey c.fromNode c.toNode < r.toSpan.key := wildKey_lt_key.mpr (Or.inr ⟨hfrom.symm, Or.inr ⟨hto.symm, hpos⟩⟩)
  rw [getApplicableRange_above, SortedIndex.above, h, List.filter_cons_of_pos (by simpa using hwild), applicableRange, if_neg (by omega),
    if_neg (by omega), if_neg (by omega)]

theorem contactCapacity_of_lt {c : IonCXref} (h : c.xmitRate * (c.toTime - c.fromTime).toNat < 2 ^ 64) :
    contactCapacity c = c.xmitRate * (c.toTime - c.fromTime).toNat := Nat.mod_eq_of_lt h

end Libcgr
