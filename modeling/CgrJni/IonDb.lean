import CgrJni.IntervalIndex

/-!
The ION database of one node: the contacts and ranges on record, the volatile
indexes over them, and the timeline of scheduled events.
-/

namespace IonDb

open IntervalIndex (key)

abbrev PsmAddress := Nat
abbrev Object := Nat

/-- Two nodes and an interval of time, as checked before anything is inserted. -/
structure Span where
  fromNode : Nat
  toNode : Nat
  fromTime : Int
  toTime : Int
  fromNode_ne : fromNode ≠ 0
  toNode_ne : toNode ≠ 0
  fromTime_ne : fromTime ≠ 0
  interval : fromTime < toTime
  deriving DecidableEq, Repr

def Span.pair (s : Span) : ℕ ×ₗ ℕ := toLex (s.fromNode, s.toNode)

/-- The reverse direction, over the same interval. -/
def Span.reverse (s : Span) : Span where
  fromNode := s.toNode
  toNode := s.fromNode
  fromTime := s.fromTime
  toTime := s.toTime
  fromNode_ne := s.toNode_ne
  toNode_ne := s.fromNode_ne
  fromTime_ne := s.fromTime_ne
  interval := s.interval

/-- The checks that every insertion makes first. -/
def Span.check (fromTime toTime : Int) (fromNode toNode : Nat) : Option Span :=
  if h : fromTime ≠ 0 ∧ fromTime < toTime ∧ fromNode ≠ 0 ∧ toNode ≠ 0 then
    some ⟨fromNode, toNode, fromTime, toTime, h.2.2.1, h.2.2.2, h.1, h.2.1⟩
  else none

structure IonContact extends Span where
  xmitRate : Nat
  prob : ℚ
  deriving DecidableEq

structure IonRange extends Span where
  owlt : Nat
  deriving DecidableEq

/-- An entry of the contact index, with the times computed when it was inserted. -/
structure IonCXref extends Span where
  xmitRate : Nat
  prob : ℚ
  startXmit : Int
  stopXmit : Int
  startFire : Int
  stopFire : Int
  startRecv : Int
  stopRecv : Int
  purgeTime : Int
  contactElt : Object
  addr : PsmAddress
  deriving DecidableEq

/-- An entry of the range index; without a range on record it is an imputed one. -/
structure IonRXref extends Span where
  owlt : Nat
  rangeElt : Object
  addr : PsmAddress
  deriving DecidableEq

def IonRXref.imputed (r : IonRXref) : Prop := r.rangeElt = 0

instance (r : IonRXref) : Decidable r.imputed := inferInstanceAs (Decidable (_ = _))

abbrev IonCXref.pair (c : IonCXref) : ℕ ×ₗ ℕ := c.toSpan.pair
abbrev IonRXref.pair (r : IonRXref) : ℕ ×ₗ ℕ := r.toSpan.pair

/-- The order of `rfx_order_contacts` and `rfx_order_ranges`: both nodes, then the start. -/
abbrev Key := (ℕ ×ₗ ℕ) ×ₗ ℤ

abbrev Span.key (s : Span) : Key := toLex (s.pair, s.fromTime)

abbrev ContactIndex := SortedIndex (key IonCXref.pair (fun c => c.fromTime))
abbrev RangeIndex := SortedIndex (key IonRXref.pair (fun r => r.fromTime))

/-- The wild-card key of two nodes: before every contact that starts after the epoch. -/
def wildKey (fromNode toNode : Nat) : Key := toLex (toLex (fromNode, toNode), 0)

inductive IonEventType
  | stopImputedRange | stopAssertedRange | stopXmit | stopFire | stopRecv
  | startImputedRange | startAssertedRange | startXmit | startFire | startRecv
  | purgeContact
  deriving DecidableEq, Repr

def IonEventType.code : IonEventType → Nat
  | stopImputedRange => 0
  | stopAssertedRange => 1
  | stopXmit => 2
  | stopFire => 3
  | stopRecv => 4
  | startImputedRange => 16
  | startAssertedRange => 17
  | startXmit => 18
  | startFire => 19
  | startRecv => 20
  | purgeContact => 21

structure IonEvent where
  time : Int
  type : IonEventType
  ref : PsmAddress
  deriving DecidableEq, Repr

/-- The order of `rfx_order_events`. -/
def IonEvent.key (e : IonEvent) : ℤ ×ₗ ℕ ×ₗ ℕ := toLex (e.time, toLex (e.type.code, e.ref))

structure Embargo where
  nodeNbr : Nat
  probeIsDue : Bool
  deriving DecidableEq, Repr

structure IonNode where
  nodeNbr : Nat
  embargoes : List Embargo
  deriving DecidableEq, Repr

abbrev NodeTree := SortedIndex IonNode.nodeNbr

structure IonState where
  ownNodeNbr : Nat
  maxClockError : Int
  contacts : List (Object × IonContact)
  ranges : List (Object × IonRange)
  lastEditTime : Int
  nodes : NodeTree
  contactIndex : ContactIndex
  rangeIndex : RangeIndex
  timeline : List IonEvent
  lastAddr : PsmAddress
  lastObject : Object
  deriving DecidableEq

/-- The database right after `ionInitialize`. -/
def ionInitialize (ownNodeNbr : Nat) : IonState where
  ownNodeNbr := ownNodeNbr
  maxClockError := 0
  contacts := []
  ranges := []
  lastEditTime := 0
  nodes := SortedIndex.empty
  contactIndex := SortedIndex.empty
  rangeIndex := SortedIndex.empty
  timeline := []
  lastAddr := 0
  lastObject := 0

@[simp] theorem key_contact (c : IonCXref) :
    key IonCXref.pair (fun c => c.fromTime) c = c.toSpan.key := rfl

@[simp] theorem key_range (r : IonRXref) :
    key IonRXref.pair (fun r => r.fromTime) r = r.toSpan.key := rfl

@[simp] theorem Span.pair_eq_iff {a b : Span} :
    a.pair = b.pair ↔ a.fromNode = b.fromNode ∧ a.toNode = b.toNode := by
  simp [Span.pair]

@[simp] theorem Span.key_eq_iff {a b : Span} :
    a.key = b.key ↔ a.pair = b.pair ∧ a.fromTime = b.fromTime := by
  simp [Span.key]

theorem wildKey_lt_key {fromNode toNode : Nat} {s : Span} : wildKey fromNode toNode < s.key ↔
    fromNode < s.fromNode ∨ fromNode = s.fromNode ∧
      (toNode < s.toNode ∨ toNode = s.toNode ∧ 0 < s.fromTime) := by
  simp only [wildKey, Span.key, Span.pair, Prod.Lex.toLex_lt_toLex, EmbeddingLike.apply_eq_iff_eq,
    Prod.mk.injEq]
  omega

/-- Nothing starts at the epoch, so the wild-card key of two nodes is never taken. -/
theorem contacts_absent_wildKey (idx : ContactIndex) (fromNode toNode : Nat) :
    idx.lookup (wildKey fromNode toNode) = none :=
  IntervalIndex.lookup_eq_none_of_lo (fun c _ => c.fromTime_ne) _

theorem ranges_absent_wildKey (idx : RangeIndex) (fromNode toNode : Nat) :
    idx.lookup (wildKey fromNode toNode) = none :=
  IntervalIndex.lookup_eq_none_of_lo (fun r _ => r.fromTime_ne) _

theorem Span.check_eq_some {fromTime toTime : Int} {fromNode toNode : Nat} {s : Span}
    (h : Span.check fromTime toTime fromNode toNode = some s) :
    s.fromTime = fromTime ∧ s.toTime = toTime ∧ s.fromNode = fromNode ∧ s.toNode = toNode := by
  unfold Span.check at h
  split at h
  · obtain rfl := Option.some.inj h
    exact ⟨rfl, rfl, rfl, rfl⟩
  · cases h

@[simp] theorem Span.check_self (s : Span) :
    Span.check s.fromTime s.toTime s.fromNode s.toNode = some s := by
  rw [Span.check, dif_pos ⟨s.fromTime_ne, s.interval, s.fromNode_ne, s.toNode_ne⟩]

@[simp] theorem Span.reverse_reverse (s : Span) : s.reverse.reverse = s := rfl

theorem Span.reverse_pair {a b : Span} (h : a.pair = b.pair) : a.reverse.pair = b.reverse.pair := by
  obtain ⟨hfrom, hto⟩ := Span.pair_eq_iff.mp h
  exact Span.pair_eq_iff.mpr ⟨hto, hfrom⟩

theorem Span.reverse_key {a b : Span} (h : a.key = b.key) : a.reverse.key = b.reverse.key := by
  obtain ⟨hpair, hstart⟩ := Span.key_eq_iff.mp h
  exact Span.key_eq_iff.mpr ⟨Span.reverse_pair hpair, hstart⟩

/-- What a removal is addressed to: one start time, or any if the time is given as zero. -/
def Span.Matches (s : Span) (fromTime : Int) (fromNode toNode : Nat) : Prop :=
  s.fromNode = fromNode ∧ s.toNode = toNode ∧ (fromTime ≠ 0 → s.fromTime = fromTime)

instance (s : Span) (fromTime : Int) (fromNode toNode : Nat) :
    Decidable (s.Matches fromTime fromNode toNode) := inferInstanceAs (Decidable (_ ∧ _))

theorem Span.key_eq_iff_matches {s : Span} {fromTime : Int} (h0 : fromTime ≠ 0) {fromNode toNode : Nat} :
    s.key = toLex (toLex (fromNode, toNode), fromTime) ↔ s.Matches fromTime fromNode toNode := by
  simp [Span.key, Span.pair, Span.Matches, h0, and_assoc]

theorem Span.matches_zero {s : Span} {fromNode toNode : Nat} :
    s.Matches 0 fromNode toNode ↔ s.fromNode = fromNode ∧ s.toNode = toNode := by
  simp [Span.Matches]

/-- What a search with the wild-card key of two nodes reports: an entry of theirs after the epoch, or
else none is left, and what is reported lies beyond them. -/
theorem wildKey_successor {α : Type} (span : α → Span)
    (idx : SortedIndex (key (fun x => (span x).pair) (fun x => (span x).fromTime))) (fromNode toNode : Nat) :
    (∃ n ∈ idx, idx.successor (wildKey fromNode toNode) = some n ∧ (span n).Matches 0 fromNode toNode ∧
      0 < (span n).fromTime) ∨
    (∀ n, idx.successor (wildKey fromNode toNode) = some n →
      fromNode < (span n).fromNode ∨ toNode < (span n).toNode) ∧
      ∀ x ∈ idx, ¬ ((span x).Matches 0 fromNode toNode ∧ 0 < (span x).fromTime) := by
  have habs : idx.lookup (wildKey fromNode toNode) = none :=
    IntervalIndex.lookup_eq_none_of_lo (fun x _ => (span x).fromTime_ne) _
  rw [SortedIndex.successor_of_absent habs, wildKey]
  rcases IntervalIndex.next_cases idx (toLex (fromNode, toNode)) 0 with
    ⟨n, hmem, hnext, hpair, hpos⟩ | ⟨hlater, hnone⟩
  · exact Or.inl ⟨n, hmem, hnext, Span.matches_zero.mpr (Prod.mk.inj (toLex.injective hpair)), hpos⟩
  · refine Or.inr ⟨fun n hn => ?_, ?_⟩
    · have hlt := Prod.Lex.toLex_lt_toLex.mp (hlater n hn)
      dsimp only at hlt
      omega
    · rintro x hx ⟨hmatch, hpos⟩
      obtain ⟨hf, hto⟩ := Span.matches_zero.mp hmatch
      exact hnone x hx (congrArg toLex (Prod.ext hf hto)) hpos

/-- The intervals of two spans share no instant. -/
def Span.Disjoint (a b : Span) : Prop := a.toTime ≤ b.fromTime ∨ b.toTime ≤ a.fromTime

instance (a b : Span) : Decidable (a.Disjoint b) := inferInstanceAs (Decidable (_ ∨ _))

theorem Span.Disjoint.symm {a b : Span} (h : a.Disjoint b) : b.Disjoint a := Or.symm h

theorem Span.Disjoint.start_ne {a b : Span} (h : a.Disjoint b) : a.fromTime ≠ b.fromTime := by
  have ha := a.interval
  have hb := b.interval
  unfold Span.Disjoint at h
  omega

end IonDb
