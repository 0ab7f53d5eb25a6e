import CgrJni.ContactRemoval
import CgrJni.RangeRemoval
import CgrJni.RfxStart
import CgrJni.WorkingMemory

/-!
Which calls read a record after they have released it. A state of the database is compared with
working memory that holds just the records of its index entries.
-/

namespace ReleasedRecords

open IonDb Rfx RfxContacts RfxRanges RecordIndex
open RfxStart (Unused)
open WorkingMemory (Ionwm)

/-- The state with these indexes in place of the addresses. -/
def toState (m : Ionwm) (contactIndex : ContactIndex) (rangeIndex : RangeIndex) : IonState where
  ownNodeNbr := m.ownNodeNbr
  maxClockError := m.maxClockError
  contacts := m.contacts
  ranges := m.ranges
  lastEditTime := m.lastEditTime
  nodes := m.nodes
  contactIndex := contactIndex
  rangeIndex := rangeIndex
  timeline := m.timeline
  lastAddr := m.lastAddr
  lastObject := m.lastObject

/-- Working memory holds the entries of both indexes and no other records. -/
structure Represents (m : Ionwm) (s : IonState) : Prop where
  contacts : Holds IonCXref.addr m.cxrefs m.contactIndex s.contactIndex
  ranges : Holds IonRXref.addr m.rxrefs m.rangeIndex s.rangeIndex
  contact_le : ∀ c ∈ s.contactIndex, c.addr ≤ s.lastAddr
  range_le : ∀ r ∈ s.rangeIndex, r.addr ≤ s.lastAddr
  rest : s = toState m s.contactIndex s.rangeIndex

variable {m : Ionwm} {s t : IonState}

theorem Represents.eq_toState (h : Represents m s) : ∃ contactIndex rangeIndex, s = toState m contactIndex rangeIndex :=
  ⟨_, _, h.rest⟩

theorem insertCXref_represents (h : Represents m s) (now : Int) (cxref : IonCXref)
    (hk : s.contactIndex.lookup cxref.key = none) (hnew : s.lastAddr < cxref.addr) :
    ∃ m', WorkingMemory.insertCXref m now cxref = .ok m' ∧ Represents m' (insertCXref s now cxref hk) := by
  obtain ⟨contactIndex, rangeIndex, rfl⟩ := h.eq_toState
  have hold : ∀ c ∈ contactIndex, c.addr < cxref.addr := fun c hc => (h.contact_le c hc).trans_lt hnew
  obtain ⟨index', hins, hholds⟩ := h.contacts.insert hk (fun c hc => (hold c hc).ne)
  rw [WorkingMemory.insertCXref, hins]
  refine ⟨_, rfl, hholds, h.ranges, ?_, ?_, rfl⟩
  · intro c hc
    cases (SortedIndex.mem_insert (h := hk)).mp hc with
    | inl he => exact he ▸ le_rfl
    | inr hc => exact (hold c hc).le
  · intro r hr
    exact (h.range_le r hr).trans hnew.le

theorem insertContact_represents (h : Represents m s) (now : Int) (span : Span) (xmitRate : Nat) (prob : ℚ) :
    ∃ m' addr, WorkingMemory.insertContact m now span xmitRate prob = .ok (m', addr) ∧
      Represents m' (insertContact s now span xmitRate prob).1 := by
  have hsearch := h.contacts.search span.key
  have hblocked : blocked IonCXref.pair (fun c => c.fromTime) (fun c => c.toTime) m.cxrefs m.contactIndex span.pair
      span.fromTime span.toTime ((s.contactIndex.successor span.key).map IonCXref.addr) =
        .ok (overlapsContact s.contactIndex span) :=
    h.contacts.blocked (fun n hn => (SortedIndex.next_eq_some (SortedIndex.successor_eq_some hn).2).1)
  rw [WorkingMemory.insertContact, hsearch]
  simp only [bind, Except.bind]
  obtain ⟨c, hc, he⟩ | ⟨hk, hov, he⟩ | ⟨hk, hov, he⟩ := insertContact_cases s now span xmitRate prob
  · rw [hc, he]
    simp only [Option.map_some, h.contacts.read (SortedIndex.lookup_eq_some.mp hc).1]
    exact ⟨m, _, rfl, h⟩
  · rw [hk, he]
    simp only [Option.map_none, hblocked]
    rw [if_pos hov]
    exact ⟨m, _, rfl, h⟩
  · rw [hk, he]
    simp only [Option.map_none, hblocked]
    rw [if_neg (by simp [hov])]
    obtain ⟨contactIndex, rangeIndex, rfl⟩ := h.eq_toState
    have hrec : Represents
        { m with
          contacts := m.contacts ++ [(m.lastObject + 1, ⟨span, xmitRate, prob⟩)]
          lastObject := m.lastObject + 1 }
        { toState m contactIndex rangeIndex with
          contacts := m.contacts ++ [(m.lastObject + 1, ⟨span, xmitRate, prob⟩)]
          lastObject := m.lastObject + 1 } :=
      ⟨h.contacts, h.ranges, h.contact_le, h.range_le, rfl⟩
    obtain ⟨m', hm', hrep⟩ := insertCXref_represents hrec now
      (WorkingMemory.contactEntry m span xmitRate (m.lastObject + 1)) hk (Nat.lt_succ_self _)
    rw [WorkingMemory.addContact, hm']
    exact ⟨m', _, rfl, hrep⟩

theorem rfxInsertContact_represents (h : Represents m s) (now fromTime toTime : Int) (fromNode toNode xmitRate : Nat)
    (prob : ℚ) :
    ∃ m' addr, WorkingMemory.rfxInsertContact m now fromTime toTime fromNode toNode xmitRate prob = .ok (m', addr) ∧
      Represents m' (rfxInsertContact s now fromTime toTime fromNode toNode xmitRate prob).1 := by
  unfold WorkingMemory.rfxInsertContact rfxInsertContact
  cases Span.check fromTime toTime fromNode toNode with
  | none => exact ⟨m, 0, rfl, h⟩
  | some span =>
    by_cases hp : 0 < prob ∧ prob ≤ 1
    · simp only [if_pos hp]
      exact insertContact_represents h now span xmitRate prob
    · simp only [if_neg hp]
      exact ⟨m, 0, rfl, h⟩

theorem indexRange_represents (h : Represents m s) (rxref : IonRXref) (hk : s.rangeIndex.lookup rxref.key = none)
    (hnew : s.lastAddr < rxref.addr) :
    ∃ m', WorkingMemory.indexRange m rxref = .ok m' ∧ Represents m' (indexRange s rxref hk) := by
  obtain ⟨contactIndex, rangeIndex, rfl⟩ := h.eq_toState
  have hold : ∀ r ∈ rangeIndex, r.addr < rxref.addr := fun r hr => (h.range_le r hr).trans_lt hnew
  obtain ⟨index', hins, hholds⟩ := h.ranges.insert hk (fun r hr => (hold r hr).ne)
  rw [WorkingMemory.indexRange, hins]
  refine ⟨_, rfl, h.contacts, hholds, ?_, ?_, rfl⟩
  · intro c hc
    exact (h.contact_le c hc).trans hnew.le
  · intro r hr
    cases (SortedIndex.mem_insert (h := hk)).mp hr with
    | inl he => exact he ▸ le_rfl
    | inr hr => exact (hold r hr).le

theorem assertRange_represents (h : Represents m s) (now : Int) (rxref : IonRXref)
    (hk : s.rangeIndex.lookup rxref.key = none) (hnew : s.lastAddr < rxref.addr) :
    ∃ m', WorkingMemory.assertRange m now rxref = .ok m' ∧ Represents m' (assertRange s now rxref hk) := by
  obtain ⟨m', hm', hrep⟩ := indexRange_represents h rxref hk hnew
  have hrest := hrep.rest
  obtain ⟨contactIndex, rangeIndex, rfl⟩ := h.eq_toState
  rw [WorkingMemory.assertRange, hm']
  refine ⟨_, rfl, hrep.contacts, hrep.ranges, hrep.contact_le, hrep.range_le, ?_⟩
  unfold assertRange
  rw [hrest]
  rfl

theorem imputeRange_found {rxref x : IonRXref} (h : s.rangeIndex.lookup rxref.toSpan.reverse.key = some x) :
    imputeRange s rxref = s := by
  unfold imputeRange
  split
  · rfl
  split
  · rfl
  · rename_i hnone
    rw [h] at hnone
    cases hnone

theorem imputeRange_absent {rxref : IonRXref} (hdir : ¬ rxref.toNode < rxref.fromNode)
    (h : s.rangeIndex.lookup rxref.toSpan.reverse.key = none) :
    imputeRange s rxref = indexRange s (imputedEntry rxref (s.lastAddr + 1)) h := by
  unfold imputeRange
  rw [if_neg hdir]
  split
  · rename_i x hx
    rw [h] at hx
    cases hx
  · rfl

/-- The record of the imputed range is written twice, with the same contents. -/
theorem imputeRange_represents (h : Represents m s) (rxref : IonRXref) :
    ∃ m', WorkingMemory.imputeRange m rxref = .ok m' ∧ Represents m' (imputeRange s rxref) := by
  rw [WorkingMemory.imputeRange]
  by_cases hdir : rxref.toNode < rxref.fromNode
  · rw [if_pos hdir, imputeRange, if_pos hdir]
    exact ⟨m, rfl, h⟩
  rw [if_neg hdir, h.ranges.search]
  cases hlookup : s.rangeIndex.lookup rxref.toSpan.reverse.key with
  | some x =>
    rw [imputeRange_found hlookup]
    exact ⟨m, rfl, h⟩
  | none =>
    rw [imputeRange_absent hdir hlookup]
    obtain ⟨contactIndex, rangeIndex, rfl⟩ := h.eq_toState
    obtain ⟨m', hm', hrep⟩ := indexRange_represents h (imputedEntry rxref (m.lastAddr + 1)) hlookup
      (Nat.lt_succ_self _)
    have hread : read (m.rxrefs.insert (m.lastAddr + 1) (imputedEntry rxref (m.lastAddr + 1))) (m.lastAddr + 1) =
        .ok (imputedEntry rxref (m.lastAddr + 1)) := by
      rw [read_eq_ok, AList.lookup_insert]
    refine ⟨m', ?_, hrep⟩
    simp only [Option.map_none, bind, Except.bind, hread]
    rw [← hm', WorkingMemory.indexRange, WorkingMemory.indexRange]
    simp only [AList.insert_insert]

theorem addRange_represents (h : Represents m s) (now : Int) (span : Span) (owlt : Nat) {nextElt : Option IonRXref}
    (hnext : ∀ n, nextElt = some n → n ∈ s.rangeIndex) (hk : s.rangeIndex.lookup span.key = none) :
    ∃ m' addr, WorkingMemory.addRange m now span owlt (nextElt.map IonRXref.addr) = .ok (m', addr) ∧
      Represents m' (addRange s now span owlt nextElt hk).1 := by
  have hblocked : blocked IonRXref.pair (fun r => r.fromTime) (fun r => r.toTime) m.rxrefs m.rangeIndex span.pair
      span.fromTime span.toTime (nextElt.map IonRXref.addr) = .ok (overlapsRange s.rangeIndex span nextElt) :=
    h.ranges.blocked hnext
  rw [WorkingMemory.addRange, hblocked]
  simp only [bind, Except.bind]
  cases hov : overlapsRange s.rangeIndex span nextElt with
  | true =>
    rw [addRange_rejected hov]
    exact ⟨m, 0, rfl, h⟩
  | false =>
    rw [addRange_accepted hov, if_neg (by simp)]
    obtain ⟨contactIndex, rangeIndex, rfl⟩ := h.eq_toState
    have hrec : Represents
        { m with ranges := m.ranges ++ [(m.lastObject + 1, ⟨span, owlt⟩)], lastObject := m.lastObject + 1 }
        (recordRange (toState m contactIndex rangeIndex) span owlt) :=
      ⟨h.contacts, h.ranges, h.contact_le, h.range_le, rfl⟩
    obtain ⟨m₁, hm₁, hrep₁⟩ := assertRange_represents hrec now
      (WorkingMemory.rangeEntry m span owlt (m.lastObject + 1)) hk (Nat.lt_succ_self _)
    obtain ⟨m₂, hm₂, hrep₂⟩ := imputeRange_represents hrep₁ (WorkingMemory.rangeEntry m span owlt (m.lastObject + 1))
    simp only [WorkingMemory.insertRXref, hm₁, hm₂, bind, Except.bind]
    exact ⟨m₂, _, rfl, hrep₂⟩

theorem eraseContact_represents (h : Represents m s) {c : IonCXref} (hc : c ∈ s.contactIndex) :
    ∃ contactIndex', WorkingMemory.eraseContact m c.key =
        .ok { m with contactIndex := contactIndex', cxrefs := m.cxrefs.erase c.addr } := by
  obtain ⟨index', htake, -⟩ := h.contacts.erase hc
  refine ⟨index', ?_⟩
  rw [WorkingMemory.eraseContact, htake]
  rfl

/-- The record of a contact is released before the last of its fields is read. -/
theorem deleteContact_fails (h : Represents m s) (now : Int) {c : IonCXref} (hc : c ∈ s.contactIndex) :
    WorkingMemory.deleteContact m now c.addr = .error c.addr := by
  have htimed : Represents
      { m with
        timeline := (deletedContactEvents c).foldl deleteEvent m.timeline
        lastEditTime := WorkingMemory.editTime m now c.toTime }
      { s with
        timeline := (deletedContactEvents c).foldl deleteEvent m.timeline
        lastEditTime := WorkingMemory.editTime m now c.toTime } := by
    obtain ⟨contactIndex, rangeIndex, rfl⟩ := h.eq_toState
    exact ⟨h.contacts, h.ranges, h.contact_le, h.range_le, rfl⟩
  obtain ⟨index', herase⟩ := eraseContact_represents htimed hc
  rw [WorkingMemory.deleteContact, h.contacts.read hc]
  simp only [bind, Except.bind, herase, read_released]

theorem eraseRange_represents (h : Represents m s) {r : IonRXref} (hr : r ∈ s.rangeIndex) :
    ∃ rangeIndex', WorkingMemory.eraseRange m r.key =
        .ok { m with rangeIndex := rangeIndex', rxrefs := m.rxrefs.erase r.addr } ∧
      Represents { m with rangeIndex := rangeIndex', rxrefs := m.rxrefs.erase r.addr }
        { s with rangeIndex := s.rangeIndex.erase r.key } := by
  obtain ⟨contactIndex, rangeIndex, rfl⟩ := h.eq_toState
  obtain ⟨index', htake, hholds⟩ := h.ranges.erase hr
  refine ⟨index', ?_, h.contacts, hholds, h.contact_le, ?_, rfl⟩
  · rw [WorkingMemory.eraseRange, htake]
    rfl
  · intro x hx
    exact h.range_le x (SortedIndex.mem_erase.mp hx).1

theorem dropImputed_fails (h : Represents m s) {span : Span} {r : IonRXref}
    (hr : s.rangeIndex.lookup span.key = some r) : WorkingMemory.dropImputed m span r.addr = .error r.addr := by
  obtain ⟨hmem, hkey⟩ := SortedIndex.lookup_eq_some.mp hr
  obtain ⟨index', herase, -⟩ := eraseRange_represents h hmem
  rw [WorkingMemory.dropImputed, ← hkey, herase]
  simp only [bind, Except.bind, read_released]

theorem deleteRange_represents (h : Represents m s) (now : Int) {r : IonRXref} (hr : r ∈ s.rangeIndex)
    (conditional : Bool) :
    ∃ m', WorkingMemory.deleteRange m now r.addr conditional = .ok m' ∧
      Represents m' (deleteRange s now r conditional) := by
  obtain ⟨contactIndex, rangeIndex, rfl⟩ := h.eq_toState
  rw [WorkingMemory.deleteRange, h.ranges.read hr]
  simp only [bind, Except.bind]
  unfold deleteRange
  split
  · exact ⟨m, rfl, h⟩
  · have hedited : Represents
        { m with
          ranges := if r.imputed then m.ranges else m.ranges.filter (fun x => x.1 ≠ r.rangeElt)
          timeline := (rangeEvents r).foldl deleteEvent m.timeline
          lastEditTime := WorkingMemory.editTime m now r.toTime }
        { toState m contactIndex rangeIndex with
          ranges := if r.imputed then m.ranges else m.ranges.filter (fun x => x.1 ≠ r.rangeElt)
          timeline := (rangeEvents r).foldl deleteEvent m.timeline
          lastEditTime := WorkingMemory.editTime m now r.toTime } :=
      ⟨h.contacts, h.ranges, h.contact_le, h.range_le, rfl⟩
    obtain ⟨index', herase, hrep⟩ := eraseRange_represents hedited hr
    exact ⟨_, herase, hrep⟩

theorem insertRange_fails (h : Represents m s) (now : Int) {span : Span} (owlt : Nat) {r : IonRXref}
    (hr : s.rangeIndex.lookup span.key = some r) (himp : r.imputed) :
    WorkingMemory.insertRange m now span owlt = .error r.addr := by
  rw [WorkingMemory.insertRange, h.ranges.search, hr]
  simp only [bind, Except.bind, Option.map_some, h.ranges.read (SortedIndex.lookup_eq_some.mp hr).1]
  rw [if_pos himp, dropImputed_fails h hr]

theorem insertRange_represents (h : Represents m s) (now : Int) (span : Span) (owlt : Nat)
    (hasserted : ∀ r, s.rangeIndex.lookup span.key = some r → ¬ r.imputed) :
    ∃ m' addr, WorkingMemory.insertRange m now span owlt = .ok (m', addr) ∧
      Represents m' (insertRange s now span owlt).1 := by
  rw [WorkingMemory.insertRange, h.ranges.search]
  simp only [bind, Except.bind]
  obtain ⟨r, hr, himp, he⟩ | ⟨r, hr, himp, -⟩ | ⟨hk, he⟩ := insertRange_cases s now span owlt
  · rw [hr, he]
    simp only [Option.map_some, h.ranges.read (SortedIndex.lookup_eq_some.mp hr).1]
    rw [if_neg himp]
    exact ⟨m, _, rfl, h⟩
  · exact absurd himp (hasserted r hr)
  · rw [hk, he]
    exact addRange_represents h now span owlt
      (fun n hn => (SortedIndex.next_eq_some (SortedIndex.successor_eq_some hn).2).1) hk

/-- A round of the wild-card loop looks at the same contact as a round on the state. -/
theorem removeNextContact_cases (h : Represents m s) (now : Int) (fromNode toNode : Nat) :
    (removeContactsRound now fromNode toNode s = .inr s ∧
      WorkingMemory.removeNextContact now fromNode toNode m = .ok none) ∨
    ∃ c ∈ s.contactIndex, removeContactsRound now fromNode toNode s = .inl (deleteContact s now c) ∧
      WorkingMemory.removeNextContact now fromNode toNode m = .error c.addr := by
  rw [WorkingMemory.removeNextContact, h.contacts.search, removeContactsRound]
  simp only [bind, Except.bind]
  cases hsucc : s.contactIndex.successor (wildKey fromNode toNode) with
  | none => exact Or.inl ⟨rfl, rfl⟩
  | some c =>
    have hc : c ∈ s.contactIndex := (SortedIndex.next_eq_some (SortedIndex.successor_eq_some hsucc).2).1
    simp only [Option.map_some, h.contacts.read hc]
    by_cases hpast : fromNode < c.fromNode ∨ toNode < c.toNode
    · rw [if_pos hpast, if_pos hpast]
      exact Or.inl ⟨rfl, rfl⟩
    · rw [if_neg hpast, if_neg hpast, deleteContact_fails h now hc]
      exact Or.inr ⟨c, hc, rfl, rfl⟩

theorem removeNextRange_cases (h : Represents m s) (now : Int) (fromNode toNode : Nat) (conditional : Bool) :
    (removeRangesRound now fromNode toNode conditional s = .inr s ∧
      WorkingMemory.removeNextRange now fromNode toNode conditional m = .ok none) ∨
    ∃ t m', removeRangesRound now fromNode toNode conditional s = .inl t ∧
      WorkingMemory.removeNextRange now fromNode toNode conditional m = .ok (some m') ∧ Represents m' t := by
  rw [WorkingMemory.removeNextRange, h.ranges.search, removeRangesRound]
  simp only [bind, Except.bind]
  cases hsucc : s.rangeIndex.successor (wildKey fromNode toNode) with
  | none => exact Or.inl ⟨rfl, rfl⟩
  | some r =>
    have hr : r ∈ s.rangeIndex := (SortedIndex.next_eq_some (SortedIndex.successor_eq_some hsucc).2).1
    simp only [Option.map_some, h.ranges.read hr]
    by_cases hpast : fromNode < r.fromNode ∨ toNode < r.toNode
    · rw [if_pos hpast, if_pos hpast]
      exact Or.inl ⟨rfl, rfl⟩
    · rw [if_neg hpast, if_neg hpast]
      obtain ⟨m', hm', hrep⟩ := deleteRange_represents h now hr conditional
      rw [hm']
      exact Or.inr ⟨_, m', rfl, rfl, hrep⟩

/-- A wild-card loop that ends in any number of rounds ends in those that it is given. -/
theorem removeRanges_of_loop {now : Int} {fromNode toNode : Nat} {conditional : Bool} {rounds : Nat}
    (h : Runs.loop (removeRangesRound now fromNode toNode conditional) rounds s = some t) :
    removeRanges s now 0 fromNode toNode conditional = some t := by
  by_cases hdel : ∀ r ∈ s.rangeIndex, RangeRemoval.Met r fromNode toNode → conditional = true → r.imputed
  · obtain ⟨u, hu, -⟩ := RangeRemoval.removeRanges_wild now fromNode toNode conditional hdel
    have hloop := hu
    rw [removeRanges, if_neg (by simp)] at hloop
    rw [hu, Runs.loop_unique hloop h]
  · push Not at hdel
    obtain ⟨r, hr, hmet, hcond, himp⟩ := hdel
    rw [hcond, RangeRemoval.removeRanges_stuck now hr hmet himp] at h
    cases h

theorem removeRanges_represents (h : Represents m s) (rounds : Nat) (now fromTime : Int) (fromNode toNode : Nat)
    (conditional : Bool) :
    WorkingMemory.removeRanges rounds m now fromTime fromNode toNode conditional = none ∨
      ∃ m' t, WorkingMemory.removeRanges rounds m now fromTime fromNode toNode conditional = some (.ok m') ∧
        removeRanges s now fromTime fromNode toNode conditional = some t ∧ Represents m' t := by
  rw [WorkingMemory.removeRanges]
  by_cases h0 : fromTime = 0
  · subst h0
    rw [if_neg (by simp)]
    have hround : ∀ m s, Represents m s →
        (∃ m' t, WorkingMemory.roundOf (WorkingMemory.removeNextRange now fromNode toNode conditional) m = .inl m' ∧
          removeRangesRound now fromNode toNode conditional s = .inl t ∧ Represents m' t) ∨
        ∃ result t, WorkingMemory.roundOf (WorkingMemory.removeNextRange now fromNode toNode conditional) m = .inr result ∧
          removeRangesRound now fromNode toNode conditional s = .inr t ∧ ∃ m', result = .ok m' ∧ Represents m' t := by
      intro m s hms
      unfold WorkingMemory.roundOf
      obtain ⟨hs, hm⟩ | ⟨t, m', hs, hm, hrep⟩ := removeNextRange_cases hms now fromNode toNode conditional
      · rw [hm]
        exact Or.inr ⟨_, _, rfl, hs, m, rfl, hms⟩
      · rw [hm]
        exact Or.inl ⟨_, _, rfl, hs, hrep⟩
    have hloops := Runs.loop_simulates Represents
      (fun (result : Except PsmAddress Ionwm) t => ∃ m', result = .ok m' ∧ Represents m' t) hround rounds m s h
    obtain ⟨hm, -⟩ | ⟨_, t, hm, ht, m', rfl, hrep⟩ := hloops
    · exact Or.inl hm
    · exact Or.inr ⟨m', t, hm, removeRanges_of_loop ht, hrep⟩
  · rw [if_pos h0, h.ranges.search, removeRanges, if_pos h0]
    simp only [bind, Except.bind]
    right
    cases hlookup : s.rangeIndex.lookup (toLex (toLex (fromNode, toNode), fromTime)) with
    | none => exact ⟨m, s, rfl, rfl, h⟩
    | some r =>
      obtain ⟨m', hm', hrep⟩ := deleteRange_represents h now (SortedIndex.lookup_eq_some.mp hlookup).1 conditional
      simp only [Option.map_some, hm']
      exact ⟨m', _, rfl, rfl, hrep⟩

/-- The removal of ranges reads each record before it is released, as long as it goes on. -/
theorem rfxRemoveRange_represents (h : Represents m s) (rounds : Nat) (now fromTime : Int) (fromNode toNode : Nat) :
    WorkingMemory.rfxRemoveRange rounds m now fromTime fromNode toNode = none ∨
      ∃ m' t, WorkingMemory.rfxRemoveRange rounds m now fromTime fromNode toNode = some (.ok m') ∧
        rfxRemoveRange s now fromTime fromNode toNode = some t ∧ Represents m' t := by
  rw [WorkingMemory.rfxRemoveRange, rfxRemoveRange]
  have hfirst := removeRanges_represents h rounds now fromTime fromNode toNode false
  by_cases hdir : toNode < fromNode
  · rw [if_pos hdir, if_pos hdir]
    exact hfirst
  · rw [if_neg hdir, if_neg hdir]
    obtain hm | ⟨m₁, u, hm, hu, hrep⟩ := hfirst
    · rw [hm]
      exact Or.inl rfl
    · rw [hm, hu]
      exact removeRanges_represents hrep rounds now fromTime toNode fromNode true

/-- A contact that a removal is addressed to and meets. -/
def Removed (c : IonCXref) (fromTime : Int) (fromNode toNode : Nat) : Prop :=
  c.Matches fromTime fromNode toNode ∧ (fromTime = 0 → 0 < c.fromTime)

instance (c : IonCXref) (fromTime : Int) (fromNode toNode : Nat) : Decidable (Removed c fromTime fromNode toNode) :=
  inferInstanceAs (Decidable (_ ∧ _))

/-- The calls that release a record before they have done with it: the removal of any contact, and the
assertion of a range in the place of an imputed one. -/
def ReleasesInUse (s : IonState) : Int × Edit → Prop
  | (_, .removeContact fromTime fromNode toNode) =>
    ∃ c ∈ s.contactIndex.entries, Removed c fromTime fromNode toNode
  | (_, .insertRange fromTime toTime fromNode toNode _) =>
    fromTime < toTime ∧ ∃ r ∈ s.rangeIndex.entries, r.imputed ∧ fromTime ≠ 0 ∧ r.Matches fromTime fromNode toNode
  | _ => False

instance (s : IonState) (call : Int × Edit) : Decidable (ReleasesInUse s call) :=
  match call with
  | (_, .insertContact ..) => isFalse id
  | (_, .removeContact ..) => inferInstanceAs (Decidable (∃ c ∈ s.contactIndex.entries, _))
  | (_, .insertRange ..) => inferInstanceAs (Decidable (_ ∧ ∃ r ∈ s.rangeIndex.entries, _))
  | (_, .removeRange ..) => isFalse id

/-- However many rounds the call may take, it reads no record that has been released. -/
def ReadsLive (m : Ionwm) (call : Int × Edit) : Prop :=
  ∀ rounds released, WorkingMemory.edit rounds m call ≠ some (.error released)

/-- The call leads, if it ends, to the state that it leads to in the model without records. -/
def Follows (m : Ionwm) (s : IonState) (call : Int × Edit) : Prop :=
  ∀ rounds m', WorkingMemory.edit rounds m call = some (.ok m') → ∃ t, edit s call = some t ∧ Represents m' t

/-- A removal of contacts finds none, or ends at the first that it finds. -/
theorem rfxRemoveContact_cases (h : Represents m s) (now fromTime : Int) (fromNode toNode : Nat) :
    ((∀ c ∈ s.contactIndex, ¬ Removed c fromTime fromNode toNode) ∧
      rfxRemoveContact s now fromTime fromNode toNode = some s ∧
      ∀ rounds, WorkingMemory.rfxRemoveContact rounds m now fromTime fromNode toNode = none ∨
        WorkingMemory.rfxRemoveContact rounds m now fromTime fromNode toNode = some (.ok m)) ∨
    (∃ c ∈ s.contactIndex, Removed c fromTime fromNode toNode) ∧ ∃ released,
      WorkingMemory.rfxRemoveContact 1 m now fromTime fromNode toNode = some (.error released) ∧
      ∀ rounds m', WorkingMemory.rfxRemoveContact rounds m now fromTime fromNode toNode ≠ some (.ok m') := by
  unfold WorkingMemory.rfxRemoveContact rfxRemoveContact
  by_cases h0 : fromTime = 0
  · subst h0
    simp only [ne_eq, not_true, if_false]
    have hround := RfxContacts.removeContactsRound_cases now fromNode toNode s
    obtain ⟨hs, hm⟩ | ⟨c, hc, hs, hm⟩ := removeNextContact_cases h now fromNode toNode
    · have hroundOf : WorkingMemory.roundOf (WorkingMemory.removeNextContact now fromNode toNode) m = .inr (.ok m) := by
        rw [WorkingMemory.roundOf, hm]
      obtain ⟨-, hnone⟩ | ⟨d, -, -, hgo⟩ := hround
      · refine Or.inl ⟨fun c hc hrem => hnone c hc ⟨hrem.1, hrem.2 rfl⟩, Runs.loop_inr hs, ?_⟩
        intro rounds
        cases rounds with
        | zero => exact Or.inl rfl
        | succ n => exact Or.inr (Runs.loop_inr hroundOf)
      · rw [hs] at hgo
        cases hgo
    · have hroundOf : WorkingMemory.roundOf (WorkingMemory.removeNextContact now fromNode toNode) m =
          .inr (.error c.addr) := by
        rw [WorkingMemory.roundOf, hm]
      obtain ⟨hend, -⟩ | ⟨d, hd, hmet, -⟩ := hround
      · rw [hs] at hend
        cases hend
      · refine Or.inr ⟨⟨d, hd, hmet.1, fun _ => hmet.2⟩, c.addr, Runs.loop_inr hroundOf, ?_⟩
        intro rounds m' hok
        cases rounds with
        | zero => cases hok
        | succ n =>
          rw [Runs.loop_inr hroundOf] at hok
          cases hok
  · simp only [ne_eq, h0, not_false_eq_true, if_true]
    rw [h.contacts.search]
    simp only [bind, Except.bind]
    cases hlookup : s.contactIndex.lookup (toLex (toLex (fromNode, toNode), fromTime)) with
    | none =>
      refine Or.inl ⟨fun c hc hrem => ?_, rfl, fun _ => Or.inr rfl⟩
      exact SortedIndex.lookup_eq_none.mp hlookup c hc ((Span.key_eq_iff_matches h0).mpr hrem.1)
    | some c =>
      obtain ⟨hc, hkey⟩ := SortedIndex.lookup_eq_some.mp hlookup
      simp only [Option.map_some, deleteContact_fails h now hc]
      refine Or.inr ⟨⟨c, hc, (Span.key_eq_iff_matches h0).mp hkey, fun he => absurd he h0⟩, c.addr, rfl, ?_⟩
      intro rounds m' hok
      cases hok

theorem removeContact_reads (h : Represents m s) (now fromTime : Int) (fromNode toNode : Nat) :
    (ReadsLive m (now, .removeContact fromTime fromNode toNode) ↔
      ¬ ReleasesInUse s (now, .removeContact fromTime fromNode toNode)) ∧
    Follows m s (now, .removeContact fromTime fromNode toNode) := by
  obtain ⟨hnone, hs, hm⟩ | ⟨hfound, released, hfail, hno⟩ := rfxRemoveContact_cases h now fromTime fromNode toNode
  · refine ⟨iff_of_true ?_ (fun ⟨c, hc, hrem⟩ => hnone c hc hrem), ?_⟩
    · intro rounds released hbad
      obtain he | he := hm rounds
      · cases he.symm.trans hbad
      · cases he.symm.trans hbad
    · intro rounds m' hok
      obtain he | he := hm rounds
      · cases he.symm.trans hok
      · obtain rfl := Except.ok.inj (Option.some.inj (he.symm.trans hok))
        exact ⟨s, hs, h⟩
  · exact ⟨iff_of_false (fun hlive => hlive 1 released hfail) (not_not.mpr hfound),
      fun rounds m' hok => absurd hok (hno rounds m')⟩

theorem insertContact_reads (h : Represents m s) (now fromTime toTime : Int) (fromNode toNode xmitRate : Nat)
    (prob : ℚ) :
    ReadsLive m (now, .insertContact fromTime toTime fromNode toNode xmitRate prob) ∧
    Follows m s (now, .insertContact fromTime toTime fromNode toNode xmitRate prob) := by
  obtain ⟨m', addr, hm', hrep⟩ := rfxInsertContact_represents h now fromTime toTime fromNode toNode xmitRate prob
  constructor
  · intro rounds released hbad
    rw [WorkingMemory.edit, hm'] at hbad
    cases hbad
  · intro rounds m'' hok
    rw [WorkingMemory.edit, hm'] at hok
    obtain rfl := Except.ok.inj (Option.some.inj hok)
    exact ⟨_, rfl, hrep⟩

theorem removeRange_reads (h : Represents m s) (now fromTime : Int) (fromNode toNode : Nat) :
    ReadsLive m (now, .removeRange fromTime fromNode toNode) ∧
    Follows m s (now, .removeRange fromTime fromNode toNode) := by
  have hcases := fun rounds => rfxRemoveRange_represents h rounds now fromTime fromNode toNode
  constructor
  · intro rounds released hbad
    obtain he | ⟨m', t, he, -⟩ := hcases rounds
    · cases he.symm.trans hbad
    · cases he.symm.trans hbad
  · intro rounds m' hok
    obtain he | ⟨m'', t, he, ht, hrep⟩ := hcases rounds
    · cases he.symm.trans hok
    · obtain rfl := Except.ok.inj (Option.some.inj (he.symm.trans hok))
      exact ⟨t, ht, hrep⟩

theorem insertRange_reads (h : Represents m s) (now fromTime toTime : Int) (fromNode toNode owlt : Nat) :
    (ReadsLive m (now, .insertRange fromTime toTime fromNode toNode owlt) ↔
      ¬ ReleasesInUse s (now, .insertRange fromTime toTime fromNode toNode owlt)) ∧
    Follows m s (now, .insertRange fromTime toTime fromNode toNode owlt) := by
  have hedit : ∀ rounds, WorkingMemory.edit rounds m (now, .insertRange fromTime toTime fromNode toNode owlt) =
      some ((WorkingMemory.rfxInsertRange m now fromTime toTime fromNode toNode owlt).map Prod.fst) := fun _ => rfl
  have hlive : ∀ m' addr, WorkingMemory.rfxInsertRange m now fromTime toTime fromNode toNode owlt = .ok (m', addr) →
      Represents m' (rfxInsertRange s now fromTime toTime fromNode toNode owlt).1 →
      ReadsLive m (now, .insertRange fromTime toTime fromNode toNode owlt) ∧
        Follows m s (now, .insertRange fromTime toTime fromNode toNode owlt) := by
    intro m' addr hm' hrep
    constructor
    · intro rounds released hbad
      rw [hedit, hm'] at hbad
      cases hbad
    · intro rounds m'' hok
      rw [hedit, hm'] at hok
      obtain rfl := Except.ok.inj (Option.some.inj hok)
      exact ⟨_, rfl, hrep⟩
  obtain ⟨hcheck, hs⟩ | ⟨span, hcheck, hs⟩ := rfxInsertRange_cases s now fromTime toTime fromNode toNode owlt
  · have hm : WorkingMemory.rfxInsertRange m now fromTime toTime fromNode toNode owlt = .ok (m, 0) := by
      rw [WorkingMemory.rfxInsertRange, hcheck]
    obtain ⟨hreads, hfollows⟩ := hlive m 0 hm (hs ▸ h)
    refine ⟨iff_of_true hreads ?_, hfollows⟩
    rintro ⟨hlt, r, -, -, h0, hfrom, hto, -⟩
    have hfromNode := r.fromNode_ne
    have htoNode := r.toNode_ne
    rw [Span.check, dif_pos ⟨h0, hlt, hfrom ▸ hfromNode, hto ▸ htoNode⟩] at hcheck
    cases hcheck
  · obtain ⟨rfl, rfl, rfl, rfl⟩ := Span.check_eq_some hcheck
    have hm : WorkingMemory.rfxInsertRange m now span.fromTime span.toTime span.fromNode span.toNode owlt =
        WorkingMemory.insertRange m now span owlt := by
      rw [WorkingMemory.rfxInsertRange, hcheck]
    by_cases himp : ∃ r, s.rangeIndex.lookup span.key = some r ∧ r.imputed
    · obtain ⟨r, hr, hrimp⟩ := himp
      obtain ⟨hmem, hkey⟩ := SortedIndex.lookup_eq_some.mp hr
      have hfail := insertRange_fails h now owlt hr hrimp
      have hfound : ReleasesInUse s (now, .insertRange span.fromTime span.toTime span.fromNode span.toNode owlt) :=
        ⟨span.interval, r, hmem, hrimp, span.fromTime_ne, (Span.key_eq_iff_matches span.fromTime_ne).mp hkey⟩
      refine ⟨iff_of_false (fun hreads => hreads 0 r.addr ?_) (not_not.mpr hfound), ?_⟩
      · rw [hedit, hm, hfail]
        rfl
      · intro rounds m' hok
        rw [hedit, hm, hfail] at hok
        cases hok
    · obtain ⟨m', addr, hm', hrep⟩ := insertRange_represents h now span owlt (fun r hr hrimp => himp ⟨r, hr, hrimp⟩)
      obtain ⟨hreads, hfollows⟩ := hlive m' addr (hm.trans hm') (by rw [hs]; exact hrep)
      refine ⟨iff_of_true hreads ?_, hfollows⟩
      rintro ⟨-, r, hmem, hrimp, h0, hmatches⟩
      exact himp ⟨r, SortedIndex.lookup_eq_some.mpr ⟨hmem, (Span.key_eq_iff_matches h0).mpr hmatches⟩, hrimp⟩

/-- A call reads only live records unless it releases one in use, and has the same outcome. -/
theorem edit_reads (h : Represents m s) (call : Int × Edit) :
    (ReadsLive m call ↔ ¬ ReleasesInUse s call) ∧ Follows m s call := by
  obtain ⟨now, e⟩ := call
  cases e with
  | insertContact fromTime toTime fromNode toNode xmitRate prob =>
    obtain ⟨hreads, hfollows⟩ := insertContact_reads h now fromTime toTime fromNode toNode xmitRate prob
    exact ⟨iff_of_true hreads id, hfollows⟩
  | removeContact fromTime fromNode toNode => exact removeContact_reads h now fromTime fromNode toNode
  | insertRange fromTime toTime fromNode toNode owlt =>
    exact insertRange_reads h now fromTime toTime fromNode toNode owlt
  | removeRange fromTime fromNode toNode =>
    obtain ⟨hreads, hfollows⟩ := removeRange_reads h now fromTime fromNode toNode
    exact ⟨iff_of_true hreads id, hfollows⟩

/-- Working memory with just the records of a state. -/
def ofState (s : IonState) : Ionwm where
  ownNodeNbr := s.ownNodeNbr
  maxClockError := s.maxClockError
  contacts := s.contacts
  ranges := s.ranges
  lastEditTime := s.lastEditTime
  nodes := s.nodes
  contactIndex := s.contactIndex.entries.map IonCXref.addr
  rangeIndex := s.rangeIndex.entries.map IonRXref.addr
  cxrefs := storeOf IonCXref.addr s.contactIndex.entries
  rxrefs := storeOf IonRXref.addr s.rangeIndex.entries
  timeline := s.timeline
  lastAddr := s.lastAddr
  lastObject := s.lastObject

theorem ofState_represents (h : Timeline.Kept s) : Represents (ofState s) s where
  contacts := holds_storeOf h.mirrors.refs.of_append_left
  ranges := holds_storeOf h.mirrors.refs.of_append_right
  contact_le c hc := h.addr_le (c.addr, contactEvents c) (Timeline.mem_blocks.mpr (Or.inl ⟨c, hc, rfl⟩))
  range_le r hr := h.addr_le (r.addr, rangeEvents r) (Timeline.mem_blocks.mpr (Or.inr ⟨r, hr, rfl⟩))
  rest := rfl

/-- Every run over records is a run of the model without them. -/
theorem run_represents (h : Represents m s) (rounds : Nat) (calls : List (Int × Edit)) {m' : Ionwm}
    (hrun : Runs.run (fun m call => (WorkingMemory.edit rounds m call).bind Except.toOption) m calls = some m') :
    ∃ t, Runs.run edit s calls = some t ∧ Represents m' t := by
  induction calls generalizing m s with
  | nil => exact ⟨s, rfl, Option.some.inj hrun ▸ h⟩
  | cons call rest ih =>
    rw [Runs.run_cons, Option.bind_eq_some_iff] at hrun
    obtain ⟨u, hu, hrest⟩ := hrun
    obtain ⟨result, hresult, hok⟩ := Option.bind_eq_some_iff.mp hu
    cases result with
    | error a => cases hok
    | ok m₁ =>
      obtain rfl := Option.some.inj hok
      obtain ⟨t₁, ht₁, hrep⟩ := (edit_reads h call).2 rounds m₁ hresult
      obtain ⟨t, ht, hrep'⟩ := ih hrep hrest
      exact ⟨t, by rw [Runs.run_cons, ht₁]; exact ht, hrep'⟩

theorem kept_of_run {s₀ : IonState} (hunused : Unused s₀) {calls : List (Int × Edit)}
    (hrun : Runs.run edit s₀ calls = some s) : Timeline.Kept s :=
  (ContactRemoval.linked_kept_of_run hunused hrun).2

/-- In every state that edits lead to, exactly the removal of a contact and the override of an
imputed range go on to read what they have released. -/
theorem reads_live_iff (s₀ s : IonState) (hunused : Unused s₀) (calls : List (Int × Edit))
    (hrun : Runs.run edit s₀ calls = some s) (call : Int × Edit) :
    (∃ m, Represents m s) ∧
      ∀ m, Represents m s → (ReadsLive m call ↔ ¬ ReleasesInUse s call) ∧ Follows m s call :=
  ⟨⟨_, ofState_represents (kept_of_run hunused hrun)⟩, fun _ h => edit_reads h call⟩

/-- One contact, and one range with its reverse imputed. -/
def contactAndRange : List (Int × Edit) := [(0, .insertContact 10 20 1 2 100 1), (0, .insertRange 10 20 1 2 1)]

theorem reads_live_iff_contactAndRange : ∃ s, Runs.run edit (ionInitialize 1) contactAndRange = some s ∧
    (∃ m, Represents m s) ∧ ∀ m, Represents m s →
      (ReadsLive m (5, .removeRange 10 1 2) ↔ ¬ ReleasesInUse s (5, .removeRange 10 1 2)) ∧
        Follows m s (5, .removeRange 10 1 2) :=
  ⟨_, rfl, reads_live_iff (ionInitialize 1) _ ⟨⟨rfl, rfl, rfl⟩, rfl, rfl⟩ contactAndRange rfl (5, .removeRange 10 1 2)⟩

/-- The removal of the contact and the override of the imputed range both read a released record. -/
theorem released_record_read : ∃ s, Runs.run edit (ionInitialize 1) contactAndRange = some s ∧
    ∃ m, Represents m s ∧ ¬ ReadsLive m (5, .removeContact 10 1 2) ∧ ¬ ReadsLive m (5, .insertRange 10 20 2 1 3) := by
  have hunused : Unused (ionInitialize 1) := ⟨⟨rfl, rfl, rfl⟩, rfl, rfl⟩
  have hrun : Runs.run edit (ionInitialize 1) contactAndRange = some _ := rfl
  have hrep := ofState_represents (kept_of_run hunused hrun)
  refine ⟨_, hrun, _, hrep, ?_, ?_⟩
  · rw [(edit_reads hrep _).1, not_not]
    decide
  · rw [(edit_reads hrep _).1, not_not]
    decide

end ReleasedRecords
