import CgrJni.RfxRanges

/-!
When the insertion of a range decides rightly and refuses without a trace. The
search reports no successor for a key that it finds, so an override is compared
with whatever comes last in the index, after the imputed range has gone.
-/

namespace RangeInsertion

open IonDb Rfx RfxRanges IntervalIndex

def accepted (result : IonState × PsmAddress) : Prop := result.2 ≠ 0

/-- Nothing that a refusal must leave alone has changed. -/
structure Untouched (s t : IonState) : Prop where
  rangeIndex : t.rangeIndex = s.rangeIndex
  timeline : t.timeline = s.timeline
  ranges : t.ranges = s.ranges
  lastEditTime : t.lastEditTime = s.lastEditTime

theorem Untouched.refl (s : IonState) : Untouched s s := ⟨rfl, rfl, rfl, rfl⟩

/-- The insertion of a range is accepted when it is disjoint from the other ranges of its two
nodes, up to an imputed one that it replaces, and a refusal changes nothing. -/
structure DecidesRightly (s : IonState) (now : Int) (span : Span) (owlt : Nat) : Prop where
  accepts : (¬ ∃ r ∈ s.rangeIndex, ¬ r.imputed ∧ r.pair = span.pair ∧ r.fromTime = span.fromTime) →
    (accepted (rfxInsertRange s now span.fromTime span.toTime span.fromNode span.toNode owlt) ↔
      ∀ r ∈ s.rangeIndex, r.pair = span.pair → ¬ (r.imputed ∧ r.fromTime = span.fromTime) →
        span.Disjoint r.toSpan)
  refuses : ¬ accepted (rfxInsertRange s now span.fromTime span.toTime span.fromNode span.toNode owlt) →
    Untouched s (rfxInsertRange s now span.fromTime span.toTime span.fromNode span.toNode owlt).1

/-- An overlap, if there is any, shows at an entry that starts within the new range or at the
entry just before it. -/
def Apparent (idx : RangeIndex) (span : Span) : Prop :=
  ¬ Clear idx span span.pair →
    (∃ x ∈ idx, x.pair = span.pair ∧ span.fromTime < x.fromTime ∧ x.fromTime < span.toTime) ∨
      ∃ p, idx.prev span.key = some p ∧ p.pair = span.pair ∧ span.fromTime < p.toTime

/-- The rest of the direction is clear, and the index does not end with a later part of it. -/
def Overridable (idx : RangeIndex) (span : Span) : Prop :=
  Clear idx span span.pair ∧ ∀ p, idx.last = some p → p.pair = span.pair → p.toTime ≤ span.fromTime

def Decidably (idx : RangeIndex) (span : Span) : Prop :=
  match idx.lookup span.key with
  | some r => r.imputed → Overridable (idx.erase span.key) span
  | none => Apparent idx span

theorem overlapsRange_apparent {idx : RangeIndex} {span : Span} (habs : idx.lookup span.key = none) :
    overlapsRange idx span (idx.successor span.key) = true ↔
      (∃ x ∈ idx, x.pair = span.pair ∧ span.fromTime < x.fromTime ∧ x.fromTime < span.toTime) ∨
        ∃ p, idx.prev span.key = some p ∧ p.pair = span.pair ∧ span.fromTime < p.toTime := by
  rw [overlapsRange, SortedIndex.successor_of_absent habs]
  exact blocked_next_iff habs

/-- The test never refuses without an overlap. -/
theorem not_clear_of_overlaps {idx : RangeIndex} {span : Span} (habs : idx.lookup span.key = none)
    (hov : overlapsRange idx span (idx.successor span.key) = true) : ¬ Clear idx span span.pair := by
  intro hclear
  obtain ⟨x, hx, hp, hlo, hhi⟩ | ⟨p, hprev, hp, hlt⟩ := (overlapsRange_apparent habs).mp hov
  · have hd := hclear x hx hp
    have hint := x.interval
    unfold Span.Disjoint at hd
    omega
  · obtain ⟨hm, hk, -⟩ := SortedIndex.prev_eq_some hprev
    have hlo : p.fromTime < span.fromTime := lo_lt_of_key_lt hk hp
    have hd := hclear p hm hp
    have hint := span.interval
    unfold Span.Disjoint at hd
    omega

theorem overlapsRange_none {idx : RangeIndex} {span : Span} :
    overlapsRange idx span none = true ↔
      ∃ p, idx.last = some p ∧ p.pair = span.pair ∧ span.fromTime < p.toTime := by
  rw [overlapsRange, blocked, before, Bool.or_eq_true, startsInPrev_iff]
  simp [reachesNext]

theorem rfxInsertRange_span (s : IonState) (now : Int) (span : Span) (owlt : Nat) :
    rfxInsertRange s now span.fromTime span.toTime span.fromNode span.toNode owlt =
      insertRange s now span owlt := rfxInsertRange_of_check span.check_self s now owlt

theorem mem_of_key {idx : RangeIndex} {span : Span} {r : IonRXref} (hr : idx.lookup span.key = some r)
    {x : IonRXref} (hx : x ∈ idx) (hp : x.pair = span.pair) (ht : x.fromTime = span.fromTime) : x = r := by
  obtain ⟨hmem, hkey⟩ := SortedIndex.lookup_eq_some.mp hr
  exact SortedIndex.key_inj hx hmem ((Span.key_eq_iff.mpr ⟨hp, ht⟩).trans hkey.symm)

/-- A free key: the neighbours are asked, and nothing happens on a refusal. -/
theorem decides_of_absent (s : IonState) (now : Int) (span : Span) (owlt : Nat)
    (hk : s.rangeIndex.lookup span.key = none) :
    DecidesRightly s now span owlt ↔ Apparent s.rangeIndex span := by
  have hfree : ∀ r ∈ s.rangeIndex, r.pair = span.pair → r.fromTime ≠ span.fromTime :=
    fun r hr hp ht => SortedIndex.lookup_eq_none.mp hk r hr (Span.key_eq_iff.mpr ⟨hp, ht⟩)
  have hclear : (∀ r ∈ s.rangeIndex, r.pair = span.pair → ¬ (r.imputed ∧ r.fromTime = span.fromTime) →
      span.Disjoint r.toSpan) ↔ Clear s.rangeIndex span span.pair :=
    forall₃_congr (fun r hr hp => ⟨fun h => h (fun hi => hfree r hr hp hi.2), fun h _ => h⟩)
  have hno : ¬ ∃ r ∈ s.rangeIndex, ¬ r.imputed ∧ r.pair = span.pair ∧ r.fromTime = span.fromTime := by
    rintro ⟨r, hr, -, hp, ht⟩
    exact hfree r hr hp ht
  obtain ⟨hov, hrun⟩ | ⟨hov, haddr, -⟩ := insertRange_of_absent s now span owlt hk
  · have hbad := not_clear_of_overlaps hk hov
    have hshown : Apparent s.rangeIndex span := fun _ => (overlapsRange_apparent hk).mp hov
    refine ⟨fun _ => hshown, fun _ => ⟨fun _ => ?_, fun _ => ?_⟩⟩
    · rw [rfxInsertRange_span, hrun, hclear]
      exact ⟨fun h => absurd rfl h, fun h => absurd h hbad⟩
    · rw [rfxInsertRange_span, hrun]
      exact Untouched.refl s
  · have hacc : accepted (insertRange s now span owlt) := by
      rw [accepted, haddr]
      exact Nat.succ_ne_zero _
    constructor
    · intro hd hbad
      have hall := (hd.accepts hno).mp (by rw [rfxInsertRange_span]; exact hacc)
      exact absurd (hclear.mp hall) hbad
    · intro hshown
      refine ⟨fun _ => ?_, fun hnot => ?_⟩
      · rw [rfxInsertRange_span, hclear]
        refine ⟨fun _ => ?_, fun _ => hacc⟩
        by_contra hbad
        rw [(overlapsRange_apparent hk).mpr (hshown hbad)] at hov
        cases hov
      · rw [rfxInsertRange_span] at hnot
        exact absurd hacc hnot

/-- An override: the imputed range goes first, and the last entry of the index is asked. -/
theorem decides_of_imputed (s : IonState) (now : Int) (span : Span) (owlt : Nat) {r : IonRXref}
    (hr : s.rangeIndex.lookup span.key = some r) (himp : r.imputed) :
    DecidesRightly s now span owlt ↔ Overridable (s.rangeIndex.erase span.key) span := by
  have hkey := (SortedIndex.lookup_eq_some.mp hr).2
  have hrest : (∀ x ∈ s.rangeIndex, x.pair = span.pair → ¬ (x.imputed ∧ x.fromTime = span.fromTime) →
      span.Disjoint x.toSpan) ↔ Clear (s.rangeIndex.erase span.key) span span.pair := by
    constructor
    · intro h x hx hp
      obtain ⟨hx, hne⟩ := SortedIndex.mem_erase.mp hx
      exact h x hx hp (fun hi => hne (Span.key_eq_iff.mpr ⟨hp, hi.2⟩))
    · intro h x hx hp hnot
      refine h x (SortedIndex.mem_erase.mpr ⟨hx, fun hk => hnot ?_⟩) hp
      obtain rfl := mem_of_key hr hx hp (Span.key_eq_iff.mp hk).2
      exact ⟨himp, (Span.key_eq_iff.mp hk).2⟩
  have hno : ¬ ∃ x ∈ s.rangeIndex, ¬ x.imputed ∧ x.pair = span.pair ∧ x.fromTime = span.fromTime := by
    rintro ⟨x, hx, hxi, hp, ht⟩
    exact hxi (mem_of_key hr hx hp ht ▸ himp)
  have herase : (dropImputed s r).rangeIndex = s.rangeIndex.erase span.key := by
    rw [← hkey]
    rfl
  have hrun : insertRange s now span owlt =
      addRange (dropImputed s r) now span owlt none (lookup_dropImputed hr) := by
    obtain ⟨x, hx, hxi, -⟩ | ⟨x, hx, -, h⟩ | ⟨hk, -⟩ := insertRange_cases s now span owlt
    · exact absurd (Option.some.inj (hr.symm.trans hx) ▸ himp) hxi
    · obtain rfl := Option.some.inj (hr.symm.trans hx)
      exact h
    · rw [hr] at hk
      cases hk
  cases hov : overlapsRange (dropImputed s r).rangeIndex span none with
  | true =>
    -- the refusal comes after the deletion, so something has changed
    rw [addRange_rejected hov] at hrun
    have hchanged : (dropImputed s r).rangeIndex ≠ s.rangeIndex := by
      intro he
      have hgone := lookup_dropImputed hr
      rw [he, hr] at hgone
      cases hgone
    rw [herase] at hov
    obtain ⟨p, hp, hpp, hlt⟩ := overlapsRange_none.mp hov
    constructor
    · intro hd
      have hsame := (hd.refuses (by rw [rfxInsertRange_span, hrun]; exact fun h => h rfl)).rangeIndex
      rw [rfxInsertRange_span, hrun] at hsame
      exact absurd hsame hchanged
    · intro ho
      exact absurd (ho.2 p hp hpp) (by omega)
  | false =>
    rw [addRange_accepted hov] at hrun
    have hacc : accepted (insertRange s now span owlt) := by
      rw [hrun]
      exact Nat.succ_ne_zero _
    have hlast : ∀ p, (s.rangeIndex.erase span.key).last = some p → p.pair = span.pair →
        p.toTime ≤ span.fromTime := by
      intro p hp hpp
      by_contra hgt
      rw [herase, overlapsRange_none.mpr ⟨p, hp, hpp, by omega⟩] at hov
      cases hov
    constructor
    · intro hd
      exact ⟨hrest.mp ((hd.accepts hno).mp (by rw [rfxInsertRange_span]; exact hacc)), hlast⟩
    · intro ho
      refine ⟨fun _ => ?_, fun hnot => ?_⟩
      · rw [rfxInsertRange_span, hrest]
        exact ⟨fun _ => ho.1, fun _ => hacc⟩
      · rw [rfxInsertRange_span] at hnot
        exact absurd hacc hnot

/-- Exactly when the insertion of a range decides rightly and refuses without a trace. -/
theorem range_insertion_iff (s : IonState) (now : Int) (span : Span) (owlt : Nat) :
    DecidesRightly s now span owlt ↔ Decidably s.rangeIndex span := by
  unfold Decidably
  cases hk : s.rangeIndex.lookup span.key with
  | none => exact decides_of_absent s now span owlt hk
  | some r =>
    by_cases himp : r.imputed
    · rw [decides_of_imputed s now span owlt hk himp]
      exact ⟨fun h _ => h, fun h => h himp⟩
    · -- an asserted range holds the key: the call leaves everything as it is
      refine ⟨fun _ hi => absurd hi himp, fun _ => ⟨fun hno => ?_, fun _ => ?_⟩⟩
      · obtain ⟨hmem, hkey⟩ := SortedIndex.lookup_eq_some.mp hk
        obtain ⟨hp, ht⟩ := Span.key_eq_iff.mp hkey
        exact absurd ⟨r, hmem, himp, hp, ht⟩ hno
      · obtain ⟨x, -, -, h⟩ | ⟨x, hx, hxi, -⟩ | ⟨hk', -⟩ := insertRange_cases s now span owlt
        · rw [rfxInsertRange_span, h]
          exact Untouched.refl s
        · exact absurd (Option.some.inj (hk.symm.trans hx) ▸ hxi) himp
        · rw [hk] at hk'
          cases hk'

/-- The override of an imputed range that is not the last of its direction is refused, with the
imputed range and its events gone. -/
theorem override_refused :
    ∃ s, Runs.run edit (ionInitialize 1) [(0, .insertRange 10 20 1 2 1), (0, .insertRange 30 40 1 2 1)] = some s ∧
      ¬ DecidesRightly s 0 ⟨2, 1, 10, 20, by decide, by decide, by decide, by decide⟩ 5 := by
  refine ⟨_, rfl, fun h => ?_⟩
  have hsame := (h.refuses (by unfold accepted; decide)).rangeIndex
  revert hsame
  decide

end RangeInsertion
