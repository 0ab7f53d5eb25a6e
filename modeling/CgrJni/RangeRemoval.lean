import CgrJni.RfxRanges

/-!
Wild-card removal of ranges. Each round looks for the first entry of the two
nodes after time zero and relies on that entry being gone afterwards, which a
conditional deletion of an asserted range does not bring about.
-/

namespace RangeRemoval

open IonDb Rfx RfxRanges

/-- An entry of the two nodes that the rounds of a wild-card removal can meet. -/
def Met (r : IonRXref) (fromNode toNode : Nat) : Prop := r.Matches 0 fromNode toNode ∧ 0 < r.fromTime

theorem mem_deleteRange {s : IonState} {now : Int} {r x : IonRXref} (hr : r ∈ s.rangeIndex)
    (conditional : Bool) : x ∈ (deleteRange s now r conditional).rangeIndex ↔
      x ∈ s.rangeIndex ∧ (x = r → ¬ r.imputed ∧ conditional = true) := by
  unfold deleteRange
  split
  · rename_i hkeep
    have himp : ¬ r.imputed ∧ conditional = true := by simpa using hkeep
    exact ⟨fun hx => ⟨hx, fun _ => himp⟩, And.left⟩
  · rename_i hgo
    have himp : ¬ (¬ r.imputed ∧ conditional = true) := by simpa using hgo
    rw [SortedIndex.mem_erase]
    constructor
    · rintro ⟨hx, hne⟩
      exact ⟨hx, fun he => absurd (congrArg (fun r : IonRXref => r.key) he) hne⟩
    · rintro ⟨hx, he⟩
      exact ⟨hx, fun hkey => himp (he (SortedIndex.key_inj hx hr hkey))⟩

/-- The wild-card loop of one direction comes to an end where every entry that it meets can be
deleted, and then exactly these are gone. -/
theorem removeRanges_wild {s : IonState} (now : Int) (fromNode toNode : Nat) (conditional : Bool)
    (hdel : ∀ r ∈ s.rangeIndex, Met r fromNode toNode → conditional = true → r.imputed) :
    ∃ t, removeRanges s now 0 fromNode toNode conditional = some t ∧
      ∀ r, r ∈ t.rangeIndex ↔ r ∈ s.rangeIndex ∧ ¬ Met r fromNode toNode := by
  rw [removeRanges, if_neg (by simp)]
  -- what has gone so far was met, and what is left may still be deleted
  refine Runs.loop_spec
    (fun u : IonState => ∀ r, (r ∈ u.rangeIndex → r ∈ s.rangeIndex) ∧
      (r ∈ s.rangeIndex → ¬ Met r fromNode toNode → r ∈ u.rangeIndex))
    (fun t : IonState => ∀ r, r ∈ t.rangeIndex ↔ r ∈ s.rangeIndex ∧ ¬ Met r fromNode toNode)
    (fun u => u.rangeIndex.entries.length) ?_ ?_ _ s (fun r => ⟨id, fun hr _ => hr⟩) (Nat.lt_succ_self _)
  · intro u t hu hb
    obtain ⟨hend, -⟩ | ⟨r, hr, hmet, hgo⟩ := removeRangesRound_cases now fromNode toNode conditional u
    · rw [hend] at hb
      cases hb
    · rw [hgo] at hb
      obtain rfl := Sum.inl.inj hb
      have himp : ¬ (¬ r.imputed ∧ conditional = true) :=
        fun h => h.1 (hdel r ((hu r).1 hr) hmet h.2)
      refine ⟨fun x => ?_, ?_⟩
      · rw [mem_deleteRange hr]
        refine ⟨fun hx => (hu x).1 hx.1, fun hx hnot => ⟨(hu x).2 hx hnot, ?_⟩⟩
        rintro rfl
        exact absurd hmet hnot
      · have herase : (deleteRange u now r conditional).rangeIndex = u.rangeIndex.erase r.key := by
          unfold deleteRange
          rw [if_neg (by simpa using himp)]
        rw [herase]
        exact SortedIndex.length_erase_lt hr
  · intro u t hu hb
    obtain ⟨hend, hnone⟩ | ⟨r, -, -, hgo⟩ := removeRangesRound_cases now fromNode toNode conditional u
    · rw [hend] at hb
      obtain rfl := Sum.inr.inj hb
      exact fun r => ⟨fun hr => ⟨(hu r).1 hr, hnone r hr⟩, fun hr => (hu r).2 hr.1 hr.2⟩
    · rw [hgo] at hb
      cases hb

/-- Once an asserted range is in its way, the conditional loop never ends. -/
theorem removeRanges_stuck {s : IonState} (now : Int) {fromNode toNode : Nat} {r : IonRXref}
    (hr : r ∈ s.rangeIndex) (hmet : Met r fromNode toNode) (hasserted : ¬ r.imputed) (fuel : Nat) :
    Runs.loop (removeRangesRound now fromNode toNode true) fuel s = none := by
  refine Runs.loop_stuck (fun u => r ∈ u.rangeIndex) (fun u hu => ?_) fuel s hr
  obtain ⟨-, hnone⟩ | ⟨x, hx, -, hgo⟩ := removeRangesRound_cases now fromNode toNode true u
  · exact absurd hmet (hnone r hu)
  · refine ⟨_, hgo, (mem_deleteRange hx true).mpr ⟨hu, ?_⟩⟩
    rintro rfl
    exact ⟨hasserted, rfl⟩

/-- What a wild-card removal is to delete: the ranges as addressed and, where these are the
canonical ones, what was imputed from them. -/
def WildDeleted (fromNode toNode : Nat) (r : IonRXref) : Prop :=
  r.Matches 0 fromNode toNode ∨ fromNode ≤ toNode ∧ r.imputed ∧ r.Matches 0 toNode fromNode

/-- The removal comes to an end and deletes exactly that. -/
def RemovesExactly (s : IonState) (now : Int) (fromNode toNode : Nat) : Prop :=
  ∃ t, rfxRemoveRange s now 0 fromNode toNode = some t ∧
    ∀ r, r ∈ t.rangeIndex ↔ r ∈ s.rangeIndex ∧ ¬ WildDeleted fromNode toNode r

/-- Nothing that is to be deleted starts before time zero, and no range after time zero is
asserted against a canonical direction that is removed. -/
structure Removable (idx : RangeIndex) (fromNode toNode : Nat) : Prop where
  positive : ∀ r ∈ idx, WildDeleted fromNode toNode r → 0 < r.fromTime
  notAsserted : fromNode < toNode → ∀ r ∈ idx, Met r toNode fromNode → r.imputed

theorem rfxRemoveRange_of_removable {s : IonState} (now : Int) {fromNode toNode : Nat}
    (h : Removable s.rangeIndex fromNode toNode) : RemovesExactly s now fromNode toNode := by
  obtain ⟨u, hu, hmem⟩ := removeRanges_wild (s := s) now fromNode toNode false (by simp)
  have hfirst : ∀ r, r ∈ u.rangeIndex ↔ r ∈ s.rangeIndex ∧ ¬ r.Matches 0 fromNode toNode := by
    intro r
    rw [hmem]
    refine and_congr_right (fun hr => not_congr ⟨And.left, fun hm => ⟨hm, ?_⟩⟩)
    exact h.positive r hr (Or.inl hm)
  unfold RemovesExactly rfxRemoveRange
  by_cases hdir : toNode < fromNode
  · rw [if_pos hdir]
    refine ⟨u, hu, fun r => (hfirst r).trans (and_congr_right (fun _ => not_congr ?_))⟩
    exact ⟨Or.inl, fun hd => hd.elim id (fun hd => absurd hd.1 (by omega))⟩
  · rw [if_neg hdir, hu, Option.bind_some]
    obtain ⟨t, ht, hmem'⟩ := removeRanges_wild (s := u) now toNode fromNode true (fun r hr hmet _ => by
      obtain ⟨hr, hno⟩ := (hfirst r).mp hr
      rcases Nat.lt_or_ge fromNode toNode with hlt | hge
      · exact h.notAsserted hlt r hr hmet
      · exact absurd (Span.matches_zero.mpr (by have := Span.matches_zero.mp hmet.1; omega)) hno)
    refine ⟨t, ht, fun r => ?_⟩
    rw [hmem', hfirst]
    constructor
    · rintro ⟨⟨hr, hno⟩, hnot⟩
      refine ⟨hr, fun hd => ?_⟩
      obtain hm | ⟨hle, himp, hm⟩ := hd
      · exact hno hm
      · exact hnot ⟨hm, h.positive r hr (Or.inr ⟨hle, himp, hm⟩)⟩
    · rintro ⟨hr, hno⟩
      refine ⟨⟨hr, fun hm => hno (Or.inl hm)⟩, fun hmet => ?_⟩
      rcases Nat.lt_or_ge fromNode toNode with hlt | hge
      · exact hno (Or.inr ⟨hlt.le, h.notAsserted hlt r hr hmet, hmet.1⟩)
      · exact hno (Or.inl (Span.matches_zero.mpr (by have := Span.matches_zero.mp hmet.1; omega)))

theorem removable_of_removesExactly {s : IonState} {now : Int} {fromNode toNode : Nat}
    (h : RemovesExactly s now fromNode toNode) : Removable s.rangeIndex fromNode toNode := by
  obtain ⟨u, hu, hmem⟩ := removeRanges_wild (s := s) now fromNode toNode false (by simp)
  obtain ⟨t, ht, hexact⟩ := h
  rw [rfxRemoveRange, hu] at ht
  -- an entry of the reverse direction that the second loop meets was not met by the first
  have hkept : fromNode < toNode → ∀ r ∈ s.rangeIndex, Met r toNode fromNode → r ∈ u.rangeIndex := by
    intro hlt r hr hmet
    refine (hmem r).mpr ⟨hr, fun hmet' => ?_⟩
    have h1 := Span.matches_zero.mp hmet.1
    have h2 := Span.matches_zero.mp hmet'.1
    omega
  have hasserted : fromNode < toNode → ∀ r ∈ s.rangeIndex, Met r toNode fromNode → r.imputed := by
    intro hlt r hr hmet
    by_contra himp
    rw [if_neg (by omega), Option.bind_some, removeRanges, if_neg (by simp),
      removeRanges_stuck now (hkept hlt r hr hmet) hmet himp] at ht
    cases ht
  refine ⟨fun r hr hd => ?_, hasserted⟩
  by_contra hneg
  have hnot : r ∉ t.rangeIndex := fun hrt => ((hexact r).mp hrt).2 hd
  have hru : r ∈ u.rangeIndex := (hmem r).mpr ⟨hr, fun hmet => hneg hmet.2⟩
  by_cases hdir : toNode < fromNode
  · rw [if_pos hdir] at ht
    exact hnot (Option.some.inj ht ▸ hru)
  · rw [if_neg hdir, Option.bind_some] at ht
    obtain ⟨t', ht', hmem'⟩ := removeRanges_wild (s := u) now toNode fromNode true (fun x hx hmet _ => by
      obtain ⟨hxs, hxno⟩ := (hmem x).mp hx
      rcases Nat.lt_or_ge fromNode toNode with hlt | hge
      · exact hasserted hlt x hxs hmet
      · exact absurd ⟨Span.matches_zero.mpr (by have := Span.matches_zero.mp hmet.1; omega), hmet.2⟩ hxno)
    rw [ht] at ht'
    obtain rfl := Option.some.inj ht'
    exact hnot ((hmem' r).mpr ⟨hru, fun hmet => hneg hmet.2⟩)

/-- Exactly when a wild-card removal ends and deletes what it should. -/
theorem wildcard_removal_iff (s : IonState) (now : Int) (fromNode toNode : Nat) :
    RemovesExactly s now fromNode toNode ↔ Removable s.rangeIndex fromNode toNode :=
  ⟨removable_of_removesExactly, rfxRemoveRange_of_removable now⟩

/-- One asserted range against the canonical direction is enough for the removal never to end. -/
theorem wildcard_removal_stuck :
    ∃ s, Runs.run edit (ionInitialize 1) [(0, .insertRange 10 20 2 1 3)] = some s ∧
      rfxRemoveRange s 5 0 1 2 = none ∧ ¬ RemovesExactly s 5 1 2 := by
  refine ⟨_, rfl, by decide, ?_⟩
  rintro ⟨t, ht, -⟩
  have hnone : rfxRemoveRange (rfxInsertRange (ionInitialize 1) 0 10 20 2 1 3).1 5 0 1 2 = none := by decide
  rw [show rfxRemoveRange _ 5 0 1 2 = none from hnone] at ht
  cases ht

end RangeRemoval
