import CgrJni.RangeRemoval
import CgrJni.RfxStart
import CgrJni.Timeline

/-!
Whether a removal of a range undoes its insertion. The removal goes by the keys
of both directions only, so it brings nothing back that the insertion overrode.
-/

namespace RangeUndo

open IonDb Rfx RfxContacts RfxRanges RangeRemoval RfxStart Timeline

variable {s t u v : IonState}

/-- An entry that one half of a removal looks for. -/
def Addressed (r : IonRXref) (fromTime : Int) (fromNode toNode : Nat) : Prop :=
  r.Matches fromTime fromNode toNode ∧ (fromTime = 0 → 0 < r.fromTime)

/-- A half that comes to an end has deleted what it looks for, asserted ranges only if it is unconditional. -/
theorem removeRanges_mem {now fromTime : Int} {fromNode toNode : Nat} {conditional : Bool}
    (h : removeRanges s now fromTime fromNode toNode conditional = some u) (r : IonRXref) :
    r ∈ u.rangeIndex ↔ r ∈ s.rangeIndex ∧
      ¬ (Addressed r fromTime fromNode toNode ∧ (conditional = true → r.imputed)) := by
  by_cases h0 : fromTime = 0
  · subst h0
    by_cases hdel : ∀ r ∈ s.rangeIndex, Met r fromNode toNode → conditional = true → r.imputed
    · obtain ⟨u', hu', hmem⟩ := removeRanges_wild now fromNode toNode conditional hdel
      obtain rfl := Option.some.inj (h.symm.trans hu')
      rw [hmem r]
      refine and_congr_right (fun hr => not_congr ?_)
      exact ⟨fun hmet => ⟨⟨hmet.1, fun _ => hmet.2⟩, hdel r hr hmet⟩, fun had => ⟨had.1.1, had.1.2 rfl⟩⟩
    · -- the loop never ends
      push Not at hdel
      obtain ⟨x, hx, hmet, hcond, himp⟩ := hdel
      subst hcond
      rw [removeRanges, if_neg (by simp), removeRanges_stuck now hx hmet himp] at h
      cases h
  · rw [removeRanges, if_pos h0] at h
    have haddr : ∀ x : IonRXref, Addressed x fromTime fromNode toNode ↔
        x.toSpan.key = toLex (toLex (fromNode, toNode), fromTime) := by
      intro x
      rw [Span.key_eq_iff_matches h0, Addressed]
      exact and_iff_left (fun h => absurd h h0)
    rw [haddr]
    cases hlookup : s.rangeIndex.lookup (toLex (toLex (fromNode, toNode), fromTime)) with
    | none =>
      rw [hlookup] at h
      obtain rfl := Option.some.inj h
      exact ⟨fun hr => ⟨hr, fun had => SortedIndex.lookup_eq_none.mp hlookup r hr had.1⟩, And.left⟩
    | some x =>
      obtain ⟨hx, hkey⟩ := SortedIndex.lookup_eq_some.mp hlookup
      rw [hlookup] at h
      rw [← Option.some.inj h, mem_deleteRange hx]
      refine and_congr_right (fun hr => ?_)
      have hrx : r.toSpan.key = toLex (toLex (fromNode, toNode), fromTime) ↔ r = x :=
        ⟨fun hk => SortedIndex.key_inj hr hx (hk.trans hkey.symm), fun he => he ▸ hkey⟩
      rw [hrx]
      constructor
      · rintro hkeep ⟨rfl, himp⟩
        exact (hkeep rfl).1 (himp (hkeep rfl).2)
      · rintro hno rfl
        by_contra hkeep
        exact hno ⟨rfl, fun hc => by_contra fun hi => hkeep ⟨hi, hc⟩⟩

/-- What a removal leaves in the index. -/
theorem rfxRemoveRange_mem {now fromTime : Int} {fromNode toNode : Nat}
    (h : rfxRemoveRange s now fromTime fromNode toNode = some t) (r : IonRXref) :
    r ∈ t.rangeIndex ↔ r ∈ s.rangeIndex ∧ ¬ Addressed r fromTime fromNode toNode ∧
      ¬ (fromNode ≤ toNode ∧ r.imputed ∧ Addressed r fromTime toNode fromNode) := by
  unfold rfxRemoveRange at h
  split at h
  · rename_i hdir
    rw [removeRanges_mem h]
    simp [hdir]
  · rename_i hdir
    obtain ⟨u, hu, ht⟩ := Option.bind_eq_some_iff.mp h
    rw [removeRanges_mem ht, removeRanges_mem hu]
    simp only [Bool.false_eq_true, false_implies, and_true, true_implies, not_lt.mp hdir, true_and,
      and_assoc, and_comm (a := r.imputed)]

/-- An imputed range is the reverse of an asserted one of the same start. -/
def Founded (idx : RangeIndex) : Prop :=
  ∀ r ∈ idx, r.imputed → ∃ c ∈ idx, c.toSpan.key = r.toSpan.reverse.key ∧ ¬ c.imputed

theorem insertRXref_founded {now : Int} {r : IonRXref} {h : s.rangeIndex.lookup r.key = none}
    (hs : Founded s.rangeIndex) (hr : ¬ r.imputed) : Founded (insertRXref s now r h).rangeIndex := by
  intro x hx himp
  rcases (mem_insertRXref s now r h x).mp hx with rfl | ⟨-, rfl⟩ | hx
  · exact absurd himp hr
  · exact ⟨r, (mem_insertRXref s now r h r).mpr (Or.inl rfl), rfl, hr⟩
  · obtain ⟨c, hc, hkey, hasserted⟩ := hs x hx himp
    exact ⟨c, (mem_insertRXref s now r h c).mpr (Or.inr (Or.inr hc)), hkey, hasserted⟩

theorem addRange_founded {now : Int} {span : Span} {owlt : Nat} {nextElt : Option IonRXref}
    {h : s.rangeIndex.lookup span.key = none} (hs : Founded s.rangeIndex) :
    Founded (addRange s now span owlt nextElt h).1.rangeIndex := by
  apply addRange_preserves (P := fun s => Founded s.rangeIndex) hs
  exact insertRXref_founded hs (newRange_asserted s span owlt)

theorem dropImputed_founded {r : IonRXref} (hs : Founded s.rangeIndex) (hr : r ∈ s.rangeIndex) (himp : r.imputed) :
    Founded (dropImputed s r).rangeIndex := by
  intro x hx hximp
  obtain ⟨c, hc, hkey, hasserted⟩ := hs x (SortedIndex.mem_erase.mp hx).1 hximp
  refine ⟨c, SortedIndex.mem_erase.mpr ⟨hc, fun he => ?_⟩, hkey, hasserted⟩
  exact hasserted (SortedIndex.key_inj hc hr he ▸ himp)

theorem insertRange_founded (hs : Founded s.rangeIndex) (now : Int) (span : Span) (owlt : Nat) :
    Founded (insertRange s now span owlt).1.rangeIndex := by
  rcases insertRange_cases s now span owlt with ⟨r, -, -, h⟩ | ⟨r, hr, himp, h⟩ | ⟨hk, h⟩ <;> rw [h]
  · exact hs
  · exact addRange_founded (dropImputed_founded hs (SortedIndex.lookup_eq_some.mp hr).1 himp)
  · exact addRange_founded hs

/-- The second half of a removal takes what was imputed from the first. -/
theorem rfxRemoveRange_founded {now fromTime : Int} {fromNode toNode : Nat} (hs : Founded s.rangeIndex)
    (hrev : ImputedReversed s.rangeIndex) (h : rfxRemoveRange s now fromTime fromNode toNode = some t) :
    Founded t.rangeIndex := by
  intro r hr himp
  obtain ⟨hrs, -, hnot⟩ := (rfxRemoveRange_mem h r).mp hr
  obtain ⟨c, hc, hkey, hasserted⟩ := hs r hrs himp
  refine ⟨c, (rfxRemoveRange_mem h c).mpr ⟨hc, ?_, fun hh => hasserted hh.2.1⟩, hkey, hasserted⟩
  rintro ⟨⟨hfrom, hto, htime⟩, hpos⟩
  have hnodes := Span.key_eq_iff.mp hkey
  have hpair := Span.pair_eq_iff.mp hnodes.1
  have hlt := hrev r hrs himp
  simp only [Span.reverse] at hnodes hpair
  refine hnot ⟨by omega, himp, ⟨by omega, by omega, fun h0 => ?_⟩, fun h0 => ?_⟩
  · have := htime h0
    omega
  · have := hpos h0
    omega

/-- No range on record has a place in the list that is still to be given. -/
def PlacesGiven (s : IonState) : Prop := ∀ r ∈ s.ranges, r.1 ≤ s.lastObject

theorem insertRXref_places {now : Int} {r : IonRXref} {h : s.rangeIndex.lookup r.key = none} (hs : PlacesGiven s) :
    PlacesGiven (insertRXref s now r h) := by
  obtain ⟨-, he⟩ | ⟨-, hk, he⟩ := insertRXref_cases s now r h <;> rw [he]
  · exact hs
  · exact hs

theorem recordRange_places (hs : PlacesGiven s) (span : Span) (owlt : Nat) : PlacesGiven (recordRange s span owlt) := by
  intro r hr
  cases List.mem_append.mp hr with
  | inl hold => exact (hs r hold).trans (Nat.le_succ _)
  | inr hnew =>
    rw [List.mem_singleton.mp hnew]
    exact le_refl (s.lastObject + 1)

theorem addRange_places {now : Int} {span : Span} {owlt : Nat} {nextElt : Option IonRXref}
    {h : s.rangeIndex.lookup span.key = none} (hs : PlacesGiven s) :
    PlacesGiven (addRange s now span owlt nextElt h).1 :=
  addRange_preserves hs (insertRXref_places (recordRange_places hs span owlt))

theorem insertRange_places (hs : PlacesGiven s) (now : Int) (span : Span) (owlt : Nat) :
    PlacesGiven (insertRange s now span owlt).1 := by
  rcases insertRange_cases s now span owlt with ⟨r, -, -, h⟩ | ⟨r, hr, -, h⟩ | ⟨hk, h⟩ <;> rw [h]
  · exact hs
  · have hdrop : PlacesGiven (dropImputed s r) := hs
    exact addRange_places hdrop
  · exact addRange_places hs

theorem edit_places {call : Int × Edit} (hs : PlacesGiven s) (he : edit s call = some t) : PlacesGiven t :=
  edit_preserves PlacesGiven (fun _ _ _ _ _ _ h _ r hr => (h r hr).trans (Nat.le_succ _)) (fun _ _ _ h _ => h)
    (fun _ now span owlt h => insertRange_places h now span owlt)
    (fun s now r conditional h _ => by
      unfold deleteRange
      split
      · exact h
      · intro x hx
        dsimp only at hx
        split at hx
        · exact h x hx
        · exact h x (List.mem_filter.mp hx).1) hs he

theorem edit_founded {call : Int × Edit} (hs : Founded s.rangeIndex) (hrev : ImputedReversed s.rangeIndex)
    (he : edit s call = some t) : Founded t.rangeIndex := by
  obtain ⟨now, e⟩ := call
  cases e with
  | insertContact fromTime toTime fromNode toNode xmitRate prob =>
    rw [← Option.some.inj he, (rfxInsertContact_sameRanges s now fromTime toTime fromNode toNode xmitRate prob).rangeIndex]
    exact hs
  | removeContact fromTime fromNode toNode =>
    rw [(rfxRemoveContact_sameRanges s now fromTime fromNode toNode t he).rangeIndex]
    exact hs
  | insertRange fromTime toTime fromNode toNode owlt =>
    rw [← Option.some.inj he]
    obtain ⟨-, hr⟩ | ⟨span, -, hr⟩ := rfxInsertRange_cases s now fromTime toTime fromNode toNode owlt <;> rw [hr]
    · exact hs
    · exact insertRange_founded hs now span owlt
  | removeRange fromTime fromNode toNode => exact rfxRemoveRange_founded hs hrev he

/-- What the edits keep up. -/
structure Sound (s : IonState) : Prop where
  reversed : ImputedReversed s.rangeIndex
  founded : Founded s.rangeIndex
  places : PlacesGiven s
  kept : Kept s

theorem Sound.of_unused (h : Unused s) : Sound s where
  reversed r hr := by
    rw [h.rangeIndex] at hr
    exact absurd hr (SortedIndex.not_mem_empty r)
  founded r hr := by
    rw [h.rangeIndex] at hr
    exact absurd hr (SortedIndex.not_mem_empty r)
  places r hr := by
    rw [h.ranges] at hr
    exact absurd hr List.not_mem_nil
  kept := h.toBlank.kept

theorem edit_sound {call : Int × Edit} (h : Sound s) (he : edit s call = some t) : Sound t where
  reversed := edit_reversed h.reversed he
  founded := edit_founded h.founded h.reversed he
  places := edit_places h.places he
  kept := edit_kept h.kept he

/-- An insertion that puts a range on record goes on from the database itself, where the key is free,
or from one without the imputed range that held it. -/
theorem newRange_cases {now fromTime toTime : Int} {fromNode toNode owlt : Nat}
    (hnew : (rfxInsertRange s now fromTime toTime fromNode toNode owlt).1.ranges ≠ s.ranges) :
    ∃ span, Span.check fromTime toTime fromNode toNode = some span ∧
      ((∃ h : s.rangeIndex.lookup span.key = none,
        (rfxInsertRange s now fromTime toTime fromNode toNode owlt).1 =
          insertRXref (recordRange s span owlt) now (newRange s span owlt) h) ∨
      ∃ r ∈ s.rangeIndex, r.toSpan.key = span.key ∧ r.imputed ∧
        ∃ h, (rfxInsertRange s now fromTime toTime fromNode toNode owlt).1 =
          insertRXref (recordRange (dropImputed s r) span owlt) now (newRange s span owlt) h) := by
  rcases rfxInsertRange_cases s now fromTime toTime fromNode toNode owlt with ⟨-, h⟩ | ⟨span, hspan, h⟩
  · rw [h] at hnew
    exact absurd rfl hnew
  refine ⟨span, hspan, ?_⟩
  rw [h] at hnew ⊢
  rcases insertRange_cases s now span owlt with ⟨r, -, -, hi⟩ | ⟨r, hr, himp, hi⟩ | ⟨hk, hi⟩ <;> rw [hi] at hnew ⊢
  · exact absurd rfl hnew
  · obtain ⟨hmem, hkey⟩ := SortedIndex.lookup_eq_some.mp hr
    cases hov : overlapsRange (dropImputed s r).rangeIndex span none with
    | true =>
      rw [addRange_rejected hov] at hnew
      exact absurd rfl hnew
    | false =>
      rw [addRange_accepted hov]
      exact Or.inr ⟨r, hmem, hkey, himp, lookup_dropImputed hr, rfl⟩
  · cases hov : overlapsRange s.rangeIndex span (s.rangeIndex.successor span.key) with
    | true =>
      rw [addRange_rejected hov] at hnew
      exact absurd rfl hnew
    | false =>
      rw [addRange_accepted hov]
      exact Or.inl ⟨hk, rfl⟩

/-- A removal that names a time always comes to an end. -/
theorem rfxRemoveRange_ends (s : IonState) (now : Int) {fromTime : Int} (h0 : fromTime ≠ 0) (fromNode toNode : Nat) :
    ∃ t, rfxRemoveRange s now fromTime fromNode toNode = some t := by
  have hends : ∀ s fromNode toNode conditional, ∃ t, removeRanges s now fromTime fromNode toNode conditional = some t := by
    intro s fromNode toNode conditional
    rw [removeRanges, if_pos h0]
    split
    · exact ⟨_, rfl⟩
    · exact ⟨_, rfl⟩
  obtain ⟨u, hu⟩ := hends s fromNode toNode false
  unfold rfxRemoveRange
  split
  · exact ⟨u, hu⟩
  · rw [hu]
    exact hends u toNode fromNode true

/-- A conditional half leaves what is on record. -/
theorem removeRanges_conditional_ranges {now fromTime : Int} {fromNode toNode : Nat}
    (h : removeRanges s now fromTime fromNode toNode true = some u) : u.ranges = s.ranges := by
  refine removeRanges_preserves (fun u => u.ranges = s.ranges) now fromTime fromNode toNode true ?_ s u rfl h
  intro w r hw _
  unfold deleteRange
  by_cases himp : r.imputed
  · simp [himp, hw]
  · simp [himp, hw]

/-- The removal of an asserted range takes its record off the list. -/
theorem rfxRemoveRange_ranges {now fromTime : Int} {fromNode toNode : Nat} {n : IonRXref} (h0 : fromTime ≠ 0)
    (hn : s.rangeIndex.lookup (toLex (toLex (fromNode, toNode), fromTime)) = some n) (hasserted : ¬ n.imputed)
    (h : rfxRemoveRange s now fromTime fromNode toNode = some t) :
    t.ranges = s.ranges.filter (fun r => r.1 ≠ n.rangeElt) := by
  have hfirst : removeRanges s now fromTime fromNode toNode false = some (deleteRange s now n false) := by
    rw [removeRanges, if_pos h0, hn]
  have hranges : (deleteRange s now n false).ranges = s.ranges.filter (fun r => r.1 ≠ n.rangeElt) := by
    simp [deleteRange, hasserted]
  unfold rfxRemoveRange at h
  rw [hfirst] at h
  split at h
  · rw [← Option.some.inj h, hranges]
  · rw [Option.bind_some] at h
    rw [removeRanges_conditional_ranges h, hranges]

theorem rfxRemoveRange_contactIndex {now fromTime : Int} {fromNode toNode : Nat}
    (h : rfxRemoveRange s now fromTime fromNode toNode = some t) : t.contactIndex = s.contactIndex := by
  refine rfxRemoveRange_preserves (fun t => t.contactIndex = s.contactIndex) now fromTime fromNode toNode ?_ s t rfl h
  intro w r conditional hw _
  unfold deleteRange
  split
  · exact hw
  · exact hw

/-- The timeline is determined by the indexes, but for the order. -/
theorem Kept.timeline_perm (hs : Kept s) (ht : Kept t) (hc : t.contactIndex = s.contactIndex)
    (hr : t.rangeIndex = s.rangeIndex) : t.timeline.Perm s.timeline := by
  have hblocks : blocks t = blocks s := by rw [blocks, hc, hr, blocks]
  have hevents := ht.events
  rw [hblocks] at hevents
  exact hevents.trans hs.events.symm

def readdress (f : PsmAddress → PsmAddress) (r : IonRXref) : IonRXref := { r with addr := f r.addr }

def readdressEvent (f : PsmAddress → PsmAddress) (e : IonEvent) : IonEvent := { e with ref := f e.ref }

/-- Ranges and events are as they were, up to the addresses of the index entries. -/
def SameUpToAddresses (s t : IonState) : Prop :=
  ∃ f : PsmAddress → PsmAddress, Function.Injective f ∧
    t.rangeIndex.entries = s.rangeIndex.entries.map (readdress f) ∧
    t.timeline.Perm (s.timeline.map (readdressEvent f)) ∧ t.ranges = s.ranges

/-- The removal of what an insertion has just added leads back to the database before the insertion. -/
def Undone (s : IonState) (now later fromTime toTime : Int) (fromNode toNode owlt : Nat) : Prop :=
  ∃ t, rfxRemoveRange (rfxInsertRange s now fromTime toTime fromNode toNode owlt).1 later fromTime fromNode toNode =
    some t ∧ SameUpToAddresses s t

/-- Where the key was free, nothing else is found under the keys of the removal. -/
theorem undone_of_absent (hs : Sound s) {now later : Int} {span : Span} {owlt : Nat}
    (hk : s.rangeIndex.lookup span.key = none)
    (hu : Sound (insertRXref (recordRange s span owlt) now (newRange s span owlt) hk))
    (ht : rfxRemoveRange (insertRXref (recordRange s span owlt) now (newRange s span owlt) hk) later span.fromTime
      span.fromNode span.toNode = some t) : SameUpToAddresses s t := by
  have hmem := mem_insertRXref (recordRange s span owlt) now (newRange s span owlt) hk
  have haddr : ∀ x : IonRXref, Addressed x span.fromTime span.fromNode span.toNode ↔ x.toSpan.key = span.key := by
    intro x
    rw [Addressed, ← Span.key_eq_iff_matches span.fromTime_ne]
    exact and_iff_left (fun h => absurd h span.fromTime_ne)
  have haddrRev : ∀ x : IonRXref, Addressed x span.fromTime span.toNode span.fromNode ↔
      x.toSpan.key = span.reverse.key := by
    intro x
    rw [Addressed, ← Span.key_eq_iff_matches span.fromTime_ne]
    exact and_iff_left (fun h => absurd h span.fromTime_ne)
  have hindex : t.rangeIndex = s.rangeIndex := by
    refine SortedIndex.ext_mem (fun x => ?_)
    rw [rfxRemoveRange_mem ht, hmem, haddr, haddrRev]
    constructor
    · rintro ⟨rfl | ⟨hi, rfl⟩ | hx, hne, hrev⟩
      · exact absurd rfl hne
      · exact absurd ⟨Nat.le_of_lt hi.1, rfl, rfl⟩ hrev
      · exact hx
    · intro hx
      refine ⟨Or.inr (Or.inr hx), SortedIndex.lookup_eq_none.mp hk x hx, ?_⟩
      rintro ⟨-, himp, hkey⟩
      -- an imputed range would not be there without the asserted one
      obtain ⟨c, hc, hckey, -⟩ := hs.founded x hx himp
      exact SortedIndex.lookup_eq_none.mp hk c hc (hckey.trans (Span.reverse_key hkey))
  have hcontacts : t.contactIndex = s.contactIndex := by
    rw [rfxRemoveRange_contactIndex ht]
    exact (insertRXref_sameContacts (recordRange s span owlt) now (newRange s span owlt) hk).contactIndex
  have hranges : t.ranges = s.ranges := by
    have hn : (insertRXref (recordRange s span owlt) now (newRange s span owlt) hk).rangeIndex.lookup
        (toLex (toLex (span.fromNode, span.toNode), span.fromTime)) = some (newRange s span owlt) :=
      SortedIndex.lookup_eq_some.mpr ⟨(hmem _).mpr (Or.inl rfl), rfl⟩
    have hins := insertRXref_ranges (recordRange s span owlt) now (newRange s span owlt) hk
    rw [rfxRemoveRange_ranges span.fromTime_ne hn (newRange_asserted s span owlt) ht, hins]
    have hold : s.ranges.filter (fun r => r.1 ≠ s.lastObject + 1) = s.ranges := by
      refine List.filter_eq_self.mpr (fun r hr => decide_eq_true (fun he => ?_))
      have hle := hs.places r hr
      rw [he] at hle
      exact Nat.not_succ_le_self s.lastObject hle
    rw [recordRange, List.filter_append, hold]
    simp
  have htsound : Sound t := edit_sound hu (show edit _ (later, .removeRange _ _ _) = some t from ht)
  refine ⟨id, Function.injective_id, ?_, ?_, hranges⟩
  · rw [hindex]
    exact (List.map_id _).symm
  · have hperm := Kept.timeline_perm hs.kept htsound.kept hcontacts hindex
    rwa [show s.timeline.map (readdressEvent id) = s.timeline from List.map_id _]

/-- What was overridden stays away. -/
theorem not_undone_of_overridden {r : IonRXref} (hr : r ∈ s.rangeIndex) {later fromTime : Int} {fromNode toNode : Nat}
    (h0 : fromTime ≠ 0) (hkey : r.toSpan.key = toLex (toLex (fromNode, toNode), fromTime))
    (ht : rfxRemoveRange u later fromTime fromNode toNode = some t) : ¬ SameUpToAddresses s t := by
  rintro ⟨f, -, hentries, -⟩
  have hmem : readdress f r ∈ t.rangeIndex.entries := by
    rw [hentries]
    exact List.mem_map_of_mem hr
  refine ((rfxRemoveRange_mem ht _).mp hmem).2.1 ⟨?_, fun h => absurd h h0⟩
  exact (Span.key_eq_iff_matches h0).mp hkey

theorem undone_iff_of_sound (hs : Sound s) (now later fromTime toTime : Int) (fromNode toNode owlt : Nat)
    (hnew : (rfxInsertRange s now fromTime toTime fromNode toNode owlt).1.ranges ≠ s.ranges) :
    Undone s now later fromTime toTime fromNode toNode owlt ↔
      s.rangeIndex.lookup (toLex (toLex (fromNode, toNode), fromTime)) = none := by
  have hu : Sound (rfxInsertRange s now fromTime toTime fromNode toNode owlt).1 :=
    edit_sound hs (show edit s (now, .insertRange fromTime toTime fromNode toNode owlt) = some _ from rfl)
  obtain ⟨span, hspan, hcases⟩ := newRange_cases hnew
  obtain ⟨rfl, rfl, rfl, rfl⟩ := Span.check_eq_some hspan
  obtain ⟨t, ht⟩ := rfxRemoveRange_ends (rfxInsertRange s now span.fromTime span.toTime span.fromNode span.toNode owlt).1
    later span.fromTime_ne span.fromNode span.toNode
  obtain ⟨hk, hi⟩ | ⟨r, hr, hkey, -, -, -⟩ := hcases
  · refine iff_of_true ⟨t, ht, ?_⟩ hk
    rw [hi] at ht hu
    exact undone_of_absent hs hk hu ht
  · refine iff_of_false ?_ (fun hk => SortedIndex.lookup_eq_none.mp hk r hr hkey)
    rintro ⟨t', ht', hsame⟩
    exact not_undone_of_overridden hr span.fromTime_ne hkey ht' hsame

theorem sound_of_run (hunused : Unused s) {calls : List (Int × Edit)} (hrun : Runs.run edit s calls = some t) :
    Sound t := by
  have hkeep : ∀ s call t, Sound s → edit s call = some t → Sound t := fun _ _ _ h he => edit_sound h he
  exact Runs.run_invariant hkeep calls s t (Sound.of_unused hunused) hrun

theorem undone_iff (s₀ s : IonState) (hunused : Unused s₀) (calls : List (Int × Edit))
    (hrun : Runs.run edit s₀ calls = some s) (now later fromTime toTime : Int) (fromNode toNode owlt : Nat)
    (hnew : (rfxInsertRange s now fromTime toTime fromNode toNode owlt).1.ranges ≠ s.ranges) :
    Undone s now later fromTime toTime fromNode toNode owlt ↔
      s.rangeIndex.lookup (toLex (toLex (fromNode, toNode), fromTime)) = none :=
  undone_iff_of_sound (sound_of_run hunused hrun) now later fromTime toTime fromNode toNode owlt hnew

/-- A canonical range, whose reverse is imputed. -/
def canonicalRange : List (Int × Edit) := [(0, .insertRange 10 20 1 2 1)]

theorem undone_iff_canonical : ∃ s, Runs.run edit (ionInitialize 1) canonicalRange = some s ∧
    (rfxInsertRange s 1 10 20 2 1 5).1.ranges ≠ s.ranges ∧
    (Undone s 1 2 10 20 2 1 5 ↔ s.rangeIndex.lookup (toLex (toLex (2, 1), 10)) = none) :=
  ⟨_, rfl, by decide, undone_iff (ionInitialize 1) _ ⟨⟨rfl, rfl, rfl⟩, rfl, rfl⟩ canonicalRange rfl 1 2 10 20 2 1 5
    (by decide)⟩

/-- The reverse is asserted in its turn and removed again; then there is no reverse left. -/
theorem override_not_undone : ∃ s, Runs.run edit (ionInitialize 1) canonicalRange = some s ∧
    (rfxInsertRange s 1 10 20 2 1 5).1.ranges ≠ s.ranges ∧ s.rangeIndex.entries.length = 2 ∧
    ((rfxRemoveRange (rfxInsertRange s 1 10 20 2 1 5).1 2 10 2 1).map fun t => t.rangeIndex.entries.length) = some 1 ∧
    ¬ Undone s 1 2 10 20 2 1 5 := by
  refine ⟨_, rfl, by decide, by decide, by decide, ?_⟩
  have hunused : Unused (ionInitialize 1) := ⟨⟨rfl, rfl, rfl⟩, rfl, rfl⟩
  have hrun : Runs.run edit (ionInitialize 1) canonicalRange = some _ := rfl
  have hs := sound_of_run hunused hrun
  rw [undone_iff_of_sound hs 1 2 10 20 2 1 5 (by decide)]
  decide

end RangeUndo
