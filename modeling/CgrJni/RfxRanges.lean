import CgrJni.RfxContacts

/-!
What range insertion and removal can do to the database, and when the ranges
of one pair of nodes stay apart. Three paths lead into the index: an assertion
checked against its neighbours, its imputed reverse, which is not checked, and
an override, which is checked against the last entry only.
-/

namespace RfxRanges

open IonDb Rfx IntervalIndex RfxContacts

/-- A range is held by an assertion, or meets an imputed range, or finds its key free. -/
theorem insertRange_cases (s : IonState) (now : Int) (span : Span) (owlt : Nat) :
    (∃ r, s.rangeIndex.lookup span.key = some r ∧ ¬ r.imputed ∧
      insertRange s now span owlt = (s, if r.owlt = owlt then r.addr else 0)) ∨
    (∃ r, ∃ h : s.rangeIndex.lookup span.key = some r, r.imputed ∧
      insertRange s now span owlt =
        addRange (dropImputed s r) now span owlt none (lookup_dropImputed h)) ∨
    ∃ h : s.rangeIndex.lookup span.key = none, insertRange s now span owlt =
      addRange s now span owlt (s.rangeIndex.successor span.key) h := by
  unfold insertRange
  split
  · rename_i r h
    split
    · rename_i himp
      exact Or.inr (Or.inl ⟨r, h, himp, rfl⟩)
    · rename_i himp
      exact Or.inl ⟨r, h, himp, rfl⟩
  · rename_i h
    exact Or.inr (Or.inr ⟨h, rfl⟩)

theorem rfxInsertRange_cases (s : IonState) (now fromTime toTime : Int) (fromNode toNode owlt : Nat) :
    (Span.check fromTime toTime fromNode toNode = none ∧
      rfxInsertRange s now fromTime toTime fromNode toNode owlt = (s, 0)) ∨
    ∃ span, Span.check fromTime toTime fromNode toNode = some span ∧
      rfxInsertRange s now fromTime toTime fromNode toNode owlt = insertRange s now span owlt := by
  unfold rfxInsertRange
  split
  · rename_i h
    exact Or.inl ⟨h, rfl⟩
  · rename_i span h
    exact Or.inr ⟨span, h, rfl⟩

theorem rfxInsertRange_of_check {fromTime toTime : Int} {fromNode toNode : Nat} {span : Span}
    (h : Span.check fromTime toTime fromNode toNode = some span) (s : IonState) (now : Int) (owlt : Nat) :
    rfxInsertRange s now fromTime toTime fromNode toNode owlt = insertRange s now span owlt := by
  simp only [rfxInsertRange, h]

/-- The reverse is imputed for a canonical assertion with whose start no reverse entry starts. -/
def Imputes (idx : RangeIndex) (span : Span) : Prop :=
  span.fromNode < span.toNode ∧ idx.lookup span.reverse.key = none

instance (idx : RangeIndex) (span : Span) : Decidable (Imputes idx span) :=
  inferInstanceAs (Decidable (_ ∧ _))

theorem key_ne_reverse {span : Span} (h : span.fromNode ≠ span.toNode) :
    span.key ≠ span.reverse.key := by
  intro he
  rw [Span.key_eq_iff, Span.pair_eq_iff] at he
  exact h he.1.1

theorem reverse_key_self {span : Span} (h : span.fromNode = span.toNode) :
    span.reverse.key = span.key :=
  Span.key_eq_iff.mpr ⟨Span.pair_eq_iff.mpr ⟨h.symm, h⟩, rfl⟩

theorem mem_indexRange {s : IonState} {r x : IonRXref} (h : s.rangeIndex.lookup r.key = none) :
    x ∈ (indexRange s r h).rangeIndex ↔ x = r ∨ x ∈ s.rangeIndex := by
  simp only [indexRange, SortedIndex.mem_insert]

theorem mem_assertRange {s : IonState} {now : Int} {r x : IonRXref}
    (h : s.rangeIndex.lookup r.key = none) :
    x ∈ (assertRange s now r h).rangeIndex ↔ x = r ∨ x ∈ s.rangeIndex := mem_indexRange h

/-- Once the assertion itself is in place, its reverse is imputed as decided before. -/
theorem insertRXref_cases (s : IonState) (now : Int) (r : IonRXref)
    (h : s.rangeIndex.lookup r.key = none) :
    (¬ Imputes s.rangeIndex r.toSpan ∧ insertRXref s now r h = assertRange s now r h) ∨
    (Imputes s.rangeIndex r.toSpan ∧
      ∃ h' : (assertRange s now r h).rangeIndex.lookup r.toSpan.reverse.key = none,
        insertRXref s now r h = indexRange (assertRange s now r h) (imputedEntry r (r.addr + 1)) h') := by
  unfold insertRXref imputeRange
  rcases Nat.lt_trichotomy r.fromNode r.toNode with hlt | heq | hgt
  · rw [if_neg (by omega)]
    have hlook : (assertRange s now r h).rangeIndex.lookup r.toSpan.reverse.key =
        s.rangeIndex.lookup r.toSpan.reverse.key :=
      SortedIndex.lookup_insert_of_ne _ r h (key_ne_reverse (by omega))
    split
    · rename_i x hx
      refine Or.inl ⟨?_, rfl⟩
      rintro ⟨-, hnone⟩
      rw [hlook, hnone] at hx
      cases hx
    · rename_i hx
      exact Or.inr ⟨⟨hlt, hlook ▸ hx⟩, hx, rfl⟩
  · rw [if_neg (by omega)]
    have hself : (assertRange s now r h).rangeIndex.lookup r.toSpan.reverse.key = some r := by
      rw [reverse_key_self heq]
      exact SortedIndex.lookup_insert_self _ r h
    split
    · exact Or.inl ⟨fun hi => absurd hi.1 (by omega), rfl⟩
    · rename_i hx
      rw [hself] at hx
      cases hx
  · rw [if_pos hgt]
    exact Or.inl ⟨fun hi => absurd hi.1 (by omega), rfl⟩

/-- An assertion enters the index, with its reverse where that is imputed. -/
theorem mem_insertRXref (s : IonState) (now : Int) (r : IonRXref)
    (h : s.rangeIndex.lookup r.key = none) (x : IonRXref) :
    x ∈ (insertRXref s now r h).rangeIndex ↔
      x = r ∨ (Imputes s.rangeIndex r.toSpan ∧ x = imputedEntry r (r.addr + 1)) ∨ x ∈ s.rangeIndex := by
  rcases insertRXref_cases s now r h with ⟨hi, he⟩ | ⟨hi, h', he⟩ <;> rw [he]
  · rw [mem_assertRange]
    simp only [hi, false_and, false_or]
  · rw [mem_indexRange, mem_assertRange]
    simp only [hi, true_and]
    exact or_left_comm

theorem insertRXref_ranges (s : IonState) (now : Int) (r : IonRXref)
    (h : s.rangeIndex.lookup r.key = none) : (insertRXref s now r h).ranges = s.ranges := by
  rcases insertRXref_cases s now r h with ⟨-, he⟩ | ⟨-, h', he⟩ <;> rw [he]
  · rfl
  · rfl

abbrev newRange (s : IonState) (span : Span) (owlt : Nat) : IonRXref :=
  rangeEntry s span owlt (s.lastObject + 1)

/-- The database with a new range on record. -/
def recordRange (s : IonState) (span : Span) (owlt : Nat) : IonState :=
  { s with ranges := s.ranges ++ [(s.lastObject + 1, ⟨span, owlt⟩)], lastObject := s.lastObject + 1 }

theorem addRange_rejected {s : IonState} {now : Int} {span : Span} {owlt : Nat} {nextElt : Option IonRXref}
    {h : s.rangeIndex.lookup span.key = none} (hov : overlapsRange s.rangeIndex span nextElt = true) :
    addRange s now span owlt nextElt h = (s, 0) := by
  rw [addRange, if_pos hov]

theorem addRange_accepted {s : IonState} {now : Int} {span : Span} {owlt : Nat} {nextElt : Option IonRXref}
    {h : s.rangeIndex.lookup span.key = none} (hov : overlapsRange s.rangeIndex span nextElt = false) :
    addRange s now span owlt nextElt h =
      (insertRXref (recordRange s span owlt) now (newRange s span owlt) h, s.lastAddr + 1) := by
  rw [addRange, if_neg (by rw [hov]; simp)]
  rfl

/-- What a rejection keeps and the insertion of a new record establishes holds afterwards. -/
theorem addRange_preserves {P : IonState → Prop} {s : IonState} {now : Int} {span : Span} {owlt : Nat}
    {nextElt : Option IonRXref} {h : s.rangeIndex.lookup span.key = none} (hs : P s)
    (hnew : P (insertRXref (recordRange s span owlt) now (newRange s span owlt) h)) :
    P (addRange s now span owlt nextElt h).1 := by
  cases hov : overlapsRange s.rangeIndex span nextElt with
  | true =>
    rw [addRange_rejected hov]
    exact hs
  | false =>
    rw [addRange_accepted hov]
    exact hnew

theorem insertRXref_sameContacts (s : IonState) (now : Int) (r : IonRXref)
    (h : s.rangeIndex.lookup r.key = none) : SameContacts s (insertRXref s now r h) := by
  rcases insertRXref_cases s now r h with ⟨-, he⟩ | ⟨-, h', he⟩ <;> rw [he]
  · exact ⟨rfl, rfl, rfl, rfl⟩
  · exact ⟨rfl, rfl, rfl, rfl⟩

theorem addRange_sameContacts (s : IonState) (now : Int) (span : Span) (owlt : Nat)
    (nextElt : Option IonRXref) (h : s.rangeIndex.lookup span.key = none) :
    SameContacts s (addRange s now span owlt nextElt h).1 := by
  have hrec : SameContacts s (recordRange s span owlt) := ⟨rfl, rfl, rfl, rfl⟩
  apply addRange_preserves (SameContacts.refl s)
  exact hrec.trans (insertRXref_sameContacts (recordRange s span owlt) now (newRange s span owlt) h)

theorem insertRange_sameContacts (s : IonState) (now : Int) (span : Span) (owlt : Nat) :
    SameContacts s (insertRange s now span owlt).1 := by
  rcases insertRange_cases s now span owlt with ⟨r, -, -, h⟩ | ⟨r, hr, -, h⟩ | ⟨hk, h⟩ <;> rw [h]
  · exact SameContacts.refl s
  · have hdrop : SameContacts s (dropImputed s r) := ⟨rfl, rfl, rfl, rfl⟩
    exact hdrop.trans (addRange_sameContacts (dropImputed s r) now span owlt none (lookup_dropImputed hr))
  · exact addRange_sameContacts s now span owlt _ hk

theorem rfxInsertRange_sameContacts (s : IonState) (now fromTime toTime : Int)
    (fromNode toNode owlt : Nat) :
    SameContacts s (rfxInsertRange s now fromTime toTime fromNode toNode owlt).1 := by
  rcases rfxInsertRange_cases s now fromTime toTime fromNode toNode owlt with ⟨-, h⟩ | ⟨span, -, h⟩ <;> rw [h]
  · exact SameContacts.refl s
  · exact insertRange_sameContacts s now span owlt

/-- Any two ranges between the same nodes, asserted or imputed, are apart. -/
def RangesApart (idx : RangeIndex) : Prop :=
  Separated IonRXref.pair (fun r => r.fromTime) (fun r => r.toTime) idx

instance (idx : RangeIndex) : Decidable (RangesApart idx) := inferInstanceAs (Decidable (Separated _ _ _ _))

/-- An interval shares no instant with the entries of a pair of nodes. -/
def Clear (idx : RangeIndex) (span : Span) (pair : ℕ ×ₗ ℕ) : Prop :=
  ∀ x ∈ idx, x.pair = pair → span.Disjoint x.toSpan

theorem overlapsRange_iff {idx : RangeIndex} (hidx : RangesApart idx) {span : Span}
    (habs : idx.lookup span.key = none) :
    overlapsRange idx span (idx.successor span.key) = true ↔ ¬ Clear idx span span.pair := by
  rw [overlapsRange, SortedIndex.successor_of_absent habs,
    blocked_iff_overlap hidx (fun r _ => r.interval) span.interval habs]
  simp only [Clear, not_forall, exists_prop]
  rfl

/-- An assertion keeps ranges apart when both it and its imputed reverse are clear of other entries. -/
theorem insertRXref_apart {s : IonState} {now : Int} {r : IonRXref} {h : s.rangeIndex.lookup r.key = none}
    (hs : RangesApart s.rangeIndex) :
    RangesApart (insertRXref s now r h).rangeIndex ↔ Clear s.rangeIndex r.toSpan r.pair ∧
      (Imputes s.rangeIndex r.toSpan → Clear s.rangeIndex r.toSpan r.toSpan.reverse.pair) := by
  have hassert : RangesApart (assertRange s now r h).rangeIndex ↔ Clear s.rangeIndex r.toSpan r.pair := by
    refine (separated_insert h).trans ?_
    exact ⟨fun hh => hh.2, fun hh => ⟨hs, hh⟩⟩
  rcases insertRXref_cases s now r h with ⟨hi, he⟩ | ⟨hi, h', he⟩ <;> rw [he]
  · simp only [hassert, hi, false_implies, and_true]
  · refine (separated_insert h').trans ?_
    refine and_congr hassert ?_
    simp only [hi, true_implies]
    constructor
    · intro hc x hx hp
      exact hc x ((mem_assertRange h).mpr (Or.inr hx)) hp
    · intro hc x hx hp
      rcases (mem_assertRange h).mp hx with rfl | hx
      · exact absurd (Span.pair_eq_iff.mp hp).1 (Nat.ne_of_lt hi.1)
      · exact hc x hx hp

theorem addRange_apart {s : IonState} {now : Int} {span : Span} {owlt : Nat} {nextElt : Option IonRXref}
    {h : s.rangeIndex.lookup span.key = none} (hs : RangesApart s.rangeIndex)
    (hov : overlapsRange s.rangeIndex span nextElt = false) :
    RangesApart (addRange s now span owlt nextElt h).1.rangeIndex ↔ Clear s.rangeIndex span span.pair ∧
      (Imputes s.rangeIndex span → Clear s.rangeIndex span span.reverse.pair) := by
  have hrec : RangesApart (recordRange s span owlt).rangeIndex := hs
  rw [addRange_accepted hov]
  exact insertRXref_apart hrec

/-- An assertion that finds its key free is refused, or enters the index with its imputed reverse. -/
theorem insertRange_of_absent (s : IonState) (now : Int) (span : Span) (owlt : Nat)
    (hk : s.rangeIndex.lookup span.key = none) :
    (overlapsRange s.rangeIndex span (s.rangeIndex.successor span.key) = true ∧
      insertRange s now span owlt = (s, 0)) ∨
    (overlapsRange s.rangeIndex span (s.rangeIndex.successor span.key) = false ∧
      (insertRange s now span owlt).2 = s.lastAddr + 1 ∧
      ∀ x, x ∈ (insertRange s now span owlt).1.rangeIndex ↔ x = newRange s span owlt ∨
        (Imputes s.rangeIndex span ∧ x = imputedEntry (newRange s span owlt) (s.lastAddr + 2)) ∨
        x ∈ s.rangeIndex) := by
  have heq : insertRange s now span owlt =
      addRange s now span owlt (s.rangeIndex.successor span.key) hk := by
    rcases insertRange_cases s now span owlt with ⟨r, hr, -, -⟩ | ⟨r, hr, -, -⟩ | ⟨_, h⟩
    · rw [hk] at hr
      cases hr
    · rw [hk] at hr
      cases hr
    · exact h
  rw [heq]
  cases hov : overlapsRange s.rangeIndex span (s.rangeIndex.successor span.key) with
  | true => exact Or.inl ⟨rfl, addRange_rejected hov⟩
  | false =>
    rw [addRange_accepted hov]
    exact Or.inr ⟨rfl, rfl, mem_insertRXref (recordRange s span owlt) now (newRange s span owlt) hk⟩

/-- An override erases the imputed range it meets, and is refused or takes its place. -/
theorem insertRange_of_imputed (s : IonState) (now : Int) (span : Span) (owlt : Nat) {r : IonRXref}
    (hr : s.rangeIndex.lookup span.key = some r) (himp : r.imputed) (hdir : span.toNode < span.fromNode) :
    (overlapsRange (s.rangeIndex.erase span.key) span none = true ∧
      (insertRange s now span owlt).2 = 0) ∨
    (overlapsRange (s.rangeIndex.erase span.key) span none = false ∧
      (insertRange s now span owlt).2 = s.lastAddr + 1 ∧
      ∀ x, x ∈ (insertRange s now span owlt).1.rangeIndex ↔ x = newRange s span owlt ∨
        x ∈ s.rangeIndex.erase span.key) := by
  have herase : (dropImputed s r).rangeIndex = s.rangeIndex.erase span.key := by
    rw [← (SortedIndex.lookup_eq_some.mp hr).2]
    rfl
  have heq : insertRange s now span owlt =
      addRange (dropImputed s r) now span owlt none (lookup_dropImputed hr) := by
    rcases insertRange_cases s now span owlt with ⟨r', hr', himp', -⟩ | ⟨r', hr', -, h⟩ | ⟨hk, -⟩
    · rw [hr] at hr'
      exact absurd (Option.some.inj hr' ▸ himp) himp'
    · rw [h]
      obtain rfl := Option.some.inj (hr.symm.trans hr')
      rfl
    · rw [hr] at hk
      cases hk
  rw [heq, ← herase]
  cases hov : overlapsRange (dropImputed s r).rangeIndex span none with
  | true =>
    rw [addRange_rejected hov]
    exact Or.inl ⟨rfl, rfl⟩
  | false =>
    rw [addRange_accepted hov]
    refine Or.inr ⟨rfl, rfl, fun x => ?_⟩
    have hni : ¬ Imputes (recordRange (dropImputed s r) span owlt).rangeIndex span :=
      fun hi => absurd hi.1 (by omega)
    refine (mem_insertRXref (recordRange (dropImputed s r) span owlt) now _ (lookup_dropImputed hr) x).trans ?_
    simp only [hni, false_and, false_or]
    rfl

/-- Imputed entries run from the higher node number to the lower. -/
def ImputedReversed (idx : RangeIndex) : Prop := ∀ r ∈ idx, r.imputed → r.toNode < r.fromNode

theorem insertRXref_reversed {s : IonState} {now : Int} {r : IonRXref}
    {h : s.rangeIndex.lookup r.key = none} (hs : ImputedReversed s.rangeIndex) (hr : ¬ r.imputed) :
    ImputedReversed (insertRXref s now r h).rangeIndex := by
  intro x hx himp
  rcases (mem_insertRXref s now r h x).mp hx with rfl | ⟨hi, rfl⟩ | hx
  · exact absurd himp hr
  · exact hi.1
  · exact hs x hx himp

theorem newRange_asserted (s : IonState) (span : Span) (owlt : Nat) : ¬ (newRange s span owlt).imputed :=
  Nat.succ_ne_zero _

theorem addRange_reversed {s : IonState} {now : Int} {span : Span} {owlt : Nat}
    {nextElt : Option IonRXref} {h : s.rangeIndex.lookup span.key = none}
    (hs : ImputedReversed s.rangeIndex) :
    ImputedReversed (addRange s now span owlt nextElt h).1.rangeIndex := by
  apply addRange_preserves (P := fun s => ImputedReversed s.rangeIndex) hs
  exact insertRXref_reversed hs (newRange_asserted s span owlt)

theorem insertRange_reversed {s : IonState} (hs : ImputedReversed s.rangeIndex) (now : Int) (span : Span)
    (owlt : Nat) : ImputedReversed (insertRange s now span owlt).1.rangeIndex := by
  rcases insertRange_cases s now span owlt with ⟨r, -, -, h⟩ | ⟨r, hr, -, h⟩ | ⟨hk, h⟩ <;> rw [h]
  · exact hs
  · exact addRange_reversed (fun x hx => hs x (SortedIndex.mem_erase.mp hx).1)
  · exact addRange_reversed hs

/-- A deletion keeps the range index or erases one key of it. -/
theorem deleteRange_rangeIndex (s : IonState) (now : Int) (r : IonRXref) (conditional : Bool) :
    (deleteRange s now r conditional).rangeIndex = s.rangeIndex ∨
    (deleteRange s now r conditional).rangeIndex = s.rangeIndex.erase r.key := by
  unfold deleteRange
  split
  · exact Or.inl rfl
  · exact Or.inr rfl

/-- A round ends the loop when no range of the two nodes is left after the epoch, and else goes for one. -/
theorem removeRangesRound_cases (now : Int) (fromNode toNode : Nat) (conditional : Bool) (s : IonState) :
    (removeRangesRound now fromNode toNode conditional s = .inr s ∧
      ∀ r ∈ s.rangeIndex, ¬ (r.Matches 0 fromNode toNode ∧ 0 < r.fromTime)) ∨
    ∃ r ∈ s.rangeIndex, (r.Matches 0 fromNode toNode ∧ 0 < r.fromTime) ∧
      removeRangesRound now fromNode toNode conditional s = .inl (deleteRange s now r conditional) := by
  unfold removeRangesRound
  rcases wildKey_successor IonRXref.toSpan s.rangeIndex fromNode toNode with
    ⟨n, hmem, hnext, hmatch, hpos⟩ | ⟨hlater, hnone⟩
  · obtain ⟨hf, hto⟩ := Span.matches_zero.mp hmatch
    rw [hnext]
    dsimp only
    rw [if_neg (by omega)]
    exact Or.inr ⟨n, hmem, ⟨hmatch, hpos⟩, rfl⟩
  · refine Or.inl ⟨?_, hnone⟩
    cases hnext : s.rangeIndex.successor (wildKey fromNode toNode) with
    | none => rfl
    | some n => exact if_pos (hlater n hnext)

/-- What every deletion of an entry preserves, a removal that ends preserves. -/
theorem removeRanges_preserves (P : IonState → Prop) (now fromTime : Int) (fromNode toNode : Nat)
    (conditional : Bool) (hdel : ∀ s r, P s → r ∈ s.rangeIndex → P (deleteRange s now r conditional))
    (s t : IonState) (hs : P s) (h : removeRanges s now fromTime fromNode toNode conditional = some t) :
    P t := by
  unfold removeRanges at h
  split at h
  · split at h
    · rename_i r hr
      exact Option.some.inj h ▸ hdel s r hs (SortedIndex.lookup_eq_some.mp hr).1
    · exact Option.some.inj h ▸ hs
  · refine Runs.loop_partial P P ?_ ?_ _ s hs t h
    · intro s t hs hb
      rcases removeRangesRound_cases now fromNode toNode conditional s with ⟨he, -⟩ | ⟨r, hr, -, he⟩ <;>
        rw [he] at hb
      · cases hb
      · exact Sum.inl.inj hb ▸ hdel s r hs hr
    · intro s t hs hb
      rcases removeRangesRound_cases now fromNode toNode conditional s with ⟨he, -⟩ | ⟨r, hr, -, he⟩ <;>
        rw [he] at hb
      · exact Sum.inr.inj hb ▸ hs
      · cases hb

theorem rfxRemoveRange_preserves (P : IonState → Prop) (now fromTime : Int) (fromNode toNode : Nat)
    (hdel : ∀ s r conditional, P s → r ∈ s.rangeIndex → P (deleteRange s now r conditional))
    (s t : IonState) (hs : P s) (h : rfxRemoveRange s now fromTime fromNode toNode = some t) : P t := by
  unfold rfxRemoveRange at h
  split at h
  · exact removeRanges_preserves P now fromTime fromNode toNode false
      (fun s r hs hr => hdel s r false hs hr) s t hs h
  · obtain ⟨u, hu, ht⟩ := Option.bind_eq_some_iff.mp h
    have hPu := removeRanges_preserves P now fromTime fromNode toNode false
      (fun s r hs hr => hdel s r false hs hr) s u hs hu
    exact removeRanges_preserves P now fromTime toNode fromNode true
      (fun s r hs hr => hdel s r true hs hr) u t hPu ht

/-- What every addition and deletion of a contact or a range preserves, an edit preserves. -/
theorem edit_preserves (P : IonState → Prop)
    (hadd : ∀ s now span xmitRate prob hk, P s → 0 < prob → P (addContact s now span xmitRate prob hk).1)
    (hdel : ∀ s now c, P s → c ∈ s.contactIndex → P (deleteContact s now c))
    (haddRange : ∀ s now span owlt, P s → P (insertRange s now span owlt).1)
    (hdelRange : ∀ s now r conditional, P s → r ∈ s.rangeIndex → P (deleteRange s now r conditional))
    {s t : IonState} {call : Int × Edit} (hs : P s) (he : edit s call = some t) : P t := by
  obtain ⟨now, e⟩ := call
  cases e with
  | insertContact fromTime toTime fromNode toNode xmitRate prob =>
    rw [← Option.some.inj he]
    obtain hr | ⟨span, -, hprob, -, hr⟩ :=
      rfxInsertContact_cases s now fromTime toTime fromNode toNode xmitRate prob <;> rw [hr]
    · exact hs
    · obtain ⟨c, -, hr⟩ | ⟨-, -, hr⟩ | ⟨hk, -, hr⟩ := insertContact_cases s now span xmitRate prob <;> rw [hr]
      · exact hs
      · exact hs
      · exact hadd s now span xmitRate prob hk hs hprob
  | removeContact fromTime fromNode toNode =>
    obtain ⟨u, hu, hP⟩ := rfxRemoveContact_spec P now fromTime fromNode toNode
      (fun s c h hc _ => hdel s now c h hc) s hs
    rw [show rfxRemoveContact s now fromTime fromNode toNode = some t from he] at hu
    exact Option.some.inj hu ▸ hP
  | insertRange fromTime toTime fromNode toNode owlt =>
    rw [← Option.some.inj he]
    obtain ⟨-, hr⟩ | ⟨span, -, hr⟩ := rfxInsertRange_cases s now fromTime toTime fromNode toNode owlt <;> rw [hr]
    · exact hs
    · exact haddRange s now span owlt hs
  | removeRange fromTime fromNode toNode =>
    exact rfxRemoveRange_preserves P now fromTime fromNode toNode
      (fun s r conditional h hr => hdelRange s now r conditional h hr) s t hs he

/-- A property of the range index that survives the loss of any entry survives a removal. -/
theorem rfxRemoveRange_rangeIndex (P : RangeIndex → Prop) (herase : ∀ idx k, P idx → P (idx.erase k))
    {s t : IonState} {now fromTime : Int} {fromNode toNode : Nat} (hs : P s.rangeIndex)
    (h : rfxRemoveRange s now fromTime fromNode toNode = some t) : P t.rangeIndex := by
  refine rfxRemoveRange_preserves (fun s => P s.rangeIndex) now fromTime fromNode toNode ?_ s t hs h
  intro s r conditional hs _
  rcases deleteRange_rangeIndex s now r conditional with he | he <;> rw [he]
  · exact hs
  · exact herase _ _ hs

/-- When an insertion, if it is not refused, leaves the ranges of every pair apart: a new
canonical assertion needs the reverse direction clear before its reverse is imputed, and
an override of an imputed range needs the rest of its own direction clear. -/
def KeepsApart (idx : RangeIndex) (span : Span) : Prop :=
  match idx.lookup span.key with
  | some r => r.imputed → overlapsRange (idx.erase span.key) span none = false →
      Clear (idx.erase span.key) span span.pair
  | none => overlapsRange idx span (idx.successor span.key) = false → Imputes idx span →
      Clear idx span span.reverse.pair

def EditKeepsApart (s : IonState) (call : Int × Edit) : Prop :=
  match call.2 with
  | .insertRange fromTime toTime fromNode toNode _ =>
    ∀ span, Span.check fromTime toTime fromNode toNode = some span → KeepsApart s.rangeIndex span
  | _ => True

theorem insertRange_apart_iff {s : IonState} (hrev : ImputedReversed s.rangeIndex)
    (hs : RangesApart s.rangeIndex) (now : Int) (span : Span) (owlt : Nat) :
    RangesApart (insertRange s now span owlt).1.rangeIndex ↔ KeepsApart s.rangeIndex span := by
  unfold KeepsApart
  rcases insertRange_cases s now span owlt with ⟨r, hr, himp, h⟩ | ⟨r, hr, himp, h⟩ | ⟨hk, h⟩ <;> rw [h]
  · simp only [hr, himp, false_implies, iff_true]
    exact hs
  · have hkey : r.key = span.key := (SortedIndex.lookup_eq_some.mp hr).2
    have herase : (dropImputed s r).rangeIndex = s.rangeIndex.erase span.key := by
      rw [← hkey]
      rfl
    have hs' : RangesApart (dropImputed s r).rangeIndex := hs.erase _
    simp only [hr, himp, true_implies]
    rw [← herase]
    cases hov : overlapsRange (dropImputed s r).rangeIndex span none with
    | true =>
      rw [addRange_rejected hov]
      simp only [reduceCtorEq, false_implies, iff_true]
      exact hs'
    | false =>
      refine (addRange_apart hs' hov).trans ?_
      -- an imputed range runs against the canonical direction, so nothing is imputed for its override
      have hdir : span.toNode < span.fromNode := by
        obtain ⟨h1, h2⟩ := Span.pair_eq_iff.mp (Span.key_eq_iff.mp hkey).1
        have hlt := hrev r (SortedIndex.lookup_eq_some.mp hr).1 himp
        omega
      have hni : ¬ Imputes (dropImputed s r).rangeIndex span := fun hi => absurd hi.1 (by omega)
      simp only [true_implies]
      exact ⟨fun hh => hh.1, fun hh => ⟨hh, fun hi => absurd hi hni⟩⟩
  · simp only [hk]
    cases hov : overlapsRange s.rangeIndex span (s.rangeIndex.successor span.key) with
    | true =>
      rw [addRange_rejected hov]
      simp only [reduceCtorEq, false_implies, iff_true]
      exact hs
    | false =>
      have hclear : Clear s.rangeIndex span span.pair := by
        by_contra hc
        rw [(overlapsRange_iff hs hk).mpr hc] at hov
        cases hov
      refine (addRange_apart hs hov).trans ?_
      simp only [true_implies]
      exact ⟨fun hh => hh.2, fun hh => ⟨hclear, hh⟩⟩

/-- A step keeps the ranges apart exactly when the call meets the condition. -/
theorem edit_apart_iff {s t : IonState} {call : Int × Edit} (hrev : ImputedReversed s.rangeIndex)
    (hs : RangesApart s.rangeIndex) (h : edit s call = some t) :
    RangesApart t.rangeIndex ↔ EditKeepsApart s call := by
  obtain ⟨now, e⟩ := call
  cases e with
  | insertContact fromTime toTime fromNode toNode xmitRate prob =>
    have hsame := rfxInsertContact_sameRanges s now fromTime toTime fromNode toNode xmitRate prob
    simp only [EditKeepsApart, iff_true, ← Option.some.inj h, hsame.rangeIndex]
    exact hs
  | removeContact fromTime fromNode toNode =>
    simp only [EditKeepsApart, iff_true, (rfxRemoveContact_sameRanges s now fromTime fromNode toNode t h).rangeIndex]
    exact hs
  | insertRange fromTime toTime fromNode toNode owlt =>
    rw [← Option.some.inj h]
    simp only [EditKeepsApart]
    rcases rfxInsertRange_cases s now fromTime toTime fromNode toNode owlt with ⟨hc, he⟩ | ⟨span, hc, he⟩
    · simp only [he, hc, reduceCtorEq, false_implies, implies_true, iff_true]
      exact hs
    · simp only [he, hc, Option.some.injEq, forall_eq']
      exact insertRange_apart_iff hrev hs now span owlt
  | removeRange fromTime fromNode toNode =>
    simp only [EditKeepsApart, iff_true]
    exact rfxRemoveRange_rangeIndex RangesApart (fun _ k hs => hs.erase k) hs h

theorem edit_reversed {s t : IonState} {call : Int × Edit} (hs : ImputedReversed s.rangeIndex)
    (h : edit s call = some t) : ImputedReversed t.rangeIndex := by
  obtain ⟨now, e⟩ := call
  cases e with
  | insertContact fromTime toTime fromNode toNode xmitRate prob =>
    rw [← Option.some.inj h,
      (rfxInsertContact_sameRanges s now fromTime toTime fromNode toNode xmitRate prob).rangeIndex]
    exact hs
  | removeContact fromTime fromNode toNode =>
    rw [(rfxRemoveContact_sameRanges s now fromTime fromNode toNode t h).rangeIndex]
    exact hs
  | insertRange fromTime toTime fromNode toNode owlt =>
    rw [← Option.some.inj h]
    rcases rfxInsertRange_cases s now fromTime toTime fromNode toNode owlt with ⟨-, he⟩ | ⟨span, -, he⟩ <;>
      rw [he]
    · exact hs
    · exact insertRange_reversed hs now span owlt
  | removeRange fromTime fromNode toNode =>
    refine rfxRemoveRange_rangeIndex ImputedReversed ?_ hs h
    intro idx k hs r hr
    exact hs r (SortedIndex.mem_erase.mp hr).1

/-- Over a run from an empty range index, ranges stay apart exactly as long as
every call meets the condition. -/
theorem ranges_apart_throughout_iff (s : IonState) (hempty : s.rangeIndex = SortedIndex.empty)
    (calls : List (Int × Edit)) :
    Runs.Throughout edit (fun t => RangesApart t.rangeIndex) s calls ↔
      Runs.StepsMeet edit EditKeepsApart s calls := by
  refine Runs.throughout_iff (I := fun t => ImputedReversed t.rangeIndex)
    (fun s call t hs h => edit_reversed hs h) (fun s call t hrev hs h => edit_apart_iff hrev hs h)
    ?_ calls s ?_ ?_
  · intro s call h
    obtain ⟨now, e⟩ := call
    cases e with
    | insertRange _ _ _ _ _ => cases h
    | _ => trivial
  · rw [hempty]
    intro r hr
    exact absurd hr (SortedIndex.not_mem_empty r)
  · rw [hempty]
    exact separated_empty

theorem ranges_apart_throughout_iff_from_start :
    Runs.Throughout edit (fun t => RangesApart t.rangeIndex) (ionInitialize 1)
        [(0, .insertRange 10 20 1 2 1), (0, .insertRange 10 15 2 1 3), (5, .removeRange 10 1 2)] ↔
      Runs.StepsMeet edit EditKeepsApart (ionInitialize 1)
        [(0, .insertRange 10 20 1 2 1), (0, .insertRange 10 15 2 1 3), (5, .removeRange 10 1 2)] :=
  ranges_apart_throughout_iff (ionInitialize 1) rfl _

/-- The imputed reverse of the second assertion overlaps the first. -/
theorem imputed_range_overlaps :
    ∃ t, Runs.run edit (ionInitialize 1)
        [(0, .insertRange 5 15 2 1 1), (0, .insertRange 10 20 1 2 1)] = some t ∧
      ¬ RangesApart t.rangeIndex := by
  refine ⟨_, rfl, ?_⟩
  decide

end RfxRanges
