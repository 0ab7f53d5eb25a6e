import CgrJni.Rfx

/-!
What contact insertion and removal can do to the database, and the invariant
of the contact index over any run of edits.
-/

namespace RfxContacts

open IonDb Rfx IntervalIndex

/-- Nothing about ranges has changed. -/
structure SameRanges (s t : IonState) : Prop where
  rangeIndex : t.rangeIndex = s.rangeIndex
  ranges : t.ranges = s.ranges

theorem SameRanges.refl (s : IonState) : SameRanges s s := ⟨rfl, rfl⟩

theorem SameRanges.trans {s t u : IonState} (h : SameRanges s t) (h' : SameRanges t u) :
    SameRanges s u := ⟨h'.rangeIndex.trans h.rangeIndex, h'.ranges.trans h.ranges⟩

/-- Nothing about contacts, nor the node's own settings, has changed. -/
structure SameContacts (s t : IonState) : Prop where
  contactIndex : t.contactIndex = s.contactIndex
  contacts : t.contacts = s.contacts
  ownNodeNbr : t.ownNodeNbr = s.ownNodeNbr
  maxClockError : t.maxClockError = s.maxClockError

theorem SameContacts.refl (s : IonState) : SameContacts s s := ⟨rfl, rfl, rfl, rfl⟩

theorem SameContacts.trans {s t u : IonState} (h : SameContacts s t) (h' : SameContacts t u) :
    SameContacts s u :=
  ⟨h'.contactIndex.trans h.contactIndex, h'.contacts.trans h.contacts, h'.ownNodeNbr.trans h.ownNodeNbr,
    h'.maxClockError.trans h.maxClockError⟩

theorem addContact_sameRanges (s : IonState) (now : Int) (span : Span) (xmitRate : Nat) (prob : ℚ)
    (h : s.contactIndex.lookup span.key = none) :
    SameRanges s (addContact s now span xmitRate prob h).1 := ⟨rfl, rfl⟩

theorem deleteContact_sameRanges (s : IonState) (now : Int) (c : IonCXref) :
    SameRanges s (deleteContact s now c) := ⟨rfl, rfl⟩

/-- A contact is found under its key, or overlaps a neighbour, or is added. -/
theorem insertContact_cases (s : IonState) (now : Int) (span : Span) (xmitRate : Nat) (prob : ℚ) :
    (∃ c, s.contactIndex.lookup span.key = some c ∧
      insertContact s now span xmitRate prob = (s, if c.xmitRate = xmitRate then c.addr else 0)) ∨
    (s.contactIndex.lookup span.key = none ∧ overlapsContact s.contactIndex span = true ∧
      insertContact s now span xmitRate prob = (s, 0)) ∨
    ∃ h : s.contactIndex.lookup span.key = none, overlapsContact s.contactIndex span = false ∧
      insertContact s now span xmitRate prob = addContact s now span xmitRate prob h := by
  unfold insertContact
  split
  · rename_i c h
    exact Or.inl ⟨c, h, rfl⟩
  · rename_i h
    split
    · rename_i hb
      exact Or.inr (Or.inl ⟨h, hb, rfl⟩)
    · rename_i hb
      exact Or.inr (Or.inr ⟨h, by simpa using hb, rfl⟩)

/-- A call with arguments that pass the checks goes on to the insertion proper. -/
theorem rfxInsertContact_cases (s : IonState) (now fromTime toTime : Int)
    (fromNode toNode xmitRate : Nat) (prob : ℚ) :
    rfxInsertContact s now fromTime toTime fromNode toNode xmitRate prob = (s, 0) ∨
    ∃ span, Span.check fromTime toTime fromNode toNode = some span ∧ 0 < prob ∧ prob ≤ 1 ∧
      rfxInsertContact s now fromTime toTime fromNode toNode xmitRate prob =
        insertContact s now span xmitRate prob := by
  unfold rfxInsertContact
  split
  · exact Or.inl rfl
  · rename_i span h
    split
    · rename_i hp
      exact Or.inr ⟨span, h, hp.1, hp.2, rfl⟩
    · exact Or.inl rfl

theorem rfxInsertContact_of_check {fromTime toTime : Int} {fromNode toNode : Nat} {span : Span} {prob : ℚ}
    (h : Span.check fromTime toTime fromNode toNode = some span) (hp : 0 < prob ∧ prob ≤ 1)
    (s : IonState) (now : Int) (xmitRate : Nat) :
    rfxInsertContact s now fromTime toTime fromNode toNode xmitRate prob =
      insertContact s now span xmitRate prob := by
  simp only [rfxInsertContact, h, if_pos hp]

theorem insertContact_sameRanges (s : IonState) (now : Int) (span : Span) (xmitRate : Nat) (prob : ℚ) :
    SameRanges s (insertContact s now span xmitRate prob).1 := by
  rcases insertContact_cases s now span xmitRate prob with ⟨c, -, h⟩ | ⟨-, -, h⟩ | ⟨hk, -, h⟩ <;> rw [h]
  · exact SameRanges.refl s
  · exact SameRanges.refl s
  · exact addContact_sameRanges s now span xmitRate prob hk

theorem rfxInsertContact_sameRanges (s : IonState) (now fromTime toTime : Int)
    (fromNode toNode xmitRate : Nat) (prob : ℚ) :
    SameRanges s (rfxInsertContact s now fromTime toTime fromNode toNode xmitRate prob).1 := by
  rcases rfxInsertContact_cases s now fromTime toTime fromNode toNode xmitRate prob with
    h | ⟨span, -, -, -, h⟩ <;> rw [h]
  · exact SameRanges.refl s
  · exact insertContact_sameRanges s now span xmitRate prob

/-- A round ends the loop when no contact of the two nodes is left after the epoch, and else deletes one. -/
theorem removeContactsRound_cases (now : Int) (fromNode toNode : Nat) (s : IonState) :
    (removeContactsRound now fromNode toNode s = .inr s ∧
      ∀ c ∈ s.contactIndex, ¬ (c.Matches 0 fromNode toNode ∧ 0 < c.fromTime)) ∨
    ∃ c ∈ s.contactIndex, (c.Matches 0 fromNode toNode ∧ 0 < c.fromTime) ∧
      removeContactsRound now fromNode toNode s = .inl (deleteContact s now c) := by
  unfold removeContactsRound
  rcases wildKey_successor IonCXref.toSpan s.contactIndex fromNode toNode with
    ⟨n, hmem, hnext, hmatch, hpos⟩ | ⟨hlater, hnone⟩
  · obtain ⟨hf, hto⟩ := Span.matches_zero.mp hmatch
    rw [hnext]
    dsimp only
    rw [if_neg (by omega)]
    exact Or.inr ⟨n, hmem, ⟨hmatch, hpos⟩, rfl⟩
  · refine Or.inl ⟨?_, hnone⟩
    cases hnext : s.contactIndex.successor (wildKey fromNode toNode) with
    | none => rfl
    | some n => exact if_pos (hlater n hnext)

/-- Removal comes to an end, and what every deletion of a matching entry preserves it preserves. -/
theorem rfxRemoveContact_spec (P : IonState → Prop) (now fromTime : Int) (fromNode toNode : Nat)
    (hdel : ∀ s c, P s → c ∈ s.contactIndex → c.Matches fromTime fromNode toNode → P (deleteContact s now c))
    (s : IonState) (hs : P s) :
    ∃ t, rfxRemoveContact s now fromTime fromNode toNode = some t ∧ P t := by
  unfold rfxRemoveContact
  split
  · split
    · rename_i c h
      obtain ⟨hmem, hkey⟩ := SortedIndex.lookup_eq_some.mp h
      have hc : c.Matches fromTime fromNode toNode := by
        simp only [key_contact, Span.key, Span.pair, EmbeddingLike.apply_eq_iff_eq, Prod.mk.injEq] at hkey
        exact ⟨hkey.1.1, hkey.1.2, fun _ => hkey.2⟩
      exact ⟨_, rfl, hdel s c hs hmem hc⟩
    · exact ⟨s, rfl, hs⟩
  · rename_i h0
    obtain rfl := not_not.mp h0
    refine Runs.loop_spec P P (fun s => s.contactIndex.entries.length) ?_ ?_ _ s hs (Nat.lt_succ_self _)
    · intro s t hs hb
      rcases removeContactsRound_cases now fromNode toNode s with ⟨h, -⟩ | ⟨c, hc, ⟨hm, -⟩, h⟩ <;> rw [h] at hb
      · cases hb
      · obtain rfl := Sum.inl.inj hb
        exact ⟨hdel s c hs hc hm, SortedIndex.length_erase_lt hc⟩
    · intro s t hs hb
      rcases removeContactsRound_cases now fromNode toNode s with ⟨h, -⟩ | ⟨c, hc, ⟨hm, -⟩, h⟩ <;> rw [h] at hb
      · exact Sum.inr.inj hb ▸ hs
      · cases hb

theorem rfxRemoveContact_sameRanges (s : IonState) (now fromTime : Int) (fromNode toNode : Nat)
    (t : IonState) (h : rfxRemoveContact s now fromTime fromNode toNode = some t) : SameRanges s t := by
  obtain ⟨u, hu, hsame⟩ := rfxRemoveContact_spec (SameRanges s) now fromTime fromNode toNode
    (fun v c hv _ _ => hv.trans (deleteContact_sameRanges v now c)) s (SameRanges.refl s)
  rw [h] at hu
  exact Option.some.inj hu ▸ hsame

/-- Any two contacts between the same nodes are apart. -/
def ContactsApart (idx : ContactIndex) : Prop :=
  Separated IonCXref.pair (fun c => c.fromTime) (fun c => c.toTime) idx

/-- The neighbour test decides overlap with all contacts of the pair. -/
theorem overlapsContact_iff {idx : ContactIndex} (hidx : ContactsApart idx) {span : Span}
    (habs : idx.lookup span.key = none) :
    overlapsContact idx span = true ↔ ∃ c ∈ idx, c.pair = span.pair ∧ ¬ span.Disjoint c.toSpan := by
  rw [overlapsContact, SortedIndex.successor_of_absent habs]
  exact blocked_iff_overlap hidx (fun c _ => c.interval) span.interval habs

theorem addContact_apart {s : IonState} (hs : ContactsApart s.contactIndex) (now : Int) (span : Span)
    (xmitRate : Nat) (prob : ℚ) (h : s.contactIndex.lookup span.key = none)
    (hfree : overlapsContact s.contactIndex span = false) :
    ContactsApart (addContact s now span xmitRate prob h).1.contactIndex := by
  refine (separated_insert h).mpr ⟨hs, ?_⟩
  intro c hc hp
  by_contra hov
  have hb := (overlapsContact_iff hs h).mpr ⟨c, hc, hp, hov⟩
  rw [hfree] at hb
  cases hb

theorem rfxInsertContact_apart {s : IonState} (hs : ContactsApart s.contactIndex)
    (now fromTime toTime : Int) (fromNode toNode xmitRate : Nat) (prob : ℚ) :
    ContactsApart
      (rfxInsertContact s now fromTime toTime fromNode toNode xmitRate prob).1.contactIndex := by
  rcases rfxInsertContact_cases s now fromTime toTime fromNode toNode xmitRate prob with
    h | ⟨span, -, -, -, h⟩ <;> rw [h]
  · exact hs
  · rcases insertContact_cases s now span xmitRate prob with ⟨c, -, h'⟩ | ⟨-, -, h'⟩ | ⟨hk, hb, h'⟩ <;>
      rw [h']
    · exact hs
    · exact hs
    · exact addContact_apart hs now span xmitRate prob hk hb

/-- The calls of a run that edit contacts only. -/
def OnContacts (calls : List (Int × Edit)) : Prop :=
  ∀ call ∈ calls, match call.2 with
    | .insertContact .. => True
    | .removeContact .. => True
    | .insertRange .. => False
    | .removeRange .. => False

theorem edit_contacts_apart {s : IonState} (hs : ContactsApart s.contactIndex) {calls : List (Int × Edit)}
    (hon : OnContacts calls) {call : Int × Edit} (hc : call ∈ calls) :
    ∃ t, edit s call = some t ∧ ContactsApart t.contactIndex := by
  have hk := hon call hc
  obtain ⟨now, e⟩ := call
  cases e with
  | insertContact fromTime toTime fromNode toNode xmitRate prob =>
    exact ⟨_, rfl, rfxInsertContact_apart hs now fromTime toTime fromNode toNode xmitRate prob⟩
  | removeContact fromTime fromNode toNode =>
    exact rfxRemoveContact_spec (fun s => ContactsApart s.contactIndex) now fromTime fromNode toNode
      (fun s c hs _ _ => hs.erase _) s hs
  | insertRange _ _ _ _ _ => exact hk.elim
  | removeRange _ _ _ => exact hk.elim

theorem run_contacts_apart {s : IonState} (hs : ContactsApart s.contactIndex)
    (calls : List (Int × Edit)) (hon : OnContacts calls) :
    ∃ t, Runs.run edit s calls = some t ∧ ContactsApart t.contactIndex := by
  induction calls generalizing s with
  | nil => exact ⟨s, rfl, hs⟩
  | cons call rest ih =>
    obtain ⟨u, hu, hapart⟩ := edit_contacts_apart hs hon List.mem_cons_self
    obtain ⟨t, ht, htapart⟩ := ih hapart (fun c hc => hon c (List.mem_cons_of_mem _ hc))
    exact ⟨t, by rw [Runs.run_cons, hu]; exact ht, htapart⟩

/-- From an empty contact index, contacts of one pair never overlap and keys never repeat. -/
theorem contacts_never_overlap (s : IonState) (hempty : s.contactIndex = SortedIndex.empty)
    (calls : List (Int × Edit)) (hon : OnContacts calls) :
    ∃ t, Runs.run edit s calls = some t ∧
      (∀ c ∈ t.contactIndex, ∀ d ∈ t.contactIndex, c.fromNode = d.fromNode → c.toNode = d.toNode →
        c ≠ d → c.toTime ≤ d.fromTime ∨ d.toTime ≤ c.fromTime) ∧
      (t.contactIndex.entries.map (fun c => (c.fromNode, c.toNode, c.fromTime))).Nodup := by
  have hs : ContactsApart s.contactIndex := by
    rw [hempty]
    exact separated_empty
  obtain ⟨t, ht, hapart⟩ := run_contacts_apart hs calls hon
  refine ⟨t, ht, ?_, ?_⟩
  · intro c hc d hd hf hto hne
    exact hapart c hc d hd (Span.pair_eq_iff.mpr ⟨hf, hto⟩) hne
  · refine List.Nodup.map_on ?_ t.contactIndex.nodup
    intro c hc d hd he
    simp only [Prod.mk.injEq] at he
    exact SortedIndex.key_inj hc hd
      (Span.key_eq_iff.mpr ⟨Span.pair_eq_iff.mpr ⟨he.1, he.2.1⟩, he.2.2⟩)

theorem contacts_never_overlap_from_start :
    ∃ t, Runs.run edit (ionInitialize 1) [(0, .insertContact 10 20 1 2 100 1),
        (0, .insertContact 15 30 1 2 100 1), (5, .removeContact 0 2 1)] = some t ∧
      (∀ c ∈ t.contactIndex, ∀ d ∈ t.contactIndex, c.fromNode = d.fromNode → c.toNode = d.toNode →
        c ≠ d → c.toTime ≤ d.fromTime ∨ d.toTime ≤ c.fromTime) ∧
      (t.contactIndex.entries.map (fun c => (c.fromNode, c.toNode, c.fromTime))).Nodup :=
  contacts_never_overlap (ionInitialize 1) rfl _ (by simp [OnContacts])

end RfxContacts
