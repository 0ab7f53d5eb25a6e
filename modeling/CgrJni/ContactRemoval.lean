import CgrJni.ContactRecords
import CgrJni.Timeline

/-!
What a contact removal takes away: entries of the index, their records and
their events, and nothing else.
-/

namespace ContactRemoval

open IonDb Rfx RfxContacts RfxStart ContactRecords Timeline

variable {s t u : IonState}

/-- Where each event is there once, a deletion of events is a selection of the others. -/
theorem deleteEvents_eq_filter {timeline : List IonEvent} (h : timeline.Nodup) (events : List IonEvent) :
    events.foldl deleteEvent timeline = timeline.filter (fun e => e ∉ events) := by
  induction events generalizing timeline with
  | nil => simp
  | cons event events ih =>
    rw [List.foldl_cons, deleteEvent_eq_erase, ih (h.erase event), h.erase_eq_filter, List.filter_filter]
    refine List.filter_congr (fun e _ => ?_)
    rw [Bool.eq_iff_iff]
    simp [and_comm]

/-- The events of a contact are those that refer to it. -/
theorem deleteContact_timeline (h : Kept s) (now : Int) {c : IonCXref} (hc : c ∈ s.contactIndex) :
    (deleteContact s now c).timeline = s.timeline.filter (fun e => e.ref ≠ c.addr) := by
  have hm := h.mirrors
  have hdel : (deleteContact s now c).timeline = (contactEvents c).foldl deleteEvent s.timeline := by
    rw [← deletedContactEvents_eq (h.recv c hc)]
    rfl
  rw [hdel, deleteEvents_eq_filter hm.once]
  refine List.filter_congr (fun e he => ?_)
  rw [decide_eq_decide]
  refine not_congr ?_
  rw [mem_contactEvents]
  refine ⟨fun hev => hev.1, fun href => ?_⟩
  have hrefs := List.nodup_append.mp hm.refs
  obtain ⟨d, hd, hev⟩ | ⟨r, hr, hev⟩ := (hm.event_iff e).mp he
  · have hdc : d = c := List.inj_on_of_nodup_map hrefs.1 hd hc (hev.1.symm.trans href)
    exact hdc ▸ hev
  · exact absurd (href.symm.trans hev.1)
      (hrefs.2.2 _ (List.mem_map_of_mem hc) _ (List.mem_map_of_mem hr))

/-- Every entry has its record, under the place that the entry holds, and no two entries the same one. -/
theorem elts_inj (h : Linked s) {c d : IonCXref} (hc : c ∈ s.contactIndex) (hd : d ∈ s.contactIndex)
    (he : c.contactElt = d.contactElt) : c = d := by
  have helts : (s.contactIndex.entries.map IonCXref.contactElt).Nodup := by
    have hfst := h.agree.map Prod.fst
    rw [List.map_map, List.map_map] at hfst
    exact hfst.nodup_iff.mpr h.elts
  exact List.inj_on_of_nodup_map helts hc hd he

theorem entry_of_record (h : Linked s) {r : Object × IonContact} (hr : r ∈ s.contacts) :
    ∃ c ∈ s.contactIndex, c.contactElt = r.1 ∧ c.toSpan = r.2.toSpan := by
  have hmem : (r.1, (recordValues r.2).withoutProb) ∈
      s.contactIndex.entries.map (fun c => (c.contactElt, (entryValues c).withoutProb)) :=
    h.agree.mem_iff.mpr (List.mem_map.mpr ⟨r, hr, rfl⟩)
  obtain ⟨c, hc, he⟩ := List.mem_map.mp hmem
  simp only [entryValues, recordValues, Assertion.withoutProb, Prod.mk.injEq, Assertion.mk.injEq] at he
  obtain ⟨helt, hfrom, hto, hfromNode, htoNode, -, -⟩ := he
  refine ⟨c, hc, helt, ?_⟩
  obtain ⟨⟨_, _, _, _, _, _, _, _⟩, _, _⟩ := c
  simp_all

/-- What is left of a database whose index shrank: a contact took its record and its events along. -/
structure Shrunk (s u : IonState) : Prop where
  entries : ∀ c ∈ u.contactIndex, c ∈ s.contactIndex
  contacts : u.contacts = s.contacts.filter (fun r => ∃ c ∈ u.contactIndex.entries, c.contactElt = r.1)
  timeline : u.timeline = s.timeline.filter
    (fun e => ∀ c ∈ s.contactIndex.entries, e.ref = c.addr → c ∈ u.contactIndex.entries)
  rest : u = { s with
    contactIndex := u.contactIndex
    contacts := u.contacts
    timeline := u.timeline
    lastEditTime := u.lastEditTime }

theorem Shrunk.refl (h : Linked s) : Shrunk s s where
  entries _ hc := hc
  contacts := by
    symm
    rw [List.filter_eq_self]
    intro r hr
    obtain ⟨c, hc, he, -⟩ := entry_of_record h hr
    exact decide_eq_true ⟨c, hc, he⟩
  timeline := by
    symm
    rw [List.filter_eq_self]
    intro e _
    exact decide_eq_true (fun c hc _ => hc)
  rest := rfl

theorem mem_deleteContact {now : Int} {c d : IonCXref} (hc : c ∈ u.contactIndex) :
    d ∈ (deleteContact u now c).contactIndex ↔ d ∈ u.contactIndex ∧ d ≠ c := by
  have hmem : d ∈ (deleteContact u now c).contactIndex ↔ d ∈ u.contactIndex ∧ d.toSpan.key ≠ c.toSpan.key :=
    SortedIndex.mem_erase
  rw [hmem]
  refine and_congr_right (fun hd => not_congr ⟨fun hkey => SortedIndex.key_inj hd hc hkey, fun he => by rw [he]⟩)

theorem Shrunk.delete (hl : Linked s) (hu : Kept u) (h : Shrunk s u) (now : Int) {c : IonCXref}
    (hc : c ∈ u.contactIndex) : Shrunk s (deleteContact u now c) where
  entries d hd := h.entries d ((mem_deleteContact hc).mp hd).1
  contacts := by
    have hfilter : (deleteContact u now c).contacts = u.contacts.filter (fun r => r.1 ≠ c.contactElt) := rfl
    rw [hfilter, h.contacts, List.filter_filter]
    refine List.filter_congr (fun r _ => ?_)
    rw [Bool.eq_iff_iff, Bool.and_eq_true, decide_eq_true_eq, decide_eq_true_eq, decide_eq_true_eq]
    constructor
    · rintro ⟨hne, d, hd, he⟩
      refine ⟨d, (mem_deleteContact hc).mpr ⟨hd, ?_⟩, he⟩
      rintro rfl
      exact hne he.symm
    · rintro ⟨d, hd, he⟩
      obtain ⟨hdu, hne⟩ := (mem_deleteContact hc).mp hd
      refine ⟨fun hr => hne ?_, d, hdu, he⟩
      exact elts_inj hl (h.entries d hdu) (h.entries c hc) (he.trans hr)
  timeline := by
    rw [deleteContact_timeline hu now hc, h.timeline, List.filter_filter]
    refine List.filter_congr (fun e _ => ?_)
    rw [Bool.eq_iff_iff, Bool.and_eq_true, decide_eq_true_eq, decide_eq_true_eq, decide_eq_true_eq]
    constructor
    · rintro ⟨hne, hall⟩ d hd href
      refine (mem_deleteContact hc).mpr ⟨hall d hd href, ?_⟩
      rintro rfl
      exact hne href
    · intro hall
      refine ⟨fun href => ?_, fun d hd href => ((mem_deleteContact hc).mp (hall d hd href)).1⟩
      exact ((mem_deleteContact hc).mp (hall c (h.entries c hc) href)).2 rfl
  rest := by
    have hrest := h.rest
    unfold deleteContact
    rw [hrest]

/-- A contact that a wild-card removal can meet. -/
def Met (c : IonCXref) (fromNode toNode : Nat) : Prop := c.Matches 0 fromNode toNode ∧ 0 < c.fromTime

/-- A wild-card removal ends with the contacts that it can meet removed. -/
theorem rfxRemoveContact_wild (hl : Linked s) (hk : Kept s) (now : Int) (fromNode toNode : Nat) :
    ∃ t, rfxRemoveContact s now 0 fromNode toNode = some t ∧ Shrunk s t ∧
      ∀ c, c ∈ t.contactIndex ↔ c ∈ s.contactIndex ∧ ¬ Met c fromNode toNode := by
  rw [rfxRemoveContact, if_neg (by simp)]
  -- what has gone so far was met
  refine Runs.loop_spec
    (fun u => Kept u ∧ Shrunk s u ∧ ∀ c ∈ s.contactIndex, ¬ Met c fromNode toNode → c ∈ u.contactIndex)
    (fun t => Shrunk s t ∧ ∀ c, c ∈ t.contactIndex ↔ c ∈ s.contactIndex ∧ ¬ Met c fromNode toNode)
    (fun u => u.contactIndex.entries.length) ?_ ?_ _ s ⟨hk, Shrunk.refl hl, fun c hc _ => hc⟩ (Nat.lt_succ_self _)
  · rintro u t ⟨hku, hsu, hleft⟩ hb
    obtain ⟨hend, -⟩ | ⟨c, hc, hmet, hgo⟩ := removeContactsRound_cases now fromNode toNode u
    · rw [hend] at hb
      cases hb
    · rw [hgo] at hb
      obtain rfl := Sum.inl.inj hb
      refine ⟨⟨deleteContact_kept hku now hc, hsu.delete hl hku now hc, fun d hd hnot => ?_⟩,
        SortedIndex.length_erase_lt hc⟩
      refine (mem_deleteContact hc).mpr ⟨hleft d hd hnot, ?_⟩
      rintro rfl
      exact hnot hmet
  · rintro u t ⟨-, hsu, hleft⟩ hb
    obtain ⟨hend, hnone⟩ | ⟨c, -, -, hgo⟩ := removeContactsRound_cases now fromNode toNode u
    · rw [hend] at hb
      obtain rfl := Sum.inr.inj hb
      exact ⟨hsu, fun c => ⟨fun hc => ⟨hsu.entries c hc, hnone c hc⟩, fun hc => hleft c hc.1 hc.2⟩⟩
    · rw [hgo] at hb
      cases hb

/-- A removal that names a time removes the contact of that key if there is one. -/
theorem rfxRemoveContact_timed (hl : Linked s) (hk : Kept s) (now : Int) {fromTime : Int} (h0 : fromTime ≠ 0)
    (fromNode toNode : Nat) : ∃ t, rfxRemoveContact s now fromTime fromNode toNode = some t ∧ Shrunk s t ∧
      ∀ c, c ∈ t.contactIndex ↔ c ∈ s.contactIndex ∧ ¬ c.Matches fromTime fromNode toNode := by
  have hmatch : ∀ c : IonCXref, c.toSpan.key = toLex (toLex (fromNode, toNode), fromTime) ↔
      c.Matches fromTime fromNode toNode := fun c => Span.key_eq_iff_matches h0
  rw [rfxRemoveContact, if_pos h0]
  cases hlookup : s.contactIndex.lookup (toLex (toLex (fromNode, toNode), fromTime)) with
  | none =>
    refine ⟨s, rfl, Shrunk.refl hl, fun c => ⟨fun hc => ⟨hc, fun hm => ?_⟩, And.left⟩⟩
    exact SortedIndex.lookup_eq_none.mp hlookup c hc ((hmatch c).mpr hm)
  | some c =>
    obtain ⟨hc, hkey⟩ := SortedIndex.lookup_eq_some.mp hlookup
    refine ⟨_, rfl, (Shrunk.refl hl).delete hl hk now hc, fun d => ?_⟩
    rw [mem_deleteContact hc]
    refine and_congr_right (fun hd => not_congr ⟨fun he => he ▸ (hmatch c).mp hkey, fun hm => ?_⟩)
    exact SortedIndex.key_inj hd hc (((hmatch d).mpr hm).trans hkey.symm)

/-- The contacts that are addressed are gone, with their records and their events; nothing else but the
time of the last edit is different. -/
structure RemovesOnly (s t : IonState) (fromTime : Int) (fromNode toNode : Nat) : Prop where
  index : ∀ c, c ∈ t.contactIndex ↔ c ∈ s.contactIndex ∧ ¬ c.Matches fromTime fromNode toNode
  contacts : t.contacts = s.contacts.filter (fun r => ¬ r.2.Matches fromTime fromNode toNode)
  timeline : t.timeline = s.timeline.filter
    (fun e => ¬ ∃ c ∈ s.contactIndex.entries, c.Matches fromTime fromNode toNode ∧ e.ref = c.addr)
  rest : t = { s with
    contactIndex := t.contactIndex
    contacts := t.contacts
    timeline := t.timeline
    lastEditTime := t.lastEditTime }

theorem removesOnly_of_shrunk (hl : Linked s) (h : Shrunk s t) {fromTime : Int} {fromNode toNode : Nat}
    (hindex : ∀ c, c ∈ t.contactIndex ↔ c ∈ s.contactIndex ∧ ¬ c.Matches fromTime fromNode toNode) :
    RemovesOnly s t fromTime fromNode toNode where
  index := hindex
  contacts := by
    rw [h.contacts]
    refine List.filter_congr (fun r hr => ?_)
    rw [decide_eq_decide]
    obtain ⟨c, hc, he, hspan⟩ := entry_of_record hl hr
    rw [← hspan]
    constructor
    · rintro ⟨d, hd, hde⟩
      rw [elts_inj hl hc (h.entries d hd) (he.trans hde.symm)]
      exact ((hindex d).mp hd).2
    · intro hnot
      exact ⟨c, (hindex c).mpr ⟨hc, hnot⟩, he⟩
  timeline := by
    rw [h.timeline]
    refine List.filter_congr (fun e _ => ?_)
    rw [decide_eq_decide]
    constructor
    · rintro hall ⟨c, hc, hm, href⟩
      exact ((hindex c).mp (hall c hc href)).2 hm
    · intro hno c hc href
      exact (hindex c).mpr ⟨hc, fun hm => hno ⟨c, hc, hm, href⟩⟩
  rest := h.rest

/-- The removal comes to an end and removes just what it is addressed to. -/
def RemovesExactly (s : IonState) (now fromTime : Int) (fromNode toNode : Nat) : Prop :=
  ∃ t, rfxRemoveContact s now fromTime fromNode toNode = some t ∧ RemovesOnly s t fromTime fromNode toNode

theorem removesExactly_iff (hl : Linked s) (hk : Kept s) (now fromTime : Int) (fromNode toNode : Nat) :
    RemovesExactly s now fromTime fromNode toNode ↔
      fromTime ≠ 0 ∨ ∀ c ∈ s.contactIndex, c.fromNode = fromNode → c.toNode = toNode → 0 < c.fromTime := by
  by_cases h0 : fromTime = 0
  · subst h0
    obtain ⟨t, ht, hshrunk, hindex⟩ := rfxRemoveContact_wild hl hk now fromNode toNode
    have hiff : RemovesExactly s now 0 fromNode toNode ↔
        ∀ c ∈ s.contactIndex, c.Matches 0 fromNode toNode → 0 < c.fromTime := by
      constructor
      · rintro ⟨t', ht', hremoves⟩ c hc hm
        obtain rfl := Option.some.inj (ht.symm.trans ht')
        by_contra hneg
        exact ((hremoves.index c).mp ((hindex c).mpr ⟨hc, fun hmet => hneg hmet.2⟩)).2 hm
      · intro hpos
        refine ⟨t, ht, removesOnly_of_shrunk hl hshrunk (fun c => (hindex c).trans ?_)⟩
        exact and_congr_right (fun hc => not_congr ⟨And.left, fun hm => ⟨hm, hpos c hc hm⟩⟩)
    rw [hiff]
    simp [Span.Matches]
  · obtain ⟨t, ht, hshrunk, hindex⟩ := rfxRemoveContact_timed hl hk now h0 fromNode toNode
    exact iff_of_true ⟨t, ht, removesOnly_of_shrunk hl hshrunk hindex⟩ (Or.inl h0)

/-- What the edits keep up of records and events. -/
theorem linked_kept_of_run (hunused : Unused s) {calls : List (Int × Edit)} (hrun : Runs.run edit s calls = some t) :
    Linked t ∧ Kept t := by
  have hkeep : ∀ s call t, Linked s ∧ Kept s → edit s call = some t → Linked t ∧ Kept t :=
    fun _ _ _ h he => ⟨edit_linked h.1 he, edit_kept h.2 he⟩
  exact Runs.run_invariant hkeep calls s t ⟨Linked.of_unused hunused, hunused.toBlank.kept⟩ hrun

theorem contact_removal_iff (s t : IonState) (hunused : Unused s) (calls : List (Int × Edit))
    (hrun : Runs.run edit s calls = some t) (now fromTime : Int) (fromNode toNode : Nat) :
    RemovesExactly t now fromTime fromNode toNode ↔
      fromTime ≠ 0 ∨ ∀ c ∈ t.contactIndex, c.fromNode = fromNode → c.toNode = toNode → 0 < c.fromTime :=
  removesExactly_iff (linked_kept_of_run hunused hrun).1 (linked_kept_of_run hunused hrun).2 now fromTime fromNode
    toNode

def earlyContact : List (Int × Edit) := [(0, .insertContact (-10) 20 1 2 100 1)]

theorem contact_removal_iff_early : ∃ t, Runs.run edit (ionInitialize 1) earlyContact = some t ∧
    (RemovesExactly t 5 0 1 2 ↔
      (0 : Int) ≠ 0 ∨ ∀ c ∈ t.contactIndex, c.fromNode = 1 → c.toNode = 2 → 0 < c.fromTime) :=
  ⟨_, rfl, contact_removal_iff (ionInitialize 1) _ ⟨⟨rfl, rfl, rfl⟩, rfl, rfl⟩ earlyContact rfl 5 0 1 2⟩

/-- A contact that starts before the epoch is not removed with all contacts of its nodes. -/
theorem early_contact_stays : ∃ t, Runs.run edit (ionInitialize 1) earlyContact = some t ∧
    rfxRemoveContact t 5 0 1 2 = some t ∧ ¬ RemovesExactly t 5 0 1 2 := by
  refine ⟨_, rfl, by decide, ?_⟩
  have hunused : Unused (ionInitialize 1) := ⟨⟨rfl, rfl, rfl⟩, rfl, rfl⟩
  have hrun : Runs.run edit (ionInitialize 1) earlyContact = some _ := rfl
  have hinv := linked_kept_of_run hunused hrun
  rw [removesExactly_iff hinv.1 hinv.2]
  decide

end ContactRemoval
