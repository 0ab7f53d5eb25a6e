import CgrJni.RfxRanges

/-!
The timeline against the indexes: whatever the edits, it holds the events of the
entries that are in the indexes at the moment, each once, and no others.
-/

namespace Timeline

open IonDb Rfx RfxContacts RfxRanges

theorem code_injective {a b : IonEventType} (h : a.code = b.code) : a = b := by
  cases a <;> cases b <;> first | rfl | (revert h; decide)

theorem event_key_injective {a b : IonEvent} (h : a.key = b.key) : a = b := by
  obtain ⟨at', ay, ar⟩ := a
  obtain ⟨bt, byy, br⟩ := b
  simp only [IonEvent.key, EmbeddingLike.apply_eq_iff_eq, Prod.mk.injEq] at h
  obtain ⟨rfl, hc, rfl⟩ := h
  rw [code_injective hc]

theorem insertEvents_perm (timeline events : List IonEvent) :
    (events.foldl insertEvent timeline).Perm (events ++ timeline) := by
  induction events generalizing timeline with
  | nil => exact List.Perm.refl _
  | cons event rest ih =>
    refine (ih (insertEvent timeline event)).trans ?_
    refine ((List.perm_orderedInsert _ event timeline).append_left rest).trans ?_
    exact List.perm_middle

theorem deleteEvent_eq_erase (timeline : List IonEvent) (event : IonEvent) :
    deleteEvent timeline event = timeline.erase event := by
  rw [deleteEvent, List.erase_eq_eraseP]
  congr 1
  funext e
  rw [Bool.eq_iff_iff, decide_eq_true_eq, beq_iff_eq]
  exact ⟨fun he => (event_key_injective he).symm, fun he => by rw [he]⟩

theorem deleteEvent_perm {timeline rest : List IonEvent} {event : IonEvent}
    (h : timeline.Perm (event :: rest)) : (deleteEvent timeline event).Perm rest := by
  rw [deleteEvent_eq_erase]
  have he := h.erase event
  rwa [List.erase_cons_head] at he

theorem deleteEvents_perm {timeline rest : List IonEvent} (events : List IonEvent)
    (h : timeline.Perm (events ++ rest)) : (events.foldl deleteEvent timeline).Perm rest := by
  induction events generalizing timeline with
  | nil => exact h
  | cons event events ih => exact ih (deleteEvent_perm h)

/-- The entries of both indexes, as addresses with the events that go with them. -/
def blocks (s : IonState) : List (PsmAddress × List IonEvent) :=
  s.contactIndex.entries.map (fun c => (c.addr, contactEvents c)) ++
    s.rangeIndex.entries.map (fun r => (r.addr, rangeEvents r))

/-- No entry has times of reception, which an insertion never computes. -/
def RecvUnset (s : IonState) : Prop := ∀ c ∈ s.contactIndex, c.startRecv = 0 ∧ c.stopRecv = 0

structure Kept (s : IonState) : Prop where
  events : s.timeline.Perm ((blocks s).flatMap Prod.snd)
  addrs : ((blocks s).map Prod.fst).Nodup
  addr_le : ∀ b ∈ blocks s, b.1 ≤ s.lastAddr
  recv : RecvUnset s

variable {s t : IonState}

/-- A new entry brings its events with it. -/
theorem Kept.insert (h : Kept s) {addr : PsmAddress} {events : List IonEvent}
    (hb : (blocks t).Perm ((addr, events) :: blocks s)) (ht : t.timeline = events.foldl insertEvent s.timeline)
    (hnew : s.lastAddr < addr) (hlast : t.lastAddr = addr) (hrecv : RecvUnset t) : Kept t where
  events := by
    rw [ht]
    refine (insertEvents_perm s.timeline events).trans ?_
    exact (h.events.append_left events).trans (hb.flatMap_right Prod.snd).symm
  addrs := by
    refine (hb.map Prod.fst).nodup_iff.mpr (List.nodup_cons.mpr ⟨fun hmem => ?_, h.addrs⟩)
    obtain ⟨b, hbm, heq⟩ := List.mem_map.mp hmem
    exact absurd (heq.symm.trans_le (h.addr_le b hbm)) (Nat.not_le.mpr hnew)
  addr_le b hbm := by
    cases List.mem_cons.mp (hb.mem_iff.mp hbm) with
    | inl he => rw [he, hlast]
    | inr hbm =>
      rw [hlast]
      exact (h.addr_le b hbm).trans hnew.le
  recv := hrecv

/-- An entry takes its events with it. -/
theorem Kept.erase (h : Kept s) {addr : PsmAddress} {events : List IonEvent}
    (hb : (blocks s).Perm ((addr, events) :: blocks t)) (ht : t.timeline = events.foldl deleteEvent s.timeline)
    (hlast : t.lastAddr = s.lastAddr) (hrecv : RecvUnset t) : Kept t where
  events := by
    rw [ht]
    exact deleteEvents_perm events (h.events.trans (hb.flatMap_right Prod.snd))
  addrs := (List.nodup_cons.mp ((hb.map Prod.fst).nodup_iff.mp h.addrs)).2
  addr_le b hbm := by
    rw [hlast]
    exact h.addr_le b (hb.mem_iff.mpr (List.mem_cons_of_mem _ hbm))
  recv := hrecv

theorem Kept.same (h : Kept s) (hc : t.contactIndex = s.contactIndex) (hr : t.rangeIndex = s.rangeIndex)
    (ht : t.timeline = s.timeline) (hlast : t.lastAddr = s.lastAddr) : Kept t := by
  have hb : blocks t = blocks s := by rw [blocks, hc, hr, blocks]
  refine ⟨?_, ?_, ?_, ?_⟩
  · rw [ht, hb]
    exact h.events
  · rw [hb]
    exact h.addrs
  · rw [hb, hlast]
    exact h.addr_le
  · rw [RecvUnset, hc]
    exact h.recv

theorem addContact_kept (h : Kept s) (now : Int) (span : Span) (xmitRate : Nat) (prob : ℚ)
    (hk : s.contactIndex.lookup span.key = none) : Kept (addContact s now span xmitRate prob hk).1 := by
  have hp := SortedIndex.insert_perm s.contactIndex (contactEntry s span xmitRate (s.lastObject + 1)) hk
  have hb := (hp.map (fun c => (c.addr, contactEvents c))).append_right
    (s.rangeIndex.entries.map (fun r => (r.addr, rangeEvents r)))
  refine h.insert hb rfl (Nat.lt_succ_self _) rfl ?_
  intro c hc
  cases List.mem_cons.mp (hp.mem_iff.mp hc) with
  | inl he =>
    rw [he]
    exact ⟨rfl, rfl⟩
  | inr hc => exact h.recv c hc

theorem deletedContactEvents_eq {c : IonCXref} (h : c.startRecv = 0 ∧ c.stopRecv = 0) :
    deletedContactEvents c = contactEvents c := by
  simp [deletedContactEvents, contactEvents, eventAt, h]

theorem deleteContact_kept (h : Kept s) (now : Int) {c : IonCXref} (hc : c ∈ s.contactIndex) :
    Kept (deleteContact s now c) := by
  have hp := SortedIndex.perm_erase hc
  have hb := (hp.map (fun c => (c.addr, contactEvents c))).append_right
    (s.rangeIndex.entries.map (fun r => (r.addr, rangeEvents r)))
  refine h.erase hb ?_ rfl (fun d hd => h.recv d (SortedIndex.mem_erase.mp hd).1)
  rw [← deletedContactEvents_eq (h.recv c hc)]
  rfl

theorem indexRange_kept (h : Kept s) {r : IonRXref} (hk : s.rangeIndex.lookup r.key = none)
    (hnew : s.lastAddr < r.addr) : Kept (indexRange s r hk) := by
  have hp := SortedIndex.insert_perm s.rangeIndex r hk
  have hb := ((hp.map (fun r => (r.addr, rangeEvents r))).append_left
    (s.contactIndex.entries.map (fun c => (c.addr, contactEvents c)))).trans List.perm_middle
  exact h.insert hb rfl hnew rfl h.recv

/-- What both deletions of a range do to the index and the timeline. -/
theorem eraseRange_kept (h : Kept s) {r : IonRXref} (hr : r ∈ s.rangeIndex)
    (hc : t.contactIndex = s.contactIndex) (hidx : t.rangeIndex = s.rangeIndex.erase r.key)
    (ht : t.timeline = (rangeEvents r).foldl deleteEvent s.timeline) (hlast : t.lastAddr = s.lastAddr) :
    Kept t := by
  have hp := SortedIndex.perm_erase hr
  have hb := ((hp.map (fun r => (r.addr, rangeEvents r))).append_left
    (s.contactIndex.entries.map (fun c => (c.addr, contactEvents c)))).trans List.perm_middle
  have hblocks : (blocks s).Perm ((r.addr, rangeEvents r) :: blocks t) := by
    rw [blocks, blocks, hc, hidx]
    exact hb
  refine h.erase hblocks ht hlast ?_
  rw [RecvUnset, hc]
  exact h.recv

theorem assertRange_kept (h : Kept s) (now : Int) {r : IonRXref} (hk : s.rangeIndex.lookup r.key = none)
    (hnew : s.lastAddr < r.addr) : Kept (assertRange s now r hk) :=
  (indexRange_kept h hk hnew).same rfl rfl rfl rfl

theorem insertRXref_kept (h : Kept s) (now : Int) {r : IonRXref} (hk : s.rangeIndex.lookup r.key = none)
    (hnew : s.lastAddr < r.addr) : Kept (insertRXref s now r hk) := by
  obtain ⟨-, he⟩ | ⟨-, hk', he⟩ := insertRXref_cases s now r hk <;> rw [he]
  · exact assertRange_kept h now hk hnew
  · exact indexRange_kept (assertRange_kept h now hk hnew) hk' (Nat.lt_succ_self _)

theorem addRange_kept (h : Kept s) (now : Int) (span : Span) (owlt : Nat) (nextElt : Option IonRXref)
    (hk : s.rangeIndex.lookup span.key = none) : Kept (addRange s now span owlt nextElt hk).1 := by
  have hrec : Kept (recordRange s span owlt) := h.same rfl rfl rfl rfl
  apply addRange_preserves h
  exact insertRXref_kept hrec now (r := newRange s span owlt) hk (Nat.lt_succ_self _)

theorem insertRange_kept (h : Kept s) (now : Int) (span : Span) (owlt : Nat) :
    Kept (insertRange s now span owlt).1 := by
  obtain ⟨r, -, -, he⟩ | ⟨r, hr, -, he⟩ | ⟨hk, he⟩ := insertRange_cases s now span owlt <;> rw [he]
  · exact h
  · have hdrop : Kept (dropImputed s r) :=
      eraseRange_kept h (SortedIndex.lookup_eq_some.mp hr).1 rfl rfl rfl rfl
    exact addRange_kept hdrop now span owlt none (lookup_dropImputed hr)
  · exact addRange_kept h now span owlt _ hk

theorem deleteRange_kept (h : Kept s) (now : Int) {r : IonRXref} (hr : r ∈ s.rangeIndex)
    (conditional : Bool) : Kept (deleteRange s now r conditional) := by
  unfold deleteRange
  split
  · exact h
  · exact eraseRange_kept h hr rfl rfl rfl rfl

/-- Every edit that comes to an end keeps the timeline in step with the indexes. -/
theorem edit_kept {call : Int × Edit} (h : Kept s) (he : edit s call = some t) : Kept t :=
  edit_preserves Kept (fun _ now span xmitRate prob hk h _ => addContact_kept h now span xmitRate prob hk)
    (fun _ now _ h hc => deleteContact_kept h now hc) (fun _ now span owlt h => insertRange_kept h now span owlt)
    (fun _ now _ conditional h hr => deleteRange_kept h now hr conditional) h he

/-- One of the computed times of a contact, unless it is zero. -/
def ContactEvent (c : IonCXref) (e : IonEvent) : Prop :=
  e.ref = c.addr ∧ e.time ≠ 0 ∧ (e.type, e.time) ∈ [(.startXmit, c.startXmit), (.stopXmit, c.stopXmit),
    (.startFire, c.startFire), (.stopFire, c.stopFire), (.purgeContact, c.purgeTime)]

/-- The start or the stop of a range, of the kind that the range is. -/
def RangeEvent (r : IonRXref) (e : IonEvent) : Prop :=
  e.ref = r.addr ∧
    ((e.type, e.time) = (if r.imputed then .startImputedRange else .startAssertedRange, r.fromTime) ∨
      (e.type, e.time) = (if r.imputed then .stopImputedRange else .stopAssertedRange, r.toTime))

/-- The events are exactly those of the entries, each there once, and a reference says which
entry is meant. -/
structure Mirrors (s : IonState) : Prop where
  event_iff : ∀ e, e ∈ s.timeline ↔
    (∃ c ∈ s.contactIndex, ContactEvent c e) ∨ ∃ r ∈ s.rangeIndex, RangeEvent r e
  once : s.timeline.Nodup
  refs : (s.contactIndex.entries.map IonCXref.addr ++ s.rangeIndex.entries.map IonRXref.addr).Nodup

theorem mem_eventAt {time : Int} {type : IonEventType} {ref : PsmAddress} {e : IonEvent} :
    e ∈ eventAt time type ref ↔ e.ref = ref ∧ e.time ≠ 0 ∧ (e.type, e.time) = (type, time) := by
  obtain ⟨etime, etype, eref⟩ := e
  unfold eventAt
  split
  · rename_i h0
    simp only [List.not_mem_nil, Prod.mk.injEq, false_iff, not_and]
    rintro - hne - rfl
    exact hne h0
  · rename_i h0
    simp only [List.mem_singleton, IonEvent.mk.injEq, Prod.mk.injEq]
    constructor
    · rintro ⟨rfl, rfl, rfl⟩
      exact ⟨rfl, h0, rfl, rfl⟩
    · rintro ⟨rfl, -, rfl, rfl⟩
      exact ⟨rfl, rfl, rfl⟩

theorem mem_contactEvents {c : IonCXref} {e : IonEvent} : e ∈ contactEvents c ↔ ContactEvent c e := by
  simp only [contactEvents, List.mem_append, mem_eventAt, ContactEvent, List.mem_cons, List.not_mem_nil,
    or_false]
  tauto

theorem mem_rangeEvents {r : IonRXref} {e : IonEvent} : e ∈ rangeEvents r ↔ RangeEvent r e := by
  obtain ⟨etime, etype, eref⟩ := e
  unfold rangeEvents RangeEvent
  split <;>
  · simp only [List.mem_cons, List.not_mem_nil, or_false, IonEvent.mk.injEq, Prod.mk.injEq]
    tauto

theorem eventAt_types (time : Int) (type : IonEventType) (ref : PsmAddress) :
    ((eventAt time type ref).map IonEvent.type).Sublist [type] := by
  unfold eventAt
  split
  · exact List.nil_sublist _
  · exact List.Sublist.refl _

theorem contactEvents_nodup (c : IonCXref) : (contactEvents c).Nodup := by
  have htypes : ((contactEvents c).map IonEvent.type).Sublist
      [.startXmit, .stopXmit, .startFire, .stopFire, .purgeContact] := by
    simp only [contactEvents, List.map_append]
    exact ((((eventAt_types _ _ _).append (eventAt_types _ _ _)).append (eventAt_types _ _ _)).append
      (eventAt_types _ _ _)).append (eventAt_types _ _ _)
  exact (htypes.nodup (by decide)).of_map IonEvent.type

theorem rangeEvents_nodup (r : IonRXref) : (rangeEvents r).Nodup := by
  unfold rangeEvents
  split <;> simp

/-- Lists of events that refer to different addresses have no event in common. -/
theorem flatMap_nodup {bs : List (PsmAddress × List IonEvent)} (haddr : (bs.map Prod.fst).Nodup)
    (hnodup : ∀ b ∈ bs, b.2.Nodup) (href : ∀ b ∈ bs, ∀ e ∈ b.2, e.ref = b.1) :
    (bs.flatMap Prod.snd).Nodup := by
  rw [List.nodup_flatMap]
  refine ⟨hnodup, ?_⟩
  refine (List.pairwise_map.mp haddr).imp_of_mem ?_
  intro a b ha hb hne e hea heb
  exact hne ((href a ha e hea).symm.trans (href b hb e heb))

theorem mem_blocks {b : PsmAddress × List IonEvent} : b ∈ blocks s ↔
    (∃ c ∈ s.contactIndex, b = (c.addr, contactEvents c)) ∨
      ∃ r ∈ s.rangeIndex, b = (r.addr, rangeEvents r) := by
  simp only [blocks, List.mem_append, List.mem_map, SortedIndex.mem_entries, eq_comm (b := b)]

theorem Kept.mirrors (h : Kept s) : Mirrors s where
  event_iff e := by
    rw [h.events.mem_iff, List.mem_flatMap]
    constructor
    · rintro ⟨b, hb, he⟩
      obtain ⟨c, hc, rfl⟩ | ⟨r, hr, rfl⟩ := mem_blocks.mp hb
      · exact Or.inl ⟨c, hc, mem_contactEvents.mp he⟩
      · exact Or.inr ⟨r, hr, mem_rangeEvents.mp he⟩
    · rintro (⟨c, hc, he⟩ | ⟨r, hr, he⟩)
      · exact ⟨_, mem_blocks.mpr (Or.inl ⟨c, hc, rfl⟩), mem_contactEvents.mpr he⟩
      · exact ⟨_, mem_blocks.mpr (Or.inr ⟨r, hr, rfl⟩), mem_rangeEvents.mpr he⟩
  once := by
    refine h.events.nodup_iff.mpr (flatMap_nodup h.addrs ?_ ?_)
    · intro b hb
      obtain ⟨c, -, rfl⟩ | ⟨r, -, rfl⟩ := mem_blocks.mp hb
      · exact contactEvents_nodup c
      · exact rangeEvents_nodup r
    · intro b hb e he
      obtain ⟨c, -, rfl⟩ | ⟨r, -, rfl⟩ := mem_blocks.mp hb
      · exact (mem_contactEvents.mp he).1
      · exact (mem_rangeEvents.mp he).1
  refs := by
    have haddrs := h.addrs
    rwa [blocks, List.map_append, List.map_map, List.map_map] at haddrs

/-- A database without contacts, ranges and events. -/
structure Blank (s : IonState) : Prop where
  contactIndex : s.contactIndex = SortedIndex.empty
  rangeIndex : s.rangeIndex = SortedIndex.empty
  timeline : s.timeline = []

theorem Blank.kept (h : Blank s) : Kept s := by
  have hb : blocks s = [] := by
    rw [blocks, h.contactIndex, h.rangeIndex]
    rfl
  refine ⟨?_, ?_, ?_, ?_⟩
  · rw [h.timeline, hb]
    exact List.Perm.refl _
  · rw [hb]
    exact List.nodup_nil
  · simp [hb]
  · simp [RecvUnset, h.contactIndex]

/-- From a blank database on, whatever is edited, the timeline mirrors the indexes. -/
theorem timeline_mirrors (s : IonState) (hblank : Blank s) (calls : List (Int × Edit)) :
    Runs.Throughout edit Mirrors s calls := by
  intro pre post t _ hrun
  exact (Runs.run_invariant (fun _ _ _ h he => edit_kept h he) pre s t hblank.kept hrun).mirrors

theorem timeline_mirrors_from_start :
    Runs.Throughout edit Mirrors (ionInitialize 1) [(0, .insertContact 10 20 1 2 100 1),
      (0, .insertRange 10 20 1 2 1), (0, .insertRange 10 20 2 1 3), (5, .removeRange 10 1 2)] :=
  timeline_mirrors (ionInitialize 1) ⟨rfl, rfl, rfl⟩ _

end Timeline
