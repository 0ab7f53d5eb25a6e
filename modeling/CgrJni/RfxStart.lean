import CgrJni.Timeline

/-!
Rebuilding the volatile indexes from the contacts and ranges on record. The
tree insertion does not look for an entry with the same key, so the rebuilt
indexes are plain lists in key order.
-/

namespace RfxStart

open IonDb Rfx RfxContacts RfxRanges Timeline

/-- The volatile database, as far as rebuilding changes it. -/
structure IonVdb where
  nodes : NodeTree
  contactIndex : List IonCXref
  rangeIndex : List IonRXref
  timeline : List IonEvent
  lastEditTime : Int
  lastAddr : PsmAddress

/-- Among equal keys, the new entry comes first. -/
def contactInsert (index : List IonCXref) (cxref : IonCXref) : List IonCXref :=
  index.orderedInsert (fun a b => a.key ≤ b.key) cxref

def rangeInsert (index : List IonRXref) (rxref : IonRXref) : List IonRXref :=
  index.orderedInsert (fun a b => a.key ≤ b.key) rxref

/-- The index entry and the events of a range, asserted or imputed. -/
def indexRange (vdb : IonVdb) (rxref : IonRXref) : IonVdb :=
  { vdb with
    rangeIndex := rangeInsert vdb.rangeIndex rxref
    timeline := (rangeEvents rxref).foldl insertEvent vdb.timeline
    lastAddr := rxref.addr }

def assertRange (vdb : IonVdb) (now : Int) (rxref : IonRXref) : IonVdb :=
  { indexRange vdb rxref with
    nodes := loadNode (loadNode vdb.nodes rxref.toNode) rxref.fromNode
    lastEditTime := if now < rxref.toTime then now else vdb.lastEditTime }

def imputeRange (vdb : IonVdb) (rxref : IonRXref) : IonVdb :=
  if rxref.toNode < rxref.fromNode then vdb
  else if ∃ x ∈ vdb.rangeIndex, x.key = rxref.toSpan.reverse.key then vdb
  else indexRange vdb (imputedEntry rxref (vdb.lastAddr + 1))

/-- `insertRXref`, on an index that may hold the key already. -/
def insertRXref (vdb : IonVdb) (now : Int) (rxref : IonRXref) : IonVdb :=
  imputeRange (assertRange vdb now rxref) rxref

def loadRange (now : Int) (vdb : IonVdb) (range : Object × IonRange) : IonVdb :=
  insertRXref vdb now ⟨range.2.toSpan, range.2.owlt, range.1, vdb.lastAddr + 1⟩

/-- The times that the record on the stack of `loadContact` happens to hold: nothing clears it. -/
structure Leftover where
  startXmit : Int
  stopXmit : Int
  startFire : Int
  stopFire : Int
  startRecv : Int
  stopRecv : Int
  purgeTime : Int

/-- The times of relevant events; the others stay what they were. -/
def eventTimes (own : Nat) (maxClockError : Int) (cxref : IonCXref) : IonCXref :=
  let sent := if cxref.fromNode = own then
      { cxref with
        startXmit := cxref.fromTime + maxClockError
        stopXmit := cxref.toTime - maxClockError }
    else cxref
  if cxref.toNode = own then
    { sent with
      startFire := cxref.fromTime + maxClockError
      stopFire := cxref.toTime - maxClockError }
  else { sent with purgeTime := cxref.toTime }

def insertCXref (own : Nat) (maxClockError : Int) (vdb : IonVdb) (now : Int) (cxref : IonCXref) : IonVdb :=
  let timed := eventTimes own maxClockError cxref
  { vdb with
    nodes := loadNode (loadNode vdb.nodes cxref.toNode) cxref.fromNode
    contactIndex := contactInsert vdb.contactIndex timed
    timeline := (contactEvents timed).foldl insertEvent vdb.timeline
    lastEditTime := if now < cxref.toTime then now else vdb.lastEditTime
    lastAddr := timed.addr }

def loadContact (own : Nat) (maxClockError : Int) (stack : Object → Leftover) (now : Int) (vdb : IonVdb)
    (contact : Object × IonContact) : IonVdb :=
  insertCXref own maxClockError vdb now
    { toSpan := contact.2.toSpan
      xmitRate := contact.2.xmitRate
      prob := contact.2.prob
      startXmit := (stack contact.1).startXmit
      stopXmit := (stack contact.1).stopXmit
      startFire := (stack contact.1).startFire
      stopFire := (stack contact.1).stopFire
      startRecv := (stack contact.1).startRecv
      stopRecv := (stack contact.1).stopRecv
      purgeTime := (stack contact.1).purgeTime
      contactElt := contact.1
      addr := vdb.lastAddr + 1 }

/-- The two indexes are destroyed and created anew; the timeline goes on as it is. -/
def cleared (s : IonState) : IonVdb where
  nodes := s.nodes
  contactIndex := []
  rangeIndex := []
  timeline := s.timeline
  lastEditTime := s.lastEditTime
  lastAddr := s.lastAddr

def rfxStart (s : IonState) (now : Int) (stack : Object → Leftover) : IonVdb :=
  s.contacts.foldl (loadContact s.ownNodeNbr s.maxClockError stack now)
    (s.ranges.foldl (loadRange now) (cleared s))

/-- The volatile database as edits leave it. -/
def volatile (s : IonState) : IonVdb where
  nodes := s.nodes
  contactIndex := s.contactIndex.entries
  rangeIndex := s.rangeIndex.entries
  timeline := s.timeline
  lastEditTime := s.lastEditTime
  lastAddr := s.lastAddr

theorem indexRange_volatile (s : IonState) (rxref : IonRXref) (h : s.rangeIndex.lookup rxref.key = none) :
    indexRange (volatile s) rxref = volatile (Rfx.indexRange s rxref h) := by
  have hentries := SortedIndex.entries_insert s.rangeIndex rxref h
  simp only [indexRange, Rfx.indexRange, volatile, rangeInsert, hentries]

theorem imputeRange_volatile (s : IonState) (rxref : IonRXref) :
    imputeRange (volatile s) rxref = volatile (Rfx.imputeRange s rxref) := by
  unfold imputeRange Rfx.imputeRange
  split
  · rfl
  · split <;> rename_i hk
    · obtain ⟨x, hx, hkey⟩ := hk
      split
      · rfl
      · rename_i hnone
        exact absurd hkey (SortedIndex.lookup_eq_none.mp hnone x hx)
    · split
      · rename_i x hx
        exact absurd ⟨x, SortedIndex.lookup_eq_some.mp hx⟩ hk
      · exact indexRange_volatile s _ _

/-- Where no entry has the key, rebuilding inserts a range as an edit does. -/
theorem insertRXref_volatile (s : IonState) (now : Int) (rxref : IonRXref)
    (h : s.rangeIndex.lookup rxref.key = none) :
    insertRXref (volatile s) now rxref = volatile (Rfx.insertRXref s now rxref h) := by
  rw [Rfx.insertRXref, ← imputeRange_volatile, insertRXref]
  congr 1
  simp only [assertRange, indexRange_volatile s rxref h]
  rfl

theorem eventTimes_clear (s : IonState) (span : Span) (xmitRate : Nat) (elt : Object) :
    eventTimes s.ownNodeNbr s.maxClockError
        ⟨span, xmitRate, 0, 0, 0, 0, 0, 0, 0, 0, elt, s.lastAddr + 1⟩ =
      contactEntry s span xmitRate elt := by
  by_cases hf : span.fromNode = s.ownNodeNbr <;> by_cases ht : span.toNode = s.ownNodeNbr <;>
    simp [eventTimes, contactEntry, hf, ht]

/-- So it does a contact, where the record happens to be clear and the probability is not passed on. -/
theorem insertCXref_volatile (s : IonState) (now : Int) (span : Span) (xmitRate : Nat) (elt : Object)
    (h : s.contactIndex.lookup span.key = none) :
    insertCXref s.ownNodeNbr s.maxClockError (volatile s) now
        ⟨span, xmitRate, 0, 0, 0, 0, 0, 0, 0, 0, elt, s.lastAddr + 1⟩ =
      volatile (Rfx.insertCXref s now (contactEntry s span xmitRate elt) h) := by
  have hentries := SortedIndex.entries_insert s.contactIndex (contactEntry s span xmitRate elt) h
  simp only [insertCXref, eventTimes_clear, Rfx.insertCXref, volatile, contactInsert, hentries]
  rfl

/-- The rebuilt indexes hold the same entries, field by field, each key once, and no event
refers to an entry that was destroyed. -/
structure Rebuilt (s : IonState) (t : IonVdb) : Prop where
  contacts : t.contactIndex.map (fun c => { c with addr := 0 }) =
    s.contactIndex.entries.map (fun c => { c with addr := 0 })
  ranges : t.rangeIndex.map (fun r => { r with addr := 0 }) =
    s.rangeIndex.entries.map (fun r => { r with addr := 0 })
  contactKeys : (t.contactIndex.map (fun c => c.key)).Nodup
  rangeKeys : (t.rangeIndex.map (fun r => r.key)).Nodup
  events : ∀ e ∈ t.timeline,
    (∀ c ∈ s.contactIndex, e.ref ≠ c.addr) ∧ ∀ r ∈ s.rangeIndex, e.ref ≠ r.addr

/-- A database in which nothing was ever recorded. -/
structure Unused (s : IonState) : Prop extends Blank s where
  contacts : s.contacts = []
  ranges : s.ranges = []

/-- What is on record has its entry, and a probability that the entry lacks. -/
structure Recorded (s : IonState) : Prop where
  contact_entry : ∀ rec ∈ s.contacts, ∃ c ∈ s.contactIndex, c.contactElt = rec.1
  range_entry : ∀ rec ∈ s.ranges, rec.1 ≠ 0 ∧ ∃ r ∈ s.rangeIndex, r.rangeElt = rec.1
  prob_pos : ∀ rec ∈ s.contacts, 0 < rec.2.prob
  prob_unset : ∀ c ∈ s.contactIndex, c.prob = 0

theorem Unused.recorded {s : IonState} (h : Unused s) : Recorded s := by
  constructor <;> simp [h.contacts, h.ranges, h.contactIndex]

variable {s t : IonState}

theorem Recorded.same_contacts (h : Recorded s) (hsame : SameContacts s t)
    (hr : ∀ rec ∈ t.ranges, rec.1 ≠ 0 ∧ ∃ r ∈ t.rangeIndex, r.rangeElt = rec.1) : Recorded t := by
  refine ⟨?_, hr, ?_, ?_⟩
  · rw [hsame.contacts, hsame.contactIndex]
    exact h.contact_entry
  · rw [hsame.contacts]
    exact h.prob_pos
  · rw [hsame.contactIndex]
    exact h.prob_unset

theorem addContact_recorded (h : Recorded s) (now : Int) (span : Span) (xmitRate : Nat) {prob : ℚ}
    (hprob : 0 < prob) (hk : s.contactIndex.lookup span.key = none) :
    Recorded (addContact s now span xmitRate prob hk).1 where
  contact_entry rec hrec := by
    cases List.mem_append.mp hrec with
    | inl hold =>
      obtain ⟨c, hc, helt⟩ := h.contact_entry rec hold
      exact ⟨c, (SortedIndex.mem_insert (h := hk)).mpr (Or.inr hc), helt⟩
    | inr hnew =>
      rw [List.mem_singleton.mp hnew]
      exact ⟨_, SortedIndex.mem_insert_self _ _ hk, rfl⟩
  range_entry := h.range_entry
  prob_pos rec hrec := by
    cases List.mem_append.mp hrec with
    | inl hold => exact h.prob_pos rec hold
    | inr hnew =>
      rw [List.mem_singleton.mp hnew]
      exact hprob
  prob_unset c hc := by
    cases (SortedIndex.mem_insert (h := hk)).mp hc with
    | inl hnew => rw [hnew]
    | inr hold => exact h.prob_unset c hold

theorem deleteContact_recorded (h : Recorded s) (now : Int) (c : IonCXref) (hc : c ∈ s.contactIndex) :
    Recorded (deleteContact s now c) where
  contact_entry rec hrec := by
    obtain ⟨hold, hne⟩ := List.mem_filter.mp hrec
    obtain ⟨d, hd, helt⟩ := h.contact_entry rec hold
    refine ⟨d, SortedIndex.mem_erase.mpr ⟨hd, fun hkey => ?_⟩, helt⟩
    rw [SortedIndex.key_inj hd hc hkey] at helt
    simp [helt] at hne
  range_entry := h.range_entry
  prob_pos rec hrec := h.prob_pos rec (List.mem_filter.mp hrec).1
  prob_unset d hd := h.prob_unset d (SortedIndex.mem_erase.mp hd).1

/-- The entries of the other records survive the deletion of an entry. -/
theorem entry_of_erased (h : Recorded s) {r : IonRXref} (hr : r ∈ s.rangeIndex) {rec : Object × IonRange}
    (hrec : rec ∈ s.ranges) (hne : rec.1 ≠ r.rangeElt) :
    rec.1 ≠ 0 ∧ ∃ x ∈ s.rangeIndex.erase r.key, x.rangeElt = rec.1 := by
  obtain ⟨hz, x, hx, helt⟩ := h.range_entry rec hrec
  refine ⟨hz, x, SortedIndex.mem_erase.mpr ⟨hx, fun hkey => ?_⟩, helt⟩
  rw [SortedIndex.key_inj hx hr hkey] at helt
  exact hne helt.symm

/-- An imputed entry is nobody's. -/
theorem elt_ne_imputed (h : Recorded s) {r : IonRXref} (himp : r.imputed) {rec : Object × IonRange}
    (hrec : rec ∈ s.ranges) : rec.1 ≠ r.rangeElt := by
  rw [show r.rangeElt = 0 from himp]
  exact (h.range_entry rec hrec).1

theorem dropImputed_recorded (h : Recorded s) {r : IonRXref} (hr : r ∈ s.rangeIndex) (himp : r.imputed) :
    Recorded (dropImputed s r) := by
  have hsame : SameContacts s (dropImputed s r) := ⟨rfl, rfl, rfl, rfl⟩
  apply h.same_contacts hsame
  intro rec hrec
  exact entry_of_erased h hr hrec (elt_ne_imputed h himp hrec)

theorem deleteRange_recorded (h : Recorded s) (now : Int) (r : IonRXref) (conditional : Bool)
    (hr : r ∈ s.rangeIndex) : Recorded (deleteRange s now r conditional) := by
  have hsame : SameContacts s (deleteRange s now r conditional) := by
    unfold deleteRange
    split <;> exact ⟨rfl, rfl, rfl, rfl⟩
  apply h.same_contacts hsame
  unfold deleteRange
  split
  · exact h.range_entry
  · intro rec hrec
    dsimp only at hrec
    split at hrec
    · rename_i himp
      exact entry_of_erased h hr hrec (elt_ne_imputed h himp hrec)
    · obtain ⟨hold, hne⟩ := List.mem_filter.mp hrec
      exact entry_of_erased h hr hold (by simpa using hne)

theorem addRange_recorded (h : Recorded s) (now : Int) (span : Span) (owlt : Nat) (nextElt : Option IonRXref)
    (hk : s.rangeIndex.lookup span.key = none) : Recorded (addRange s now span owlt nextElt hk).1 := by
  apply h.same_contacts (addRange_sameContacts s now span owlt nextElt hk)
  cases hov : overlapsRange s.rangeIndex span nextElt with
  | true =>
    rw [addRange_rejected hov]
    exact h.range_entry
  | false =>
    have hk' : (recordRange s span owlt).rangeIndex.lookup (newRange s span owlt).key = none := hk
    have hmem := mem_insertRXref (recordRange s span owlt) now (newRange s span owlt) hk'
    intro rec hrec
    rw [addRange_accepted hov, insertRXref_ranges (recordRange s span owlt) now _ hk'] at hrec
    rw [addRange_accepted hov]
    cases List.mem_append.mp hrec with
    | inl hold =>
      obtain ⟨hz, x, hx, helt⟩ := h.range_entry rec hold
      exact ⟨hz, x, (hmem x).mpr (Or.inr (Or.inr hx)), helt⟩
    | inr hnew =>
      rw [List.mem_singleton.mp hnew]
      exact ⟨Nat.succ_ne_zero _, _, (hmem _).mpr (Or.inl rfl), rfl⟩

theorem insertRange_recorded (h : Recorded s) (now : Int) (span : Span) (owlt : Nat) :
    Recorded (insertRange s now span owlt).1 := by
  obtain ⟨r, -, -, he⟩ | ⟨r, hr, himp, he⟩ | ⟨hk, he⟩ := insertRange_cases s now span owlt <;> rw [he]
  · exact h
  · have hdrop := dropImputed_recorded h (SortedIndex.lookup_eq_some.mp hr).1 himp
    exact addRange_recorded hdrop now span owlt none (lookup_dropImputed hr)
  · exact addRange_recorded h now span owlt _ hk

theorem edit_recorded {call : Int × Edit} (h : Recorded s) (he : edit s call = some t) : Recorded t :=
  edit_preserves Recorded (fun _ now span xmitRate _ hk h hprob => addContact_recorded h now span xmitRate hprob hk)
    (fun _ now c h hc => deleteContact_recorded h now c hc) (fun _ now span owlt h => insertRange_recorded h now span owlt)
    (fun _ now r conditional h hr => deleteRange_recorded h now r conditional hr) h he

/-- Rebuilding only ever adds events. -/
theorem mem_rfxStart_timeline {e : IonEvent} (he : e ∈ s.timeline) (now : Int) (stack : Object → Leftover) :
    e ∈ (rfxStart s now stack).timeline := by
  have hadd : ∀ (timeline events : List IonEvent), e ∈ timeline → e ∈ events.foldl insertEvent timeline :=
    fun timeline events h => (insertEvents_perm timeline events).mem_iff.mpr (List.mem_append_right _ h)
  have himpute : ∀ (vdb : IonVdb) (rxref : IonRXref), e ∈ vdb.timeline → e ∈ (imputeRange vdb rxref).timeline := by
    intro vdb rxref h
    unfold imputeRange
    split
    · exact h
    · split
      · exact h
      · exact hadd _ _ h
  apply List.foldlRecOn (motive := fun vdb : IonVdb => e ∈ vdb.timeline)
  · apply List.foldlRecOn (motive := fun vdb : IonVdb => e ∈ vdb.timeline)
    · exact he
    · intro vdb h range _
      exact himpute _ _ (hadd _ _ h)
  · intro vdb h contact _
    exact hadd _ _ h

/-- Every rebuilt contact has the probability that is on record. -/
theorem rfxStart_prob (s : IonState) (now : Int) (stack : Object → Leftover) :
    ∀ c ∈ (rfxStart s now stack).contactIndex, ∃ rec ∈ s.contacts, c.prob = rec.2.prob := by
  apply List.foldlRecOn (motive := fun vdb : IonVdb => ∀ c ∈ vdb.contactIndex, ∃ rec ∈ s.contacts, c.prob = rec.2.prob)
  · have hnone : (s.ranges.foldl (loadRange now) (cleared s)).contactIndex = [] := by
      apply List.foldlRecOn (motive := fun vdb : IonVdb => vdb.contactIndex = [])
      · rfl
      · intro vdb h range _
        unfold loadRange insertRXref imputeRange
        split
        · exact h
        · split <;> exact h
    simp [hnone]
  · intro vdb h contact hcontact c hc
    cases (List.mem_orderedInsert _).mp hc with
    | inl hnew =>
      refine ⟨contact, hcontact, ?_⟩
      rw [hnew]
      unfold eventTimes
      dsimp only
      split <;> split <;> rfl
    | inr hold => exact h c hold

theorem rfxStart_unused (hcontacts : s.contacts = []) (hranges : s.ranges = []) (now : Int)
    (stack : Object → Leftover) : rfxStart s now stack = cleared s := by
  rw [rfxStart, hcontacts, hranges]
  rfl

/-- Rebuilding what a run of edits left gives the same plan exactly where there is none: every
contact gets a probability that its entry did not have, and no old event is withdrawn. -/
theorem rfxStart_rebuilds_iff (s : IonState) (hunused : Unused s) (calls : List (Int × Edit)) (t : IonState)
    (hrun : Runs.run edit s calls = some t) (now : Int) (stack : Object → Leftover) :
    Rebuilt t (rfxStart t now stack) ↔
      t.contactIndex = SortedIndex.empty ∧ t.rangeIndex = SortedIndex.empty := by
  have hrec : Recorded t := Runs.run_invariant (fun _ _ _ h he => edit_recorded h he) calls s t hunused.recorded hrun
  have hkept : Kept t :=
    Runs.run_invariant (fun _ _ _ h he => edit_kept h he) calls s t hunused.toBlank.kept hrun
  constructor
  · intro h
    constructor
    · refine SortedIndex.ext_mem (fun c => iff_of_false (fun hc => ?_) (SortedIndex.not_mem_empty c))
      have hin : { c with addr := 0 } ∈ (rfxStart t now stack).contactIndex.map (fun c => { c with addr := 0 }) := by
        rw [h.contacts]
        exact List.mem_map_of_mem hc
      obtain ⟨d, hd, he⟩ := List.mem_map.mp hin
      obtain ⟨rec, hr, hprob⟩ := rfxStart_prob t now stack d hd
      have hpos := hrec.prob_pos rec hr
      have hzero : d.prob = 0 := (congrArg IonCXref.prob he).trans (hrec.prob_unset c hc)
      rw [← hprob, hzero] at hpos
      exact lt_irrefl _ hpos
    · refine SortedIndex.ext_mem (fun r => iff_of_false (fun hr => ?_) (SortedIndex.not_mem_empty r))
      have hevent : (⟨r.fromTime, if r.imputed then .startImputedRange else .startAssertedRange, r.addr⟩ : IonEvent) ∈
          t.timeline := (hkept.mirrors.event_iff _).mpr (Or.inr ⟨r, hr, rfl, Or.inl rfl⟩)
      exact (h.events _ (mem_rfxStart_timeline hevent now stack)).2 r hr rfl
  · rintro ⟨hc, hr⟩
    have hcontacts : t.contacts = [] := by
      refine List.eq_nil_iff_forall_not_mem.mpr (fun rec hmem => ?_)
      obtain ⟨c, hin, -⟩ := hrec.contact_entry rec hmem
      rw [hc] at hin
      exact SortedIndex.not_mem_empty c hin
    have hranges : t.ranges = [] := by
      refine List.eq_nil_iff_forall_not_mem.mpr (fun rec hmem => ?_)
      obtain ⟨-, r, hin, -⟩ := hrec.range_entry rec hmem
      rw [hr] at hin
      exact SortedIndex.not_mem_empty r hin
    rw [rfxStart_unused hcontacts hranges]
    constructor
    · rw [hc]
      rfl
    · rw [hr]
      rfl
    · exact List.nodup_nil
    · exact List.nodup_nil
    · simp [hc, hr]

def clearStack : Object → Leftover := fun _ => ⟨0, 0, 0, 0, 0, 0, 0⟩

theorem rfxStart_rebuilds_removed : ∃ t, Runs.run edit (ionInitialize 1)
    [(0, .insertContact 10 20 1 2 100 1), (3, .removeContact 10 1 2)] = some t ∧
      Rebuilt t (rfxStart t 5 clearStack) := by
  have hiff := rfxStart_rebuilds_iff (ionInitialize 1) ⟨⟨rfl, rfl, rfl⟩, rfl, rfl⟩
    [(0, .insertContact 10 20 1 2 100 1), (3, .removeContact 10 1 2)] _ rfl 5 clearStack
  exact ⟨_, rfl, hiff.mpr (by decide)⟩

/-- A contact comes back with another probability, an override twice, and the event of the
entry that was destroyed is still scheduled. -/
theorem rfxStart_not_rebuilt : ∃ t, Runs.run edit (ionInitialize 1)
    [(0, .insertContact 10 20 1 2 100 1), (0, .insertRange 10 20 1 2 1), (0, .insertRange 10 20 2 1 5)] = some t ∧
      (rfxStart t 5 clearStack).contactIndex.map (fun c => c.prob) ≠ t.contactIndex.entries.map (fun c => c.prob) ∧
      ¬ ((rfxStart t 5 clearStack).rangeIndex.map (fun r => r.key)).Nodup ∧
      ¬ Rebuilt t (rfxStart t 5 clearStack) := by
  refine ⟨_, rfl, by decide, by decide, fun h => absurd h.rangeKeys (by decide)⟩

end RfxStart
