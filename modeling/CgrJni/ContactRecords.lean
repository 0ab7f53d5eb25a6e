import CgrJni.RfxStart

/-!
The contacts on record against the entries of the contact index: an insertion
asserts six values, the record gets all of them and the entry five.
-/

namespace ContactRecords

open IonDb Rfx RfxContacts RfxRanges RfxStart

/-- The values that an insertion asserts, in the order of its arguments. -/
structure Assertion where
  fromTime : Int
  toTime : Int
  fromNode : Nat
  toNode : Nat
  xmitRate : Nat
  prob : ℚ
  deriving DecidableEq

def entryValues (c : IonCXref) : Assertion :=
  ⟨c.fromTime, c.toTime, c.fromNode, c.toNode, c.xmitRate, c.prob⟩

def recordValues (contact : IonContact) : Assertion :=
  ⟨contact.fromTime, contact.toTime, contact.fromNode, contact.toNode, contact.xmitRate, contact.prob⟩

/-- Whether two contacts go by the same key. -/
def Assertion.SameKey (a b : Assertion) : Prop :=
  a.fromNode = b.fromNode ∧ a.toNode = b.toNode ∧ a.fromTime = b.fromTime

instance (a b : Assertion) : Decidable (a.SameKey b) := inferInstanceAs (Decidable (_ ∧ _))

/-- The values without the probability. -/
def Assertion.withoutProb (a : Assertion) : Assertion := { a with prob := 0 }

def insertAsserted (s : IonState) (now : Int) (a : Assertion) : IonState × PsmAddress :=
  rfxInsertContact s now a.fromTime a.toTime a.fromNode a.toNode a.xmitRate a.prob

/-- The entry at the address and one record have the values asserted, and all other
contacts are as they were. -/
structure Installs (s t : IonState) (a : Assertion) (addr : PsmAddress) : Prop where
  entry : ∃ c ∈ t.contactIndex, c.addr = addr ∧ entryValues c = a
  record : (t.contacts.map (fun r => recordValues r.2)).count a = 1
  entries_kept : ∀ c, ¬ (entryValues c).SameKey a → (c ∈ t.contactIndex ↔ c ∈ s.contactIndex)
  records_kept : ∀ r, ¬ (recordValues r.2).SameKey a → (r ∈ t.contacts ↔ r ∈ s.contacts)

/-- Entries and records correspond one to one, with the same values. -/
def ContactsAgree (s : IonState) : Prop :=
  (s.contactIndex.entries.map (fun c => (c.contactElt, entryValues c))).Perm
    (s.contacts.map (fun r => (r.1, recordValues r.2)))

instance (s : IonState) : Decidable (ContactsAgree s) := inferInstanceAs (Decidable (List.Perm _ _))

/-- The same, but for the probabilities. -/
def AgreeButProb (s : IonState) : Prop :=
  (s.contactIndex.entries.map (fun c => (c.contactElt, (entryValues c).withoutProb))).Perm
    (s.contacts.map (fun r => (r.1, (recordValues r.2).withoutProb)))

/-- The correspondence, and what keeps it up: no two records have the same place in the list. -/
structure Linked (s : IonState) : Prop where
  agree : AgreeButProb s
  elts : (s.contacts.map Prod.fst).Nodup
  elt_le : ∀ r ∈ s.contacts, r.1 ≤ s.lastObject

variable {s t : IonState}

theorem Linked.of_unused (h : Unused s) : Linked s := by
  constructor
  · rw [AgreeButProb, h.contacts, h.contactIndex]
    exact List.Perm.refl _
  · rw [h.contacts]
    exact List.nodup_nil
  · rw [h.contacts]
    intro r hr
    cases hr

theorem Linked.same (h : Linked s) (hsame : SameContacts s t) (hlast : s.lastObject ≤ t.lastObject) :
    Linked t := by
  constructor
  · rw [AgreeButProb, hsame.contacts, hsame.contactIndex]
    exact h.agree
  · rw [hsame.contacts]
    exact h.elts
  · rw [hsame.contacts]
    intro r hr
    exact (h.elt_le r hr).trans hlast

theorem addContact_contacts (s : IonState) (now : Int) (span : Span) (xmitRate : Nat) (prob : ℚ)
    (hk : s.contactIndex.lookup span.key = none) : (addContact s now span xmitRate prob hk).1.contacts =
      s.contacts ++ [(s.lastObject + 1, ⟨span, xmitRate, prob⟩)] := rfl

theorem addContact_linked (h : Linked s) (now : Int) (span : Span) (xmitRate : Nat) (prob : ℚ)
    (hk : s.contactIndex.lookup span.key = none) : Linked (addContact s now span xmitRate prob hk).1 where
  agree := by
    have hp := SortedIndex.insert_perm s.contactIndex (contactEntry s span xmitRate (s.lastObject + 1)) hk
    have hnew := hp.map (fun c => (c.contactElt, (entryValues c).withoutProb))
    have hold := h.agree.cons
      (s.lastObject + 1, (entryValues (contactEntry s span xmitRate (s.lastObject + 1))).withoutProb)
    rw [AgreeButProb, addContact_contacts, List.map_append]
    exact (hnew.trans hold).trans (List.perm_append_singleton _ _).symm
  elts := by
    rw [addContact_contacts, List.map_append]
    apply List.Nodup.append h.elts (List.nodup_singleton _)
    intro elt helt hnew
    obtain ⟨r, hr, rfl⟩ := List.mem_map.mp helt
    have hle := h.elt_le r hr
    have he : r.1 = s.lastObject + 1 := List.mem_singleton.mp hnew
    rw [he] at hle
    exact Nat.not_succ_le_self s.lastObject hle
  elt_le r hr := by
    cases List.mem_append.mp hr with
    | inl hold => exact (h.elt_le r hold).trans (Nat.le_succ _)
    | inr hnew =>
      rw [List.mem_singleton.mp hnew]
      exact le_refl (s.lastObject + 1)

/-- An entry that is deleted takes its own record with it and no other. -/
theorem deleteContact_linked (h : Linked s) (now : Int) (c : IonCXref) (hc : c ∈ s.contactIndex) :
    Linked (deleteContact s now c) where
  agree := by
    have hp := (SortedIndex.perm_erase hc).map (fun c => (c.contactElt, (entryValues c).withoutProb))
    have hall := hp.symm.trans h.agree
    have hfilter := hall.filter (fun p => p.1 ≠ c.contactElt)
    have helts : ((c :: (s.contactIndex.erase c.toSpan.key).entries).map IonCXref.contactElt).Nodup := by
      have hfst := hall.map Prod.fst
      rw [List.map_map, List.map_map] at hfst
      exact hfst.nodup_iff.mpr h.elts
    have hrest : ((s.contactIndex.erase c.toSpan.key).entries.map
        (fun c => (c.contactElt, (entryValues c).withoutProb))).filter (fun p => p.1 ≠ c.contactElt) =
        (s.contactIndex.erase c.toSpan.key).entries.map
          (fun c => (c.contactElt, (entryValues c).withoutProb)) := by
      apply List.filter_eq_self.mpr
      intro p hpmem
      obtain ⟨d, hd, rfl⟩ := List.mem_map.mp hpmem
      have hnotin := (List.nodup_cons.mp helts).1
      exact decide_eq_true (fun he => hnotin (List.mem_map.mpr ⟨d, hd, he⟩))
    rw [List.map_cons, List.filter_cons_of_neg (by simp), hrest] at hfilter
    rw [AgreeButProb, deleteContact]
    rw [List.filter_map] at hfilter
    exact hfilter
  elts := h.elts.sublist (List.filter_sublist.map Prod.fst)
  elt_le r hr := h.elt_le r (List.mem_filter.mp hr).1

theorem insertRXref_lastObject (s : IonState) (now : Int) (r : IonRXref)
    (h : s.rangeIndex.lookup r.key = none) : (insertRXref s now r h).lastObject = s.lastObject := by
  obtain ⟨-, he⟩ | ⟨-, hk, he⟩ := insertRXref_cases s now r h <;> rw [he]
  · rfl
  · rfl

theorem addRange_lastObject (s : IonState) (now : Int) (span : Span) (owlt : Nat) (nextElt : Option IonRXref)
    (h : s.rangeIndex.lookup span.key = none) : s.lastObject ≤ (addRange s now span owlt nextElt h).1.lastObject := by
  cases hov : overlapsRange s.rangeIndex span nextElt with
  | true => rw [addRange_rejected hov]
  | false =>
    rw [addRange_accepted hov, insertRXref_lastObject (recordRange s span owlt) now (newRange s span owlt) h]
    exact Nat.le_succ _

theorem insertRange_linked (h : Linked s) (now : Int) (span : Span) (owlt : Nat) :
    Linked (insertRange s now span owlt).1 := by
  apply h.same (insertRange_sameContacts s now span owlt)
  obtain ⟨r, -, -, he⟩ | ⟨r, hr, -, he⟩ | ⟨hk, he⟩ := insertRange_cases s now span owlt <;> rw [he]
  · exact addRange_lastObject (dropImputed s r) now span owlt none (lookup_dropImputed hr)
  · exact addRange_lastObject s now span owlt _ hk

theorem deleteRange_linked (h : Linked s) (now : Int) (r : IonRXref) (conditional : Bool) :
    Linked (deleteRange s now r conditional) := by
  unfold deleteRange
  split
  · exact h
  · exact h.same ⟨rfl, rfl, rfl, rfl⟩ (le_refl s.lastObject)

theorem edit_linked {call : Int × Edit} (h : Linked s) (he : edit s call = some t) : Linked t :=
  edit_preserves Linked (fun _ now span xmitRate prob hk h _ => addContact_linked h now span xmitRate prob hk)
    (fun _ now c h hc => deleteContact_linked h now c hc) (fun _ now span owlt h => insertRange_linked h now span owlt)
    (fun _ now r conditional h _ => deleteRange_linked h now r conditional) h he

/-- Entries have no probability and records have one, so they agree only where there are none. -/
theorem agree_iff_empty (hl : Linked s) (hr : Recorded s) :
    ContactsAgree s ↔ s.contactIndex = SortedIndex.empty := by
  constructor
  · intro h
    apply SortedIndex.ext_mem
    intro c
    apply iff_of_false _ (SortedIndex.not_mem_empty c)
    intro hc
    have hmem : (c.contactElt, entryValues c) ∈ s.contacts.map (fun r => (r.1, recordValues r.2)) :=
      h.mem_iff.mp (List.mem_map.mpr ⟨c, hc, rfl⟩)
    obtain ⟨r, hrec, he⟩ := List.mem_map.mp hmem
    have hprob : r.2.prob = c.prob := congrArg (fun p => Assertion.prob p.2) he
    have hpos := hr.prob_pos r hrec
    rw [hprob, hr.prob_unset c hc] at hpos
    exact lt_irrefl _ hpos
  · intro hempty
    have hagree := hl.agree
    rw [AgreeButProb, hempty] at hagree
    have hnil : s.contacts = [] := List.map_eq_nil_iff.mp hagree.symm.eq_nil
    rw [ContactsAgree, hempty, hnil]
    exact List.Perm.refl _

/-- An insertion of a contact whose arguments pass the checks. -/
def Admitted (call : Int × Edit) : Prop :=
  match call.2 with
  | .insertContact fromTime toTime fromNode toNode _ prob =>
    (Span.check fromTime toTime fromNode toNode).isSome ∧ 0 < prob ∧ prob ≤ 1
  | .removeContact .. => False
  | .insertRange .. => False
  | .removeRange .. => False

instance (call : Int × Edit) : Decidable (Admitted call) := by
  unfold Admitted
  split <;> infer_instance

/-- Into an empty index every admitted contact goes. -/
theorem insertContact_of_empty (hempty : s.contactIndex = SortedIndex.empty) (now : Int) (span : Span)
    (xmitRate : Nat) (prob : ℚ) : (insertContact s now span xmitRate prob).1.contactIndex ≠ SortedIndex.empty := by
  have hnone : s.contactIndex.lookup span.key = none := by
    rw [hempty]
    rfl
  obtain ⟨c, hc, -⟩ | ⟨-, hov, -⟩ | ⟨hk, -, he⟩ := insertContact_cases s now span xmitRate prob
  · rw [hnone] at hc
    cases hc
  · have hapart : ContactsApart s.contactIndex := by
      rw [hempty]
      exact IntervalIndex.separated_empty
    obtain ⟨c, hc, -⟩ := (overlapsContact_iff hapart hnone).mp hov
    rw [hempty] at hc
    exact absurd hc (SortedIndex.not_mem_empty c)
  · rw [he]
    intro hnil
    have hmem : contactEntry s span xmitRate (s.lastObject + 1) ∈
        (addContact s now span xmitRate prob hk).1.contactIndex := SortedIndex.mem_insert_self _ _ hk
    rw [hnil] at hmem
    exact SortedIndex.not_mem_empty _ hmem

theorem edit_empty_iff {call : Int × Edit} (hempty : s.contactIndex = SortedIndex.empty)
    (he : edit s call = some t) : t.contactIndex = SortedIndex.empty ↔ ¬ Admitted call := by
  obtain ⟨now, e⟩ := call
  cases e with
  | insertContact fromTime toTime fromNode toNode xmitRate prob =>
    rw [← Option.some.inj he]
    by_cases hadm : Admitted (now, .insertContact fromTime toTime fromNode toNode xmitRate prob)
    · obtain ⟨span, hspan⟩ := Option.isSome_iff_exists.mp hadm.1
      rw [rfxInsertContact_of_check hspan hadm.2]
      exact iff_of_false (insertContact_of_empty hempty now span xmitRate prob) (not_not_intro hadm)
    · obtain hr | ⟨span, hspan, hpos, hle, -⟩ :=
        rfxInsertContact_cases s now fromTime toTime fromNode toNode xmitRate prob
      · rw [hr]
        exact iff_of_true hempty hadm
      · exact absurd ⟨Option.isSome_iff_exists.mpr ⟨span, hspan⟩, hpos, hle⟩ hadm
  | removeContact fromTime fromNode toNode =>
    obtain ⟨u, hu, hnil⟩ := rfxRemoveContact_spec (fun s => s.contactIndex = SortedIndex.empty) now fromTime
      fromNode toNode (fun s c h hc _ => absurd (h ▸ hc) (SortedIndex.not_mem_empty c)) s hempty
    rw [show rfxRemoveContact s now fromTime fromNode toNode = some t from he] at hu
    exact iff_of_true (Option.some.inj hu ▸ hnil) id
  | insertRange fromTime toTime fromNode toNode owlt =>
    rw [← Option.some.inj he, (rfxInsertRange_sameContacts s now fromTime toTime fromNode toNode owlt).contactIndex]
    exact iff_of_true hempty id
  | removeRange fromTime fromNode toNode =>
    have hnil : t.contactIndex = SortedIndex.empty := by
      apply rfxRemoveRange_preserves (fun s => s.contactIndex = SortedIndex.empty) now fromTime fromNode toNode
        _ s t hempty he
      intro s r conditional h _
      unfold deleteRange
      split <;> exact h
    exact iff_of_true hnil id

/-- In every state that edits can lead to, the values asserted are on record and all but the
probability are in the index, so no insertion installs what was asserted; and entries and
records agree throughout a run exactly if it comes to no insertion that passes the checks. -/
theorem insertContact_never_installs (s : IonState) (hunused : Unused s) (calls : List (Int × Edit)) :
    (∀ t, Runs.run edit s calls = some t → AgreeButProb t ∧
      ∀ now a, (insertAsserted t now a).2 ≠ 0 →
        ¬ Installs t (insertAsserted t now a).1 a (insertAsserted t now a).2) ∧
    (Runs.Throughout edit ContactsAgree s calls ↔ Runs.StepsMeet edit (fun _ call => ¬ Admitted call) s calls) := by
  have hkeep : ∀ s call t, Linked s ∧ Recorded s → edit s call = some t → Linked t ∧ Recorded t :=
    fun _ _ _ h he => ⟨edit_linked h.1 he, edit_recorded h.2 he⟩
  have hstart : Linked s ∧ Recorded s := ⟨Linked.of_unused hunused, hunused.recorded⟩
  constructor
  · intro t hrun
    have ht := Runs.run_invariant hkeep calls s t hstart hrun
    refine ⟨ht.1.agree, ?_⟩
    intro now a haddr hinst
    obtain ⟨c, hc, -, hvalues⟩ := hinst.entry
    have hrec : Recorded (insertAsserted t now a).1 := edit_recorded ht.2
      (show edit t (now, .insertContact a.fromTime a.toTime a.fromNode a.toNode a.xmitRate a.prob) =
        some (insertAsserted t now a).1 from rfl)
    have hpos : 0 < a.prob := by
      obtain hr | ⟨-, -, hpos, -, -⟩ :=
        rfxInsertContact_cases t now a.fromTime a.toTime a.fromNode a.toNode a.xmitRate a.prob
      · exact absurd (congrArg Prod.snd hr) haddr
      · exact hpos
    have hzero : c.prob = 0 := hrec.prob_unset c hc
    rw [← hvalues] at hpos
    exact absurd hzero (ne_of_gt hpos)
  · apply Runs.throughout_iff hkeep
    · intro s call t hI hagree he
      rw [agree_iff_empty (hkeep s call t hI he).1 (hkeep s call t hI he).2]
      exact edit_empty_iff ((agree_iff_empty hI.1 hI.2).mp hagree) he
    · intro s call hnone hadm
      obtain ⟨now, e⟩ := call
      cases e with
      | insertContact fromTime toTime fromNode toNode xmitRate prob => cases hnone
      | removeContact fromTime fromNode toNode => exact hadm
      | insertRange fromTime toTime fromNode toNode owlt => exact hadm
      | removeRange fromTime fromNode toNode => exact hadm
    · exact hstart
    · exact (agree_iff_empty hstart.1 hstart.2).mpr hunused.contactIndex

theorem insertContact_never_installs_from_start :
    (∀ t, Runs.run edit (ionInitialize 1) [(0, .insertContact 10 20 1 2 100 (9 / 10))] = some t → AgreeButProb t ∧
      ∀ now a, (insertAsserted t now a).2 ≠ 0 →
        ¬ Installs t (insertAsserted t now a).1 a (insertAsserted t now a).2) ∧
    (Runs.Throughout edit ContactsAgree (ionInitialize 1) [(0, .insertContact 10 20 1 2 100 (9 / 10))] ↔
      Runs.StepsMeet edit (fun _ call => ¬ Admitted call) (ionInitialize 1)
        [(0, .insertContact 10 20 1 2 100 (9 / 10))]) :=
  insertContact_never_installs (ionInitialize 1) ⟨⟨rfl, rfl, rfl⟩, rfl, rfl⟩ _

/-- The entry lacks the probability; asserted again with a later end, the contact is taken
for present and keeps the end it had. -/
theorem insertContact_not_installed : ∃ t, insertAsserted (ionInitialize 1) 0 ⟨10, 20, 1, 2, 100, 1⟩ = (t, 1) ∧
    ¬ Installs (ionInitialize 1) t ⟨10, 20, 1, 2, 100, 1⟩ 1 ∧ ¬ ContactsAgree t ∧
    insertAsserted t 5 ⟨10, 30, 1, 2, 100, 1⟩ = (t, 1) ∧
    t.contactIndex.entries.map entryValues = [⟨10, 20, 1, 2, 100, 0⟩] := by
  refine ⟨_, rfl, ?_, by decide, by decide, by decide⟩
  intro h
  obtain ⟨c, hc, -, he⟩ := h.entry
  have hmem : entryValues c ∈ [(⟨10, 20, 1, 2, 100, 0⟩ : Assertion)] := List.mem_map_of_mem hc
  rw [he] at hmem
  exact absurd hmem (by decide)

end ContactRecords
