import CgrJni.Dijkstra

/-!
The search is an earliest-arrival search: it ends, it finds a route whenever
there is one, and the route it finds arrives first.
-/

namespace DijkstraCorrect

open IonDb Libcgr Dijkstra EarliestArrival

/-- A contact that the search may use for its payload class. -/
def Usable (s : IonState) (q : Query) (suppressed : IonCXref → Bool) (c : IonCXref) : Prop :=
  c ∈ s.contactIndex ∧ suppressed c = false ∧ minCapacity q.payloadClass ≤ contactCapacity c

instance (s : IonState) (q : Query) (suppressed : IonCXref → Bool) (c : IonCXref) :
    Decidable (Usable s q suppressed c) := inferInstanceAs (Decidable (_ ∧ _))

/-- Going on to a contact at a time: it must leave the node reached and still be open. -/
def network (s : IonState) (q : Query) (suppressed : IonCXref → Bool) : Network IonCXref Int where
  start := q.currentTime
  step u c t :=
    if Usable s q suppressed c ∧ c.fromNode = toNodeOf s u ∧ t < c.toTime then
      (getApplicableRange s c).map (fun owlt => transmitTime c t + owltWithMargin owlt)
    else none

def predOf : CXrefPtr → Option (Option IonCXref)
  | .null => none
  | .rootContact => some none
  | .entry c => some (some c)

/-- The labels that the work areas amount to. -/
def labels (s : IonState) (notes : Notes) : Labels IonCXref Int where
  dist c := if c ∈ s.contactIndex then (notes c).arrivalTime else maxTime
  pred c := predOf (notes c).predecessor
  done c := decide (c ∈ s.contactIndex) && (notes c).visited

/-- What the search leaves alone, or computes once, in the work areas. -/
structure NotesOk (s : IonState) (suppressed : IonCXref → Bool) (notes : Notes) : Prop where
  suppressed_eq : ∀ c ∈ s.contactIndex, (notes c).suppressed = suppressed c
  capacity_eq : ∀ c ∈ s.contactIndex, (notes c).capacity = 0 ∨ (notes c).capacity = contactCapacity c
  capacity_labelled : ∀ c ∈ s.contactIndex, (notes c).arrivalTime < maxTime →
    (notes c).capacity = contactCapacity c

variable {s : IonState} {q : Query} {suppressed : IonCXref → Bool}

/-- A capacity is computed when it is not known, and is then the same as when it was. -/
theorem NotesOk.noted_capacity {notes : Notes} {c : IonCXref} (h : NotesOk s suppressed notes) (hc : c ∈ s.contactIndex) :
    (if (notes c).capacity = 0 then contactCapacity c else (notes c).capacity) = contactCapacity c := by
  cases h.capacity_eq c hc with
  | inl h0 => rw [if_pos h0]
  | inr h0 =>
    rw [h0]
    split <;> rfl

theorem transmitTime_eq (c : IonCXref) (t : Int) : transmitTime c t = max c.fromTime t := by
  unfold transmitTime
  split <;> omega

theorem step_eq_some {u : Option IonCXref} {c : IonCXref} {t a : Int} :
    (network s q suppressed).step u c t = some a ↔ Usable s q suppressed c ∧ c.fromNode = toNodeOf s u ∧
      t < c.toTime ∧ ∃ owlt, getApplicableRange s c = some owlt ∧
        a = transmitTime c t + owltWithMargin owlt := by
  simp only [network]
  split
  · rename_i h
    simp only [h, true_and, Option.map_eq_some_iff, eq_comm (a := a)]
  · rename_i h
    simp only [reduceCtorEq, false_iff]
    rintro ⟨h1, h2, h3, -⟩
    exact h ⟨h1, h2, h3⟩

theorem step_leaves {u : Option IonCXref} {c : IonCXref} {t a : Int} (h : (network s q suppressed).step u c t = some a) :
    c ∈ s.contactIndex ∧ c.fromNode = toNodeOf s u := by
  obtain ⟨hu, hfrom, -⟩ := step_eq_some.mp h
  exact ⟨hu.1, hfrom⟩

theorem network_fifo : Fifo (network s q suppressed) where
  le_step u c t a h := by
    obtain ⟨-, -, -, owlt, -, rfl⟩ := step_eq_some.mp h
    rw [transmitTime_eq]
    omega
  step_mono u c t t' a h hle := by
    obtain ⟨hu, hn, ht, owlt, hr, rfl⟩ := step_eq_some.mp h
    refine ⟨_, step_eq_some.mpr ⟨hu, hn, by omega, owlt, hr, rfl⟩, ?_⟩
    rw [transmitTime_eq, transmitTime_eq]
    omega

theorem labels_time {cur : Option IonCXref} (hcur : ∀ c, cur = some c → c ∈ s.contactIndex) (notes : Notes) :
    (labels s notes).time (network s q suppressed) cur = arrivalOf q notes cur := by
  cases cur with
  | none => rfl
  | some c => exact if_pos (hcur c rfl)

@[simp] theorem predOf_ptrOf (u : Option IonCXref) : predOf (ptrOf u) = some u := by
  cases u <;> rfl

theorem set_apply (notes : Notes) (c d : IonCXref) (work : CgrContactNote) :
    Notes.set notes c work d = if d = c then work else notes d := Function.update_apply notes c work d

/-- A change of one note changes one label. -/
theorem labels_set (notes : Notes) (c : IonCXref) (work : CgrContactNote) :
    labels s (Notes.set notes c work) =
      { dist := Function.update (labels s notes).dist c (if c ∈ s.contactIndex then work.arrivalTime else maxTime)
        pred := Function.update (labels s notes).pred c (predOf work.predecessor)
        done := Function.update (labels s notes).done c (decide (c ∈ s.contactIndex) && work.visited) } := by
  unfold labels
  congr 1 <;> funext d <;> by_cases hd : d = c
  · simp only [set_apply, hd, if_true, Function.update_self]
  · simp only [set_apply, hd, if_false, Function.update_of_ne hd]
  · simp only [set_apply, hd, if_true, Function.update_self]
  · simp only [set_apply, hd, if_false, Function.update_of_ne hd]
  · simp only [set_apply, hd, if_true, Function.update_self]
  · simp only [set_apply, hd, if_false, Function.update_of_ne hd]

/-- The capacity in a note is invisible in the labels. -/
theorem labels_set_capacity (notes : Notes) (c : IonCXref) (n : Nat) :
    labels s (Notes.set notes c { notes c with capacity := n }) = labels s notes := by
  rw [labels_set]
  exact Labels.ext (Function.update_eq_self c _) (Function.update_eq_self c _)
    (Function.update_eq_self c _)

/-- Noting an arrival is relaxation. -/
theorem labels_set_arrival {notes : Notes} {c : IonCXref} (hc : c ∈ s.contactIndex)
    (current : Option IonCXref) {a : Int} (h : a < (notes c).arrivalTime) :
    labels s (Notes.set notes c { notes c with arrivalTime := a, predecessor := ptrOf current }) =
      relax (labels s notes) current c a := by
  have hdist : (labels s notes).dist c = (notes c).arrivalTime := if_pos hc
  have hlt : a < (labels s notes).dist c := by rw [hdist]; exact h
  rw [labels_set, relax, if_pos hlt, if_pos hc, predOf_ptrOf]
  exact Labels.ext rfl rfl (Function.update_eq_self c _)

theorem labels_markVisited {cur : Option IonCXref} (hcur : ∀ c, cur = some c → c ∈ s.contactIndex)
    (notes : Notes) : labels s (markVisited notes cur) = settle (labels s notes) cur := by
  cases cur with
  | none => rfl
  | some c =>
    have hc := hcur c rfl
    rw [markVisited, labels_set, if_pos hc, decide_eq_true hc]
    have hd : (notes c).arrivalTime = (labels s notes).dist c := (if_pos hc).symm
    rw [hd]
    exact Labels.ext (Function.update_eq_self c _) (Function.update_eq_self c _) rfl

theorem NotesOk.set {notes : Notes} (h : NotesOk s suppressed notes) {c : IonCXref} {work : CgrContactNote}
    (hs : c ∈ s.contactIndex → work.suppressed = suppressed c)
    (hcap : c ∈ s.contactIndex → work.capacity = contactCapacity c) :
    NotesOk s suppressed (Notes.set notes c work) where
  suppressed_eq d hd := by
    rw [set_apply]
    split
    · rename_i he
      subst he
      exact hs hd
    · exact h.suppressed_eq d hd
  capacity_eq d hd := by
    rw [set_apply]
    split
    · rename_i he
      subst he
      exact Or.inr (hcap hd)
    · exact h.capacity_eq d hd
  capacity_labelled d hd hlt := by
    rw [set_apply] at hlt ⊢
    split
    · rename_i he
      subst he
      exact hcap hd
    · rename_i he
      rw [if_neg he] at hlt
      exact h.capacity_labelled d hd hlt

/-- The state of the search while the contacts after `cur` are considered. -/
structure Searching (s : IonState) (q : Query) (suppressed : IonCXref → Bool) (st : Search)
    (cur : Option IonCXref) (seen : IonCXref → Prop) : Prop where
  inv : Inv (network s q suppressed) maxTime (labels s st.notes) cur seen
  best : Best (fun c => c.toNode = q.terminusNodeNbr) maxTime (labels s st.notes)
    st.earliestFinalArrivalTime st.finalContact
  notes : NotesOk s suppressed st.notes
  cur_mem : ∀ c, cur = some c → c ∈ s.contactIndex

variable {st : Search} {cur : Option IonCXref} {seen : IonCXref → Prop}

theorem Searching.time (h : Searching s q suppressed st cur seen) :
    (labels s st.notes).time (network s q suppressed) cur = arrivalOf q st.notes cur :=
  labels_time h.cur_mem st.notes

/-- What considering a contact makes of the labels is what trying the step to it makes of them. -/
def Tries (s : IonState) (q : Query) (suppressed : IonCXref → Bool) (st : Search) (cur : Option IonCXref)
    (c : IonCXref) (st' : Search) : Prop :=
  Attempt (network s q suppressed) (fun d => d.toNode = q.terminusNodeNbr) (labels s st.notes)
    st.earliestFinalArrivalTime st.finalContact cur c (labels s st'.notes) st'.earliestFinalArrivalTime
    st'.finalContact

/-- A contact that cannot be gone on to needs no further attention. -/
theorem Searching.skip (h : Searching s q suppressed st cur seen) {c : IonCXref}
    (hno : ∀ a, (network s q suppressed).step cur c (arrivalOf q st.notes cur) = some a →
      (labels s st.notes).dist c ≤ a) : Tries s q suppressed st cur c st :=
  Attempt.useless (fun a ha => hno a (h.time ▸ ha))

theorem Searching.noteArrival (h : Searching s q suppressed st cur seen) {c : IonCXref}
    (hc : c ∈ s.contactIndex) {a : Int} (hcap : (st.notes c).capacity = contactCapacity c)
    (hstep : (network s q suppressed).step cur c (arrivalOf q st.notes cur) = some a) :
    Tries s q suppressed st cur c (noteArrival q cur st c a) ∧
      NotesOk s suppressed (noteArrival q cur st c a).notes := by
  have hdist : (labels s st.notes).dist c = (st.notes c).arrivalTime := if_pos hc
  have hstep' : (network s q suppressed).step cur c ((labels s st.notes).time (network s q suppressed) cur) =
      some a := by
    rw [h.time]
    exact hstep
  unfold Dijkstra.noteArrival
  by_cases hlt : a < (st.notes c).arrivalTime
  · rw [if_pos hlt]
    have hlt' : a < (labels s st.notes).dist c := by
      rw [hdist]
      exact hlt
    have hset := labels_set_arrival hc cur hlt
    have hnotes : NotesOk s suppressed (Notes.set st.notes c
        { st.notes c with arrivalTime := a, predecessor := ptrOf cur }) :=
      h.notes.set (fun hd => h.notes.suppressed_eq c hd) (fun _ => hcap)
    unfold Tries
    by_cases hbest : c.toNode = q.terminusNodeNbr ∧ a < st.earliestFinalArrivalTime
    · rw [if_pos hbest, hset]
      exact ⟨Attempt.best hstep' hlt' hbest.1 hbest.2, hnotes⟩
    · rw [if_neg hbest, hset]
      exact ⟨Attempt.better hstep' hlt' (fun ht => not_lt.mp (fun hl => hbest ⟨ht, hl⟩)), hnotes⟩
  · rw [if_neg hlt]
    refine ⟨h.skip (fun b hb => ?_), h.notes⟩
    rw [hstep] at hb
    rw [hdist, ← Option.some.inj hb]
    exact not_lt.mp hlt

/-- Considering a contact that leaves the node reached is trying the step to it. -/
theorem Searching.tries (h : Searching s q suppressed st cur seen) {c : IonCXref}
    (hc : c ∈ s.contactIndex) (hfrom : c.fromNode = toNodeOf s cur) :
    Tries s q suppressed st cur c (considerContact s q cur st c) ∧
      NotesOk s suppressed (considerContact s q cur st c).notes := by
  unfold Dijkstra.considerContact
  by_cases hopen : c.toTime ≤ arrivalOf q st.notes cur
  · rw [if_pos hopen]
    refine ⟨h.skip (fun a ha => ?_), h.notes⟩
    have ht := (step_eq_some.mp ha).2.2.1
    omega
  rw [if_neg hopen]
  by_cases hsup : (st.notes c).suppressed = true
  · rw [if_pos hsup]
    refine ⟨h.skip (fun a ha => ?_), h.notes⟩
    have hu := (step_eq_some.mp ha).1.2.1
    rw [← h.notes.suppressed_eq c hc, hsup] at hu
    cases hu
  rw [if_neg hsup]
  by_cases hvis : (st.notes c).visited = true
  · rw [if_pos hvis]
    refine ⟨h.skip (fun a ha => ?_), h.notes⟩
    have hdone : (labels s st.notes).done c = true := by
      simp only [labels, hc, hvis, decide_true, Bool.and_self]
    have hle := h.inv.done_le c hdone
    rw [h.time] at hle
    exact hle.trans (network_fifo.le_step _ _ _ _ ha)
  rw [if_neg hvis]
  have hsf : (st.notes c).suppressed = false := by simpa using hsup
  simp only [h.notes.noted_capacity hc]
  -- the capacity has been noted; the labels have not changed
  have hlab := labels_set_capacity (s := s) st.notes c (contactCapacity c)
  have h' : Searching s q suppressed
      { st with notes := (Notes.set st.notes c { st.notes c with capacity := contactCapacity c }) } cur seen :=
    ⟨hlab ▸ h.inv, hlab ▸ h.best, h.notes.set (fun hd => h.notes.suppressed_eq c hd) (fun _ => rfl), h.cur_mem⟩
  have hself : (Notes.set st.notes c { st.notes c with capacity := contactCapacity c } c).capacity =
      contactCapacity c := by
    rw [set_apply, if_pos rfl]
  have harr : arrivalOf q (Notes.set st.notes c { st.notes c with capacity := contactCapacity c }) cur =
      arrivalOf q st.notes cur := by
    have ht := h'.time
    rw [hlab, h.time] at ht
    exact ht.symm
  unfold Tries
  rw [← hlab]
  by_cases hfloor : contactCapacity c < minCapacity q.payloadClass
  · rw [if_pos hfloor]
    refine ⟨h'.skip (fun a ha => ?_), h'.notes⟩
    have hu := (step_eq_some.mp ha).1.2.2
    omega
  rw [if_neg hfloor]
  have husable : Usable s q suppressed c :=
    ⟨hc, (h.notes.suppressed_eq c hc).symm.trans hsf, not_lt.mp hfloor⟩
  cases hr : getApplicableRange s c with
  | none =>
    refine ⟨h'.skip (fun a ha => ?_), h'.notes⟩
    obtain ⟨-, -, -, owlt, ho, -⟩ := step_eq_some.mp ha
    rw [hr] at ho
    cases ho
  | some owlt =>
    refine h'.noteArrival hc hself ?_
    simp only [harr]
    exact step_eq_some.mpr ⟨husable, hfrom, not_le.mp hopen, owlt, hr, rfl⟩

theorem Searching.considerContact (h : Searching s q suppressed st cur seen) {c : IonCXref}
    (hc : c ∈ s.contactIndex) (hfrom : c.fromNode = toNodeOf s cur) :
    Searching s q suppressed (considerContact s q cur st c) cur (fun d => seen d ∨ d = c) := by
  obtain ⟨htries, hnotes⟩ := h.tries hc hfrom
  exact ⟨h.inv.attempt network_fifo htries, h.best.attempt h.inv htries, hnotes, h.cur_mem⟩

theorem wildKey_lt_contact {n : Nat} {c : IonCXref} :
    wildKey n 0 < IntervalIndex.key IonCXref.pair (fun c => c.fromTime) c ↔ n ≤ c.fromNode := by
  have hto := c.toNode_ne
  rw [wildKey, IntervalIndex.lt_key_iff]
  simp only [IonCXref.pair, Span.pair, Prod.Lex.toLex_lt_toLex, EmbeddingLike.apply_eq_iff_eq, Prod.mk.injEq]
  omega

/-- The traversal meets exactly the contacts that leave the node. -/
theorem mem_nextContacts {n : Nat} {c : IonCXref} :
    c ∈ nextContacts s n ↔ c ∈ s.contactIndex ∧ c.fromNode = n := by
  rw [nextContacts, SortedIndex.scan_of_absent (contacts_absent_wildKey s.contactIndex n 0),
    SortedIndex.takeWhile_eq_filter (s.contactIndex.above_sorted _), List.mem_filter, SortedIndex.mem_above,
    wildKey_lt_contact, decide_eq_true_eq]
  · constructor
    · rintro ⟨⟨hc, hle⟩, hge⟩
      exact ⟨hc, by omega⟩
    · rintro ⟨hc, rfl⟩
      exact ⟨⟨hc, le_rfl⟩, le_rfl⟩
  · intro x y hxy hy
    have hle := IntervalIndex.grp_le_of_key_le hxy.le
    rw [decide_eq_true_eq] at hy ⊢
    simp only [IonCXref.pair, Span.pair, Prod.Lex.toLex_le_toLex] at hle
    omega

theorem Searching.foldl (h : Searching s q suppressed st cur seen) (l : List IonCXref)
    (hl : ∀ c ∈ l, c ∈ s.contactIndex ∧ c.fromNode = toNodeOf s cur) :
    Searching s q suppressed (l.foldl (Dijkstra.considerContact s q cur) st) cur
      (fun d => seen d ∨ d ∈ l) := by
  induction l generalizing st seen with
  | nil => simpa using h
  | cons c rest ih =>
    obtain ⟨hc, hfrom⟩ := hl c List.mem_cons_self
    have hrest := ih (h.considerContact hc hfrom) (fun d hd => hl d (List.mem_cons_of_mem _ hd))
    simpa only [List.foldl_cons, List.mem_cons, or_assoc] using hrest

/-- After a visit every step from the current contact has been tried, and it counts as visited. -/
structure Visited (s : IonState) (q : Query) (suppressed : IonCXref → Bool) (st : Search)
    (cur : Option IonCXref) (notes : Notes) : Prop where
  inv : Inv (network s q suppressed) maxTime (labels s notes) cur
    (fun d => d ∈ s.contactIndex ∧ d.fromNode = toNodeOf s cur)
  labels_eq : labels s st.notes = settle (labels s notes) cur
  best : Best (fun c => c.toNode = q.terminusNodeNbr) maxTime (labels s st.notes)
    st.earliestFinalArrivalTime st.finalContact
  notes : NotesOk s suppressed st.notes

theorem NotesOk.markVisited {notes : Notes} (h : NotesOk s suppressed notes) :
    NotesOk s suppressed (markVisited notes cur) := by
  cases cur with
  | none => exact h
  | some c =>
    have hsame : ∀ d, (Dijkstra.markVisited notes (some c) d).suppressed = (notes d).suppressed ∧
        (Dijkstra.markVisited notes (some c) d).capacity = (notes d).capacity ∧
        (Dijkstra.markVisited notes (some c) d).arrivalTime = (notes d).arrivalTime := by
      intro d
      rw [Dijkstra.markVisited, set_apply]
      split
      · rename_i he
        rw [he]
        exact ⟨rfl, rfl, rfl⟩
      · exact ⟨rfl, rfl, rfl⟩
    refine ⟨fun d hd => ?_, fun d hd => ?_, fun d hd hlt => ?_⟩
    · rw [(hsame d).1]
      exact h.suppressed_eq d hd
    · rw [(hsame d).2.1]
      exact h.capacity_eq d hd
    · rw [(hsame d).2.2] at hlt
      rw [(hsame d).2.1]
      exact h.capacity_labelled d hd hlt

theorem Searching.visited (h : Searching s q suppressed st cur (fun _ => False)) :
    Visited s q suppressed (visit s q cur st) cur
      ((nextContacts s (toNodeOf s cur)).foldl (Dijkstra.considerContact s q cur) st).notes := by
  have hf := h.foldl (nextContacts s (toNodeOf s cur)) (fun c hc => mem_nextContacts.mp hc)
  have hlab := labels_markVisited hf.cur_mem
    ((nextContacts s (toNodeOf s cur)).foldl (Dijkstra.considerContact s q cur) st).notes
  refine ⟨?_, hlab, hf.best.of_dist ((congrArg Labels.dist hlab).trans (settle_dist _ _)), hf.notes.markVisited⟩
  simpa only [false_or, mem_nextContacts] using hf.inv

theorem Searching.visit (h : Searching s q suppressed st cur (fun _ => False)) :
    ∃ notes, Visited s q suppressed (visit s q cur st) cur notes := ⟨_, h.visited⟩

/-- What the scan for the next contact has found among the contacts passed. -/
structure Selected (st : Search) (l : List IonCXref) (best : Option IonCXref × Int) : Prop where
  none_eligible : best.1 = none → best.2 = maxTime
  chosen : ∀ w, best.1 = some w → w ∈ l ∧ (st.notes w).visited = false ∧ (st.notes w).arrivalTime = best.2 ∧
    best.2 < maxTime ∧ best.2 ≤ st.earliestFinalArrivalTime
  least : ∀ c ∈ l, (st.notes c).suppressed = false → (st.notes c).visited = false →
    (st.notes c).arrivalTime ≤ st.earliestFinalArrivalTime → best.2 ≤ (st.notes c).arrivalTime

theorem Selected.step {l : List IonCXref} {best : Option IonCXref × Int} (h : Selected st l best)
    (hmax : best.2 ≤ maxTime) (c : IonCXref) :
    Selected st (l ++ [c]) (selectContact st best c) ∧ (selectContact st best c).2 ≤ maxTime := by
  have hkeep : ((st.notes c).suppressed = false → (st.notes c).visited = false →
      (st.notes c).arrivalTime ≤ st.earliestFinalArrivalTime → best.2 ≤ (st.notes c).arrivalTime) →
      Selected st (l ++ [c]) best := by
    intro hc
    refine ⟨h.none_eligible, fun w hw => ?_, fun d hd => ?_⟩
    · obtain ⟨hm, hrest⟩ := h.chosen w hw
      exact ⟨List.mem_append_left _ hm, hrest⟩
    · cases List.mem_append.mp hd with
      | inl hd => exact h.least d hd
      | inr hd =>
        rw [List.mem_singleton.mp hd]
        exact hc
  unfold selectContact
  by_cases h1 : (st.notes c).suppressed = true ∨ (st.notes c).visited = true
  · simp only [if_pos h1]
    refine ⟨hkeep (fun hs hv => ?_), hmax⟩
    rw [hs, hv] at h1
    simp at h1
  · simp only [if_neg h1]
    by_cases h2 : st.earliestFinalArrivalTime < (st.notes c).arrivalTime
    · simp only [if_pos h2]
      exact ⟨hkeep (fun _ _ hle => by omega), hmax⟩
    · simp only [if_neg h2]
      by_cases h3 : (st.notes c).arrivalTime < best.2
      · simp only [if_pos h3]
        refine ⟨⟨by simp, fun w hw => ?_, fun d hd hs hv hle => ?_⟩, by omega⟩
        · obtain rfl := Option.some.inj hw
          have hv : (st.notes c).visited = false := by
            simpa using (not_or.mp h1).2
          exact ⟨by simp, hv, rfl, by omega, not_lt.mp h2⟩
        · cases List.mem_append.mp hd with
          | inl hd => exact h3.le.trans (h.least d hd hs hv hle)
          | inr hd => rw [List.mem_singleton.mp hd]
      · simp only [if_neg h3]
        exact ⟨hkeep (fun _ _ _ => not_lt.mp h3), hmax⟩

theorem selected_entries (st : Search) (l pre : List IonCXref) (best : Option IonCXref × Int)
    (h : Selected st pre best) (hmax : best.2 ≤ maxTime) :
    Selected st (pre ++ l) (l.foldl (selectContact st) best) := by
  induction l generalizing pre best with
  | nil => simpa using h
  | cons c rest ih =>
    obtain ⟨hs, hm⟩ := h.step hmax c
    have hr := ih (pre ++ [c]) (selectContact st best c) hs hm
    simpa using hr

/-- No contact is left, or the next is an unvisited one of least arrival, not after the best. -/
theorem selectNext_spec (s : IonState) (st : Search) :
    (selectNext s st = none ∧ ∀ c ∈ s.contactIndex, (st.notes c).suppressed = false →
      (st.notes c).visited = false → (st.notes c).arrivalTime < maxTime →
        st.earliestFinalArrivalTime < (st.notes c).arrivalTime) ∨
    ∃ w ∈ s.contactIndex, selectNext s st = some w ∧ (st.notes w).visited = false ∧
      (st.notes w).arrivalTime < maxTime ∧ ∀ c ∈ s.contactIndex, (st.notes c).suppressed = false →
        (st.notes c).visited = false → (st.notes w).arrivalTime ≤ (st.notes c).arrivalTime := by
  have hsel := selected_entries st s.contactIndex.entries [] (none, maxTime)
    ⟨fun _ => rfl, by simp, by simp⟩ le_rfl
  rw [List.nil_append] at hsel
  cases hn : selectNext s st with
  | none =>
    left
    refine ⟨rfl, fun c hc hs hv hlt => ?_⟩
    by_contra hle
    have := hsel.least c hc hs hv (not_lt.mp hle)
    rw [hsel.none_eligible hn] at this
    omega
  | some w =>
    right
    obtain ⟨hw, hv, he, hlt, hle⟩ := hsel.chosen w hn
    refine ⟨w, hw, rfl, hv, he ▸ hlt, fun c hc hs hcv => ?_⟩
    by_cases hbest : (st.notes c).arrivalTime ≤ st.earliestFinalArrivalTime
    · rw [he]
      exact hsel.least c hc hs hcv hbest
    · omega

theorem considerContact_visited (s : IonState) (q : Query) (cur : Option IonCXref) (st : Search)
    (c d : IonCXref) :
    ((Dijkstra.considerContact s q cur st c).notes d).visited = (st.notes d).visited := by
  have hset : ∀ (notes : Notes) (work : CgrContactNote), work.visited = (notes c).visited →
      (Notes.set notes c work d).visited = (notes d).visited := by
    intro notes work hw
    rw [set_apply]
    split
    · rename_i he
      rw [he, hw]
    · rfl
  have hnote : ∀ (st : Search) (a : Int),
      ((Dijkstra.noteArrival q cur st c a).notes d).visited = (st.notes d).visited := by
    intro st a
    unfold Dijkstra.noteArrival
    by_cases hlt : a < (st.notes c).arrivalTime
    · rw [if_pos hlt]
      by_cases hb : c.toNode = q.terminusNodeNbr ∧ a < st.earliestFinalArrivalTime
      · rw [if_pos hb]
        exact hset st.notes _ rfl
      · rw [if_neg hb]
        exact hset st.notes _ rfl
    · rw [if_neg hlt]
  unfold Dijkstra.considerContact
  by_cases hopen : c.toTime ≤ arrivalOf q st.notes cur
  · rw [if_pos hopen]
  rw [if_neg hopen]
  by_cases hsup : (st.notes c).suppressed = true
  · rw [if_pos hsup]
  rw [if_neg hsup]
  by_cases hvis : (st.notes c).visited = true
  · rw [if_pos hvis]
  rw [if_neg hvis]
  generalize (if (st.notes c).capacity = 0 then contactCapacity c else (st.notes c).capacity) = capacity
  by_cases hfloor : capacity < minCapacity q.payloadClass
  · rw [if_pos hfloor]
    exact hset st.notes _ rfl
  rw [if_neg hfloor]
  cases getApplicableRange s c with
  | none => exact hset st.notes _ rfl
  | some owlt => exact (hnote _ _).trans (hset st.notes _ rfl)

/-- A visit marks the current contact and no other. -/
theorem visit_visited (s : IonState) (q : Query) (cur : Option IonCXref) (st : Search) (d : IonCXref) :
    ((visit s q cur st).notes d).visited = (decide (cur = some d) || (st.notes d).visited) := by
  have hfold : ∀ l : List IonCXref, ∀ st : Search,
      ((l.foldl (Dijkstra.considerContact s q cur) st).notes d).visited = (st.notes d).visited := by
    intro l
    induction l with
    | nil => exact fun _ => rfl
    | cons c rest ih => exact fun st => (ih _).trans (considerContact_visited s q cur st c d)
  unfold Dijkstra.visit
  cases cur with
  | none => exact hfold _ st
  | some c =>
    simp only [Dijkstra.markVisited, set_apply]
    by_cases hd : d = c
    · simp [hd]
    · rw [if_neg hd, hfold, decide_eq_false (by simpa using Ne.symm hd), Bool.false_or]

/-- Contacts not yet visited, and the root if it is still to come. -/
def toVisit (s : IonState) (state : Option IonCXref × Search) : Nat :=
  (s.contactIndex.entries.filter (fun c => !(state.2.notes c).visited)).length +
    if state.1 = none then 1 else 0

theorem toVisit_lt {next : Option IonCXref} (hnext : next ≠ none)
    (hcur : ∀ c, cur = some c → c ∈ s.contactIndex ∧ (st.notes c).visited = false) :
    toVisit s (next, visit s q cur st) < toVisit s (cur, st) := by
  unfold toVisit
  simp only [if_neg hnext, visit_visited]
  cases cur with
  | none => simp
  | some c =>
    obtain ⟨hc, hv⟩ := hcur c rfl
    have hsub : s.contactIndex.entries.filter (fun d => !(decide (some c = some d) || (st.notes d).visited)) =
        (s.contactIndex.entries.filter (fun d => !(st.notes d).visited)).filter (fun d => d ≠ c) := by
      rw [List.filter_filter]
      refine List.filter_congr (fun d _ => ?_)
      simp [Bool.not_or, eq_comm (a := c)]
    rw [hsub]
    have hlt := List.length_filter_lt_length_iff_exists (p := fun d => decide (d ≠ c))
      (l := s.contactIndex.entries.filter (fun d => !(st.notes d).visited))
    simp only [reduceCtorEq, if_false, Nat.add_zero]
    exact hlt.mpr ⟨c, List.mem_filter.mpr ⟨hc, by simp [hv]⟩, by simp⟩

/-- A labelled contact is one that the search may use. -/
theorem usable_of_labelled {L : Labels IonCXref Int}
    (hI : Inv (network s q suppressed) maxTime L cur seen) {c : IonCXref} (h : L.dist c < maxTime) :
    Usable s q suppressed c := by
  obtain ⟨p, hp, -⟩ := hI.trail c h
  generalize hl : p ++ [c] = l at hp
  cases hp with
  | via _ _ hstep _ => exact (step_eq_some.mp hstep).1

theorem dist_of_mem {notes : Notes} {c : IonCXref} (hc : c ∈ s.contactIndex) :
    (labels s notes).dist c = (notes c).arrivalTime := if_pos hc

theorem Visited.dist_eq {notes : Notes} (h : Visited s q suppressed st cur notes) {c : IonCXref}
    (hc : c ∈ s.contactIndex) : (labels s notes).dist c = (st.notes c).arrivalTime := by
  have hdist : (labels s st.notes).dist c = (labels s notes).dist c := by rw [h.labels_eq, settle_dist]
  rw [← hdist, dist_of_mem hc]

/-- A labelled contact that is still open is one that the scan for the next contact considers. -/
theorem Visited.eligible {notes : Notes} (h : Visited s q suppressed st cur notes) {c : IonCXref}
    (hc : (settle (labels s notes) cur).done c = false) (hl : (labels s notes).dist c < maxTime) :
    c ∈ s.contactIndex ∧ (st.notes c).suppressed = false ∧ (st.notes c).visited = false := by
  have hu := usable_of_labelled h.inv hl
  rw [← h.labels_eq] at hc
  exact ⟨hu.1, (h.notes.suppressed_eq c hu.1).trans hu.2.1, by simpa [labels, hu.1] using hc⟩

/-- The contact selected is an open one of least label. -/
theorem Visited.next {notes : Notes} (h : Visited s q suppressed st cur notes) {w : IonCXref}
    (hsel : selectNext s st = some w) :
    w ∈ s.contactIndex ∧ (settle (labels s notes) cur).done w = false ∧ (labels s notes).dist w < maxTime ∧
      ∀ c, (settle (labels s notes) cur).done c = false → (labels s notes).dist c < maxTime →
        (labels s notes).dist w ≤ (labels s notes).dist c := by
  rcases selectNext_spec s st with ⟨hn, -⟩ | ⟨w', hw, hn, hvis, hlt, hmin⟩
  · rw [hsel] at hn
    cases hn
  obtain rfl := Option.some.inj (hsel.symm.trans hn)
  refine ⟨hw, by rw [← h.labels_eq]; simp [labels, hw, hvis], by rw [h.dist_eq hw]; exact hlt, ?_⟩
  intro c hc hcl
  obtain ⟨hm, hs, hv⟩ := h.eligible hc hcl
  rw [h.dist_eq hw, h.dist_eq hm]
  exact hmin c hm hs hv

/-- The next round starts from an unvisited contact of least arrival. -/
theorem Searching.next (h : Searching s q suppressed st cur (fun _ => False)) {w : IonCXref}
    (hsel : selectNext s (Dijkstra.visit s q cur st) = some w) :
    Searching s q suppressed (Dijkstra.visit s q cur st) (some w) (fun _ => False) := by
  obtain ⟨notes, hv⟩ := h.visit
  obtain ⟨hw, hopen, hlt, hmin⟩ := hv.next hsel
  have hinv := hv.inv.settle (fun _ _ ha => step_leaves ha) hopen hlt hmin
  rw [← hv.labels_eq] at hinv
  exact ⟨hinv, hv.best, hv.notes, fun c hc => Option.some.inj hc ▸ hw⟩

/-- The search is over: nothing unvisited could still be on a better route. -/
structure Finished (s : IonState) (q : Query) (suppressed : IonCXref → Bool) (st : Search) : Prop where
  visited : ∃ cur notes, Visited s q suppressed st cur notes
  no_better : ∀ c ∈ s.contactIndex, (st.notes c).suppressed = false → (st.notes c).visited = false →
    (st.notes c).arrivalTime < maxTime → st.earliestFinalArrivalTime < (st.notes c).arrivalTime

/-- A round that goes on has visited the contact and selected the next one. -/
theorem searchRound_inl {cur next : Option IonCXref} {st st' : Search}
    (hb : searchRound s q (cur, st) = .inl (next, st')) :
    ∃ w, selectNext s (Dijkstra.visit s q cur st) = some w ∧ next = some w ∧ st' = Dijkstra.visit s q cur st := by
  unfold searchRound at hb
  cases hsel : selectNext s (Dijkstra.visit s q cur st) with
  | none =>
    simp only [hsel] at hb
    cases hb
  | some w =>
    simp only [hsel, Sum.inl.injEq, Prod.mk.injEq] at hb
    exact ⟨w, rfl, hb.1.symm, hb.2.symm⟩

/-- The last round has visited the contact and found none to go on with. -/
theorem searchRound_inr {cur : Option IonCXref} {st st' : Search} (hb : searchRound s q (cur, st) = .inr st') :
    selectNext s (Dijkstra.visit s q cur st) = none ∧ st' = Dijkstra.visit s q cur st := by
  unfold searchRound at hb
  cases hsel : selectNext s (Dijkstra.visit s q cur st) with
  | some w =>
    simp only [hsel] at hb
    cases hb
  | none =>
    simp only [hsel, Sum.inr.injEq] at hb
    exact ⟨rfl, hb.symm⟩

theorem search_finishes (h : Searching s q suppressed st none (fun _ => False)) :
    ∃ st', Runs.loop (searchRound s q) (s.contactIndex.entries.length + 2) (none, st) = some st' ∧
      Finished s q suppressed st' := by
  refine Runs.loop_spec (fun state => Searching s q suppressed state.2 state.1 (fun _ => False))
    (Finished s q suppressed) (toVisit s) ?_ ?_ _ (none, st) h ?_
  · rintro ⟨cur, st⟩ ⟨next, st'⟩ hs hb
    obtain ⟨w, hsel, rfl, rfl⟩ := searchRound_inl hb
    refine ⟨hs.next hsel, toVisit_lt (by simp) (fun c hc => ?_)⟩
    have hc' := hs.cur_mem c hc
    have hd := (hs.inv.cur_open c hc).1
    exact ⟨hc', by simpa [labels, hc'] using hd⟩
  · rintro ⟨cur, st⟩ st' hs hb
    obtain ⟨hsel, rfl⟩ := searchRound_inr hb
    obtain ⟨notes, hv⟩ := hs.visit
    rcases selectNext_spec s (Dijkstra.visit s q cur st) with ⟨-, hno⟩ | ⟨w, -, hn, -⟩
    · exact ⟨⟨cur, notes, hv⟩, hno⟩
    · rw [hsel] at hn
      cases hn
  · unfold toVisit
    have hle := List.length_filter_le (fun c => !(st.notes c).visited) s.contactIndex.entries
    simp only [if_true]
    omega

/-- One contact after another from a node at a time: each leaves the node reached, is
usable, still open, and has an applicable range; `a` is the arrival after the last. -/
def FeasibleFrom (s : IonState) (usable : IonCXref → Prop) (latency : Nat → Nat) :
    Nat → Int → List IonCXref → Int → Prop
  | _, t, [], a => a = t
  | node, t, c :: rest, a => usable c ∧ c.fromNode = node ∧ t < c.toTime ∧
      ∃ owlt, getApplicableRange s c = some owlt ∧
        FeasibleFrom s usable latency c.toNode (max c.fromTime t + latency owlt) rest a

/-- A sequence of contacts from the local node to the terminus, and its arrival. -/
structure FeasibleWith (s : IonState) (q : Query) (usable : IonCXref → Prop) (latency : Nat → Nat)
    (cs : List IonCXref) (a : Int) : Prop where
  path : FeasibleFrom s usable latency s.ownNodeNbr q.currentTime cs a
  terminus : ∃ c, cs.getLast? = some c ∧ c.toNode = q.terminusNodeNbr
  in_time : a < maxTime

/-- Feasible with capacity and latency as the code's unsigned variables hold them. -/
abbrev Feasible (s : IonState) (q : Query) (suppressed : IonCXref → Bool) :=
  FeasibleWith s q (Usable s q suppressed) owltWithMargin

/-- Feasible with capacity and latency as unbounded integers. -/
abbrev FeasibleUnbounded (s : IonState) (q : Query) (suppressed : IonCXref → Bool) :=
  FeasibleWith s q
    (fun c => c ∈ s.contactIndex ∧ suppressed c = false ∧
      minCapacity q.payloadClass ≤ c.xmitRate * (c.toTime - c.fromTime).toNat)
    (fun owlt => owlt + owltMargin owlt)

theorem feasibleFrom_iff {u : Option IonCXref} {t a : Int} {cs : List IonCXref} :
    FeasibleFrom s (Usable s q suppressed) owltWithMargin (toNodeOf s u) t cs a ↔
      arrive (network s q suppressed) u t cs = some a := by
  induction cs generalizing u t with
  | nil => simp [FeasibleFrom, arrive, eq_comm]
  | cons c rest ih =>
    simp only [FeasibleFrom, arrive, Option.bind_eq_some_iff, step_eq_some, transmitTime_eq]
    constructor
    · rintro ⟨hu, hn, ht, owlt, hr, hrest⟩
      exact ⟨_, ⟨hu, hn, ht, owlt, hr, rfl⟩, ih.mp hrest⟩
    · rintro ⟨b, ⟨hu, hn, ht, owlt, hr, rfl⟩, hrest⟩
      exact ⟨hu, hn, ht, owlt, hr, ih.mpr hrest⟩

theorem endpoint_eq_getLast? {u : Option IonCXref} {cs : List IonCXref} {c : IonCXref}
    (h : cs.getLast? = some c) : endpoint u cs = some c := by
  obtain ⟨p, rfl⟩ := List.getLast?_eq_some_iff.mp h
  exact endpoint_concat u p c

/-- No feasible sequence arrives before the best arrival found. -/
theorem Finished.le_feasible (h : Finished s q suppressed st) {cs : List IonCXref} {a : Int}
    (hf : Feasible s q suppressed cs a) : st.earliestFinalArrivalTime ≤ a := by
  obtain ⟨cur, notes, hv⟩ := h.visited
  obtain ⟨c, hlast, hterm⟩ := hf.terminus
  have hpath := (feasibleFrom_iff (u := none)).mp hf.path
  obtain ⟨hsource, hrel⟩ := hv.inv.settled (fun _ _ ha => step_leaves ha)
  rw [← hv.labels_eq] at hsource hrel
  have hopen : ∀ d, (labels s st.notes).done d = false → (labels s st.notes).dist d < maxTime →
      st.earliestFinalArrivalTime < (labels s st.notes).dist d := by
    intro d hd hdl
    have hdist : (labels s st.notes).dist d = (labels s notes).dist d := by
      rw [hv.labels_eq, settle_dist]
    have hu := usable_of_labelled hv.inv (hdist ▸ hdl)
    have hdv : (st.notes d).visited = false := by
      simpa [labels, hu.1] using hd
    rw [dist_of_mem hu.1] at hdl ⊢
    exact h.no_better d hu.1 ((hv.notes.suppressed_eq d hu.1).trans hu.2.1) hdv hdl
  cases optimal network_fifo hsource hrel hopen (by simp) le_rfl hpath hf.in_time with
  | inl hle =>
    rw [endpoint_eq_getLast? hlast] at hle
    exact (hv.best.le_target c hterm (lt_of_le_of_lt hle hf.in_time)).trans hle
  | inr hle => exact hle

/-- The trail of the final contact is itself feasible. -/
theorem Finished.final_feasible (h : Finished s q suppressed st) {c : IonCXref}
    (hc : st.finalContact = some c) :
    ∃ p, Trail (network s q suppressed) (labels s st.notes) (some c) (p ++ [c]) ∧
      Feasible s q suppressed (p ++ [c]) st.earliestFinalArrivalTime := by
  obtain ⟨cur, notes, hv⟩ := h.visited
  obtain ⟨hterm, hdist, hlt⟩ := hv.best.attained c hc
  have hl : (labels s notes).dist c < maxTime := by
    rw [hv.labels_eq, settle_dist] at hdist
    rw [hdist]
    exact hlt
  obtain ⟨p, hp, -⟩ := hv.inv.trail c hl
  have hp' : Trail (network s q suppressed) (labels s st.notes) (some c) (p ++ [c]) := by
    rw [hv.labels_eq]
    exact hp.congr (fun d _ => by rw [settle_dist]) (fun d _ => by rw [settle_pred])
  refine ⟨p, hp', (feasibleFrom_iff (u := none)).mpr ?_, ⟨c, by simp, hterm⟩, hlt⟩
  rw [← hdist]
  exact hp'.arrive.1

theorem predOf_eq_some {ptr : CXrefPtr} {u : Option IonCXref} (h : predOf ptr = some u) : ptr = ptrOf u := by
  cases ptr with
  | null => cases h
  | rootContact => exact Option.some.inj h ▸ rfl
  | entry d => exact Option.some.inj h ▸ rfl

/-- What backtracking along the contacts of a trail makes of a route. -/
def prependHops (notes : Notes) (hops : List IonCXref) (route : CgrRoute) : CgrRoute :=
  { route with
    hops := hops ++ route.hops
    toTime := hops.foldr (fun c t => min c.toTime t) route.toTime
    maxCapacity := hops.foldr (fun c m => min (notes c).capacity m) route.maxCapacity }

/-- Backtracking follows the trail to the root. -/
theorem backtrack_trail {notes : Notes} {u : Option IonCXref} {p : List IonCXref}
    (hp : Trail (network s q suppressed) (labels s notes) u p) (fuel : Nat) (hf : p.length < fuel)
    (route : CgrRoute) : backtrack notes fuel (ptrOf u) route = some (prependHops notes p route) := by
  induction hp generalizing fuel route with
  | source =>
    cases fuel with
    | zero => omega
    | succ n => rfl
  | @via u p c hp hpred hstep hnew ih =>
    cases fuel with
    | zero => omega
    | succ n =>
      rw [List.length_append, List.length_singleton] at hf
      have hptr : (notes c).predecessor = ptrOf u := predOf_eq_some hpred
      have hmin : ∀ a b : Int, (if a < b then a else b) = min a b := by
        intro a b
        split <;> omega
      have hmin' : ∀ a b : Nat, (if a < b then a else b) = min a b := by
        intro a b
        split <;> omega
      show backtrack notes (n + 1) (.entry c) route = _
      rw [backtrack, hptr, ih n (by omega)]
      simp only [prependHops, List.append_assoc, List.singleton_append, List.foldr_append, List.foldr_cons,
        List.foldr_nil, hmin, hmin']

theorem trail_mem {L : Labels IonCXref Int} {u : Option IonCXref} {p : List IonCXref}
    (hp : Trail (network s q suppressed) L u p) : ∀ c ∈ p, c ∈ s.contactIndex := by
  induction hp with
  | source => simp
  | via hp hpred hstep hnew ih =>
    intro d hd
    cases List.mem_append.mp hd with
    | inl hd => exact ih d hd
    | inr hd =>
      rw [List.mem_singleton.mp hd]
      exact (step_eq_some.mp hstep).1.1

/-- A trail repeats no contact, so it is no longer than the index. -/
theorem trail_length_le {L : Labels IonCXref Int} {u : Option IonCXref} {p : List IonCXref}
    (hp : Trail (network s q suppressed) L u p) : p.length ≤ s.contactIndex.entries.length :=
  (hp.nodup.subperm (fun _ hc => trail_mem hp _ hc)).length_le

/-- Work areas freshly reset: arrival at the horizon, not visited, and a capacity that is
either cleared or was computed by an earlier search. -/
structure Reset (s : IonState) (notes : Notes) : Prop where
  arrivalTime : ∀ c ∈ s.contactIndex, (notes c).arrivalTime = maxTime
  visited : ∀ c ∈ s.contactIndex, (notes c).visited = false
  capacity : ∀ c ∈ s.contactIndex, (notes c).capacity = 0 ∨ (notes c).capacity = contactCapacity c

theorem reset_cleared (s : IonState) : Reset s (fun _ => .cleared) :=
  ⟨fun _ _ => rfl, fun _ _ => rfl, fun _ _ => Or.inl rfl⟩

theorem Reset.dist {notes : Notes} (h : Reset s notes) (c : IonCXref) : (labels s notes).dist c = maxTime := by
  by_cases hc : c ∈ s.contactIndex
  · rw [dist_of_mem hc]
    exact h.arrivalTime c hc
  · exact if_neg hc

theorem Reset.done {notes : Notes} (h : Reset s notes) (c : IonCXref) : (labels s notes).done c = false := by
  by_cases hc : c ∈ s.contactIndex
  · simp [labels, hc, h.visited c hc]
  · simp [labels, hc]

theorem Reset.searching {notes : Notes} (h : Reset s notes) :
    Searching s q (fun c => (notes c).suppressed) ⟨notes, none, maxTime⟩ none (fun _ => False) where
  inv := Inv.init h.dist h.done
  best := ⟨fun c _ hlt => absurd hlt (not_lt.mpr (h.dist c).ge), by simp, fun _ => rfl⟩
  notes := by
    refine ⟨fun _ _ => rfl, h.capacity, fun c hc hlt => ?_⟩
    rw [h.arrivalTime c hc] at hlt
    omega
  cur_mem _ hc := by cases hc

/-- What the search makes of a route when it finds one. -/
structure FilledRoute (s : IonState) (q : Query) (suppressed : IonCXref → Bool) (route : CgrRoute) :
    Prop where
  feasible : Feasible s q suppressed route.hops route.arrivalTime
  earliest : ∀ cs a, Feasible s q suppressed cs a → route.arrivalTime ≤ a
  toTime : route.toTime = route.hops.foldr (fun c t => min c.toTime t) maxTime
  maxCapacity : route.maxCapacity = route.hops.foldr (fun c m => min (contactCapacity c) m) (2 ^ 64 - 1)
  first_hop : ∃ c, route.hops.head? = some c ∧ route.toNodeNbr = c.toNode ∧ route.fromTime = c.fromTime
  payloadClass : route.payloadClass = q.payloadClass

theorem foldr_capacity {notes : Notes} (hops : List IonCXref)
    (h : ∀ c ∈ hops, (notes c).capacity = contactCapacity c) (m : Nat) :
    hops.foldr (fun c m => min (notes c).capacity m) m = hops.foldr (fun c m => min (contactCapacity c) m) m := by
  induction hops with
  | nil => rfl
  | cons c rest ih =>
    rw [List.foldr_cons, List.foldr_cons, h c List.mem_cons_self,
      ih (fun d hd => h d (List.mem_cons_of_mem _ hd))]

/-- The hops of the route are those of the trail of the final contact. -/
theorem fillRoute_trail {c : IonCXref} (hc : st.finalContact = some c) {p : List IonCXref}
    (htrail : Trail (network s q suppressed) (labels s st.notes) (some c) p) :
    fillRoute s q st = some (characterize q.payloadClass (prependHops st.notes p
      { CgrRoute.zero with
        arrivalTime := st.earliestFinalArrivalTime, toTime := maxTime, maxCapacity := 2 ^ 64 - 1 })) := by
  have hlen := trail_length_le htrail
  have hback := backtrack_trail htrail (s.contactIndex.entries.length + 1) (by omega)
    { CgrRoute.zero with
      arrivalTime := st.earliestFinalArrivalTime, toTime := maxTime, maxCapacity := 2 ^ 64 - 1 }
  rw [fillRoute, hc]
  exact congrArg (Option.map (characterize q.payloadClass)) hback

theorem Finished.fillRoute_some (h : Finished s q suppressed st) {c : IonCXref}
    (hc : st.finalContact = some c) :
    ∃ route, fillRoute s q st = some route ∧ FilledRoute s q suppressed route := by
  obtain ⟨p, htrail, hfeas⟩ := h.final_feasible hc
  have hcap : ∀ d ∈ p ++ [c], (st.notes d).capacity = contactCapacity d := by
    obtain ⟨cur, notes, hv⟩ := h.visited
    obtain ⟨-, hdist, hlt⟩ := hv.best.attained c hc
    intro d hd
    have hm := trail_mem htrail d hd
    have hle : (labels s st.notes).dist d ≤ (labels s st.notes).dist c := htrail.le network_fifo d hd
    rw [dist_of_mem hm, hdist] at hle
    exact hv.notes.capacity_labelled d hm (hle.trans_lt hlt)
  obtain ⟨d, rest, hhops⟩ : ∃ d rest, p ++ [c] = d :: rest := by
    cases p with
    | nil => exact ⟨c, [], rfl⟩
    | cons d rest => exact ⟨d, rest ++ [c], rfl⟩
  refine ⟨_, fillRoute_trail hc htrail, ?_⟩
  simp only [prependHops, CgrRoute.zero, List.append_nil, hhops, characterize]
  rw [hhops] at hfeas hcap
  exact ⟨hfeas, fun cs a hf => h.le_feasible hf, rfl, foldr_capacity _ hcap _, ⟨d, rfl, rfl, rfl⟩, rfl⟩

/-- What a search makes of the route and of the work areas, for any contacts suppressed. -/
theorem computeDistanceToTerminus_cases {notes : Notes} (hreset : Reset s notes) :
    ∃ route notes', computeDistanceToTerminus s q notes = some (route, notes') ∧
      NotesOk s (fun c => (notes c).suppressed) notes' ∧
      (FilledRoute s q (fun c => (notes c).suppressed) route ∨
        route = CgrRoute.zero ∧ ∀ cs a, ¬ Feasible s q (fun c => (notes c).suppressed) cs a) := by
  obtain ⟨st, hloop, hfin⟩ := search_finishes (hreset.searching (q := q))
  have hok : NotesOk s (fun c => (notes c).suppressed) st.notes := by
    obtain ⟨cur, notes', hv⟩ := hfin.visited
    exact hv.notes
  cases hc : st.finalContact with
  | some c =>
    obtain ⟨route, hroute, hfill⟩ := hfin.fillRoute_some hc
    refine ⟨route, st.notes, ?_, hok, Or.inl hfill⟩
    rw [computeDistanceToTerminus, hloop, Option.bind_some, hroute]
    rfl
  | none =>
    refine ⟨CgrRoute.zero, st.notes, ?_, hok, Or.inr ⟨rfl, fun cs a hf => ?_⟩⟩
    · rw [computeDistanceToTerminus, hloop, Option.bind_some, fillRoute, hc]
      rfl
    · obtain ⟨cur, notes', hv⟩ := hfin.visited
      have hbest := hv.best.none_found hc
      have hle := hfin.le_feasible hf
      have hlt := hf.in_time
      omega

/-- A filled route names the node after its first hop, which is never node 0. -/
theorem FilledRoute.toNodeNbr_ne {route : CgrRoute} (h : FilledRoute s q suppressed route) :
    route.toNodeNbr ≠ 0 := by
  obtain ⟨c, -, hto, -⟩ := h.first_hop
  rw [hto]
  exact c.toNode_ne

/-- The search always ends. It fills the route exactly if some sequence of contacts is
feasible, and then with the hops of a feasible sequence that arrives first. -/
theorem computeDistanceToTerminus_correct (s : IonState) (q : Query) (notes : Notes)
    (hreset : Reset s notes) :
    ∃ route notes', computeDistanceToTerminus s q notes = some (route, notes') ∧
      (route.toNodeNbr ≠ 0 ↔ ∃ cs a, Feasible s q (fun c => (notes c).suppressed) cs a) ∧
      (route.toNodeNbr ≠ 0 → FilledRoute s q (fun c => (notes c).suppressed) route) ∧
      (route.toNodeNbr = 0 → route = CgrRoute.zero) := by
  obtain ⟨route, notes', hrun, -, hfill | ⟨rfl, hno⟩⟩ := computeDistanceToTerminus_cases (q := q) hreset
  · have hne := hfill.toNodeNbr_ne
    exact ⟨route, notes', hrun, ⟨fun _ => ⟨_, _, hfill.feasible⟩, fun _ => hne⟩, fun _ => hfill,
      fun h0 => absurd h0 hne⟩
  · refine ⟨CgrRoute.zero, notes', hrun, ⟨fun h0 => absurd rfl h0, ?_⟩, fun h0 => absurd rfl h0, fun _ => rfl⟩
    rintro ⟨cs, a, hf⟩
    exact absurd hf (hno cs a)

/-- One contact from node 1 to node 2, with a range of the given latency. -/
def oneContact (owlt : Nat) : IonState :=
  (Rfx.rfxInsertRange (Rfx.rfxInsertContact (ionInitialize 1) 0 10 100 1 2 1000 1).1 0 10 100 1 2 owlt).1

def toNode2 : Query := ⟨20, 2, 0⟩

theorem computeDistanceToTerminus_correct_oneContact :
    ∃ route notes', computeDistanceToTerminus (oneContact 3) toNode2 (fun _ => .cleared) = some (route, notes') ∧
      (route.toNodeNbr ≠ 0 ↔ ∃ cs a, Feasible (oneContact 3) toNode2 (fun _ => false) cs a) ∧
      (route.toNodeNbr ≠ 0 → FilledRoute (oneContact 3) toNode2 (fun _ => false) route) ∧
      (route.toNodeNbr = 0 → route = CgrRoute.zero) :=
  computeDistanceToTerminus_correct (oneContact 3) toNode2 (fun _ => .cleared) (reset_cleared _)

example : (computeDistanceToTerminus (oneContact 3) toNode2 (fun _ => .cleared)).map
    (fun r => (r.1.toNodeNbr, r.1.arrivalTime, r.1.toTime, r.1.maxCapacity)) = some (2, 23, 100, 90000) := by
  decide +kernel

theorem FeasibleFrom.le {usable : IonCXref → Prop} {latency : Nat → Nat} {node : Nat} {t a : Int}
    {cs : List IonCXref} (h : FeasibleFrom s usable latency node t cs a) : t ≤ a := by
  induction cs generalizing node t with
  | nil => exact le_of_eq (Eq.symm h)
  | cons c rest ih =>
    obtain ⟨-, -, -, owlt, -, hrest⟩ := h
    have hle := ih hrest
    omega

/-- The latency of a range of `2 ^ 32 - 1` seconds wraps to a few hours, so that a route is
filled although no arrival at the terminus comes before the horizon. -/
theorem computeDistanceToTerminus_latency_wraps :
    ¬ ∀ (s : IonState) (q : Query) (notes : Notes), Reset s notes →
      ∃ route notes', computeDistanceToTerminus s q notes = some (route, notes') ∧
        (route.toNodeNbr ≠ 0 ↔ ∃ cs a, FeasibleUnbounded s q (fun c => (notes c).suppressed) cs a) := by
  intro hall
  obtain ⟨route, notes', hrun, hiff⟩ := hall (oneContact (2 ^ 32 - 1)) toNode2 (fun _ => .cleared)
    (reset_cleared _)
  have hfound : (computeDistanceToTerminus (oneContact (2 ^ 32 - 1)) toNode2 (fun _ => .cleared)).map
      (fun r => r.1.toNodeNbr) = some 2 := by
    decide +kernel
  rw [hrun, Option.map_some, Option.some.injEq] at hfound
  obtain ⟨cs, a, hf⟩ := hiff.mp (by rw [hfound]; decide)
  obtain ⟨d, hlast, -⟩ := hf.terminus
  have hrange : ∀ c ∈ (oneContact (2 ^ 32 - 1)).contactIndex.entries,
      getApplicableRange (oneContact (2 ^ 32 - 1)) c = some (2 ^ 32 - 1) := by
    decide +kernel
  have hpath := hf.path
  have hlt := hf.in_time
  cases cs with
  | nil => cases hlast
  | cons c rest =>
    obtain ⟨hu, -, -, owlt, howlt, hrest⟩ := hpath
    have hle := hrest.le
    rw [hrange c hu.1, Option.some.injEq] at howlt
    subst howlt
    simp only [toNode2, maxTime] at hle hlt
    omega

end DijkstraCorrect
