import CgrJni.DijkstraCorrect

/-!
A search never goes back to the local node: the contacts that leave it are reached
from the dummy root, and no later arrival at the local node improves on that.
-/

namespace OnwardHops

open IonDb Libcgr Dijkstra DijkstraCorrect EarliestArrival

/-- Contacts with an arrival that leave the local node have the root as predecessor. -/
def HeadsRoot (s : IonState) (notes : Notes) : Prop :=
  ∀ c ∈ s.contactIndex, c.fromNode = s.ownNodeNbr → (notes c).arrivalTime < maxTime →
    (notes c).predecessor = .rootContact

variable {s : IonState} {q : Query} {suppressed : IonCXref → Bool} {st : Search} {cur : Option IonCXref}
  {seen : IonCXref → Prop}

/-- Going on to a contact of the local node from elsewhere is no earlier than from the root. -/
theorem le_of_step (h : Searching s q suppressed st cur seen) (hcur : cur ≠ none) {c : IonCXref}
    (hlocal : c.fromNode = s.ownNodeNbr) {a : Int}
    (hstep : (network s q suppressed).step cur c (arrivalOf q st.notes cur) = some a) :
    (st.notes c).arrivalTime ≤ a := by
  obtain ⟨hu, -, ht, owlt, hr, rfl⟩ := step_eq_some.mp hstep
  have hstart := h.inv.start_le
  rw [h.time] at hstart
  have hle : q.currentTime ≤ arrivalOf q st.notes cur := hstart
  have hroot : (network s q suppressed).step none c (network s q suppressed).start =
      some (transmitTime c q.currentTime + owltWithMargin owlt) :=
    step_eq_some.mpr ⟨hu, hlocal, by show q.currentTime < c.toTime; omega, owlt, hr, rfl⟩
  have hmono : transmitTime c q.currentTime ≤ transmitTime c (arrivalOf q st.notes cur) := by
    rw [transmitTime_eq, transmitTime_eq]
    omega
  rw [← dist_of_mem hu.1]
  by_cases hmax : transmitTime c q.currentTime + owltWithMargin owlt < maxTime
  · have hdist := h.inv.relaxed_source hcur c _ hroot hmax
    omega
  · have hdist := h.inv.ceiling c
    omega

theorem HeadsRoot.set {notes : Notes} (h : HeadsRoot s notes) {c : IonCXref} {work : CgrContactNote}
    (hw : c ∈ s.contactIndex → c.fromNode = s.ownNodeNbr → work.arrivalTime < maxTime →
      work.predecessor = .rootContact) : HeadsRoot s (Notes.set notes c work) := by
  intro d hd hlocal hlt
  rw [set_apply] at hlt ⊢
  split
  · rename_i he
    subst he
    rw [if_pos rfl] at hlt
    exact hw hd hlocal hlt
  · rename_i he
    rw [if_neg he] at hlt
    exact h d hd hlocal hlt

theorem HeadsRoot.noteArrival (h : HeadsRoot s st.notes) {c : IonCXref} {a : Int}
    (hroot : c.fromNode = s.ownNodeNbr → a < (st.notes c).arrivalTime → cur = none) :
    HeadsRoot s (noteArrival q cur st c a).notes := by
  unfold Dijkstra.noteArrival
  by_cases hlt : a < (st.notes c).arrivalTime
  · have hset : HeadsRoot s (Notes.set st.notes c
        { st.notes c with arrivalTime := a, predecessor := ptrOf cur }) := by
      apply h.set
      intro _ hlocal _
      rw [hroot hlocal hlt]
      rfl
    rw [if_pos hlt]
    by_cases hbest : c.toNode = q.terminusNodeNbr ∧ a < st.earliestFinalArrivalTime
    · rw [if_pos hbest]
      exact hset
    · rw [if_neg hbest]
      exact hset
  · rw [if_neg hlt]
    exact h

theorem HeadsRoot.considerContact (h : HeadsRoot s st.notes) (hs : Searching s q suppressed st cur seen)
    {c : IonCXref} (hc : c ∈ s.contactIndex) (hfrom : c.fromNode = toNodeOf s cur) :
    HeadsRoot s (considerContact s q cur st c).notes := by
  unfold Dijkstra.considerContact
  by_cases hopen : c.toTime ≤ arrivalOf q st.notes cur
  · rw [if_pos hopen]
    exact h
  rw [if_neg hopen]
  by_cases hsup : (st.notes c).suppressed = true
  · rw [if_pos hsup]
    exact h
  rw [if_neg hsup]
  by_cases hvis : (st.notes c).visited = true
  · rw [if_pos hvis]
    exact h
  rw [if_neg hvis]
  simp only [hs.notes.noted_capacity hc]
  have hnoted : HeadsRoot s (Notes.set st.notes c { st.notes c with capacity := contactCapacity c }) :=
    h.set (fun hd hlocal hlt => h c hd hlocal hlt)
  by_cases hfloor : contactCapacity c < minCapacity q.payloadClass
  · rw [if_pos hfloor]
    exact hnoted
  rw [if_neg hfloor]
  have husable : Usable s q suppressed c :=
    ⟨hc, (hs.notes.suppressed_eq c hc).symm.trans (by simpa using hsup), not_lt.mp hfloor⟩
  cases hr : getApplicableRange s c with
  | none => exact hnoted
  | some owlt =>
    have hnotedSearch : HeadsRoot s ({ st with
        notes := Notes.set st.notes c { st.notes c with capacity := contactCapacity c } } : Search).notes := hnoted
    apply HeadsRoot.noteArrival hnotedSearch
    intro hlocal hlt
    by_contra hcur
    have hself : (Notes.set st.notes c { st.notes c with capacity := contactCapacity c } c).arrivalTime =
        (st.notes c).arrivalTime := by
      rw [set_apply, if_pos rfl]
    have harr : arrivalOf q (Notes.set st.notes c { st.notes c with capacity := contactCapacity c }) cur =
        arrivalOf q st.notes cur := by
      cases cur with
      | none => rfl
      | some u =>
        simp only [arrivalOf, set_apply]
        split
        · rename_i hu
          rw [hu]
        · rfl
    have hle := le_of_step hs hcur hlocal (step_eq_some.mpr ⟨husable, hfrom, not_le.mp hopen, owlt, hr, rfl⟩)
    simp only [hself, harr] at hlt
    omega

theorem HeadsRoot.foldl (h : HeadsRoot s st.notes) (hs : Searching s q suppressed st cur seen)
    (l : List IonCXref) (hl : ∀ c ∈ l, c ∈ s.contactIndex ∧ c.fromNode = toNodeOf s cur) :
    HeadsRoot s (l.foldl (Dijkstra.considerContact s q cur) st).notes := by
  induction l generalizing st seen with
  | nil => exact h
  | cons c rest ih =>
    obtain ⟨hc, hfrom⟩ := hl c List.mem_cons_self
    exact ih (h.considerContact hs hc hfrom) (hs.considerContact hc hfrom)
      (fun d hd => hl d (List.mem_cons_of_mem _ hd))

theorem HeadsRoot.visit (h : HeadsRoot s st.notes) (hs : Searching s q suppressed st cur (fun _ => False)) :
    HeadsRoot s (visit s q cur st).notes := by
  have hf := h.foldl hs (nextContacts s (toNodeOf s cur)) (fun c hc => mem_nextContacts.mp hc)
  cases cur with
  | none => exact hf
  | some u =>
    apply hf.set
    intro hu hlocal hlt
    exact hf u hu hlocal hlt

/-- At the end of a search the contacts of the local node still come from the root. -/
theorem search_headsRoot (h : HeadsRoot s st.notes) (hs : Searching s q suppressed st none (fun _ => False))
    {fuel : Nat} {st' : Search} (hloop : Runs.loop (searchRound s q) fuel (none, st) = some st') :
    HeadsRoot s st'.notes := by
  refine Runs.loop_partial
    (fun state => HeadsRoot s state.2.notes ∧ Searching s q suppressed state.2 state.1 (fun _ => False))
    (fun st' => HeadsRoot s st'.notes) ?_ ?_ fuel (none, st) ⟨h, hs⟩ st' hloop
  · rintro ⟨cur, st⟩ ⟨next, st'⟩ ⟨hroot, hsearch⟩ hb
    obtain ⟨w, hsel, rfl, rfl⟩ := searchRound_inl hb
    exact ⟨hroot.visit hsearch, hsearch.next hsel⟩
  · rintro ⟨cur, st⟩ st' ⟨hroot, hsearch⟩ hb
    obtain ⟨-, rfl⟩ := searchRound_inr hb
    exact hroot.visit hsearch

/-- Along a trail only the first contact leaves the local node. -/
theorem trail_onward {notes : Notes} (h : HeadsRoot s notes) {u : Option IonCXref} {p : List IonCXref}
    (hp : Trail (network s q suppressed) (labels s notes) u p)
    (hlt : ∀ c ∈ p, (notes c).arrivalTime < maxTime) : ∀ c ∈ p.tail, c.fromNode ≠ s.ownNodeNbr := by
  induction hp with
  | source => simp
  | @via u p c hp hpred hstep hnew ih =>
    intro d hd hlocal
    cases hp with
    | source => cases hd
    | @via v p' w hp' hpred' hstep' hnew' =>
      have htail : (p' ++ [w] ++ [c]).tail = (p' ++ [w]).tail ++ [c] := List.tail_append_of_ne_nil (by simp)
      rw [htail] at hd
      cases List.mem_append.mp hd with
      | inl hd => exact ih (fun e he => hlt e (List.mem_append_left _ he)) d hd hlocal
      | inr hd =>
        obtain rfl := List.mem_singleton.mp hd
        have hmem : d ∈ s.contactIndex := (step_eq_some.mp hstep).1.1
        have hroot := h d hmem hlocal (hlt d (List.mem_append_right _ (List.mem_singleton_self d)))
        have hsome : predOf (notes d).predecessor = some (some w) := hpred
        rw [hroot] at hsome
        cases hsome

/-- No contact after the first one of a route leaves the local node. -/
theorem computeDistanceToTerminus_onward {notes notes' : Notes} {route : CgrRoute} (hreset : Reset s notes)
    (hrun : computeDistanceToTerminus s q notes = some (route, notes')) :
    ∀ c ∈ route.hops.tail, c.fromNode ≠ s.ownNodeNbr := by
  obtain ⟨st, hloop, hfin⟩ := search_finishes (hreset.searching (q := q))
  have hstart : HeadsRoot s notes := by
    intro c hc _ hlt
    rw [hreset.arrivalTime c hc] at hlt
    omega
  have hroot : HeadsRoot s st.notes := search_headsRoot hstart hreset.searching hloop
  rw [computeDistanceToTerminus, hloop, Option.bind_some, Option.map_eq_some_iff] at hrun
  obtain ⟨found, hfill, heq⟩ := hrun
  obtain ⟨rfl, rfl⟩ := Prod.mk.inj heq
  cases hc : st.finalContact with
  | none =>
    rw [fillRoute, hc] at hfill
    rw [← Option.some.inj hfill]
    simp [CgrRoute.zero]
  | some c =>
    obtain ⟨p, htrail, -⟩ := hfin.final_feasible hc
    have hlen := trail_length_le htrail
    have hback := backtrack_trail htrail (s.contactIndex.entries.length + 1) (by omega)
      { CgrRoute.zero with
        arrivalTime := st.earliestFinalArrivalTime, toTime := maxTime, maxCapacity := 2 ^ 64 - 1 }
    have hhops : found.hops = p ++ [c] := by
      have hfill' := hfill
      rw [fillRoute, hc] at hfill'
      have hmap := congrArg (Option.map (characterize q.payloadClass)) hback
      have hfound := Option.some.inj (hfill'.symm.trans hmap)
      rw [hfound]
      unfold characterize
      split <;> simp [prependHops, CgrRoute.zero]
    rw [hhops]
    apply trail_onward hroot htrail
    intro d hd
    obtain ⟨cur, notes'', hv⟩ := hfin.visited
    obtain ⟨-, hdist, hlt⟩ := hv.best.attained c hc
    have hle : (labels s st.notes).dist d ≤ (labels s st.notes).dist c := htrail.le network_fifo d hd
    rw [dist_of_mem (trail_mem htrail d hd), hdist] at hle
    exact hle.trans_lt hlt

end OnwardHops
