import CgrJni.SearchOrder
import CgrJni.DijkstraCorrect

/-!
Which of several routes with the same arrival the search fills in: it visits contacts by
arrival and then in the order of the contact index.
-/

namespace PreferredRoutes

open IonDb Libcgr Dijkstra DijkstraCorrect EarliestArrival

/-- The place of a contact in the contact index. -/
def rank (c : IonCXref) : Key := c.toSpan.key

/-- The path over usable contacts that the search prefers to the others. -/
abbrev PreferredPath (s : IonState) (q : Query) (suppressed : IonCXref → Bool) :=
  Preferred (network s q suppressed) rank (fun c => c.toNode = q.terminusNodeNbr)

abbrev OrderedSearch (s : IonState) (q : Query) (suppressed : IonCXref → Bool) (st : Search)
    (cur : Option IonCXref) (seen : IonCXref → Prop) (notes : Notes) : Prop :=
  Ordered (network s q suppressed) rank (fun c => c.toNode = q.terminusNodeNbr) maxTime (labels s notes) cur seen
    st.earliestFinalArrivalTime st.finalContact

variable {s : IonState} {q : Query} {suppressed : IonCXref → Bool} {st : Search} {cur : Option IonCXref}
  {seen : IonCXref → Prop}

theorem foldl_ordered (h : Searching s q suppressed st cur seen) (hO : OrderedSearch s q suppressed st cur seen st.notes)
    (l : List IonCXref) (hl : ∀ c ∈ l, c ∈ s.contactIndex ∧ c.fromNode = toNodeOf s cur)
    (hsorted : l.Pairwise (fun c d => rank c ≤ rank d)) (hseen : ∀ d, seen d → ∀ c ∈ l, rank d ≤ rank c) :
    OrderedSearch s q suppressed (l.foldl (considerContact s q cur) st) cur (fun d => seen d ∨ d ∈ l)
      (l.foldl (considerContact s q cur) st).notes := by
  induction l generalizing st seen with
  | nil => simpa using hO
  | cons c rest ih =>
    obtain ⟨hc, hfrom⟩ := hl c List.mem_cons_self
    obtain ⟨hfirst, hrest⟩ := List.pairwise_cons.mp hsorted
    have hnext := hO.attempt h.inv network_fifo h.best (fun d hd => hseen d hd c List.mem_cons_self) (h.tries hc hfrom).1
    have hfold := ih (h.considerContact hc hfrom) hnext (fun d hd => hl d (List.mem_cons_of_mem _ hd)) hrest (by
      rintro d (hd | rfl) e he
      · exact hseen d hd e (List.mem_cons_of_mem _ he)
      · exact hfirst e he)
    simpa only [List.foldl_cons, List.mem_cons, or_assoc] using hfold

theorem nextContacts_sorted (s : IonState) (n : Nat) : (nextContacts s n).Pairwise (fun c d => rank c ≤ rank d) := by
  rw [nextContacts, SortedIndex.scan_of_absent (contacts_absent_wildKey s.contactIndex n 0)]
  have hsorted : (s.contactIndex.above (wildKey n 0)).Pairwise (fun c d => rank c ≤ rank d) :=
    (s.contactIndex.above_sorted _).imp (fun h => le_of_lt h)
  exact hsorted.sublist (List.takeWhile_sublist _)

/-- A visit tries the steps from the current contact in the order of the index. -/
theorem visit_ordered (h : Searching s q suppressed st cur (fun _ => False))
    (hO : OrderedSearch s q suppressed st cur (fun _ => False) st.notes) :
    ∃ notes, Visited s q suppressed (visit s q cur st) cur notes ∧
      OrderedSearch s q suppressed (visit s q cur st) cur
        (fun d => d ∈ s.contactIndex ∧ d.fromNode = toNodeOf s cur) notes := by
  refine ⟨_, h.visited, ?_⟩
  have hf := foldl_ordered h hO (nextContacts s (toNodeOf s cur)) (fun c hc => mem_nextContacts.mp hc)
    (nextContacts_sorted s _) (fun d hd => hd.elim)
  simp only [false_or, mem_nextContacts] at hf
  exact hf

/-- No contact passed before the one that the scan keeps arrives at the same time. -/
def KeptFirst (st : Search) (l : List IonCXref) (best : Option IonCXref × Int) : Prop :=
  ∀ w, best.1 = some w → ∀ c ∈ l, (st.notes c).suppressed = false → (st.notes c).visited = false →
    (st.notes c).arrivalTime = best.2 → rank w ≤ rank c

theorem KeptFirst.step {l : List IonCXref} {best : Option IonCXref × Int} (hsel : Selected st l best)
    (hfirst : KeptFirst st l best) {c : IonCXref} (hsorted : ∀ d ∈ l, rank d ≤ rank c) :
    KeptFirst st (l ++ [c]) (selectContact st best c) := by
  have hkeep : KeptFirst st (l ++ [c]) best := by
    intro w hw d hd hs hv heq
    cases List.mem_append.mp hd with
    | inl hd => exact hfirst w hw d hd hs hv heq
    | inr hd =>
      rw [List.mem_singleton.mp hd]
      exact hsorted w (hsel.chosen w hw).1
  unfold selectContact
  by_cases h1 : (st.notes c).suppressed = true ∨ (st.notes c).visited = true
  · simp only [if_pos h1]
    exact hkeep
  · simp only [if_neg h1]
    by_cases h2 : st.earliestFinalArrivalTime < (st.notes c).arrivalTime
    · simp only [if_pos h2]
      exact hkeep
    · simp only [if_neg h2]
      by_cases h3 : (st.notes c).arrivalTime < best.2
      · simp only [if_pos h3]
        intro w hw d hd hs hv heq
        obtain rfl := Option.some.inj hw
        dsimp only at heq
        cases List.mem_append.mp hd with
        | inl hd =>
          have hleast := hsel.least d hd hs hv (by omega)
          omega
        | inr hd => rw [List.mem_singleton.mp hd]
      · simp only [if_neg h3]
        exact hkeep

theorem foldl_keptFirst (l pre : List IonCXref) (best : Option IonCXref × Int) (hsel : Selected st pre best)
    (hmax : best.2 ≤ maxTime) (hfirst : KeptFirst st pre best)
    (hsorted : (pre ++ l).Pairwise (fun c d => rank c ≤ rank d)) :
    KeptFirst st (pre ++ l) (l.foldl (selectContact st) best) := by
  induction l generalizing pre best with
  | nil => simpa using hfirst
  | cons c rest ih =>
    have hbefore : ∀ d ∈ pre, rank d ≤ rank c := fun d hd =>
      (List.pairwise_append.mp hsorted).2.2 d hd c List.mem_cons_self
    obtain ⟨hs, hm⟩ := hsel.step hmax c
    have hrest := ih (pre ++ [c]) (selectContact st best c) hs hm (hfirst.step hsel hbefore) (by simpa using hsorted)
    simpa using hrest

/-- The scan for the next contact takes the first in the index of those that arrive first. -/
theorem selectNext_first {w c : IonCXref} (hsel : selectNext s st = some w) (hc : c ∈ s.contactIndex) (hne : c ≠ w)
    (hs : (st.notes c).suppressed = false) (hv : (st.notes c).visited = false)
    (heq : (st.notes c).arrivalTime = (st.notes w).arrivalTime) : rank w < rank c := by
  have hstart : Selected st [] (none, maxTime) := ⟨fun _ => rfl, by simp, by simp⟩
  have hselected := selected_entries st s.contactIndex.entries [] (none, maxTime) hstart le_rfl
  have hfirst := foldl_keptFirst s.contactIndex.entries [] (none, maxTime) hstart le_rfl (fun _ hw => by cases hw)
    (s.contactIndex.sorted.imp (fun h => le_of_lt h))
  rw [List.nil_append] at hselected hfirst
  obtain ⟨hw, -, harrival, -⟩ := hselected.chosen w hsel
  have hle := hfirst w hsel c hc hs hv (heq.trans harrival)
  exact lt_of_le_of_ne hle (fun hkey => hne (SortedIndex.key_inj hw hc hkey).symm)

/-- The next round starts from the contact whose turn it is. -/
theorem next_ordered (h : Searching s q suppressed st cur (fun _ => False))
    (hO : OrderedSearch s q suppressed st cur (fun _ => False) st.notes) {w : IonCXref}
    (hsel : selectNext s (visit s q cur st) = some w) :
    OrderedSearch s q suppressed (visit s q cur st) (some w) (fun _ => False) (visit s q cur st).notes := by
  obtain ⟨notes, hv, hO'⟩ := visit_ordered h hO
  obtain ⟨hw, hopen, hlt, hmin⟩ := hv.next hsel
  have hnext := hO'.settle hv.inv network_fifo (fun _ _ ha => step_leaves ha) hopen hlt hmin (by
    intro c hc hne heq
    obtain ⟨hm, hs, hvis⟩ := hv.eligible hc (heq ▸ hlt)
    rw [hv.dist_eq hm, hv.dist_eq hw] at heq
    exact selectNext_first hsel hm hne hs hvis heq)
  rw [← hv.labels_eq] at hnext
  exact hnext

/-- The search ends with the preferred path on the trail of the final contact. -/
theorem search_prefers (h : Searching s q suppressed st none (fun _ => False))
    (hO : OrderedSearch s q suppressed st none (fun _ => False) st.notes) {fuel : Nat} {st' : Search}
    (hloop : Runs.loop (searchRound s q) fuel (none, st) = some st') {c : IonCXref} (hc : st'.finalContact = some c)
    {p : List IonCXref} (hp : Trail (network s q suppressed) (labels s st'.notes) (some c) p) :
    PreferredPath s q suppressed p st'.earliestFinalArrivalTime := by
  refine Runs.loop_partial (fun state => Searching s q suppressed state.2 state.1 (fun _ => False) ∧
      OrderedSearch s q suppressed state.2 state.1 (fun _ => False) state.2.notes)
    (fun st' => ∀ c p, st'.finalContact = some c → Trail (network s q suppressed) (labels s st'.notes) (some c) p →
      PreferredPath s q suppressed p st'.earliestFinalArrivalTime) ?_ ?_ fuel _ ⟨h, hO⟩ st' hloop c p hc hp
  · rintro ⟨cur, st⟩ ⟨next, st'⟩ ⟨hs, ho⟩ hb
    obtain ⟨w, hsel, rfl, rfl⟩ := searchRound_inl hb
    exact ⟨hs.next hsel, next_ordered hs ho hsel⟩
  · rintro ⟨cur, st⟩ st' ⟨hs, ho⟩ hb c p hc hp
    obtain ⟨hsel, rfl⟩ := searchRound_inr hb
    obtain ⟨notes, hv, ho'⟩ := visit_ordered hs ho
    rcases selectNext_spec s (visit s q cur st) with ⟨-, hno⟩ | ⟨w, -, hn, -⟩
    · have hp' : Trail (network s q suppressed) (labels s notes) (some c) p :=
        hp.congr (fun d _ => by rw [hv.labels_eq, settle_dist]) (fun d _ => by rw [hv.labels_eq, settle_pred])
      have hbest : Best (fun c => c.toNode = q.terminusNodeNbr) maxTime (labels s notes)
          (visit s q cur st).earliestFinalArrivalTime (visit s q cur st).finalContact :=
        hv.best.of_dist (by rw [hv.labels_eq, settle_dist])
      refine ho'.preferred hv.inv network_fifo hbest (fun _ _ ha => step_leaves ha) ?_ hc hp'
      intro d hd hdl
      obtain ⟨hm, hs, hvis⟩ := hv.eligible hd hdl
      rw [hv.dist_eq hm] at hdl ⊢
      exact hno d hm hs hvis hdl
    · rw [hsel] at hn
      cases hn

@[simp] theorem characterize_hops (payloadClass : Nat) (route : CgrRoute) :
    (characterize payloadClass route).hops = route.hops := by
  unfold characterize
  split <;> rfl

@[simp] theorem characterize_arrivalTime (payloadClass : Nat) (route : CgrRoute) :
    (characterize payloadClass route).arrivalTime = route.arrivalTime := by
  unfold characterize
  split <;> rfl

/-- The route that a search fills in is the preferred path. -/
theorem computeDistanceToTerminus_prefers {notes notes' : Notes} {route : CgrRoute} (hreset : Reset s notes)
    (h : computeDistanceToTerminus s q notes = some (route, notes')) (hfound : route.toNodeNbr ≠ 0) :
    PreferredPath s q (fun c => (notes c).suppressed) route.hops route.arrivalTime := by
  have hstart := hreset.searching (q := q)
  have hordered : OrderedSearch s q (fun c => (notes c).suppressed) ⟨notes, none, maxTime⟩ none (fun _ => False) notes :=
    Ordered.init hreset.dist hreset.done
  rw [computeDistanceToTerminus] at h
  obtain ⟨st, hloop, hfill⟩ := Option.bind_eq_some_iff.mp h
  obtain ⟨route', hroute, he⟩ := Option.map_eq_some_iff.mp hfill
  obtain ⟨rfl, rfl⟩ := Prod.mk.inj he
  cases hc : st.finalContact with
  | none =>
    rw [fillRoute, hc] at hroute
    exact absurd (by rw [← Option.some.inj hroute]; rfl) hfound
  | some c =>
    obtain ⟨st', hloop', hfin⟩ := search_finishes hstart
    obtain rfl := Option.some.inj (hloop.symm.trans hloop')
    obtain ⟨p, htrail, -⟩ := hfin.final_feasible hc
    have hprefers := search_prefers hstart hordered hloop hc htrail
    rw [fillRoute_trail hc htrail, Option.some.injEq] at hroute
    rw [← hroute, characterize_hops, characterize_arrivalTime, prependHops, CgrRoute.zero]
    simpa using hprefers

end PreferredRoutes
