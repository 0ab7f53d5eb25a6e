import CgrJni.Process
import CgrJni.Runs

/-!
Two nodes in one process. What the calls at other nodes can change for a node is
the routing database they share: while they leave it as it is for the node, its
choices and its route lists are those of the run without them.
-/

namespace Isolation

open IonDb Libcgr Rfx RouteLists Forward Process

variable {δ σ : Type}

/-- The process, and the neighbors chosen by each routing call at one node. -/
structure Observed where
  process : IonProcess
  chosen : List (List Nat)

def Observed.start : Observed := ⟨IonProcess.start, []⟩

def chosenNeighbors (forwarding : Forwarding δ σ) : List Nat :=
  forwarding.selected.map (fun node => node.neighborNodeNbr)

def observe (lookup : CgrLookup δ σ) (nodeNbr : Nat) (o : Observed) (a : Addressed σ) : Option Observed :=
  (perform lookup o.process a).map (fun r =>
    ⟨r.1, if a.nodeNbr = nodeNbr then o.chosen ++ (r.2.map chosenNeighbors).toList else o.chosen⟩)

def addressedTo (nodeNbr : Nat) (a : Addressed σ) : Bool := a.nodeNbr == nodeNbr

def routeListsAt (p : IonProcess) (nodeNbr : Nat) : Option (Nat → Option (List CgrRoute)) :=
  (p.partitions nodeNbr).map (fun part => part.routingObject)

/-- Once a node is initialized, CGR is only started at other nodes while the shared database is
as new to the node, and bundles are only routed there while no lists are due to be discarded. -/
def Undisturbed (nodeNbr : Nat) (p : IonProcess) (a : Addressed σ) : Prop :=
  a.nodeNbr ≠ nodeNbr → p.partitions nodeNbr ≠ none → ∀ vdb ∈ p.cgrvdb,
    match a.call with
    | .initializeNode => vdb.lastLoadTime = 0 ∧ ∀ list ∈ vdb.routeLists, list.1 ≠ nodeNbr
    | .edit _ => True
    | .cgrForward _ terminusNodeNbr _ => terminusNodeNbr ≠ 0 →
      ∀ part ∈ p.partitions a.nodeNbr, part.ion.lastEditTime ≤ vdb.lastLoadTime

instance (nodeNbr : Nat) (p : IonProcess) (a : Addressed σ) : Decidable (Undisturbed nodeNbr p a) := by
  unfold Undisturbed
  cases a.call <;> exact inferInstance

/-- The load time and the lists of the node are the same in two routing databases. -/
structure SameFor (nodeNbr : Nat) (v w : CgrVdb) : Prop where
  lastLoadTime : v.lastLoadTime = w.lastLoadTime
  routeLists : ∀ t, (nodeNbr, t) ∈ v.routeLists ↔ (nodeNbr, t) ∈ w.routeLists

/-- The node cannot tell the two processes apart. -/
structure Alike (nodeNbr : Nat) (p q : IonProcess) : Prop where
  partitions : p.partitions nodeNbr = q.partitions nodeNbr
  cgrvdb : p.partitions nodeNbr ≠ none →
    ∃ v w, p.cgrvdb = some v ∧ q.cgrvdb = some w ∧ SameFor nodeNbr v w

theorem without_congr {nodeNbr : Nat} {v w : CgrVdb} (h : SameFor nodeNbr v w) (part : Partition) :
    part.without nodeNbr v.routeLists = part.without nodeNbr w.routeLists := by
  simp only [Partition.without, h.routeLists]

theorem refresh_alike {nodeNbr : Nat} {p q : IonProcess} {v w : CgrVdb} (h : Alike nodeNbr p q)
    (hs : SameFor nodeNbr v w) (lastEditTime now : Int) :
    Alike nodeNbr (refresh p v lastEditTime now) (refresh q w lastEditTime now) := by
  have htime := hs.lastLoadTime
  cases refresh_cases p v lastEditTime now with
  | inl hkept =>
    cases refresh_cases q w lastEditTime now with
    | inl hkept' =>
      rw [hkept.2, hkept'.2]
      exact h
    | inr hdue' =>
      have hle := hkept.1
      have hlt := hdue'.1
      omega
  | inr hdue =>
    cases refresh_cases q w lastEditTime now with
    | inl hkept' =>
      have hlt := hdue.1
      have hle := hkept'.1
      omega
    | inr hdue' =>
      obtain ⟨-, hparts, hv⟩ := hdue
      obtain ⟨-, hparts', hv'⟩ := hdue'
      constructor
      · rw [hparts, hparts', h.partitions]
        exact congrArg (fun f => (q.partitions nodeNbr).map f) (funext (without_congr hs))
      · intro _
        exact ⟨_, _, hv, hv', rfl, fun t => Iff.rfl⟩

theorem keepRoutes_alike {nodeNbr : Nat} {p q : IonProcess} (h : Alike nodeNbr p q) (terminusNodeNbr : Nat)
    {part : Partition} (hpart : p.partitions nodeNbr = some part) (identified : Identified δ σ) :
    Alike nodeNbr (keepRoutes p nodeNbr terminusNodeNbr part identified)
      (keepRoutes q nodeNbr terminusNodeNbr part identified) := by
  obtain ⟨v, w, hv, hw, hs⟩ := h.cgrvdb (by rw [hpart]; exact Option.some_ne_none part)
  constructor
  · simp only [keepRoutes, Function.update_self]
  · intro _
    simp only [keepRoutes, hv, hw]
    by_cases hl : identified.loaded
    · rw [if_pos hl, if_pos hl]
      refine ⟨_, _, rfl, rfl, hs.lastLoadTime, fun t => ?_⟩
      simp only [List.mem_append, hs.routeLists t]
    · rw [if_neg hl, if_neg hl]
      exact ⟨v, w, rfl, rfl, hs⟩

variable {lookup : CgrLookup δ σ} {nodeNbr : Nat} {bundle : Bundle} {terminusNodeNbr : Nat} {now : Int} {env : σ}

theorem routeBundle_alike {p p' q : IonProcess} {forwarding : Forwarding δ σ} (h : Alike nodeNbr p q)
    (hr : routeBundle p nodeNbr lookup bundle terminusNodeNbr now env = some (p', forwarding)) :
    ∃ q', routeBundle q nodeNbr lookup bundle terminusNodeNbr now env = some (q', forwarding) ∧
      Alike nodeNbr p' q' := by
  obtain ⟨part, hpart, hr⟩ := Option.bind_eq_some_iff.mp hr
  have hq : q.partitions nodeNbr = some part := h.partitions ▸ hpart
  rw [routeBundle, hq, Option.bind_some]
  cases hnode : findNode part.ion.nodes terminusNodeNbr with
  | none =>
    simp only [hnode, Option.some.injEq, Prod.mk.injEq] at hr
    obtain ⟨rfl, rfl⟩ := hr
    exact ⟨q, rfl, h⟩
  | some terminusNode =>
    simp only [hnode] at hr ⊢
    obtain ⟨identified, hid, he⟩ := Option.map_eq_some_iff.mp hr
    obtain ⟨rfl, rfl⟩ := Prod.mk.inj he
    rw [hid]
    exact ⟨_, rfl, keepRoutes_alike h terminusNodeNbr hpart identified⟩

/-- A routing call at the node reports the same in both processes. -/
theorem cgrForward_alike {p p' q : IonProcess} {forwarding : Forwarding δ σ} (h : Alike nodeNbr p q)
    (hf : cgrForward p nodeNbr lookup bundle terminusNodeNbr now env = some (p', forwarding)) :
    ∃ q', cgrForward q nodeNbr lookup bundle terminusNodeNbr now env = some (q', forwarding) ∧
      Alike nodeNbr p' q' := by
  unfold cgrForward at hf ⊢
  cases hpart : p.partitions nodeNbr with
  | none => simp [hpart] at hf
  | some part =>
    obtain ⟨v, w, hv, hw, hs⟩ := h.cgrvdb (by rw [hpart]; exact Option.some_ne_none part)
    have hq : q.partitions nodeNbr = some part := h.partitions ▸ hpart
    simp only [hpart, hv] at hf
    simp only [hq, hw]
    by_cases hz : terminusNodeNbr = 0
    · rw [if_pos hz, Option.some.injEq, Prod.mk.injEq] at hf
      obtain ⟨rfl, rfl⟩ := hf
      exact ⟨q, if_pos hz, h⟩
    · rw [if_neg hz] at hf ⊢
      exact routeBundle_alike (refresh_alike h hs part.ion.lastEditTime now) hf

theorem initializeNode_alike {p q : IonProcess} (h : Alike nodeNbr p q) :
    Alike nodeNbr (initializeNode p nodeNbr) (initializeNode q nodeNbr) := by
  unfold initializeNode
  split
  · exact h
  · constructor
    · simp only [Function.update_self]
    · intro _
      exact ⟨_, _, rfl, rfl, rfl, fun t => Iff.rfl⟩

theorem editNode_alike {p p' q : IonProcess} {e : Edit} (h : Alike nodeNbr p q)
    (he : editNode p nodeNbr now e = some p') :
    ∃ q', editNode q nodeNbr now e = some q' ∧ Alike nodeNbr p' q' := by
  obtain ⟨part, ion, hpart, hion, rfl⟩ := editNode_eq_some he
  have hq : q.partitions nodeNbr = some part := h.partitions ▸ hpart
  refine ⟨{ q with partitions := Function.update q.partitions nodeNbr (some { part with ion := ion }) }, ?_, ?_⟩
  · rw [editNode, hq, Option.bind_some, hion, Option.map_some]
  · constructor
    · simp only [Function.update_self]
    · intro _
      exact h.cgrvdb (by rw [hpart]; exact Option.some_ne_none part)

/-- What the node's own call does, it does in both processes. -/
theorem perform_alike {p p' q : IonProcess} {a : Addressed σ} {report : Option (Forwarding δ σ)}
    (h : Alike nodeNbr p q) (ha : a.nodeNbr = nodeNbr) (hp : perform lookup p a = some (p', report)) :
    ∃ q', perform lookup q a = some (q', report) ∧ Alike nodeNbr p' q' := by
  obtain ⟨n, time, call⟩ := a
  obtain rfl : n = nodeNbr := ha
  cases call with
  | initializeNode =>
    obtain ⟨rfl, rfl⟩ := Prod.mk.inj (Option.some.inj hp)
    exact ⟨_, rfl, initializeNode_alike h⟩
  | edit e =>
    obtain ⟨p₁, he, hr⟩ := Option.map_eq_some_iff.mp hp
    obtain ⟨rfl, rfl⟩ := Prod.mk.inj hr
    obtain ⟨q', hq', halike⟩ := editNode_alike h he
    exact ⟨q', by simp only [perform, hq', Option.map_some], halike⟩
  | cgrForward bundle terminusNodeNbr env =>
    obtain ⟨⟨p₁, forwarding⟩, hf, hr⟩ := Option.map_eq_some_iff.mp hp
    obtain ⟨rfl, rfl⟩ := Prod.mk.inj hr
    obtain ⟨q', hq', halike⟩ := cgrForward_alike h hf
    exact ⟨q', by simp only [perform, hq', Option.map_some], halike⟩

/-- A routing call at another node that finds nothing due leaves the node's things alone. -/
theorem cgrForward_other {p p' : IonProcess} {other : Nat} {forwarding : Forwarding δ σ} (hne : other ≠ nodeNbr)
    (hquiet : terminusNodeNbr ≠ 0 → ∀ vdb part, p.cgrvdb = some vdb → p.partitions other = some part →
      part.ion.lastEditTime ≤ vdb.lastLoadTime)
    (hf : cgrForward p other lookup bundle terminusNodeNbr now env = some (p', forwarding)) :
    Alike nodeNbr p' p := by
  obtain ⟨part, vdb, hpart, hvdb, hcases⟩ := cgrForward_cases hf
  have hrefl : Alike nodeNbr p p := ⟨rfl, fun _ => ⟨vdb, vdb, hvdb, hvdb, rfl, fun t => Iff.rfl⟩⟩
  by_cases hz : terminusNodeNbr = 0
  · simp only [cgrForward, hpart, hvdb, if_pos hz, Option.some.injEq, Prod.mk.injEq] at hf
    exact hf.1 ▸ hrefl
  have hstill : refresh p vdb part.ion.lastEditTime now = p := by
    have hle := hquiet hz vdb part hvdb hpart
    cases refresh_cases p vdb part.ion.lastEditTime now with
    | inl hkept => exact hkept.2
    | inr hdue =>
      have hlt := hdue.1
      omega
  rw [hstill] at hcases
  obtain ⟨rfl, -⟩ | ⟨rfl, -⟩ | ⟨part', terminusNode, identified, -, -, rfl, -⟩ := hcases
  · exact hrefl
  · exact hrefl
  · constructor
    · simp only [keepRoutes, Function.update_of_ne hne.symm]
    · intro _
      simp only [keepRoutes, hvdb]
      by_cases hl : identified.loaded
      · rw [if_pos hl]
        refine ⟨_, vdb, rfl, rfl, rfl, fun t => ?_⟩
        simp [hne.symm]
      · rw [if_neg hl]
        exact ⟨vdb, vdb, rfl, rfl, rfl, fun t => Iff.rfl⟩

/-- No call at another node gives a node its partition. -/
theorem perform_none {p p' : IonProcess} {a : Addressed σ} {report : Option (Forwarding δ σ)}
    (hne : a.nodeNbr ≠ nodeNbr) (hnone : p.partitions nodeNbr = none)
    (hp : perform lookup p a = some (p', report)) : p'.partitions nodeNbr = none := by
  obtain ⟨n, time, call⟩ := a
  have hother : nodeNbr ≠ n := fun he => hne he.symm
  cases call with
  | initializeNode =>
    obtain ⟨rfl, -⟩ := Prod.mk.inj (Option.some.inj hp)
    simp only [initializeNode]
    split
    · exact hnone
    · exact (Function.update_of_ne hother ..).trans hnone
  | edit e =>
    obtain ⟨p₁, he, hr⟩ := Option.map_eq_some_iff.mp hp
    obtain ⟨rfl, -⟩ := Prod.mk.inj hr
    obtain ⟨part, ion, -, -, rfl⟩ := editNode_eq_some he
    exact (Function.update_of_ne hother ..).trans hnone
  | cgrForward bundle terminusNodeNbr env =>
    obtain ⟨⟨p₁, forwarding⟩, hf, hr⟩ := Option.map_eq_some_iff.mp hp
    obtain ⟨rfl, -⟩ := Prod.mk.inj hr
    obtain ⟨part, vdb, hpart, hvdb, hcases⟩ := cgrForward_cases hf
    have hrefresh : (refresh p vdb part.ion.lastEditTime time).partitions nodeNbr = none := by
      cases refresh_cases p vdb part.ion.lastEditTime time with
      | inl hkept => rw [hkept.2, hnone]
      | inr hdue => rw [hdue.2.1, hnone, Option.map_none]
    obtain ⟨rfl, -⟩ | ⟨rfl, -⟩ | ⟨part', terminusNode, identified, -, -, rfl, -⟩ := hcases
    · exact hnone
    · exact hrefresh
    · exact (Function.update_of_ne hother ..).trans hrefresh

theorem Alike.trans {p q r : IonProcess} (h : Alike nodeNbr p q) (h' : Alike nodeNbr q r) : Alike nodeNbr p r := by
  constructor
  · exact h.partitions.trans h'.partitions
  · intro hsome
    obtain ⟨v, w, hv, hw, hs⟩ := h.cgrvdb hsome
    obtain ⟨w', x, hw', hx, hs'⟩ := h'.cgrvdb (h.partitions ▸ hsome)
    obtain rfl := Option.some.inj (hw.symm.trans hw')
    exact ⟨v, x, hv, hx, hs.lastLoadTime.trans hs'.lastLoadTime, fun t => (hs.routeLists t).trans (hs'.routeLists t)⟩

/-- An undisturbing call at another node can be left out. -/
theorem perform_other {p p' q : IonProcess} {a : Addressed σ} {report : Option (Forwarding δ σ)}
    (h : Alike nodeNbr p q) (hne : a.nodeNbr ≠ nodeNbr) (hquiet : Undisturbed nodeNbr p a)
    (hp : perform lookup p a = some (p', report)) : Alike nodeNbr p' q := by
  by_cases hnone : p.partitions nodeNbr = none
  · have hnone' := perform_none hne hnone hp
    exact ⟨by rw [hnone', ← h.partitions, hnone], fun hsome => absurd hnone' hsome⟩
  obtain ⟨v, w, hv, hw, hs⟩ := h.cgrvdb hnone
  have hcalm := hquiet hne hnone v hv
  obtain ⟨n, time, call⟩ := a
  have hother : nodeNbr ≠ n := fun he => hne he.symm
  cases call with
  | initializeNode =>
    obtain ⟨rfl, -⟩ := Prod.mk.inj (Option.some.inj hp)
    simp only [initializeNode]
    split
    · exact h
    · constructor
      · exact (Function.update_of_ne hother ..).trans h.partitions
      · intro _
        refine ⟨_, w, rfl, hw, hcalm.1.symm.trans hs.lastLoadTime, fun t => ?_⟩
        rw [← hs.routeLists t]
        constructor
        · intro hmem
          cases hmem
        · intro hmem
          exact absurd rfl (hcalm.2 _ hmem)
  | edit e =>
    obtain ⟨p₁, he, hr⟩ := Option.map_eq_some_iff.mp hp
    obtain ⟨rfl, -⟩ := Prod.mk.inj hr
    obtain ⟨part, ion, -, -, rfl⟩ := editNode_eq_some he
    constructor
    · exact (Function.update_of_ne hother ..).trans h.partitions
    · intro _
      exact ⟨v, w, hv, hw, hs⟩
  | cgrForward bundle terminusNodeNbr env =>
    obtain ⟨⟨p₁, forwarding⟩, hf, hr⟩ := Option.map_eq_some_iff.mp hp
    obtain ⟨rfl, -⟩ := Prod.mk.inj hr
    have hdue : terminusNodeNbr ≠ 0 → ∀ vdb part, p.cgrvdb = some vdb → p.partitions n = some part →
        part.ion.lastEditTime ≤ vdb.lastLoadTime := by
      intro hz vdb part hvdb hpart
      obtain rfl := Option.some.inj (hvdb.symm.trans hv)
      exact hcalm hz part hpart
    exact (cgrForward_other hne hdue hf).trans h

/-- The states of the two runs: the node cannot tell them apart, and has chosen the same. -/
def Together (nodeNbr : Nat) (o o' : Observed) : Prop :=
  Alike nodeNbr o.process o'.process ∧ o.chosen = o'.chosen

theorem observe_kept {o o₁ o' : Observed} {a : Addressed σ} (h : Together nodeNbr o o')
    (ha : addressedTo nodeNbr a = true) (hstep : observe lookup nodeNbr o a = some o₁) :
    ∃ o₁', observe lookup nodeNbr o' a = some o₁' ∧ Together nodeNbr o₁ o₁' := by
  obtain ⟨⟨p, report⟩, hp, rfl⟩ := Option.map_eq_some_iff.mp hstep
  obtain ⟨q, hq, halike⟩ := perform_alike h.1 (beq_iff_eq.mp ha) hp
  refine ⟨_, by rw [observe, hq, Option.map_some], halike, ?_⟩
  dsimp only
  rw [h.2]

theorem observe_skipped {o o₁ o' : Observed} {a : Addressed σ} (h : Together nodeNbr o o')
    (ha : addressedTo nodeNbr a = false) (hquiet : Undisturbed nodeNbr o.process a)
    (hstep : observe lookup nodeNbr o a = some o₁) : Together nodeNbr o₁ o' := by
  obtain ⟨⟨p, report⟩, hp, rfl⟩ := Option.map_eq_some_iff.mp hstep
  have hne : a.nodeNbr ≠ nodeNbr := beq_eq_false_iff_ne.mp ha
  refine ⟨perform_other h.1 hne hquiet hp, ?_⟩
  dsimp only
  rw [if_neg hne, h.2]

/-- In a run whose calls at other nodes leave the shared routing database as it is for a
node, the node chooses the same neighbors and has the same route lists as without them. -/
theorem routing_isolated (lookup : CgrLookup δ σ) (nodeNbr : Nat) (calls : List (Addressed σ)) (o : Observed)
    (hrun : Runs.run (observe lookup nodeNbr) Observed.start calls = some o)
    (hquiet : Runs.StepsMeet (observe lookup nodeNbr) (fun o a => Undisturbed nodeNbr o.process a)
      Observed.start calls) :
    ∃ o', Runs.run (observe lookup nodeNbr) Observed.start (calls.filter (addressedTo nodeNbr)) = some o' ∧
      o.chosen = o'.chosen ∧ routeListsAt o.process nodeNbr = routeListsAt o'.process nodeNbr := by
  have hstart : Together nodeNbr Observed.start Observed.start :=
    ⟨⟨rfl, fun hsome => absurd rfl hsome⟩, rfl⟩
  obtain ⟨o', hrun', halike, hchosen⟩ :=
    Runs.run_filter (addressedTo nodeNbr) (fun _ _ _ _ h ha _ hs => observe_kept h ha hs)
      (fun _ _ _ _ h ha hok hs => observe_skipped h ha hok hs) calls _ o _ hstart hquiet hrun
  refine ⟨o', hrun', hchosen, ?_⟩
  rw [routeListsAt, halike.partitions, routeListsAt]

/-- A plan that leads from node 1 to node 4 at second 20. -/
def planOf (nodeNbr : Nat) : List (Addressed Unit) :=
  [⟨nodeNbr, 0, .initializeNode⟩, ⟨nodeNbr, 0, .edit (.insertContact 20 100 1 4 1000 1)⟩,
    ⟨nodeNbr, 0, .edit (.insertRange 20 100 1 4 1)⟩]

/-- A way through node 3 that is open at once. -/
def shortcutOf (nodeNbr : Nat) (time : Int) : List (Addressed Unit) :=
  [⟨nodeNbr, time, .edit (.insertContact time 100 1 3 1000 1)⟩, ⟨nodeNbr, time, .edit (.insertRange time 100 1 3 1)⟩,
    ⟨nodeNbr, time, .edit (.insertContact time 100 3 4 1000 1)⟩, ⟨nodeNbr, time, .edit (.insertRange time 100 3 4 1)⟩]

def forwardAt (nodeNbr : Nat) (time : Int) : Addressed Unit := ⟨nodeNbr, time, .cgrForward (bundleTo 4) 4 ()⟩

theorem routing_isolated_twoNodes :
    ∃ o o', Runs.run (observe openDucts 1) Observed.start
        (planOf 1 ++ planOf 2 ++ shortcutOf 2 0 ++ [forwardAt 1 10, forwardAt 2 10] ++ shortcutOf 1 11 ++
          [forwardAt 1 12, forwardAt 2 12]) = some o ∧
      Runs.run (observe openDucts 1) Observed.start
        (planOf 1 ++ [forwardAt 1 10] ++ shortcutOf 1 11 ++ [forwardAt 1 12]) = some o' ∧
      o.chosen = [[4], [3]] ∧ o.chosen = o'.chosen ∧ routeListsAt o.process 1 = routeListsAt o'.process 1 := by
  have hsome : (Runs.run (observe openDucts 1) Observed.start
      (planOf 1 ++ planOf 2 ++ shortcutOf 2 0 ++ [forwardAt 1 10, forwardAt 2 10] ++ shortcutOf 1 11 ++
        [forwardAt 1 12, forwardAt 2 12])).any (fun o => o.chosen == [[4], [3]]) = true := by
    decide +kernel
  obtain ⟨o, hrun, hchosen⟩ := (Option.any_eq_true _ _).mp hsome
  obtain ⟨o', hrun', hsame, hlists⟩ := routing_isolated openDucts 1 _ o hrun (by decide +kernel)
  exact ⟨o, o', hrun, hrun', beq_iff_eq.mp hchosen, hsame, hlists⟩

/-- A node that is initialized later starts CGR anew, and with it the load time and the
references to the lists of the first node are lost: its list is not discarded when its plan has a
better way, and it goes on choosing node 4. -/
theorem routing_disturbed :
    ¬ ∀ (calls : List (Addressed Unit)) (o o' : Observed),
      Runs.run (observe openDucts 1) Observed.start calls = some o →
      Runs.run (observe openDucts 1) Observed.start (calls.filter (addressedTo 1)) = some o' →
      o.chosen = o'.chosen ∧ routeListsAt o.process 1 = routeListsAt o'.process 1 := by
  intro hall
  have hboth : (Runs.run (observe openDucts 1) Observed.start
      (planOf 1 ++ [forwardAt 1 10, ⟨2, 10, .initializeNode⟩] ++ shortcutOf 1 11 ++ [forwardAt 1 12])).any (fun o =>
        (Runs.run (observe openDucts 1) Observed.start
          ((planOf 1 ++ [forwardAt 1 10, ⟨2, 10, .initializeNode⟩] ++ shortcutOf 1 11 ++ [forwardAt 1 12]).filter
            (addressedTo 1))).any (fun o' => o.chosen != o'.chosen)) = true := by
    decide +kernel
  obtain ⟨o, hrun, hsome⟩ := (Option.any_eq_true _ _).mp hboth
  obtain ⟨o', hrun', hne⟩ := (Option.any_eq_true _ _).mp hsome
  have hsame := (hall _ o o' hrun hrun').1
  rw [hsame] at hne
  simp at hne

/-- Both plans are edited at second 5, and the other node routes a bundle before the first one does. -/
def otherRoutesFirst : List (Addressed Unit) :=
  planOf 1 ++ planOf 2 ++ [⟨1, 5, .edit (.insertContact 5 100 1 7 1000 1)⟩, ⟨2, 5, .edit (.insertContact 5 100 1 7 1000 1)⟩,
    forwardAt 2 6, forwardAt 1 10] ++ shortcutOf 1 10 ++ [forwardAt 1 12]

-- A routing call that finds no list of the node to discard still moves the shared load time: an edit in the second
-- in which the node itself has routed is noticed then, and not without that call.
example : (Runs.run (observe openDucts 1) Observed.start otherRoutesFirst).map Observed.chosen = some [[4], [3]] ∧
    (Runs.run (observe openDucts 1) Observed.start (otherRoutesFirst.filter (addressedTo 1))).map Observed.chosen =
      some [[4], [4]] := by
  decide +kernel

end Isolation
