import CgrJni.RouteWalk

/-!
The process in which the simulated nodes live: a partition for each node, and
one static pointer to the routing database that was started last.
-/

namespace Process

open IonDb Libcgr Rfx RouteLists Forward RouteWalk

/-- The databases of one node; a node's routing object is its list of routes, if it has one. -/
structure Partition where
  ion : IonState
  routingObject : Nat → Option (List CgrRoute)

/-- `routeLists` refers to the terminus nodes that have a list, each in the partition of a node. -/
structure CgrVdb where
  lastLoadTime : Int
  routeLists : List (Nat × Nat)
  deriving DecidableEq

/-- A start of CGR always makes a new database, as the node has just got new partitions. -/
structure IonProcess where
  partitions : Nat → Option Partition
  cgrvdb : Option CgrVdb

def IonProcess.start : IonProcess := ⟨fun _ => none, none⟩

def Partition.new (nodeNbr : Nat) : Partition := ⟨ionInitialize nodeNbr, fun _ => none⟩

def initializeNode (p : IonProcess) (nodeNbr : Nat) : IonProcess :=
  if nodeNbr = 0 then p
  else ⟨Function.update p.partitions nodeNbr (some (Partition.new nodeNbr)), some ⟨0, []⟩⟩

def setRoutes (part : Partition) (terminusNodeNbr : Nat) (routes : Option (List CgrRoute)) : Partition :=
  { part with routingObject := Function.update part.routingObject terminusNodeNbr routes }

/-- A route list is detached from its terminus node and discarded. -/
def detach (partitions : Nat → Option Partition) (list : Nat × Nat) : Nat → Option Partition :=
  Function.update partitions list.1 ((partitions list.1).map (fun part => setRoutes part list.2 none))

def discardRouteLists (p : IonProcess) (vdb : CgrVdb) : IonProcess :=
  ⟨vdb.routeLists.foldl detach p.partitions, some { vdb with routeLists := [] }⟩

/-- All lists are discarded when the plan of the node was edited after the last time. -/
def refresh (p : IonProcess) (vdb : CgrVdb) (lastEditTime now : Int) : IonProcess :=
  if vdb.lastLoadTime < lastEditTime then
    { discardRouteLists p vdb with cgrvdb := some ⟨now, []⟩ }
  else p

/-- What a call of `cgrForward` reports: its result, the walk if there was one, and the
neighbors that the bundle is enqueued for. -/
structure Forwarding (δ σ : Type) where
  result : Int
  identified : Option (Identified δ σ)
  selected : List (ProximateNode δ)
  env : σ

variable {δ σ : Type}

def Forwarding.without (result : Int) (env : σ) : Forwarding δ σ := ⟨result, none, [], env⟩

def Forwarding.of (bundle : Bundle) (identified : Identified δ σ) : Forwarding δ σ where
  result := if identified.failed then -1 else 0
  identified := some identified
  selected :=
    if identified.failed then [] else selectProximateNodes bundle identified.walked.proximateNodes
  env := identified.walked.env

/-- The routes that the walk of a call tried, with what became of them. -/
def Forwarding.tried (forwarding : Forwarding δ σ) : List (CgrRoute × Verdict) :=
  match forwarding.identified with
  | none => []
  | some identified => identified.walked.tried

def Forwarding.stoppedAt (forwarding : Forwarding δ σ) : Option CgrRoute :=
  forwarding.identified.bind (fun identified => identified.walked.stoppedAt)

/-- The list after the walk is attached to the terminus node; a new one is also noted in the
routing database. -/
def keepRoutes (p : IonProcess) (nodeNbr terminusNodeNbr : Nat) (part : Partition)
    (identified : Identified δ σ) : IonProcess where
  partitions := Function.update p.partitions nodeNbr
    (some (setRoutes part terminusNodeNbr (some identified.walked.routes)))
  cgrvdb :=
    if identified.loaded then
      p.cgrvdb.map (fun vdb => { vdb with routeLists := vdb.routeLists ++ [(nodeNbr, terminusNodeNbr)] })
    else p.cgrvdb

/-- Routing of a bundle at a node, up to the choice of the neighbors. -/
def routeBundle (p : IonProcess) (nodeNbr : Nat) (lookup : CgrLookup δ σ) (bundle : Bundle)
    (terminusNodeNbr : Nat) (now : Int) (env : σ) : Option (IonProcess × Forwarding δ σ) :=
  (p.partitions nodeNbr).bind (fun part =>
    match findNode part.ion.nodes terminusNodeNbr with
    | none => some (p, Forwarding.without 0 env)
    | some terminusNode =>
      (identifyProximateNodes part.ion lookup bundle (excludedNodes bundle terminusNode) terminusNodeNbr now
        (part.routingObject terminusNodeNbr) env).map
        (fun identified => (keepRoutes p nodeNbr terminusNodeNbr part identified, Forwarding.of bundle identified)))

/-- A node that was never initialized, or a process without a routing database, has no result. -/
def cgrForward (p : IonProcess) (nodeNbr : Nat) (lookup : CgrLookup δ σ) (bundle : Bundle)
    (terminusNodeNbr : Nat) (now : Int) (env : σ) : Option (IonProcess × Forwarding δ σ) :=
  match p.partitions nodeNbr, p.cgrvdb with
  | some part, some vdb =>
    if terminusNodeNbr = 0 then some (p, Forwarding.without (-1) env)
    else routeBundle (refresh p vdb part.ion.lastEditTime now) nodeNbr lookup bundle terminusNodeNbr now env
  | _, _ => none

def editNode (p : IonProcess) (nodeNbr : Nat) (now : Int) (e : Edit) : Option IonProcess :=
  (p.partitions nodeNbr).bind (fun part =>
    (Rfx.edit part.ion (now, e)).map (fun ion =>
      { p with partitions := Function.update p.partitions nodeNbr (some { part with ion := ion }) }))

/-- The calls addressed to a node; routing is given a bundle and the callback's records. -/
inductive Call (σ : Type)
  | initializeNode
  | edit (e : Edit)
  | cgrForward (bundle : Bundle) (terminusNodeNbr : Nat) (env : σ)

structure Addressed (σ : Type) where
  nodeNbr : Nat
  time : Int
  call : Call σ

/-- One call, with what it reports if it is a routing call. -/
def perform (lookup : CgrLookup δ σ) (p : IonProcess) (a : Addressed σ) :
    Option (IonProcess × Option (Forwarding δ σ)) :=
  match a.call with
  | .initializeNode => some (initializeNode p a.nodeNbr, none)
  | .edit e => (editNode p a.nodeNbr a.time e).map (fun p => (p, none))
  | .cgrForward bundle terminusNodeNbr env =>
    (cgrForward p a.nodeNbr lookup bundle terminusNodeNbr a.time env).map (fun r => (r.1, some r.2))

def step (lookup : CgrLookup δ σ) (p : IonProcess) (a : Addressed σ) : Option IonProcess :=
  (perform lookup p a).map Prod.fst

theorem setRoutes_self (part : Partition) (terminusNodeNbr : Nat) (routes : Option (List CgrRoute)) :
    (setRoutes part terminusNodeNbr routes).routingObject terminusNodeNbr = routes :=
  Function.update_self ..

theorem setRoutes_of_ne (part : Partition) {terminusNodeNbr other : Nat} (routes : Option (List CgrRoute))
    (h : other ≠ terminusNodeNbr) :
    (setRoutes part terminusNodeNbr routes).routingObject other = part.routingObject other :=
  Function.update_of_ne h ..

/-- A partition without the route lists that are noted for its node. -/
def Partition.without (part : Partition) (nodeNbr : Nat) (lists : List (Nat × Nat)) : Partition where
  ion := part.ion
  routingObject terminusNodeNbr :=
    if (nodeNbr, terminusNodeNbr) ∈ lists then none else part.routingObject terminusNodeNbr

theorem foldl_detach (lists : List (Nat × Nat)) (partitions : Nat → Option Partition) (nodeNbr : Nat) :
    lists.foldl detach partitions nodeNbr = (partitions nodeNbr).map (fun part => part.without nodeNbr lists) := by
  induction lists generalizing partitions with
  | nil =>
    have hid : (fun part : Partition => part.without nodeNbr []) = id := by
      funext part
      simp [Partition.without]
    rw [List.foldl_nil, hid, Option.map_id]
    rfl
  | cons list rest ih =>
    rw [List.foldl_cons, ih, detach]
    by_cases hn : nodeNbr = list.1
    · rw [← hn, Function.update_self, Option.map_map]
      refine congrArg (fun f => (partitions nodeNbr).map f) (funext fun part => ?_)
      simp only [Function.comp, Partition.without, setRoutes, Partition.mk.injEq, true_and]
      funext t
      by_cases ht : t = list.2
      · simp [ht, hn]
      · have hne : ¬ (nodeNbr, t) = list := fun he => ht (congrArg Prod.snd he)
        simp [Function.update_of_ne ht, hne]
    · rw [Function.update_of_ne hn]
      refine congrArg (fun f => (partitions nodeNbr).map f) (funext fun part => ?_)
      simp only [Partition.without, Partition.mk.injEq, true_and]
      funext t
      have hne : ¬ (nodeNbr, t) = list := fun he => hn (congrArg Prod.fst he)
      simp [hne]

/-- What an edit of the node does to the process. -/
theorem editNode_eq_some {p p' : IonProcess} {nodeNbr : Nat} {now : Int} {e : Edit}
    (h : editNode p nodeNbr now e = some p') :
    ∃ part ion, p.partitions nodeNbr = some part ∧ Rfx.edit part.ion (now, e) = some ion ∧
      p' = { p with partitions := Function.update p.partitions nodeNbr (some { part with ion := ion }) } := by
  obtain ⟨part, hpart, h⟩ := Option.bind_eq_some_iff.mp h
  obtain ⟨ion, hion, rfl⟩ := Option.map_eq_some_iff.mp h
  exact ⟨part, ion, hpart, hion, rfl⟩

/-- A call notes the list that it has loaded, and forgets none. -/
theorem keepRoutes_cgrvdb {p : IonProcess} {nodeNbr terminusNodeNbr : Nat} {part : Partition}
    {identified : Identified δ σ} {vdb vdb' : CgrVdb} (hvdb : p.cgrvdb = some vdb)
    (h : (keepRoutes p nodeNbr terminusNodeNbr part identified).cgrvdb = some vdb') :
    vdb'.lastLoadTime = vdb.lastLoadTime ∧ (∀ list ∈ vdb.routeLists, list ∈ vdb'.routeLists) ∧
      (identified.loaded = true → (nodeNbr, terminusNodeNbr) ∈ vdb'.routeLists) := by
  simp only [keepRoutes] at h
  cases hloaded : identified.loaded with
  | true =>
    rw [hloaded, if_pos rfl, hvdb, Option.map_some, Option.some.injEq] at h
    subst h
    exact ⟨rfl, fun list hl => List.mem_append_left _ hl, fun _ => by simp⟩
  | false =>
    rw [hloaded, if_neg (by decide), hvdb, Option.some.injEq] at h
    subst h
    exact ⟨rfl, fun list hl => hl, fun hyes => by cases hyes⟩

/-- Either nothing is due, or every noted list is gone and the load time is now. -/
theorem refresh_cases (p : IonProcess) (vdb : CgrVdb) (lastEditTime now : Int) :
    (lastEditTime ≤ vdb.lastLoadTime ∧ refresh p vdb lastEditTime now = p) ∨
    (vdb.lastLoadTime < lastEditTime ∧
      (∀ n, (refresh p vdb lastEditTime now).partitions n =
        (p.partitions n).map (fun part => part.without n vdb.routeLists)) ∧
      (refresh p vdb lastEditTime now).cgrvdb = some ⟨now, []⟩) := by
  unfold refresh
  split
  · rename_i h
    exact Or.inr ⟨h, fun n => foldl_detach vdb.routeLists p.partitions n, rfl⟩
  · exact Or.inl ⟨by omega, rfl⟩

variable {lookup : CgrLookup δ σ} {bundle : Bundle} {terminusNodeNbr : Nat} {now : Int} {env : σ}

/-- A routing call ends early, or routes the bundle along the list of the terminus node. -/
theorem cgrForward_cases {p p' : IonProcess} {nodeNbr : Nat} {forwarding : Forwarding δ σ}
    (h : cgrForward p nodeNbr lookup bundle terminusNodeNbr now env = some (p', forwarding)) :
    ∃ part vdb, p.partitions nodeNbr = some part ∧ p.cgrvdb = some vdb ∧
      ((p' = p ∧ forwarding = Forwarding.without (-1) env) ∨
        (p' = refresh p vdb part.ion.lastEditTime now ∧ forwarding = Forwarding.without 0 env) ∨
        ∃ part' terminusNode identified,
          (refresh p vdb part.ion.lastEditTime now).partitions nodeNbr = some part' ∧
          identifyProximateNodes part'.ion lookup bundle (excludedNodes bundle terminusNode) terminusNodeNbr now
            (part'.routingObject terminusNodeNbr) env = some identified ∧
          p' = keepRoutes (refresh p vdb part.ion.lastEditTime now) nodeNbr terminusNodeNbr part' identified ∧
          forwarding = Forwarding.of bundle identified) := by
  unfold cgrForward at h
  cases hpart : p.partitions nodeNbr with
  | none => simp [hpart] at h
  | some part =>
    cases hvdb : p.cgrvdb with
    | none => simp [hpart, hvdb] at h
    | some vdb =>
      refine ⟨part, vdb, rfl, rfl, ?_⟩
      simp only [hpart, hvdb] at h
      by_cases hz : terminusNodeNbr = 0
      · rw [if_pos hz, Option.some.injEq, Prod.mk.injEq] at h
        exact Or.inl ⟨h.1.symm, h.2.symm⟩
      · rw [if_neg hz, routeBundle] at h
        obtain ⟨part', hpart', h⟩ := Option.bind_eq_some_iff.mp h
        right
        cases hnode : findNode part'.ion.nodes terminusNodeNbr with
        | none =>
          simp only [hnode, Option.some.injEq, Prod.mk.injEq] at h
          exact Or.inl ⟨h.1.symm, h.2.symm⟩
        | some terminusNode =>
          simp only [hnode] at h
          obtain ⟨identified, hid, he⟩ := Option.map_eq_some_iff.mp h
          obtain ⟨hp', hf⟩ := Prod.mk.inj he
          exact Or.inr ⟨part', terminusNode, identified, hpart', hid, hp'.symm, hf.symm⟩

/-- All routes of all lists in the process have a property. -/
def RoutesAll (P : CgrRoute → Prop) (p : IonProcess) : Prop :=
  ∀ nodeNbr part, p.partitions nodeNbr = some part → ∀ t routes, part.routingObject t = some routes →
    ∀ route ∈ routes, P route

section

variable {P : CgrRoute → Prop}

theorem routesAll_refresh {p : IonProcess} (h : RoutesAll P p) (vdb : CgrVdb) (lastEditTime now : Int) :
    RoutesAll P (refresh p vdb lastEditTime now) := by
  cases refresh_cases p vdb lastEditTime now with
  | inl hkept =>
    rw [hkept.2]
    exact h
  | inr hdue =>
    intro n part hpart t routes hr
    rw [hdue.2.1, Option.map_eq_some_iff] at hpart
    obtain ⟨old, hold, rfl⟩ := hpart
    simp only [Partition.without] at hr
    split at hr
    · cases hr
    · exact h n old hold t routes hr

theorem routesAll_update {p : IonProcess} (h : RoutesAll P p) (nodeNbr : Nat) (part : Partition)
    (cgrvdb : Option CgrVdb)
    (hpart : ∀ t routes, part.routingObject t = some routes → ∀ route ∈ routes, P route) :
    RoutesAll P ⟨Function.update p.partitions nodeNbr (some part), cgrvdb⟩ := by
  intro n part' hpart' t routes hr
  dsimp only at hpart'
  by_cases hn : n = nodeNbr
  · rw [hn, Function.update_self, Option.some.injEq] at hpart'
    rw [← hpart'] at hr
    exact hpart t routes hr
  · rw [Function.update_of_ne hn] at hpart'
    exact h n part' hpart' t routes hr

/-- What holds of every route on record holds of all routes after a call if it did before. -/
theorem routesAll_step (hnew : ∀ s r, OnRecord s r → P r) {p p' : IonProcess} {a : Addressed σ}
    (h : RoutesAll P p) (hs : step lookup p a = some p') : RoutesAll P p' := by
  obtain ⟨⟨p₁, report⟩, hp, rfl⟩ := Option.map_eq_some_iff.mp hs
  obtain ⟨nodeNbr, time, call⟩ := a
  cases call with
  | initializeNode =>
    obtain ⟨rfl, -⟩ := Prod.mk.inj (Option.some.inj hp)
    simp only [initializeNode]
    split
    · exact h
    · exact routesAll_update h nodeNbr _ _ (fun t routes hr => by cases hr)
  | edit e =>
    obtain ⟨p₂, he, hr⟩ := Option.map_eq_some_iff.mp hp
    obtain ⟨rfl, -⟩ := Prod.mk.inj hr
    obtain ⟨old, ion, hold, -, rfl⟩ := editNode_eq_some he
    exact routesAll_update h nodeNbr _ _ (h nodeNbr old hold)
  | cgrForward bundle terminusNodeNbr env =>
    obtain ⟨⟨p₂, forwarding⟩, hf, hr⟩ := Option.map_eq_some_iff.mp hp
    obtain ⟨rfl, -⟩ := Prod.mk.inj hr
    obtain ⟨old, vdb, hold, hvdb, hcases⟩ := cgrForward_cases hf
    have hrefresh := routesAll_refresh h vdb old.ion.lastEditTime time
    obtain ⟨rfl, -⟩ | ⟨rfl, -⟩ | ⟨part', terminusNode, identified, hpart', hid, rfl, -⟩ := hcases
    · exact h
    · exact hrefresh
    · refine routesAll_update hrefresh nodeNbr _ _ (fun t routes hr => ?_)
      by_cases ht : t = terminusNodeNbr
      · rw [ht, setRoutes_self, Option.some.injEq] at hr
        rw [← hr]
        exact (identifyProximateNodes_routes (hnew part'.ion)
          (fun old hobj => hrefresh nodeNbr part' hpart' terminusNodeNbr old hobj) hid).1
      · rw [setRoutes_of_ne part' _ ht] at hr
        exact hrefresh nodeNbr part' hpart' t routes hr

theorem routesAll_run (hnew : ∀ s r, OnRecord s r → P r) {calls : List (Addressed σ)} {p : IonProcess}
    (h : Runs.run (step lookup) IonProcess.start calls = some p) : RoutesAll P p :=
  Runs.run_invariant (fun _ _ _ h hs => routesAll_step hnew h hs) calls _ p
    (fun n part hpart => by cases hpart) h

end

/-- A routing call without a walk selects nothing; any other selects from what its walk has found. -/
theorem cgrForward_walked {P : CgrRoute → Prop} (hnew : ∀ s r, OnRecord s r → P r) {p p' : IonProcess}
    {nodeNbr : Nat} {forwarding : Forwarding δ σ} (hp : RoutesAll P p)
    (h : cgrForward p nodeNbr lookup bundle terminusNodeNbr now env = some (p', forwarding)) :
    (forwarding.selected = [] ∧ forwarding.tried = [] ∧ forwarding.stoppedAt = none ∧ forwarding.env = env) ∨
    ∃ s excludedNodes routes walked, (∀ r ∈ routes, P r) ∧
      walkRoutes s lookup bundle excludedNodes terminusNodeNbr now routes env = some walked ∧
      forwarding.selected = selectProximateNodes bundle walked.proximateNodes ∧
      forwarding.tried = walked.tried ∧ forwarding.stoppedAt = walked.stoppedAt ∧ forwarding.env = walked.env := by
  obtain ⟨part, vdb, -, -, hcases⟩ := cgrForward_cases h
  obtain ⟨-, rfl⟩ | ⟨-, rfl⟩ | ⟨part', terminusNode, identified, hpart', hid, -, rfl⟩ := hcases
  · exact Or.inl ⟨rfl, rfl, rfl, rfl⟩
  · exact Or.inl ⟨rfl, rfl, rfl, rfl⟩
  have hselected : identified.failed = false → (Forwarding.of bundle identified).selected =
      selectProximateNodes bundle identified.walked.proximateNodes := by
    intro hdone
    simp [Forwarding.of, hdone]
  have hrefresh := routesAll_refresh hp vdb part.ion.lastEditTime now
  obtain ⟨routes, hobj, -, hdone, hw⟩ | ⟨-, -, list, hlist, ⟨hdone, hw⟩ | ⟨hfailed, hw⟩⟩ :=
    identifyProximateNodes_cases hid
  · exact Or.inr ⟨part'.ion, _, routes, identified.walked, hrefresh nodeNbr part' hpart' terminusNodeNbr routes hobj,
      hw, hselected hdone, rfl, rfl, rfl⟩
  · exact Or.inr ⟨part'.ion, _, list.routes, identified.walked,
      fun r hr => hnew _ _ (loadRouteList_onRecord hlist r hr), hw, hselected hdone, rfl, rfl, rfl⟩
  · refine Or.inl ⟨by simp [Forwarding.of, hfailed], ?_, ?_, ?_⟩
    · simp [Forwarding.of, Forwarding.tried, hw]
    · simp [Forwarding.of, Forwarding.stoppedAt, hw]
    · simp [Forwarding.of, hw]

/-- A callback that finds the same empty outduct for every node. -/
def openDucts : CgrLookup Unit Unit where
  getDirective _ _ env := (some (), env)
  readOutduct _ _ := ⟨"", false, 2 ^ 30, ⟨0, 0⟩⟩

def bundleTo (destination : Nat) : Bundle := ⟨1, true, destination, true, 1000, 100, true, false, 0, 0, 0⟩

end Process
