import CgrJni.Process
import CgrJni.PlanAhead

/-!
Route lists that are kept from one call to the next, for one node on its own.
When every edit that touches the plan ahead is noticed, no route that is tried
comes from a list older than the plan, and all its contacts are on record.
-/

namespace Freshness

open IonDb Libcgr Rfx RouteLists Forward RouteWalk Process PlanAhead

/-- The process and the clock; for the record also the number of calls so far, the call that
last changed the plan ahead, and the call that loaded each route list. -/
structure Clocked where
  process : IonProcess
  now : Nat
  calls : Nat
  changedAt : Nat
  loadedAt : Nat → Nat

def Clocked.start (nodeNbr now : Nat) : Clocked :=
  ⟨initializeNode IonProcess.start nodeNbr, now, 0, 0, fun _ => 0⟩

inductive Input (σ : Type)
  | tick
  | edit (e : Edit)
  | cgrForward (bundle : Bundle) (terminusNodeNbr : Nat) (env : σ)

variable {δ σ : Type}

def aheadAt (p : IonProcess) (nodeNbr : Nat) (now : Int) : Option (ContactIndex × RangeIndex) :=
  (p.partitions nodeNbr).map (fun part => planAhead now part.ion)

def stepEdit (nodeNbr : Nat) (st : Clocked) (e : Edit) : Option Clocked :=
  (editNode st.process nodeNbr st.now e).map (fun p =>
    { st with
      process := p
      calls := st.calls + 1
      changedAt :=
        if aheadAt p nodeNbr st.now = aheadAt st.process nodeNbr st.now then st.changedAt
        else st.calls + 1 })

def loadedList (forwarding : Forwarding δ σ) : Bool :=
  forwarding.identified.any (fun identified => identified.loaded)

def stepForward (lookup : CgrLookup δ σ) (nodeNbr : Nat) (bundle : Bundle) (terminusNodeNbr : Nat) (env : σ)
    (st : Clocked) : Option (Clocked × Forwarding δ σ) :=
  (Process.cgrForward st.process nodeNbr lookup bundle terminusNodeNbr st.now env).map (fun r =>
    ({ st with
      process := r.1
      calls := st.calls + 1
      loadedAt :=
        if loadedList r.2 then Function.update st.loadedAt terminusNodeNbr (st.calls + 1)
        else st.loadedAt }, r.2))

def step (lookup : CgrLookup δ σ) (nodeNbr : Nat) (st : Clocked) : Input σ → Option Clocked
  | .tick => some { st with now := st.now + 1 }
  | .edit e => stepEdit nodeNbr st e
  | .cgrForward bundle terminusNodeNbr env =>
    (stepForward lookup nodeNbr bundle terminusNodeNbr env st).map Prod.fst

def triedRoutes (forwarding : Forwarding δ σ) : List CgrRoute := forwarding.tried.map Prod.fst

def contactsAt (p : IonProcess) (nodeNbr : Nat) : List IonCXref :=
  match p.partitions nodeNbr with
  | none => []
  | some part => part.ion.contactIndex.entries

/-- After a routing call: the list of the terminus node was loaded after the plan ahead
last changed, and the hops of every route that was tried are still in the index. -/
def TriedFresh (nodeNbr terminusNodeNbr : Nat) (st : Clocked) (forwarding : Forwarding δ σ) : Prop :=
  ∀ route ∈ triedRoutes forwarding, st.changedAt ≤ st.loadedAt terminusNodeNbr ∧
    ∀ c ∈ route.hops, c ∈ contactsAt st.process nodeNbr

instance (nodeNbr terminusNodeNbr : Nat) (st : Clocked) (forwarding : Forwarding δ σ) :
    Decidable (TriedFresh nodeNbr terminusNodeNbr st forwarding) :=
  inferInstanceAs (Decidable (∀ route ∈ triedRoutes forwarding, _))

/-- While route lists are kept and are not due to be discarded, an edit that changes the plan
ahead comes in a later second than the last discarding, no override is silent, and no hop of
a route that is kept is removed in the second in which it ends. -/
def Noticed (nodeNbr : Nat) (st : Clocked) : Input σ → Prop
  | .edit e => ∀ part vdb, st.process.partitions nodeNbr = some part → st.process.cgrvdb = some vdb →
      vdb.routeLists ≠ [] → part.ion.lastEditTime ≤ vdb.lastLoadTime →
      (∀ ion, Rfx.edit part.ion (st.now, e) = some ion →
        planAhead st.now ion ≠ planAhead st.now part.ion → vdb.lastLoadTime < st.now) ∧
      ¬ SilentOverride st.now part.ion e ∧
      ∀ t routes, part.routingObject t = some routes → ∀ route ∈ routes, ∀ c ∈ route.hops,
        ¬ RemovesEnding st.now c e
  | _ => True

/-- The hops of a route are on record, or over by now. -/
structure Valid (now : Int) (ion : IonState) (route : CgrRoute) : Prop where
  hop_mem : ∀ c ∈ route.hops, c ∈ ion.contactIndex ∨ c.toTime < now
  toTime_le : ∀ c ∈ route.hops, route.toTime ≤ c.toTime

theorem valid_of_onRecord {now : Int} {ion : IonState} (route : CgrRoute) (h : OnRecord ion route) :
    Valid now ion route := ⟨fun c hc => Or.inl (h.hop_mem c hc), h.toTime_le⟩

theorem Valid.later {now now' : Int} {ion : IonState} {route : CgrRoute} (h : Valid now ion route)
    (hle : now ≤ now') : Valid now' ion route where
  hop_mem c hc := (h.hop_mem c hc).imp_right (fun hlt => by omega)
  toTime_le := h.toTime_le

/-- The route lists of the node were loaded after the plan ahead last changed. -/
def ListsFresh (st : Clocked) (part : Partition) : Prop :=
  ∀ t routes, part.routingObject t = some routes → st.changedAt ≤ st.loadedAt t ∧
    ∀ route ∈ routes, Valid st.now part.ion route

/-- Lists are noted in the routing database, times are not in the future, and lists that
are not due to be discarded are fresh. -/
structure FreshAt (nodeNbr : Nat) (st : Clocked) (part : Partition) (vdb : CgrVdb) : Prop where
  noted : ∀ t routes, part.routingObject t = some routes → (nodeNbr, t) ∈ vdb.routeLists
  edited : part.ion.lastEditTime ≤ st.now
  loaded : vdb.lastLoadTime ≤ st.now
  current : part.ion.lastEditTime ≤ vdb.lastLoadTime → ListsFresh st part

structure Fresh (nodeNbr : Nat) (st : Clocked) : Prop where
  changed : st.changedAt ≤ st.calls
  fresh_at : ∀ part vdb, st.process.partitions nodeNbr = some part → st.process.cgrvdb = some vdb →
    FreshAt nodeNbr st part vdb

theorem fresh_start (nodeNbr now : Nat) : Fresh nodeNbr (Clocked.start nodeNbr now) := by
  refine ⟨Nat.le_refl _, fun part vdb hpart hvdb => ?_⟩
  by_cases h0 : nodeNbr = 0
  · simp [Clocked.start, initializeNode, h0, IonProcess.start] at hpart
  · have hp : initializeNode IonProcess.start nodeNbr =
        ⟨Function.update IonProcess.start.partitions nodeNbr (some (Partition.new nodeNbr)), some ⟨0, []⟩⟩ :=
      if_neg h0
    simp only [Clocked.start, hp, Function.update_self, Option.some.injEq] at hpart hvdb
    subst hpart hvdb
    refine ⟨fun t routes hr => ?_, ?_, ?_, fun _ t routes hr => ?_⟩
    · cases hr
    · exact Int.natCast_nonneg now
    · exact Int.natCast_nonneg now
    · cases hr

theorem fresh_tick {nodeNbr : Nat} {st : Clocked} (h : Fresh nodeNbr st) :
    Fresh nodeNbr { st with now := st.now + 1 } := by
  refine ⟨h.changed, fun part vdb hpart hvdb => ?_⟩
  obtain ⟨hnoted, hedited, hloaded, hcurrent⟩ := h.fresh_at part vdb hpart hvdb
  refine ⟨hnoted, ?_, ?_, fun hle t routes hr => ?_⟩
  · show part.ion.lastEditTime ≤ ((st.now + 1 : Nat) : Int)
    omega
  · show vdb.lastLoadTime ≤ ((st.now + 1 : Nat) : Int)
    omega
  · obtain ⟨hload, hvalid⟩ := hcurrent hle t routes hr
    refine ⟨hload, fun route hroute => (hvalid route hroute).later ?_⟩
    show (st.now : Int) ≤ ((st.now + 1 : Nat) : Int)
    omega

theorem fresh_edit {nodeNbr : Nat} {st st' : Clocked} {e : Edit} (h : Fresh nodeNbr st)
    (hnoticed : Noticed (σ := σ) nodeNbr st (.edit e)) (hstep : stepEdit nodeNbr st e = some st') :
    Fresh nodeNbr st' := by
  obtain ⟨p, hp, rfl⟩ := Option.map_eq_some_iff.mp hstep
  obtain ⟨part, ion, hpart, hion, rfl⟩ := editNode_eq_some hp
  refine ⟨?_, ?_⟩
  · have hle := h.changed
    dsimp only
    split
    · omega
    · exact Nat.le_refl _
  intro part' vdb hpart' hvdb
  simp only [Function.update_self, Option.some.injEq] at hpart'
  subst hpart'
  obtain ⟨hnoted, hedited, hloaded, hcurrent⟩ := h.fresh_at part vdb hpart hvdb
  have hlast := lastEditTime_edit hion
  refine ⟨hnoted, ?_, hloaded, fun hle t routes hr => ?_⟩
  · show ion.lastEditTime ≤ (st.now : Int)
    rcases hlast with hlast | hlast <;> omega
  · -- no list is kept, or they stay due, or the edit left the plan ahead alone
    have hne : vdb.routeLists ≠ [] := List.ne_nil_of_mem (hnoted t routes hr)
    have hle' : ion.lastEditTime ≤ vdb.lastLoadTime := hle
    have hcur : part.ion.lastEditTime ≤ vdb.lastLoadTime := by
      rcases hlast with hlast | hlast <;> omega
    obtain ⟨hlater, hloud, hending⟩ := hnoticed part vdb hpart hvdb hne hcur
    have hplan : planAhead st.now ion = planAhead st.now part.ion := by
      by_contra hchanged
      have hlt := hlater ion hion hchanged
      cases (timed_edit hion hloud).planAhead with
      | inl htime => omega
      | inr hsame => exact hchanged hsame
    have hahead : aheadAt { st.process with
        partitions := Function.update st.process.partitions nodeNbr (some { part with ion := ion }) }
        nodeNbr st.now = aheadAt st.process nodeNbr st.now := by
      simp only [aheadAt, Function.update_self, Option.map_some, hpart, hplan]
    obtain ⟨hload, hvalid⟩ := hcurrent hcur t routes hr
    refine ⟨?_, fun route hroute => ?_⟩
    · dsimp only
      rw [if_pos hahead]
      exact hload
    · obtain ⟨hmem, hto⟩ := hvalid route hroute
      refine ⟨fun c hc => ?_, hto⟩
      cases hmem c hc with
      | inl hin => exact contact_kept hion hplan (hending t routes hr route hroute c hc) hin
      | inr hover => exact Or.inr hover

/-- Before a bundle is routed, all lists that are kept are fresh. -/
theorem refresh_fresh {nodeNbr : Nat} {st : Clocked} {part : Partition} {vdb : CgrVdb}
    (h : FreshAt nodeNbr st part vdb) (hpart : st.process.partitions nodeNbr = some part)
    (hvdb : st.process.cgrvdb = some vdb) {part' : Partition}
    (hpart' : (refresh st.process vdb part.ion.lastEditTime st.now).partitions nodeNbr = some part') :
    part'.ion = part.ion ∧ ListsFresh st part' ∧
      ∃ vdb', (refresh st.process vdb part.ion.lastEditTime st.now).cgrvdb = some vdb' ∧
        vdb'.lastLoadTime ≤ st.now ∧
        ∀ t routes, part'.routingObject t = some routes → (nodeNbr, t) ∈ vdb'.routeLists := by
  rcases refresh_cases st.process vdb part.ion.lastEditTime st.now with ⟨hle, he⟩ | ⟨-, hparts, hv⟩
  · rw [he] at hpart' ⊢
    rw [hpart, Option.some.injEq] at hpart'
    subst hpart'
    exact ⟨rfl, h.current hle, vdb, hvdb, h.loaded, h.noted⟩
  · rw [hparts, hpart, Option.map_some, Option.some.injEq] at hpart'
    subst hpart'
    have hnone : ∀ t routes, (part.without nodeNbr vdb.routeLists).routingObject t ≠ some routes := by
      intro t routes hr
      simp only [Partition.without] at hr
      split at hr
      · cases hr
      · rename_i hno
        exact hno (h.noted t routes hr)
    refine ⟨rfl, fun t routes hr => absurd hr (hnone t routes), ⟨st.now, []⟩, hv, Int.le_refl _, ?_⟩
    intro t routes hr
    exact absurd hr (hnone t routes)

section

variable {lookup : CgrLookup δ σ} {nodeNbr terminusNodeNbr : Nat} {bundle : Bundle} {env : σ} {st : Clocked}
variable {part : Partition} {nodes : List Nat} {identified : Identified δ σ}

/-- The list that a routing call goes through was loaded after the last change, or right now. -/
theorem changedAt_le_loadedAt (hchanged : st.changedAt ≤ st.calls) (hfresh : ListsFresh st part)
    (hid : identifyProximateNodes part.ion lookup bundle nodes terminusNodeNbr st.now
      (part.routingObject terminusNodeNbr) env = some identified) :
    st.changedAt ≤ (if identified.loaded then
      Function.update st.loadedAt terminusNodeNbr (st.calls + 1) else st.loadedAt) terminusNodeNbr := by
  rcases identifyProximateNodes_cases hid with ⟨routes, hobj, hno, -, -⟩ | ⟨-, hyes, -⟩
  · rw [hno, if_neg (by simp)]
    exact (hfresh terminusNodeNbr routes hobj).1
  · rw [hyes, if_pos rfl, Function.update_self]
    omega

/-- A list that was noted stays so, and one that is loaded is noted. -/
theorem noted_keepRoutes {p : IonProcess} {vdb vdb' : CgrVdb} (hvdb : p.cgrvdb = some vdb)
    (hnoted : ∀ t routes, part.routingObject t = some routes → (nodeNbr, t) ∈ vdb.routeLists)
    (hid : identifyProximateNodes part.ion lookup bundle nodes terminusNodeNbr st.now
      (part.routingObject terminusNodeNbr) env = some identified)
    (hkept : (keepRoutes p nodeNbr terminusNodeNbr part identified).cgrvdb = some vdb') {t : Nat}
    {routes : List CgrRoute}
    (hr : (setRoutes part terminusNodeNbr (some identified.walked.routes)).routingObject t = some routes) :
    (nodeNbr, t) ∈ vdb'.routeLists := by
  obtain ⟨-, hsub, hnew⟩ := keepRoutes_cgrvdb hvdb hkept
  by_cases ht : t = terminusNodeNbr
  · subst ht
    rcases identifyProximateNodes_cases hid with ⟨old, hobj, -, -, -⟩ | ⟨-, hyes, -⟩
    · exact hsub _ (hnoted t old hobj)
    · exact hnew hyes
  · rw [setRoutes_of_ne part _ ht] at hr
    exact hsub _ (hnoted t routes hr)

/-- The routes that are left of the list of the terminus node are fresh, and the other lists
are as they were. -/
theorem listsFresh_setRoutes (hchanged : st.changedAt ≤ st.calls) (hfresh : ListsFresh st part)
    (hid : identifyProximateNodes part.ion lookup bundle nodes terminusNodeNbr st.now
      (part.routingObject terminusNodeNbr) env = some identified)
    (hleft : ∀ route ∈ identified.walked.routes, Valid st.now part.ion route) {t : Nat} {routes : List CgrRoute}
    (hr : (setRoutes part terminusNodeNbr (some identified.walked.routes)).routingObject t = some routes) :
    st.changedAt ≤ (if identified.loaded then
        Function.update st.loadedAt terminusNodeNbr (st.calls + 1) else st.loadedAt) t ∧
      ∀ route ∈ routes, Valid st.now part.ion route := by
  by_cases ht : t = terminusNodeNbr
  · subst ht
    rw [setRoutes_self, Option.some.injEq] at hr
    subst hr
    exact ⟨changedAt_le_loadedAt hchanged hfresh hid, hleft⟩
  · rw [setRoutes_of_ne part _ ht] at hr
    obtain ⟨hold, hvalid⟩ := hfresh t routes hr
    refine ⟨?_, hvalid⟩
    split
    · rw [Function.update_of_ne ht]
      exact hold
    · exact hold

end

/-- A routing call keeps the lists fresh, and tries no route that is not. -/
theorem fresh_forward {lookup : CgrLookup δ σ} {nodeNbr : Nat} {bundle : Bundle} {terminusNodeNbr : Nat}
    {env : σ} {st st' : Clocked} {forwarding : Forwarding δ σ} (h : Fresh nodeNbr st)
    (hstep : stepForward lookup nodeNbr bundle terminusNodeNbr env st = some (st', forwarding)) :
    Fresh nodeNbr st' ∧ TriedFresh nodeNbr terminusNodeNbr st' forwarding := by
  obtain ⟨⟨p, f⟩, hf, he⟩ := Option.map_eq_some_iff.mp hstep
  obtain ⟨hst, rfl⟩ := Prod.mk.inj he
  subst hst
  have hchanged := h.changed
  obtain ⟨part, vdb, hpart, hvdb, hcases⟩ := cgrForward_cases hf
  have hat := h.fresh_at part vdb hpart hvdb
  rcases hcases with ⟨rfl, rfl⟩ | ⟨rfl, rfl⟩ | ⟨part', terminusNode, identified, hpart', hid, rfl, rfl⟩
  · refine ⟨⟨Nat.le_succ_of_le hchanged, fun part₁ vdb₁ h₁ h₂ => ?_⟩, ?_⟩
    · obtain ⟨hnoted, hedited, hloaded, hcurrent⟩ := h.fresh_at part₁ vdb₁ h₁ h₂
      exact ⟨hnoted, hedited, hloaded, hcurrent⟩
    · intro route hr
      cases hr
  · refine ⟨⟨Nat.le_succ_of_le hchanged, fun part₁ vdb₁ h₁ h₂ => ?_⟩, ?_⟩
    · obtain ⟨hion, hfresh, vdb', hv', hload, hnoted⟩ := refresh_fresh hat hpart hvdb h₁
      have hvv : some vdb' = some vdb₁ := hv'.symm.trans h₂
      obtain rfl := Option.some.inj hvv
      exact ⟨hnoted, hion ▸ hat.edited, hload, fun _ => hfresh⟩
    · intro route hr
      cases hr
  · obtain ⟨hion, hfresh, vdb', hv', hload, hnoted⟩ := refresh_fresh hat hpart hvdb hpart'
    obtain ⟨hleft, htried⟩ := identifyProximateNodes_routes (P := Valid st.now part'.ion)
      valid_of_onRecord (fun routes hr => (hfresh terminusNodeNbr routes hr).2) hid
    refine ⟨⟨Nat.le_succ_of_le hchanged, fun part₁ vdb₁ h₁ h₂ => ?_⟩, ?_⟩
    · simp only [keepRoutes, Function.update_self, Option.some.injEq] at h₁
      subst h₁
      have hlast := (keepRoutes_cgrvdb hv' h₂).1
      refine ⟨fun t routes hr => noted_keepRoutes hv' hnoted hid h₂ hr, ?_, ?_,
        fun _ t routes hr => listsFresh_setRoutes hchanged hfresh hid hleft hr⟩
      · show part'.ion.lastEditTime ≤ (st.now : Int)
        rw [hion]
        exact hat.edited
      · show vdb₁.lastLoadTime ≤ (st.now : Int)
        omega
    · intro route hr
      obtain ⟨trial, htrial, rfl⟩ := List.mem_map.mp hr
      obtain ⟨hvalid, hopen, -⟩ := htried trial htrial
      refine ⟨changedAt_le_loadedAt hchanged hfresh hid, fun c hc => ?_⟩
      have hmem : c ∈ part'.ion.contactIndex := by
        cases hvalid.hop_mem c hc with
        | inl hin => exact hin
        | inr hover =>
          have hto := hvalid.toTime_le c hc
          omega
      simp only [contactsAt, keepRoutes, Function.update_self]
      exact hmem

theorem fresh_step {lookup : CgrLookup δ σ} {nodeNbr : Nat} {st st' : Clocked} {input : Input σ}
    (h : Fresh nodeNbr st) (hnoticed : Noticed nodeNbr st input)
    (hstep : step lookup nodeNbr st input = some st') : Fresh nodeNbr st' := by
  cases input with
  | tick => exact Option.some.inj hstep ▸ fresh_tick h
  | edit e => exact fresh_edit h hnoticed hstep
  | cgrForward bundle terminusNodeNbr env =>
    obtain ⟨⟨st₁, forwarding⟩, hf, rfl⟩ := Option.map_eq_some_iff.mp hstep
    exact (fresh_forward h hf).1

/-- In a run whose edits are all noticed, a routing call only tries routes of a list that was
loaded after the plan ahead last changed, and only routes whose hops are all in the index. -/
theorem routes_tried_are_fresh (lookup : CgrLookup δ σ) (nodeNbr now : Nat) (inputs : List (Input σ))
    (st : Clocked) (hrun : Runs.run (step lookup nodeNbr) (Clocked.start nodeNbr now) inputs = some st)
    (hnoticed : Runs.StepsMeet (step lookup nodeNbr) (Noticed nodeNbr) (Clocked.start nodeNbr now) inputs)
    (bundle : Bundle) (terminusNodeNbr : Nat) (env : σ) (st' : Clocked) (forwarding : Forwarding δ σ)
    (hforward : stepForward lookup nodeNbr bundle terminusNodeNbr env st = some (st', forwarding)) :
    TriedFresh nodeNbr terminusNodeNbr st' forwarding := by
  have hfresh : Fresh nodeNbr st :=
    Runs.run_conforming (fun _ _ _ h hok hs => fresh_step h hok hs) inputs _ st (fresh_start nodeNbr now)
      hnoticed hrun
  exact (fresh_forward hfresh hforward).2

/-- An insertion of a contact in the first call after a clock tick is noticed. -/
theorem noticed_after_tick {nodeNbr : Nat} {st : Clocked} (h : Fresh nodeNbr st) (fromTime toTime : Int)
    (fromNode toNode xmitRate : Nat) (prob : ℚ) :
    Noticed (σ := σ) nodeNbr { st with now := st.now + 1 }
      (.edit (.insertContact fromTime toTime fromNode toNode xmitRate prob)) := by
  intro part vdb hpart hvdb _ _
  have hloaded := (h.fresh_at part vdb hpart hvdb).loaded
  refine ⟨fun _ _ _ => ?_, fun hs => hs, fun _ _ _ _ _ _ _ hr => hr⟩
  show vdb.lastLoadTime < ((st.now + 1 : Nat) : Int)
  omega

/-- As long as no route list is kept, every edit is noticed. -/
theorem noticed_of_none {nodeNbr : Nat} {st : Clocked} (h : st.process.cgrvdb.map CgrVdb.routeLists = some [])
    (e : Edit) : Noticed (σ := σ) nodeNbr st (.edit e) := by
  intro part vdb _ hvdb hne
  rw [hvdb, Option.map_some, Option.some.injEq] at h
  exact absurd h hne

theorem stepEdit_cgrvdb {nodeNbr : Nat} {st st' : Clocked} {e : Edit} (h : stepEdit nodeNbr st e = some st') :
    st'.process.cgrvdb = st.process.cgrvdb := by
  obtain ⟨p, hp, rfl⟩ := Option.map_eq_some_iff.mp h
  obtain ⟨part, ion, -, -, rfl⟩ := editNode_eq_some hp
  rfl

/-- A contact from node 1 to node 2 with its range, and a bundle routed over it. -/
def planAndRoute : List (Input Unit) :=
  [.edit (.insertContact 10 100 1 2 1000 1), .edit (.insertRange 10 100 1 2 3), .cgrForward (bundleTo 2) 2 ()]

theorem planAndRoute_noticed (rest : List (Input Unit))
    (hrest : ∀ st, Fresh 1 st → Runs.StepsMeet (step openDucts 1) (Noticed 1) st rest) :
    Runs.StepsMeet (step openDucts 1) (Noticed 1) (Clocked.start 1 10) (planAndRoute ++ rest) := by
  have hstart : (Clocked.start 1 10).process.cgrvdb.map CgrVdb.routeLists = some [] := rfl
  refine ⟨noticed_of_none hstart _, fun st₁ h₁ => ?_⟩
  have hnone : st₁.process.cgrvdb.map CgrVdb.routeLists = some [] := by
    rw [stepEdit_cgrvdb h₁]
    exact hstart
  have hfresh₁ := fresh_step (fresh_start 1 10) (noticed_of_none hstart _) h₁
  refine ⟨noticed_of_none hnone _, fun st₂ h₂ => ?_⟩
  have hfresh₂ := fresh_step hfresh₁ (noticed_of_none hnone _) h₂
  have hforward : Noticed 1 st₂ (.cgrForward (bundleTo 2) 2 ()) := trivial
  exact ⟨hforward, fun st₃ h₃ => hrest st₃ (fresh_step hfresh₂ hforward h₃)⟩

theorem routes_tried_are_fresh_after_tick :
    ∃ st st' forwarding, Runs.run (step openDucts 1) (Clocked.start 1 10)
        (planAndRoute ++ [.tick, .edit (.insertContact 10 100 1 3 1000 1)]) = some st ∧
      stepForward openDucts 1 (bundleTo 2) 2 () st = some (st', forwarding) ∧
      triedRoutes forwarding ≠ [] ∧ TriedFresh 1 2 st' forwarding := by
  have hsome : ((Runs.run (step openDucts 1) (Clocked.start 1 10)
      (planAndRoute ++ [.tick, .edit (.insertContact 10 100 1 3 1000 1)])).bind
      (stepForward openDucts 1 (bundleTo 2) 2 ())).any (fun r => !(triedRoutes r.2).isEmpty) = true := by
    decide +kernel
  obtain ⟨⟨st', forwarding⟩, hr, htried⟩ := (Option.any_eq_true _ _).mp hsome
  obtain ⟨st, hrun, hforward⟩ := Option.bind_eq_some_iff.mp hr
  refine ⟨st, st', forwarding, hrun, hforward, by simpa using htried, ?_⟩
  refine routes_tried_are_fresh openDucts 1 10 _ st hrun (planAndRoute_noticed _ (fun st₃ h₃ => ?_)) (bundleTo 2) 2
    () st' forwarding hforward
  refine ⟨trivial, fun st₄ h₄ => ⟨?_, fun _ _ => trivial⟩⟩
  obtain rfl := Option.some.inj h₄
  exact noticed_after_tick h₃ 10 100 1 3 1000 1

/-- The contact is removed in the second in which the list was loaded: the removal is not
noticed, and a route over the contact that is gone is tried. -/
theorem stale_route_tried :
    ¬ ∀ (inputs : List (Input Unit)) (st st' : Clocked) (forwarding : Forwarding Unit Unit),
      Runs.run (step openDucts 1) (Clocked.start 1 10) inputs = some st →
      stepForward openDucts 1 (bundleTo 2) 2 () st = some (st', forwarding) →
      TriedFresh 1 2 st' forwarding := by
  intro hall
  have hstale : ((Runs.run (step openDucts 1) (Clocked.start 1 10)
      (planAndRoute ++ [.edit (.removeContact 10 1 2)])).bind
      (stepForward openDucts 1 (bundleTo 2) 2 ())).any (fun r => !decide (TriedFresh 1 2 r.1 r.2)) = true := by
    decide +kernel
  obtain ⟨⟨st', forwarding⟩, hr, hno⟩ := (Option.any_eq_true _ _).mp hstale
  obtain ⟨st, hrun, hforward⟩ := Option.bind_eq_some_iff.mp hr
  have hyes := hall _ st st' forwarding hrun hforward
  simp [hyes] at hno

end Freshness
