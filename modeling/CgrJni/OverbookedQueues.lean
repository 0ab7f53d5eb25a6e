import CgrJni.Overbooking
import CgrJni.SdrList

/-!
The management of overbooking over the queues of an outduct. The ordinal up to
which urgent bundles may be bumped is read from a buffer that holds no bundle
yet, not from the new bundle; what it holds then is an argument.
-/

namespace OverbookedQueues

open IonDb Scalar
open Forward (Bundle ProximateNode computeECCC guessBundleSize)

/-- A bundle with its class of service and its place in a queue. -/
structure QueuedBundle extends Bundle where
  cosFlags : Nat
  ordinal : Fin 256
  ductXmitElt : Object

def QueuedBundle.priority (bundle : QueuedBundle) : Nat := bundle.cosFlags &&& 0x03

def QueuedBundle.eccc (bundle : QueuedBundle) : Int := computeECCC (guessBundleSize bundle.toBundle)

structure OrdinalState where
  backlog : Scalar
  lastForOrdinal : Object

structure Outduct where
  bulkQueue : SdrList
  bulkBacklog : Scalar
  stdQueue : SdrList
  stdBacklog : Scalar
  urgentQueue : SdrList
  urgentBacklog : Scalar
  ordinals : Fin 256 → OrdinalState

/-- The queue that a queue index stands for. -/
def Outduct.queue (outduct : Outduct) : Nat → SdrList
  | 0 => outduct.bulkQueue
  | 1 => outduct.stdQueue
  | _ => outduct.urgentQueue

structure QueueControl where
  currentElt : Object
  limitElt : Object

def higherInUse (outduct : Outduct) (ordinal i : Fin 256) : Bool :=
  ordinal < i ∧ (outduct.ordinals i).lastForOrdinal ≠ 0

def getUrgentLimitElt (outduct : Outduct) (ordinal : Fin 256) : Object :=
  match (List.finRange 256).find? (higherInUse outduct ordinal) with
  | some i => outduct.urgentQueue.next (outduct.ordinals i).lastForOrdinal
  | none => outduct.urgentQueue.first

/-- The controls are those from the queue index on. -/
def nextBundle (outduct : Outduct) : Nat → List QueueControl → Object × Nat × List QueueControl
  | queueIdx, [] => (0, queueIdx, [])
  | queueIdx, queue :: rest =>
    if queue.currentElt = 0 then nextBundle outduct (queueIdx + 1) rest
    else
      (queue.currentElt, queueIdx,
        { queue with
          currentElt := if queue.currentElt = queue.limitElt then 0
            else (outduct.queue queueIdx).prev queue.currentElt } :: rest)

/-- The outduct and the bundles while overbooking is managed, with a record of
the elements visited and of the bundles forwarded again. -/
structure Managing where
  outduct : Outduct
  bundles : Object → QueuedBundle
  queueIdx : Nat
  queueControls : List QueueControl
  protect : Int
  overbooked : Int
  visited : List Object
  reforwarded : List Object

/-- The accounts of the outduct without the bundle. -/
def reduceBacklog (outduct : Outduct) (bundle : QueuedBundle) : Outduct :=
  match bundle.priority with
  | 0 => { outduct with bulkBacklog := reduceScalar outduct.bulkBacklog bundle.eccc }
  | 1 => { outduct with stdBacklog := reduceScalar outduct.stdBacklog bundle.eccc }
  | _ =>
    let ord := outduct.ordinals bundle.ordinal
    { outduct with
      ordinals := Function.update outduct.ordinals bundle.ordinal
        ⟨reduceScalar ord.backlog bundle.eccc,
          if ord.lastForOrdinal = bundle.ductXmitElt then 0 else ord.lastForOrdinal⟩
      urgentBacklog := reduceScalar outduct.urgentBacklog bundle.eccc }

def deleteElt (outduct : Outduct) (elt : Object) : Outduct :=
  { outduct with
    bulkQueue := outduct.bulkQueue.delete elt
    stdQueue := outduct.stdQueue.delete elt
    urgentQueue := outduct.urgentQueue.delete elt }

def removeBundleFromQueue (s : Managing) (bundleObj : Object) : Managing :=
  let bundle := s.bundles bundleObj
  { s with
    outduct := deleteElt (reduceBacklog s.outduct bundle) bundle.ductXmitElt
    bundles := Function.update s.bundles bundleObj { bundle with ductXmitElt := 0 } }

/-- A stub, which always succeeds. -/
def bpReforwardBundle (s : Managing) (bundleObj : Object) : Managing :=
  { s with reforwarded := s.reforwarded ++ [bundleObj] }

def manageRound (s : Managing) : Managing ⊕ Managing :=
  if 0 < s.overbooked then
    match nextBundle s.outduct s.queueIdx s.queueControls with
    | (elt, queueIdx, queueControls) =>
      let s := { s with queueIdx := queueIdx, queueControls := queueControls }
      if elt = 0 then .inr s
      else
        let s := { s with visited := s.visited ++ [elt] }
        let bundleObj := (s.outduct.queue queueIdx).data elt
        let eccc := (s.bundles bundleObj).eccc
        if 0 < s.protect then .inl { s with protect := s.protect - eccc }
        else
          let s := bpReforwardBundle (removeBundleFromQueue s bundleObj) bundleObj
          .inl { s with overbooked := s.overbooked - eccc }
  else .inr s

/-- Lower priorities come first; urgent bundles only if the ordinal read is not zero. -/
def startControls (outduct : Outduct) (priority : Nat) (ordinal : Fin 256) : List QueueControl :=
  [⟨outduct.bulkQueue.last, outduct.bulkQueue.first⟩,
    if 1 < priority then ⟨outduct.stdQueue.last, outduct.stdQueue.first⟩ else ⟨0, 0⟩,
    if 1 < priority ∧ 0 < ordinal then ⟨outduct.urgentQueue.last, getUrgentLimitElt outduct ordinal⟩ else ⟨0, 0⟩]

section

variable {δ : Type}

/-- `stale` is the ordinal in the buffer that no bundle has been read into; the
outduct is the one that the directive for the neighbor names. -/
def manageOverbooking (neighbor : ProximateNode δ) (directive : Option δ) (newBundle : QueuedBundle)
    (stale : Fin 256) (outduct : Outduct) (bundles : Object → QueuedBundle) : Option Managing :=
  let s : Managing := ⟨outduct, bundles, 0, startControls outduct newBundle.priority stale,
    intValue neighbor.protect, intValue neighbor.overbooked, [], []⟩
  if newBundle.priority = 0 then some s
  else if intValue neighbor.overbooked = 0 then some s
  else
    match directive with
    | none => some s
    | some _ =>
      Runs.loop manageRound
        (outduct.bulkQueue.length + outduct.stdQueue.length + outduct.urgentQueue.length + 1) s

end

/-- All elements of the queues of an outduct. -/
def Outduct.elements (outduct : Outduct) : SdrList :=
  outduct.bulkQueue ++ outduct.stdQueue ++ outduct.urgentQueue

/-- Each bundle is in the queue of its priority, the urgent ones by descending ordinal. -/
structure Ordered (outduct : Outduct) (bundles : Object → QueuedBundle) : Prop where
  distinct : outduct.elements.Distinct
  linked : ∀ e ∈ outduct.elements, (bundles e.2).ductXmitElt = e.1
  bulk : ∀ e ∈ outduct.bulkQueue, (bundles e.2).priority = 0
  std : ∀ e ∈ outduct.stdQueue, (bundles e.2).priority = 1
  urgent : ∀ e ∈ outduct.urgentQueue, 1 < (bundles e.2).priority
  descending : outduct.urgentQueue.Pairwise (fun a b => (bundles b.2).ordinal ≤ (bundles a.2).ordinal)
  lastForOrdinal : ∀ i, (outduct.ordinals i).lastForOrdinal =
    SdrList.last (outduct.urgentQueue.filter (fun e => (bundles e.2).ordinal = i))

/-- Of a lower priority, or urgent with an ordinal that is not greater. -/
def LessUrgent (bundle newBundle : QueuedBundle) : Prop :=
  bundle.priority < newBundle.priority ∨ (1 < bundle.priority ∧ bundle.ordinal ≤ newBundle.ordinal)

/-- Only less urgent bundles are forwarded again, and the queues are scanned one after
the other from their ends, no element twice. -/
structure BumpsLessUrgent (outduct : Outduct) (bundles : Object → QueuedBundle) (newBundle : QueuedBundle)
    (s : Managing) : Prop where
  bumped : ∀ bundleObj ∈ s.reforwarded, LessUrgent (bundles bundleObj) newBundle
  once : s.visited.Nodup
  order : s.visited <+: (outduct.bulkQueue.reverse ++ (outduct.stdQueue.reverse ++
    outduct.urgentQueue.reverse)).map Prod.fst

/-- The scan does not come to a bundle that is more urgent: there is none, or its
ordinal is above the one read and that of some other urgent bundle is not. -/
def SparesMoreUrgent (outduct : Outduct) (bundles : Object → QueuedBundle) (newBundle : QueuedBundle)
    (stale : Fin 256) : Prop :=
  newBundle.priority ≤ 1 ∨ stale = 0 ∨ ∀ e ∈ outduct.urgentQueue, LessUrgent (bundles e.2) newBundle ∨
    (stale < (bundles e.2).ordinal ∧ ∃ e' ∈ outduct.urgentQueue, (bundles e'.2).ordinal ≤ stale)

variable {control : QueueControl} {l seg : SdrList} {e : Object × Object} {elt : Object}
  {outduct : Outduct} {bundles : Object → QueuedBundle}

/-- The elements of a queue from the limit up to the current one, still to be visited. -/
structure Scanning (control : QueueControl) (l seg : SdrList) : Prop where
  current : control.currentElt = seg.last
  limit : ∃ pre post, l = pre ++ seg ++ post ∧
    (seg = [] ∨ control.limitElt = seg.first ∨ (control.limitElt = 0 ∧ pre = []))

/-- The step to the element before, in a queue that has not changed. -/
theorem Scanning.step (h : Scanning control l (seg ++ [e])) (hl : l.Distinct) :
    Scanning { control with
      currentElt := if control.currentElt = control.limitElt then 0 else l.prev control.currentElt } l seg := by
  obtain ⟨pre, post, rfl, hlimit⟩ := h.limit
  have hcurrent := h.current
  rw [SdrList.last_concat] at hcurrent
  have hsplit : pre ++ (seg ++ [e]) ++ post = (pre ++ seg) ++ e :: post := by simp
  rw [hsplit] at hl ⊢
  have hprev := hl.prev_eq
  have hnot := hl.ne_of_append.1
  have hne : e.1 ≠ 0 := hl.nonzero e (by simp)
  replace hlimit := hlimit.resolve_left (by simp)
  refine ⟨?_, pre, e :: post, by simp, ?_⟩
  · dsimp only
    rw [hcurrent, hprev]
    by_cases hseg : seg = []
    · subst hseg
      rcases hlimit with hfirst | ⟨hzero, rfl⟩
      · rw [hfirst]
        simp
      · rw [hzero, if_neg hne]
        simp
    · have hother : e.1 ≠ control.limitElt := by
        rcases hlimit with hfirst | ⟨hzero, -⟩
        · rw [hfirst, SdrList.first_append_of_ne hseg]
          obtain ⟨a, rest, rfl⟩ := List.exists_cons_of_ne_nil hseg
          exact (hnot a (by simp)).symm
        · rw [hzero]
          exact hne
      rw [if_neg hother, SdrList.last_append_of_ne hseg]
  · by_cases hseg : seg = []
    · exact Or.inl hseg
    · rcases hlimit with hfirst | hzero
      · rw [SdrList.first_append_of_ne hseg] at hfirst
        exact Or.inr (Or.inl hfirst)
      · exact Or.inr (Or.inr hzero)

/-- A queue may lose an element that has been visited or is not to be. -/
theorem Scanning.delete (h : Scanning control l seg) (helt : elt ∉ seg.map Prod.fst) :
    Scanning control (l.delete elt) seg := by
  obtain ⟨pre, post, rfl, hlimit⟩ := h.limit
  refine ⟨h.current, SdrList.delete pre elt, SdrList.delete post elt, ?_, ?_⟩
  · rw [SdrList.delete_append, SdrList.delete_append, SdrList.delete_of_notMem helt]
  · refine hlimit.imp_right (Or.imp_right (fun hzero => ⟨hzero.1, ?_⟩))
    rw [hzero.2]
    rfl

/-- The elements still to be visited, in the order of the scan. -/
def Remaining (outduct : Outduct) : Nat → List QueueControl → SdrList → Prop
  | _, [], remaining => remaining = []
  | queueIdx, control :: rest, remaining => ∃ seg later, remaining = seg.reverse ++ later ∧
    Scanning control (outduct.queue queueIdx) seg ∧ Remaining outduct (queueIdx + 1) rest later

/-- What `nextBundle` hands out is the next one of them. -/
theorem nextBundle_cases (hd : ∀ queueIdx, (outduct.queue queueIdx).Distinct) (queueIdx : Nat)
    (controls : List QueueControl) (remaining : SdrList) (h : Remaining outduct queueIdx controls remaining) :
    (remaining = [] ∧ (nextBundle outduct queueIdx controls).1 = 0) ∨
    ∃ e later queueIdx' controls', remaining = e :: later ∧ e.1 ≠ 0 ∧
      nextBundle outduct queueIdx controls = (e.1, queueIdx', controls') ∧
      e ∈ outduct.queue queueIdx' ∧ Remaining outduct queueIdx' controls' later := by
  induction controls generalizing queueIdx remaining with
  | nil => exact Or.inl ⟨h, rfl⟩
  | cons control rest ih =>
    obtain ⟨seg, later, rfl, hscan, hrest⟩ := h
    rw [nextBundle]
    obtain ⟨pre, post, hqueue, -⟩ := hscan.limit
    rcases List.eq_nil_or_concat' seg with rfl | ⟨seg, e, rfl⟩
    · have hcurrent : control.currentElt = 0 := hscan.current
      rw [if_pos hcurrent]
      exact ih (queueIdx + 1) later hrest
    · have hmem : e ∈ outduct.queue queueIdx := by
        rw [hqueue]
        simp
      have hne := (hd queueIdx).nonzero e hmem
      have hcurrent := hscan.current
      rw [SdrList.last_concat] at hcurrent
      have hstep := hscan.step (hd queueIdx)
      rw [if_neg (by rw [hcurrent]; exact hne)]
      have hremaining : Remaining outduct queueIdx ({ control with
          currentElt := if control.currentElt = control.limitElt then 0
            else (outduct.queue queueIdx).prev control.currentElt } :: rest) (seg.reverse ++ later) :=
        ⟨seg, later, rfl, hstep, hrest⟩
      exact Or.inr ⟨e, seg.reverse ++ later, queueIdx, _, by simp, hne, by rw [hcurrent], hmem, hremaining⟩

theorem deleteElt_queue (outduct : Outduct) (elt : Object) (queueIdx : Nat) :
    (deleteElt outduct elt).queue queueIdx = (outduct.queue queueIdx).delete elt := by
  unfold Outduct.queue
  split <;> rfl

theorem reduceBacklog_queue (outduct : Outduct) (bundle : QueuedBundle) :
    (reduceBacklog outduct bundle).queue = outduct.queue := by
  unfold reduceBacklog
  split <;> rfl

theorem Remaining.delete {outduct' : Outduct} (queueIdx : Nat) (controls : List QueueControl) (remaining : SdrList)
    (h : Remaining outduct queueIdx controls remaining) (helt : elt ∉ remaining.map Prod.fst)
    (hqueues : ∀ i, outduct'.queue i = (outduct.queue i).delete elt) :
    Remaining outduct' queueIdx controls remaining := by
  induction controls generalizing queueIdx remaining with
  | nil => exact h
  | cons control rest ih =>
    obtain ⟨seg, later, rfl, hscan, hrest⟩ := h
    rw [List.map_append, List.mem_append, not_or, List.map_reverse, List.mem_reverse] at helt
    refine ⟨seg, later, rfl, ?_, ih (queueIdx + 1) later hrest helt.2⟩
    rw [hqueues]
    exact hscan.delete helt.1

/-- A scan with these elements still to come; the bundles are as they were but for their places. -/
structure Scans (bundles : Object → QueuedBundle) (todo : SdrList) (s : Managing) : Prop where
  remaining : Remaining s.outduct s.queueIdx s.queueControls todo
  distinct : ∀ queueIdx, (s.outduct.queue queueIdx).Distinct
  linked : ∀ e ∈ todo, (s.bundles e.2).ductXmitElt = e.1
  once : (todo.map Prod.fst).Nodup
  same : ∀ bundleObj, (s.bundles bundleObj).eccc = (bundles bundleObj).eccc

/-- What a round does with the next element: its bundle is passed over or forwarded again. -/
structure Visits (e : Object × Object) (eccc : Int) (s t : Managing) : Prop where
  visited : t.visited = s.visited ++ [e.1]
  bumped : if 0 < s.protect then
      t.protect = s.protect - eccc ∧ t.overbooked = s.overbooked ∧ t.reforwarded = s.reforwarded
    else t.protect = s.protect ∧ t.overbooked = s.overbooked - eccc ∧ t.reforwarded = s.reforwarded ++ [e.2]

theorem Scans.removed {s : Managing} {later : SdrList} (h : Scans bundles later s)
    (hlinked : (s.bundles e.2).ductXmitElt = e.1) (hnot : e.1 ∉ later.map Prod.fst) :
    Scans bundles later (bpReforwardBundle (removeBundleFromQueue s e.2) e.2) := by
  have hqueues : ∀ i, (deleteElt (reduceBacklog s.outduct (s.bundles e.2)) (s.bundles e.2).ductXmitElt).queue i =
      (s.outduct.queue i).delete e.1 := by
    intro i
    rw [deleteElt_queue, reduceBacklog_queue, hlinked]
  refine ⟨Remaining.delete _ _ _ h.remaining hnot hqueues, fun i => ?_, fun a ha => ?_, h.once, fun bundleObj => ?_⟩
  · show SdrList.Distinct (Outduct.queue (deleteElt _ _) i)
    rw [hqueues]
    exact (h.distinct i).sublist (SdrList.delete_sublist _ _)
  · have hne : a.2 ≠ e.2 := by
      intro he
      have hlink := h.linked a ha
      rw [he, hlinked] at hlink
      exact hnot (hlink ▸ List.mem_map_of_mem ha)
    show (Function.update s.bundles e.2 _ a.2).ductXmitElt = a.1
    rw [Function.update_of_ne hne]
    exact h.linked a ha
  · show (Function.update s.bundles e.2 _ bundleObj).eccc = _
    by_cases he : bundleObj = e.2
    · rw [he, Function.update_self]
      exact h.same e.2
    · rw [Function.update_of_ne he]
      exact h.same bundleObj

theorem manageRound_cases {s : Managing} {todo : SdrList} (h : Scans bundles todo s) :
    ((s.overbooked ≤ 0 ∨ todo = []) ∧
      ∃ t, manageRound s = .inr t ∧ t.visited = s.visited ∧ t.reforwarded = s.reforwarded) ∨
    (0 < s.overbooked ∧ ∃ e later t, todo = e :: later ∧ manageRound s = .inl t ∧
      Scans bundles later t ∧ Visits e (bundles e.2).eccc s t) := by
  unfold manageRound
  by_cases hover : 0 < s.overbooked
  · rw [if_pos hover]
    rcases nextBundle_cases h.distinct _ _ _ h.remaining with
      ⟨hnil, hzero⟩ | ⟨e, later, queueIdx, controls, rfl, hne, hnext, hmem, hlater⟩
    · dsimp only
      rw [if_pos hzero]
      exact Or.inl ⟨Or.inr hnil, _, rfl, rfl, rfl⟩
    · rw [hnext]
      dsimp only
      rw [if_neg hne, (h.distinct queueIdx).data_eq hmem, h.same]
      have honce := h.once
      rw [List.map_cons, List.nodup_cons] at honce
      have hscans : Scans bundles later
          { s with queueIdx := queueIdx, queueControls := controls, visited := s.visited ++ [e.1] } :=
        ⟨hlater, h.distinct, fun a ha => h.linked a (List.mem_cons_of_mem _ ha), honce.2, h.same⟩
      refine Or.inr ⟨hover, e, later, ?_⟩
      by_cases hprotect : 0 < s.protect
      · rw [if_pos hprotect]
        refine ⟨_, rfl, rfl, ⟨hscans.remaining, hscans.distinct, hscans.linked, hscans.once, hscans.same⟩, rfl, ?_⟩
        rw [if_pos hprotect]
        exact ⟨rfl, rfl, rfl⟩
      · rw [if_neg hprotect]
        have hremoved := hscans.removed (h.linked e List.mem_cons_self) honce.1
        refine ⟨_, rfl, rfl, ⟨hremoved.remaining, hremoved.distinct, hremoved.linked, hremoved.once, hremoved.same⟩,
          rfl, ?_⟩
        rw [if_neg hprotect]
        exact ⟨rfl, rfl, rfl⟩
  · rw [if_neg hover]
    exact Or.inl ⟨Or.inl (by omega), s, rfl, rfl, rfl⟩

/-- The elements, of those in the order of the scan, whose bundles are forwarded again. -/
def rebooked (bundles : Object → QueuedBundle) (overbooked protect : Int) : SdrList → SdrList
  | [] => []
  | e :: rest =>
    if 0 < overbooked then
      if 0 < protect then rebooked bundles overbooked (protect - (bundles e.2).eccc) rest
      else e :: rebooked bundles (overbooked - (bundles e.2).eccc) protect rest
    else []

theorem rebooked_of_le {overbooked : Int} (h : overbooked ≤ 0) (protect : Int) (todo : SdrList) :
    rebooked bundles overbooked protect todo = [] := by
  cases todo with
  | nil => rfl
  | cons e rest => exact if_neg (by omega)

theorem rebooked_subset (overbooked protect : Int) (todo : SdrList) :
    rebooked bundles overbooked protect todo ⊆ todo := by
  induction todo generalizing overbooked protect with
  | nil => exact List.Subset.refl _
  | cons e rest ih =>
    rw [rebooked]
    split
    · split
      · exact List.subset_cons_of_subset e (ih overbooked _)
      · exact List.cons_subset_cons e (ih _ protect)
    · exact List.nil_subset _

/-- The bundles are those that the scan of a mere list of bundles yields. -/
theorem rebooked_map (overbooked protect : Int) (todo : SdrList) :
    (rebooked bundles overbooked protect todo).map (fun e => (bundles e.2).toBundle) =
      Overbooking.rebook overbooked protect (todo.map (fun e => (bundles e.2).toBundle)) := by
  induction todo generalizing overbooked protect with
  | nil => rfl
  | cons e rest ih =>
    rw [rebooked, List.map_cons, Overbooking.rebook]
    split
    · split
      · exact ih overbooked _
      · rw [List.map_cons, ih]
        rfl
    · rfl

/-- The volume of the bundles; sizes that have wrapped around do not count. -/
def volume (bundles : Object → QueuedBundle) (todo : SdrList) : Int :=
  (todo.map (fun e => max 0 (bundles e.2).eccc)).sum

theorem volume_cons (e : Object × Object) (rest : SdrList) :
    volume bundles (e :: rest) = max 0 (bundles e.2).eccc + volume bundles rest := List.sum_cons

theorem volume_nonneg (bundles : Object → QueuedBundle) (todo : SdrList) : 0 ≤ volume bundles todo := by
  apply List.sum_nonneg
  intro a ha
  obtain ⟨e, -, rfl⟩ := List.mem_map.mp ha
  exact le_max_left 0 _

/-- More than the volume of all bundles takes every one of them. -/
theorem rebooked_all {overbooked protect : Int} (hprotect : protect ≤ 0) (todo : SdrList)
    (h : volume bundles todo < overbooked) : rebooked bundles overbooked protect todo = todo := by
  induction todo generalizing overbooked with
  | nil => rfl
  | cons e rest ih =>
    have hrest := volume_nonneg bundles rest
    rw [volume_cons] at h
    rw [rebooked, if_pos (by omega), if_neg (by omega), ih (by omega)]

/-- The scan visits a first part of what is to come, and rebooks bundles of it. -/
theorem manage_run (todo : SdrList) (s : Managing) (h : Scans bundles todo s) (fuel : Nat)
    (hf : todo.length < fuel) : ∃ t seen, Runs.loop manageRound fuel s = some t ∧
      t.visited = s.visited ++ seen ∧ seen <+: todo.map Prod.fst ∧
      t.reforwarded = s.reforwarded ++ (rebooked bundles s.overbooked s.protect todo).map Prod.snd := by
  induction todo generalizing s fuel with
  | nil =>
    obtain ⟨fuel, rfl⟩ : ∃ n, fuel = n + 1 := ⟨fuel - 1, by simp at hf; omega⟩
    rcases manageRound_cases h with ⟨-, t, ht, hv, hr⟩ | ⟨-, e, later, t, hcons, -⟩
    · exact ⟨t, [], Runs.loop_inr ht, by simp [hv], List.nil_prefix, by simp [hr, rebooked]⟩
    · cases hcons
  | cons e later ih =>
    obtain ⟨fuel, rfl⟩ : ∃ n, fuel = n + 1 := ⟨fuel - 1, by simp at hf; omega⟩
    rcases manageRound_cases h with ⟨hstop, t, ht, hv, hr⟩ | ⟨hover, e', later', t, hcons, ht, hscans, hvisits⟩
    · have hle := hstop.resolve_right (by simp)
      exact ⟨t, [], Runs.loop_inr ht, by simp [hv], List.nil_prefix, by simp [hr, rebooked_of_le hle]⟩
    · obtain ⟨rfl, rfl⟩ := List.cons.inj hcons
      obtain ⟨u, seen, hu, hseen, hprefix, hreforwarded⟩ := ih t hscans fuel (by simpa using hf)
      refine ⟨u, e.1 :: seen, by rw [Runs.loop_inl ht, hu], by simp [hseen, hvisits.visited],
        List.cons_prefix_cons.mpr ⟨rfl, hprefix⟩, ?_⟩
      have hbumped := hvisits.bumped
      rw [hreforwarded, rebooked, if_pos hover]
      by_cases hprotect : 0 < s.protect
      · rw [if_pos hprotect] at hbumped ⊢
        rw [hbumped.1, hbumped.2.1, hbumped.2.2]
      · rw [if_neg hprotect] at hbumped ⊢
        rw [hbumped.1, hbumped.2.1, hbumped.2.2]
        simp

/-- The elements above an ordinal, and those from it on. -/
abbrev above (bundles : Object → QueuedBundle) (urgentQueue : SdrList) (ordinal : Fin 256) : SdrList :=
  urgentQueue.filter (fun e => ordinal < (bundles e.2).ordinal)

abbrev upTo (bundles : Object → QueuedBundle) (urgentQueue : SdrList) (ordinal : Fin 256) : SdrList :=
  urgentQueue.filter (fun e => (bundles e.2).ordinal ≤ ordinal)

/-- The urgent bundles from the ordinal on; where there are none, all of them. -/
def urgentSegment (bundles : Object → QueuedBundle) (urgentQueue : SdrList) (ordinal : Fin 256) : SdrList :=
  if upTo bundles urgentQueue ordinal = [] then urgentQueue else upTo bundles urgentQueue ordinal

/-- All elements that a scan may come to, in its order. -/
def candidates (outduct : Outduct) (bundles : Object → QueuedBundle) (priority : Nat) (ordinal : Fin 256) : SdrList :=
  outduct.bulkQueue.reverse ++ ((if 1 < priority then outduct.stdQueue else []).reverse ++
    (if 1 < priority ∧ 0 < ordinal then urgentSegment bundles outduct.urgentQueue ordinal else []).reverse)

/-- A list in descending order falls into the part above a bound and the rest. -/
theorem filter_split {α : Type} {f : α → Fin 256} (bound : Fin 256) (l : List α)
    (h : l.Pairwise (fun a b => f b ≤ f a)) :
    l.filter (fun a => bound < f a) ++ l.filter (fun a => f a ≤ bound) = l := by
  induction l with
  | nil => rfl
  | cons a rest ih =>
    obtain ⟨ha, hrest⟩ := List.pairwise_cons.mp h
    by_cases hlt : bound < f a
    · rw [List.filter_cons_of_pos (by simpa using hlt), List.filter_cons_of_neg (by simpa using hlt),
        List.cons_append, ih hrest]
    · have hall : ∀ b ∈ a :: rest, f b ≤ bound := by
        intro b hb
        rcases List.mem_cons.mp hb with rfl | hb
        · exact not_lt.mp hlt
        · exact (ha b hb).trans (not_lt.mp hlt)
      have hnone : (a :: rest).filter (fun b => decide (bound < f b)) = [] := by
        rw [List.filter_eq_nil_iff]
        intro b hb
        simpa using hall b hb
      rw [hnone, List.nil_append, List.filter_eq_self]
      intro b hb
      exact decide_eq_true (hall b hb)

theorem Ordered.urgent_distinct (h : Ordered outduct bundles) : outduct.urgentQueue.Distinct :=
  h.distinct.sublist (List.sublist_append_right _ _)

/-- An ordinal is recorded exactly if a bundle with it is queued. -/
theorem Ordered.recorded (h : Ordered outduct bundles) (i : Fin 256) :
    (outduct.ordinals i).lastForOrdinal ≠ 0 ↔ ∃ e ∈ outduct.urgentQueue, (bundles e.2).ordinal = i := by
  rw [h.lastForOrdinal]
  constructor
  · intro hne
    by_contra hnone
    have hnil : outduct.urgentQueue.filter (fun e => (bundles e.2).ordinal = i) = [] := by
      rw [List.filter_eq_nil_iff]
      intro e he hi
      exact hnone ⟨e, he, of_decide_eq_true hi⟩
    rw [hnil] at hne
    exact hne rfl
  · rintro ⟨e, he, hi⟩
    apply (h.urgent_distinct.sublist List.filter_sublist).last_ne
    exact List.ne_nil_of_mem (List.mem_filter.mpr ⟨he, decide_eq_true hi⟩)

/-- The least ordinal above a bound that is found in use is the least one in use. -/
theorem find_least {p : Fin 256 → Bool} {i j : Fin 256} (hfind : (List.finRange 256).find? p = some i)
    (hj : p j = true) : i ≤ j := by
  obtain ⟨-, before, after, hrange, hbefore⟩ := List.find?_eq_some_iff_append.mp hfind
  have hsorted := List.pairwise_lt_finRange 256
  have hmem := List.mem_finRange j
  rw [hrange] at hsorted hmem
  rcases List.mem_append.mp hmem with hin | hin
  · have hno := hbefore j hin
    rw [hj] at hno
    cases hno
  · rcases List.mem_cons.mp hin with rfl | hin
    · exact le_rfl
    · exact ((List.pairwise_cons.mp (List.pairwise_append.mp hsorted).2.1).1 j hin).le

theorem Ordered.split (h : Ordered outduct bundles) (ordinal : Fin 256) :
    above bundles outduct.urgentQueue ordinal ++ upTo bundles outduct.urgentQueue ordinal = outduct.urgentQueue :=
  filter_split ordinal _ h.descending

/-- The last bundle of the least ordinal in use above a bound is the last one above the bound. -/
theorem lastForOrdinal_least (h : Ordered outduct bundles) {ordinal i : Fin 256} (hlt : ordinal < i)
    (hused : ∃ e ∈ outduct.urgentQueue, (bundles e.2).ordinal = i)
    (hleast : ∀ e ∈ above bundles outduct.urgentQueue ordinal, i ≤ (bundles e.2).ordinal) :
    ∃ before e, above bundles outduct.urgentQueue ordinal = before ++ [e] ∧
      (outduct.ordinals i).lastForOrdinal = e.1 := by
  obtain ⟨e, he, hord⟩ := hused
  have hin : e ∈ above bundles outduct.urgentQueue ordinal :=
    List.mem_filter.mpr ⟨he, decide_eq_true (hord ▸ hlt)⟩
  have hsorted : (above bundles outduct.urgentQueue ordinal).Pairwise
    (fun a b => (bundles b.2).ordinal ≤ (bundles a.2).ordinal) := h.descending.filter _
  obtain ⟨before, x, hx⟩ := (List.eq_nil_or_concat' _).resolve_left (List.ne_nil_of_mem hin)
  refine ⟨before, x, hx, ?_⟩
  have hxi : (bundles x.2).ordinal = i := by
    apply le_antisymm
    · rw [hx] at hsorted hin
      rcases List.mem_append.mp hin with hin | hin
      · rw [← hord]
        exact (List.pairwise_append.mp hsorted).2.2 e hin x (List.mem_singleton.mpr rfl)
      · rw [← List.mem_singleton.mp hin, hord]
    · exact hleast x (by rw [hx]; simp)
  have hnone : (upTo bundles outduct.urgentQueue ordinal).filter (fun e => (bundles e.2).ordinal = i) = [] := by
    rw [List.filter_eq_nil_iff]
    intro a ha hai
    have hle := of_decide_eq_true (List.mem_filter.mp ha).2
    rw [of_decide_eq_true hai] at hle
    exact absurd hlt (not_lt.mpr hle)
  have hself : [x].filter (fun e => (bundles e.2).ordinal = i) = [x] := by simp [hxi]
  rw [h.lastForOrdinal, ← h.split ordinal, List.filter_append, hnone, List.append_nil, hx, List.filter_append,
    hself, SdrList.last_concat]

/-- The limit found for an ordinal is the first element from it on; past the last of the
queue there is none. -/
theorem getUrgentLimitElt_eq (h : Ordered outduct bundles) (ordinal : Fin 256) :
    getUrgentLimitElt outduct ordinal = (upTo bundles outduct.urgentQueue ordinal).first := by
  unfold getUrgentLimitElt
  cases hfind : (List.finRange 256).find? (higherInUse outduct ordinal) with
  | none =>
    have hnone : above bundles outduct.urgentQueue ordinal = [] := by
      rw [List.filter_eq_nil_iff]
      intro e he habove
      have hno := List.find?_eq_none.mp hfind (bundles e.2).ordinal (List.mem_finRange _)
      exact hno (decide_eq_true ⟨of_decide_eq_true habove, (h.recorded _).mpr ⟨e, he, rfl⟩⟩)
    have hsplit := h.split ordinal
    rw [hnone, List.nil_append] at hsplit
    rw [hsplit]
  | some i =>
    have hfound : higherInUse outduct ordinal i = true := List.find?_some hfind
    obtain ⟨hlt, hrecorded⟩ := of_decide_eq_true hfound
    obtain ⟨before, e, he, hlast⟩ := lastForOrdinal_least h hlt ((h.recorded i).mp hrecorded) (fun a ha => by
      obtain ⟨hmem, habove⟩ := List.mem_filter.mp ha
      exact find_least hfind (decide_eq_true ⟨of_decide_eq_true habove, (h.recorded _).mpr ⟨a, hmem, rfl⟩⟩))
    have hqueue : outduct.urgentQueue = before ++ e :: upTo bundles outduct.urgentQueue ordinal := by
      conv_lhs => rw [← h.split ordinal, he]
      simp
    have hd := h.urgent_distinct
    dsimp only
    rw [hlast]
    generalize upTo bundles outduct.urgentQueue ordinal = later at hqueue
    rw [hqueue] at hd ⊢
    exact hd.next_eq

theorem scanning_all (l : SdrList) : Scanning ⟨l.last, l.first⟩ l l :=
  ⟨rfl, [], [], by simp, Or.inr (Or.inl rfl)⟩

theorem scanning_none (l : SdrList) : Scanning ⟨0, 0⟩ l [] :=
  ⟨rfl, [], l, by simp, Or.inl rfl⟩

/-- Without a limit the scan goes through the whole queue. -/
theorem scanning_urgent (h : Ordered outduct bundles) (ordinal : Fin 256) :
    Scanning ⟨outduct.urgentQueue.last, getUrgentLimitElt outduct ordinal⟩ outduct.urgentQueue
      (urgentSegment bundles outduct.urgentQueue ordinal) := by
  have hsplit := h.split ordinal
  rw [getUrgentLimitElt_eq h]
  unfold urgentSegment
  split
  · rename_i hnil
    refine ⟨rfl, [], [], by simp, Or.inr (Or.inr ⟨?_, rfl⟩)⟩
    show SdrList.first (upTo bundles outduct.urgentQueue ordinal) = 0
    rw [hnil]
    rfl
  · rename_i hne
    refine ⟨?_, above bundles outduct.urgentQueue ordinal, [], by rw [List.append_nil]; exact hsplit.symm,
      Or.inr (Or.inl rfl)⟩
    conv_lhs => rw [← hsplit]
    exact SdrList.last_append_of_ne hne

/-- What the controls select at the start is still to be visited. -/
theorem remaining_start (h : Ordered outduct bundles) (priority : Nat) (ordinal : Fin 256) :
    Remaining outduct 0 (startControls outduct priority ordinal) (candidates outduct bundles priority ordinal) := by
  have hstd : Scanning (if 1 < priority then ⟨outduct.stdQueue.last, outduct.stdQueue.first⟩ else ⟨0, 0⟩)
      outduct.stdQueue (if 1 < priority then outduct.stdQueue else []) := by
    split
    · exact scanning_all outduct.stdQueue
    · exact scanning_none outduct.stdQueue
  have hurgent : Scanning
      (if 1 < priority ∧ 0 < ordinal then ⟨outduct.urgentQueue.last, getUrgentLimitElt outduct ordinal⟩ else ⟨0, 0⟩)
      outduct.urgentQueue
      (if 1 < priority ∧ 0 < ordinal then urgentSegment bundles outduct.urgentQueue ordinal else []) := by
    split
    · exact scanning_urgent h ordinal
    · exact scanning_none outduct.urgentQueue
  exact ⟨outduct.bulkQueue, _, rfl, scanning_all outduct.bulkQueue, _, _, rfl, hstd, _, [],
    (List.append_nil _).symm, hurgent, rfl⟩

theorem urgentSegment_suffix (h : Ordered outduct bundles) (ordinal : Fin 256) :
    urgentSegment bundles outduct.urgentQueue ordinal <:+ outduct.urgentQueue := by
  unfold urgentSegment
  split
  · exact List.suffix_refl _
  · exact ⟨_, h.split ordinal⟩

/-- The scan goes through the queues from their ends, and skips none before it is at the end of it. -/
theorem candidates_order (h : Ordered outduct bundles) (priority : Nat) (ordinal : Fin 256) :
    candidates outduct bundles priority ordinal <+:
      outduct.bulkQueue.reverse ++ (outduct.stdQueue.reverse ++ outduct.urgentQueue.reverse) := by
  unfold candidates
  rw [List.prefix_append_right_inj]
  by_cases hpriority : 1 < priority
  · rw [if_pos hpriority, List.prefix_append_right_inj]
    split
    · exact List.reverse_prefix.mpr (urgentSegment_suffix h ordinal)
    · exact List.nil_prefix
  · rw [if_neg hpriority, if_neg (fun hboth => hpriority hboth.1)]
    exact List.nil_prefix

theorem elements_reverse (outduct : Outduct) : (outduct.bulkQueue.reverse ++ (outduct.stdQueue.reverse ++
    outduct.urgentQueue.reverse)).Perm outduct.elements := by
  unfold Outduct.elements
  rw [List.append_assoc]
  exact (List.reverse_perm _).append ((List.reverse_perm _).append (List.reverse_perm _))

theorem queue_sublist (outduct : Outduct) (queueIdx : Nat) :
    (outduct.queue queueIdx).Sublist outduct.elements := by
  unfold Outduct.queue Outduct.elements
  split
  · rw [List.append_assoc]
    exact List.sublist_append_left _ _
  · exact (List.sublist_append_right _ _).trans (List.sublist_append_left _ _)
  · exact List.sublist_append_right _ _

section

variable {newBundle : QueuedBundle} {stale : Fin 256} {δ : Type} {neighbor : ProximateNode δ} {directive : Option δ}

theorem scans_start (h : Ordered outduct bundles) (priority : Nat) (protect overbooked : Int) :
    Scans bundles (candidates outduct bundles priority stale)
      ⟨outduct, bundles, 0, startControls outduct priority stale, protect, overbooked, [], []⟩ where
  remaining := remaining_start h priority stale
  distinct queueIdx := h.distinct.sublist (queue_sublist outduct queueIdx)
  linked e he := h.linked e
    ((elements_reverse outduct).subset ((candidates_order h priority stale).subset he))
  once := ((candidates_order h priority stale).sublist.map _).nodup
    (((elements_reverse outduct).map _).nodup_iff.mpr h.distinct.nodup)
  same _ := rfl

/-- The management ends, visits a first part of the candidates, and forwards bundles of them again. -/
theorem manageOverbooking_run (h : Ordered outduct bundles) (neighbor : ProximateNode δ) (directive : Option δ)
    (newBundle : QueuedBundle) (stale : Fin 256) :
    ∃ s, manageOverbooking neighbor directive newBundle stale outduct bundles = some s ∧
      s.visited <+: (candidates outduct bundles newBundle.priority stale).map Prod.fst ∧
      s.reforwarded = if newBundle.priority = 0 ∨ directive = none then [] else
        (rebooked bundles (intValue neighbor.overbooked) (intValue neighbor.protect)
          (candidates outduct bundles newBundle.priority stale)).map Prod.snd := by
  unfold manageOverbooking
  dsimp only
  by_cases hpriority : newBundle.priority = 0
  · rw [if_pos hpriority, if_pos (Or.inl hpriority)]
    exact ⟨_, rfl, List.nil_prefix, rfl⟩
  · rw [if_neg hpriority]
    by_cases hzero : intValue neighbor.overbooked = 0
    · rw [if_pos hzero, hzero, rebooked_of_le (le_refl 0)]
      exact ⟨_, rfl, List.nil_prefix, by simp⟩
    · rw [if_neg hzero]
      cases directive with
      | none => exact ⟨_, rfl, List.nil_prefix, by simp⟩
      | some d =>
        have hlength := (candidates_order h newBundle.priority stale).length_le
        rw [(elements_reverse outduct).length_eq, Outduct.elements, List.length_append, List.length_append] at hlength
        obtain ⟨s, seen, hs, hseen, hprefix, hreforwarded⟩ :=
          manage_run _ _ (scans_start h newBundle.priority (intValue neighbor.protect) (intValue neighbor.overbooked)) _
            (Nat.lt_succ_of_le hlength)
        refine ⟨s, hs, ?_, ?_⟩
        · rw [hseen]
          exact hprefix
        · rw [if_neg (by simp [hpriority]), hreforwarded]
          rfl

/-- The bundles forwarded again are those that the management of a mere list of bundles removes. -/
theorem manageOverbooking_refines (h : Ordered outduct bundles) :
    ∃ s, manageOverbooking neighbor directive newBundle stale outduct bundles = some s ∧
      s.reforwarded.map (fun bundleObj => (bundles bundleObj).toBundle) =
        Overbooking.manageOverbooking neighbor newBundle.priority directive
          ((candidates outduct bundles newBundle.priority stale).map (fun e => (bundles e.2).toBundle)) := by
  obtain ⟨s, hs, -, hreforwarded⟩ := manageOverbooking_run h neighbor directive newBundle stale
  refine ⟨s, hs, ?_⟩
  rw [hreforwarded]
  unfold Overbooking.manageOverbooking
  by_cases hpriority : newBundle.priority = 0
  · simp [hpriority]
  · cases directive with
    | none => simp
    | some d =>
      rw [if_neg (by simp [hpriority]), if_neg hpriority, List.map_map, ← rebooked_map]
      by_cases hzero : intValue neighbor.overbooked = 0
      · rw [if_pos hzero, hzero, rebooked_of_le (le_refl 0)]
        rfl
      · rw [if_neg hzero]
        rfl

/-- Where the scan does not come to a bundle that is more urgent, every candidate is less urgent. -/
theorem candidates_lessUrgent (h : Ordered outduct bundles) (hpriority : newBundle.priority ≠ 0)
    (hspares : SparesMoreUrgent outduct bundles newBundle stale) :
    ∀ e ∈ candidates outduct bundles newBundle.priority stale, LessUrgent (bundles e.2) newBundle := by
  intro e he
  rcases List.mem_append.mp he with hbulk | he
  · have hzero := h.bulk e (List.mem_reverse.mp hbulk)
    exact Or.inl (by omega)
  rcases List.mem_append.mp he with hstd | hurgent
  · split at hstd
    · rename_i hone
      have hpri := h.std e (List.mem_reverse.mp hstd)
      exact Or.inl (by omega)
    · cases hstd
  · split at hurgent
    · rename_i hboth
      have hin := List.mem_reverse.mp hurgent
      have hqueue := (urgentSegment_suffix h stale).subset hin
      have hall := (hspares.resolve_left (by omega)).resolve_left (fun hzero => absurd hboth.2 (by simp [hzero]))
      rcases hall e hqueue with hless | ⟨hhigher, e', he', hle⟩
      · exact hless
      · -- some bundle is not above the ordinal read, and the scan stops before those that are
        have hne : upTo bundles outduct.urgentQueue stale ≠ [] :=
          List.ne_nil_of_mem (List.mem_filter.mpr ⟨he', decide_eq_true hle⟩)
        rw [urgentSegment, if_neg hne] at hin
        exact absurd hhigher (not_lt.mpr (of_decide_eq_true (List.mem_filter.mp hin).2))
    · cases hurgent

/-- Otherwise some candidate is more urgent. -/
theorem candidate_moreUrgent (hspares : ¬ SparesMoreUrgent outduct bundles newBundle stale) :
    newBundle.priority ≠ 0 ∧ ∃ e ∈ candidates outduct bundles newBundle.priority stale,
      ¬ LessUrgent (bundles e.2) newBundle := by
  unfold SparesMoreUrgent at hspares
  push Not at hspares
  obtain ⟨hpriority, hstale, e, he, hnot, hhigher⟩ := hspares
  refine ⟨by omega, e, ?_, hnot⟩
  have hin : e ∈ urgentSegment bundles outduct.urgentQueue stale := by
    unfold urgentSegment
    split
    · exact he
    · rename_i hne
      obtain ⟨e', he'⟩ := List.exists_mem_of_ne_nil _ hne
      obtain ⟨hmem, hle⟩ := List.mem_filter.mp he'
      refine List.mem_filter.mpr ⟨he, decide_eq_true ?_⟩
      by_contra hgt
      exact absurd (of_decide_eq_true hle) (not_le.mpr (hhigher (not_le.mp hgt) e' hmem))
  have hpos : 0 < stale := Fin.pos_iff_ne_zero.mpr hstale
  refine List.mem_append_right _ (List.mem_append_right _ ?_)
  rw [if_pos ⟨hpriority, hpos⟩, List.mem_reverse]
  exact hin

end

/-- A neighbor that is overbooked by a volume, with no other contact to protect. -/
def fullyOverbooked (volume : Int) : ProximateNode Nat where
  neighborNodeNbr := 2
  directive := 0
  forfeitTime := 0
  arrivalTime := 0
  overbooked := loadScalar volume
  protect := loadScalar 0
  hopCount := 1

theorem intValue_overbooked {volume : Int} (h : 0 ≤ volume) (hlt : volume < 2 ^ 31) :
    intValue (fullyOverbooked volume).overbooked = volume := by
  rw [fullyOverbooked, intValue, value_loadScalar, magnitude_of_nonneg h, toInt32_of_inInt (by omega) hlt]

@[simp] theorem intValue_protect (volume : Int) : intValue (fullyOverbooked volume).protect = 0 := rfl

theorem volume_candidates_le (h : Ordered outduct bundles) (priority : Nat) (ordinal : Fin 256) :
    volume bundles (candidates outduct bundles priority ordinal) ≤ volume bundles outduct.elements := by
  have hprefix := (candidates_order h priority ordinal).sublist.map (fun e => max 0 (bundles e.2).eccc)
  have hperm := (elements_reverse outduct).map (fun e => max 0 (bundles e.2).eccc)
  rw [volume, volume, ← hperm.sum_eq]
  apply hprefix.sum_le_sum
  intro n hn
  obtain ⟨e, -, rfl⟩ := List.mem_map.mp hn
  exact le_max_left 0 _

/-- Whatever is overbooked, only less urgent bundles are forwarded again if the scan does not come to a bundle that
is more urgent; and only then, unless more is queued than an `int` holds. -/
theorem manageOverbooking_iff (h : Ordered outduct bundles) (newBundle : QueuedBundle) (stale : Fin 256) :
    (SparesMoreUrgent outduct bundles newBundle stale →
      ∀ (neighbor : ProximateNode Nat) (directive : Option Nat), ∃ s,
        manageOverbooking neighbor directive newBundle stale outduct bundles = some s ∧
          BumpsLessUrgent outduct bundles newBundle s) ∧
    (volume bundles outduct.elements < 2 ^ 31 - 1 →
      (∀ (neighbor : ProximateNode Nat) (directive : Option Nat), ∃ s,
        manageOverbooking neighbor directive newBundle stale outduct bundles = some s ∧
          BumpsLessUrgent outduct bundles newBundle s) →
      SparesMoreUrgent outduct bundles newBundle stale) := by
  constructor
  · intro hspares neighbor directive
    obtain ⟨s, hs, hvisited, hreforwarded⟩ := manageOverbooking_run h neighbor directive newBundle stale
    refine ⟨s, hs, ?_, ?_, ?_⟩
    · intro bundleObj hobj
      rw [hreforwarded] at hobj
      split at hobj
      · cases hobj
      · rename_i hcond
        obtain ⟨e, he, rfl⟩ := List.mem_map.mp hobj
        exact candidates_lessUrgent h (fun hzero => hcond (Or.inl hzero)) hspares e (rebooked_subset _ _ _ he)
    · exact hvisited.sublist.nodup (scans_start h newBundle.priority 0 0).once
    · exact hvisited.trans ((candidates_order h newBundle.priority stale).map Prod.fst)
  · intro hvolume hall
    by_contra hspares
    obtain ⟨hpriority, e, he, hnot⟩ := candidate_moreUrgent hspares
    have hle := volume_candidates_le h newBundle.priority stale
    have hnonneg := volume_nonneg bundles (candidates outduct bundles newBundle.priority stale)
    -- a neighbor that is overbooked by more than the volume of all candidates
    obtain ⟨s, hs, hbumps⟩ := hall
      (fullyOverbooked (volume bundles (candidates outduct bundles newBundle.priority stale) + 1)) (some 0)
    obtain ⟨s', hs', -, hreforwarded⟩ := manageOverbooking_run h (fullyOverbooked _) (some 0) newBundle stale
    rw [hs] at hs'
    obtain rfl := Option.some.inj hs'
    rw [if_neg (by simp [hpriority]), intValue_overbooked (by omega) (by omega), intValue_protect,
      rebooked_all (le_refl 0) _ (by omega)] at hreforwarded
    exact hnot (hbumps.bumped e.2 (hreforwarded ▸ List.mem_map_of_mem he))

/-- One urgent bundle of ordinal 5, of 100 bytes. -/
def queuedBundle : QueuedBundle where
  senderNodeNbr := 1
  returnToSender := true
  destination := 3
  cbhe := true
  expirationTime := 100
  payloadLength := 71
  doesNotFragment := true
  minimumLatency := false
  dictionaryLength := 0
  prePayloadLength := 0
  postPayloadLength := 0
  cosFlags := 2
  ordinal := 5
  ductXmitElt := 11

def oneUrgent : Outduct where
  bulkQueue := []
  bulkBacklog := ⟨0, 0⟩
  stdQueue := []
  stdBacklog := ⟨0, 0⟩
  urgentQueue := [(11, 101)]
  urgentBacklog := ⟨0, 100⟩
  ordinals i := if i = 5 then ⟨⟨0, 100⟩, 11⟩ else ⟨⟨0, 0⟩, 0⟩

theorem oneUrgent_ordered : Ordered oneUrgent (fun _ => queuedBundle) where
  distinct := ⟨by decide, by decide⟩
  linked := by decide
  bulk := by decide
  std := by decide
  urgent := by decide
  descending := by decide
  lastForOrdinal := by decide +kernel

theorem manageOverbooking_iff_oneUrgent :
    (∀ (neighbor : ProximateNode Nat) (directive : Option Nat), ∃ s,
      manageOverbooking neighbor directive { queuedBundle with ordinal := 7 } 7 oneUrgent (fun _ => queuedBundle) =
        some s ∧ BumpsLessUrgent oneUrgent (fun _ => queuedBundle) { queuedBundle with ordinal := 7 } s) ↔
      SparesMoreUrgent oneUrgent (fun _ => queuedBundle) { queuedBundle with ordinal := 7 } 7 :=
  ⟨(manageOverbooking_iff oneUrgent_ordered { queuedBundle with ordinal := 7 } 7).2 (by decide),
    (manageOverbooking_iff oneUrgent_ordered { queuedBundle with ordinal := 7 } 7).1⟩

/-- Even with the ordinal of the new bundle in the buffer, an urgent bundle of a higher
ordinal is bumped where no other is queued. -/
theorem manageOverbooking_bumpsMoreUrgent : ¬ ∀ (outduct : Outduct) (bundles : Object → QueuedBundle)
    (newBundle : QueuedBundle) (stale : Fin 256) (neighbor : ProximateNode Nat) (directive : Option Nat),
    Ordered outduct bundles → ∃ s,
      manageOverbooking neighbor directive newBundle stale outduct bundles = some s ∧
        BumpsLessUrgent outduct bundles newBundle s := by
  intro hall
  obtain ⟨s, hs, hbumps⟩ := hall oneUrgent (fun _ => queuedBundle) { queuedBundle with ordinal := 3 } 3
    (fullyOverbooked 50) (some 0) oneUrgent_ordered
  have hbumped : ∀ s ∈ manageOverbooking (fullyOverbooked 50) (some 0) { queuedBundle with ordinal := 3 } 3
      oneUrgent (fun _ => queuedBundle), 101 ∈ s.reforwarded := by decide +kernel
  have hless := hbumps.bumped 101 (hbumped s hs)
  revert hless
  simp [LessUrgent, queuedBundle, QueuedBundle.priority]

end OverbookedQueues
