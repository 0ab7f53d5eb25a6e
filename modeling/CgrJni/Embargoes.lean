import CgrJni.BestNeighbor
import CgrJni.RfxRanges

/-!
Embargoes: the neighbors of a node that refuse what is destined for some other node, and the
probes that are scheduled for them. Nothing marks a probe as due, so that an embargoed
neighbor is left out of every routing until its embargo is removed.
-/

namespace Embargoes

open IonDb Rfx RfxRanges RfxContacts Forward Process RouteWalk

/-- A list of embargoes with one for the neighbor, in ascending order; none if there is one. -/
def insertEmbargo : List Embargo → Nat → Option (List Embargo)
  | [], neighborNodeNbr => some [⟨neighborNodeNbr, false⟩]
  | embargo :: rest, neighborNodeNbr =>
    if embargo.nodeNbr < neighborNodeNbr then (insertEmbargo rest neighborNodeNbr).map (embargo :: ·)
    else if neighborNodeNbr < embargo.nodeNbr then some (⟨neighborNodeNbr, false⟩ :: embargo :: rest)
    else none

def deleteEmbargo : List Embargo → Nat → List Embargo
  | [], _ => []
  | embargo :: rest, neighborNodeNbr =>
    if embargo.nodeNbr < neighborNodeNbr then embargo :: deleteEmbargo rest neighborNodeNbr
    else if neighborNodeNbr < embargo.nodeNbr then embargo :: rest
    else rest

/-- A bundle on its way to an embargoed neighbor is the probe that was due. -/
def sendProbe : List Embargo → Nat → List Embargo
  | [], _ => []
  | embargo :: rest, neighborNodeNbr =>
    if embargo.nodeNbr < neighborNodeNbr then embargo :: sendProbe rest neighborNodeNbr
    else if neighborNodeNbr < embargo.nodeNbr then embargo :: rest
    else { embargo with probeIsDue := false } :: rest

structure IonProbe where
  time : Int
  destNodeNbr : Nat
  neighborNodeNbr : Nat
  deriving DecidableEq

/-- The light times of a neighbor, in unsigned integers. -/
structure IonNeighbor where
  owltInbound : Nat
  owltOutbound : Nat

/-- Twice the sum of the light times, in an unsigned integer, or six seconds if that is more; what
does not fit an `int` is negative. -/
def probeInterval : Option IonNeighbor → Int
  | none => 6
  | some neighbor =>
    let rtlt : Nat := (neighbor.owltOutbound + neighbor.owltInbound) * 2 % 2 ^ 32
    if 6 < rtlt then (if rtlt < 2 ^ 31 then (rtlt : Int) else rtlt - 2 ^ 32) else 6

/-- A probe goes behind the last one that is not later. -/
def insertProbe (probes : List IonProbe) (probe : IonProbe) : List IonProbe :=
  probes.rdropWhile (fun pr => probe.time < pr.time) ++ probe :: probes.rtakeWhile (fun pr => probe.time < pr.time)

def embargoesAt (nodes : NodeTree) (nodeNbr : Nat) : List Embargo :=
  ((findNode nodes nodeNbr).map (fun node => node.embargoes)).getD []

/-- The tree of nodes, with the list of one of them replaced. -/
def setEmbargoes (nodes : NodeTree) (nodeNbr : Nat) (embargoes : List Embargo) : NodeTree where
  entries := nodes.entries.map (fun node => if node.nodeNbr = nodeNbr then { node with embargoes := embargoes } else node)
  sorted := by
    have hkey : ∀ node : IonNode,
        (if node.nodeNbr = nodeNbr then { node with embargoes := embargoes } else node).nodeNbr = node.nodeNbr := by
      intro node
      split <;> rfl
    rw [List.pairwise_map]
    simp only [hkey]
    exact nodes.sorted

/-- All nodes with their probes. -/
structure World where
  process : IonProcess
  probes : Nat → List IonProbe

def World.start : World := ⟨IonProcess.start, fun _ => []⟩

/-- The list of a node in the partition of another one. -/
def withEmbargoes (p : IonProcess) (nodeNbr : Nat) (part : Partition) (destNodeNbr : Nat) (embargoes : List Embargo) :
    IonProcess :=
  { p with
    partitions := Function.update p.partitions nodeNbr
      (some { part with ion := { part.ion with nodes := setEmbargoes part.ion.nodes destNodeNbr embargoes } }) }

variable {δ σ : Type}

/-- The calls, and the operations on embargoes, each in the partition of a node and for a node that is known there. -/
inductive Event (σ : Type)
  | call (a : Addressed σ)
  | addEmbargo (nodeNbr : Nat) (time : Int) (destNodeNbr neighborNodeNbr : Nat)
  | removeEmbargo (nodeNbr destNodeNbr neighborNodeNbr : Nat)

def addEmbargo (findNeighbor : Nat → Nat → Option IonNeighbor) (w : World) (nodeNbr : Nat) (time : Int)
    (destNodeNbr neighborNodeNbr : Nat) : Option World :=
  (w.process.partitions nodeNbr).bind (fun part => (findNode part.ion.nodes destNodeNbr).map (fun node =>
    match insertEmbargo node.embargoes neighborNodeNbr with
    | none => w
    | some embargoes =>
      { process := withEmbargoes w.process nodeNbr part destNodeNbr embargoes
        probes := Function.update w.probes nodeNbr (insertProbe (w.probes nodeNbr)
          ⟨time + probeInterval (findNeighbor nodeNbr neighborNodeNbr), destNodeNbr, neighborNodeNbr⟩) }))

def removeEmbargo (w : World) (nodeNbr destNodeNbr neighborNodeNbr : Nat) : Option World :=
  (w.process.partitions nodeNbr).bind (fun part => (findNode part.ion.nodes destNodeNbr).map (fun node =>
    { w with process := withEmbargoes w.process nodeNbr part destNodeNbr (deleteEmbargo node.embargoes neighborNodeNbr) }))

/-- The embargoes for the terminus, once the bundle has been enqueued for the selected neighbors. -/
def sendProbes (p : IonProcess) (nodeNbr terminusNodeNbr : Nat) (selected : List (ProximateNode δ)) : IonProcess :=
  match p.partitions nodeNbr with
  | none => p
  | some part =>
    withEmbargoes p nodeNbr part terminusNodeNbr
      (selected.foldl (fun embargoes node => sendProbe embargoes node.neighborNodeNbr)
        (embargoesAt part.ion.nodes terminusNodeNbr))

def call (lookup : CgrLookup δ σ) (w : World) (a : Addressed σ) : Option World :=
  (perform lookup w.process a).map (fun r =>
    match a.call with
    | .initializeNode => ⟨r.1, if a.nodeNbr = 0 then w.probes else Function.update w.probes a.nodeNbr []⟩
    | .edit _ => ⟨r.1, w.probes⟩
    | .cgrForward _ terminusNodeNbr _ =>
      ⟨sendProbes r.1 a.nodeNbr terminusNodeNbr (r.2.elim [] Forwarding.selected), w.probes⟩)

def step (findNeighbor : Nat → Nat → Option IonNeighbor) (lookup : CgrLookup δ σ) (w : World) : Event σ → Option World
  | .call a => call lookup w a
  | .addEmbargo nodeNbr time destNodeNbr neighborNodeNbr =>
    addEmbargo findNeighbor w nodeNbr time destNodeNbr neighborNodeNbr
  | .removeEmbargo nodeNbr destNodeNbr neighborNodeNbr => removeEmbargo w nodeNbr destNodeNbr neighborNodeNbr

/-! The lists by themselves. -/

/-- A list of embargoes in ascending order, for just these neighbors, with no probe due. -/
structure Lists (embargoes : List Embargo) (neighbors : Finset Nat) : Prop where
  ascending : embargoes.Pairwise (fun a b => a.nodeNbr < b.nodeNbr)
  mem : ∀ n, n ∈ neighbors ↔ ∃ embargo ∈ embargoes, embargo.nodeNbr = n
  quiet : ∀ embargo ∈ embargoes, embargo.probeIsDue = false

variable {embargoes embargoes' : List Embargo} {neighbors : Finset Nat} {n : Nat}

theorem lists_nil : Lists [] ∅ := ⟨List.Pairwise.nil, by simp, by simp⟩

theorem mem_insertEmbargo (h : insertEmbargo embargoes n = some embargoes') (embargo : Embargo) :
    embargo ∈ embargoes' ↔ embargo = ⟨n, false⟩ ∨ embargo ∈ embargoes := by
  induction embargoes generalizing embargoes' with
  | nil =>
    obtain rfl := Option.some.inj h
    simp
  | cons first rest ih =>
    rw [insertEmbargo] at h
    split at h
    · obtain ⟨more, hmore, rfl⟩ := Option.map_eq_some_iff.mp h
      rw [List.mem_cons, ih hmore, List.mem_cons]
      exact or_left_comm
    · split at h
      · obtain rfl := Option.some.inj h
        exact List.mem_cons
      · cases h

theorem insertEmbargo_ascending (hasc : embargoes.Pairwise (fun a b => a.nodeNbr < b.nodeNbr))
    (h : insertEmbargo embargoes n = some embargoes') : embargoes'.Pairwise (fun a b => a.nodeNbr < b.nodeNbr) := by
  induction embargoes generalizing embargoes' with
  | nil =>
    obtain rfl := Option.some.inj h
    exact List.pairwise_singleton _ _
  | cons first rest ih =>
    obtain ⟨hfirst, hrest⟩ := List.pairwise_cons.mp hasc
    rw [insertEmbargo] at h
    split at h
    · rename_i hlt
      obtain ⟨more, hmore, rfl⟩ := Option.map_eq_some_iff.mp h
      refine List.pairwise_cons.mpr ⟨?_, ih hrest hmore⟩
      intro embargo hmem
      obtain rfl | hmem := (mem_insertEmbargo hmore embargo).mp hmem
      · exact hlt
      · exact hfirst embargo hmem
    · split at h
      · rename_i hgt
        obtain rfl := Option.some.inj h
        refine List.pairwise_cons.mpr ⟨?_, hasc⟩
        intro embargo hmem
        obtain rfl | hmem := List.mem_cons.mp hmem
        · exact hgt
        · exact hgt.trans (hfirst embargo hmem)
      · cases h

/-- In an ascending list the search ends at the neighbor, or where it would have to be. -/
theorem insertEmbargo_eq_none (hasc : embargoes.Pairwise (fun a b => a.nodeNbr < b.nodeNbr)) :
    insertEmbargo embargoes n = none ↔ ∃ embargo ∈ embargoes, embargo.nodeNbr = n := by
  induction embargoes with
  | nil => simp [insertEmbargo]
  | cons first rest ih =>
    obtain ⟨hfirst, hrest⟩ := List.pairwise_cons.mp hasc
    rw [insertEmbargo, List.exists_mem_cons_iff]
    split
    · rename_i hlt
      rw [Option.map_eq_none_iff, ih hrest]
      exact ⟨Or.inr, fun h => h.resolve_left (by omega)⟩
    · split
      · rename_i hgt
        refine ⟨fun h => (Option.some_ne_none _ h).elim, ?_⟩
        rintro (heq | ⟨embargo, hmem, heq⟩)
        · omega
        · have hlater := hfirst embargo hmem
          omega
      · exact ⟨fun _ => Or.inl (by omega), fun _ => rfl⟩

/-- An embargo that is new is listed, and one that is not leaves the list alone. -/
theorem Lists.add (h : Lists embargoes neighbors) : (n ∈ neighbors ∧ insertEmbargo embargoes n = none) ∨
    (n ∉ neighbors ∧ ∃ embargoes', insertEmbargo embargoes n = some embargoes' ∧ Lists embargoes' (insert n neighbors)) := by
  have hnone := insertEmbargo_eq_none (n := n) h.ascending
  rw [← h.mem n] at hnone
  cases hi : insertEmbargo embargoes n with
  | none => exact Or.inl ⟨hnone.mp hi, rfl⟩
  | some embargoes' =>
    have hnew : n ∉ neighbors := by
      intro hn
      rw [hnone.mpr hn] at hi
      cases hi
    refine Or.inr ⟨hnew, embargoes', rfl, insertEmbargo_ascending h.ascending hi, ?_, ?_⟩
    · intro m
      simp only [Finset.mem_insert, mem_insertEmbargo hi, or_and_right, exists_or, exists_eq_left, h.mem m]
      exact or_congr_left eq_comm
    · intro embargo hmem
      obtain rfl | hmem := (mem_insertEmbargo hi embargo).mp hmem
      · rfl
      · exact h.quiet embargo hmem

theorem deleteEmbargo_eq (hasc : embargoes.Pairwise (fun a b => a.nodeNbr < b.nodeNbr)) (n : Nat) :
    deleteEmbargo embargoes n = embargoes.filter (fun embargo => embargo.nodeNbr ≠ n) := by
  induction embargoes with
  | nil => rfl
  | cons first rest ih =>
    obtain ⟨hfirst, hrest⟩ := List.pairwise_cons.mp hasc
    have hkept : n ≤ first.nodeNbr → rest.filter (fun embargo => embargo.nodeNbr ≠ n) = rest := by
      intro hle
      rw [List.filter_eq_self]
      intro embargo hmem
      have hlater := hfirst embargo hmem
      simp only [ne_eq, decide_eq_true_eq]
      omega
    rw [deleteEmbargo]
    split
    · rw [ih hrest, List.filter_cons_of_pos (by simp only [ne_eq, decide_eq_true_eq]; omega)]
    · split
      · rw [List.filter_cons_of_pos (by simp only [ne_eq, decide_eq_true_eq]; omega), hkept (by omega)]
      · rw [List.filter_cons_of_neg (by simp only [ne_eq, decide_eq_true_eq]; omega), hkept (by omega)]

theorem Lists.remove (h : Lists embargoes neighbors) (n : Nat) :
    Lists (deleteEmbargo embargoes n) (neighbors.erase n) := by
  rw [deleteEmbargo_eq h.ascending]
  refine ⟨h.ascending.filter _, ?_, fun embargo hmem => h.quiet embargo (List.mem_filter.mp hmem).1⟩
  intro m
  simp only [Finset.mem_erase, h.mem m, List.mem_filter, ne_eq, decide_eq_true_eq]
  constructor
  · rintro ⟨hne, embargo, hmem, rfl⟩
    exact ⟨embargo, ⟨hmem, hne⟩, rfl⟩
  · rintro ⟨embargo, ⟨hmem, hne⟩, rfl⟩
    exact ⟨hne, embargo, hmem, rfl⟩

/-- Where no probe is due, none is sent. -/
theorem sendProbe_quiet (hquiet : ∀ embargo ∈ embargoes, embargo.probeIsDue = false) (n : Nat) :
    sendProbe embargoes n = embargoes := by
  induction embargoes with
  | nil => rfl
  | cons first rest ih =>
    have hrest := ih (fun embargo hmem => hquiet embargo (List.mem_cons_of_mem _ hmem))
    rw [sendProbe]
    split
    · rw [hrest]
    · split
      · rfl
      · rw [← hquiet first List.mem_cons_self]

/-! The probes. -/

/-- Probes in order of time, those of one time in the order in which they were posted. -/
structure Queued (probes posted : List IonProbe) : Prop where
  ordered : probes.Pairwise (fun a b => a.time ≤ b.time)
  stable : ∀ time, probes.filter (fun probe => probe.time = time) = posted.filter (fun probe => probe.time = time)

theorem queued_nil : Queued [] [] := ⟨List.Pairwise.nil, fun _ => rfl⟩

theorem Queued.post {probes posted : List IonProbe} (h : Queued probes posted) (probe : IonProbe) :
    Queued (insertProbe probes probe) (posted ++ [probe]) := by
  obtain ⟨hordered, hstable⟩ := h
  have hsplit := List.rdropWhile_append_rtakeWhile (p := fun pr : IonProbe => decide (probe.time < pr.time)) (l := probes)
  have hlater : ∀ pr ∈ probes.rtakeWhile (fun pr => probe.time < pr.time), probe.time < pr.time := by
    intro pr hpr
    simpa using List.mem_rtakeWhile_imp hpr
  have hlast := List.rdropWhile_last_not (fun pr : IonProbe => decide (probe.time < pr.time)) probes
  unfold insertProbe
  generalize probes.rdropWhile (fun pr => decide (probe.time < pr.time)) = before at hsplit hlast ⊢
  generalize probes.rtakeWhile (fun pr => decide (probe.time < pr.time)) = after at hsplit hlater ⊢
  subst hsplit
  obtain ⟨hbefore, hafter, hacross⟩ := List.pairwise_append.mp hordered
  have hearlier : ∀ pr ∈ before, pr.time ≤ probe.time := by
    intro pr hpr
    have hne : before ≠ [] := List.ne_nil_of_mem hpr
    have hend : (before.getLast hne).time ≤ probe.time := by
      simpa using hlast hne
    rw [← List.dropLast_append_getLast hne] at hbefore hpr
    cases List.mem_append.mp hpr with
    | inl hpr => exact ((List.pairwise_append.mp hbefore).2.2 pr hpr _ (List.mem_singleton_self _)).trans hend
    | inr hpr => exact List.mem_singleton.mp hpr ▸ hend
  constructor
  · refine List.pairwise_append.mpr ⟨hbefore, List.pairwise_cons.mpr ⟨fun pr hpr => (hlater pr hpr).le, hafter⟩, ?_⟩
    intro a ha b hb
    cases List.mem_cons.mp hb with
    | inl hb => exact hb ▸ hearlier a ha
    | inr hb => exact hacross a ha b hb
  · intro time
    have hposted := hstable time
    rw [List.filter_append] at hposted ⊢
    rw [List.filter_append, ← hposted, List.append_assoc]
    congr 1
    by_cases htime : probe.time = time
    · -- what comes later is not of this time
      have hnone : after.filter (fun pr => decide (pr.time = time)) = [] := by
        rw [List.filter_eq_nil_iff]
        intro pr hpr
        have hpast := hlater pr hpr
        simp only [decide_eq_true_eq]
        omega
      simp [htime, hnone]
    · simp [htime]

/-! The tree of nodes and the plan. -/

theorem embargoesAt_of_mem {nodes : NodeTree} {node : IonNode} (h : node ∈ nodes) :
    embargoesAt nodes node.nodeNbr = node.embargoes := by
  have hfound : findNode nodes node.nodeNbr = some node := SortedIndex.lookup_eq_some.mpr ⟨h, rfl⟩
  rw [embargoesAt, hfound]
  rfl

theorem embargoesAt_of_absent {nodes : NodeTree} {nodeNbr : Nat} (h : ∀ node ∈ nodes, node.nodeNbr ≠ nodeNbr) :
    embargoesAt nodes nodeNbr = [] := by
  have hnone : findNode nodes nodeNbr = none := SortedIndex.lookup_eq_none.mpr h
  rw [embargoesAt, hnone]
  rfl

theorem embargoesAt_of_find {nodes : NodeTree} {nodeNbr : Nat} {node : IonNode} (h : findNode nodes nodeNbr = some node) :
    embargoesAt nodes nodeNbr = node.embargoes := by
  rw [embargoesAt, h]
  rfl

/-- A node that comes to be known has no embargoes. -/
theorem embargoesAt_loadNode (nodes : NodeTree) (nodeNbr n : Nat) :
    embargoesAt (loadNode nodes nodeNbr) n = embargoesAt nodes n := by
  unfold loadNode
  split
  · rfl
  · rename_i hnone
    by_cases hn : n = nodeNbr
    · subst hn
      have hmem : (⟨n, []⟩ : IonNode) ∈ addNode nodes n hnone := SortedIndex.mem_insert_self _ _ _
      rw [embargoesAt_of_mem hmem, embargoesAt, hnone]
      rfl
    · have hsame : findNode (addNode nodes nodeNbr hnone) n = findNode nodes n :=
        SortedIndex.lookup_insert_of_ne _ _ _ (Ne.symm hn)
      rw [embargoesAt, hsame]
      rfl

theorem mem_setEmbargoes {nodes : NodeTree} {nodeNbr : Nat} {embargoes : List Embargo} {node : IonNode} :
    node ∈ setEmbargoes nodes nodeNbr embargoes ↔ ∃ old ∈ nodes,
      (if old.nodeNbr = nodeNbr then { old with embargoes := embargoes } else old) = node := List.mem_map

/-- The list of a node that is known is replaced, and no other. -/
theorem embargoesAt_setEmbargoes (nodes : NodeTree) (nodeNbr : Nat) (embargoes : List Embargo) (n : Nat)
    (hknown : embargoes ≠ [] → ∃ node ∈ nodes, node.nodeNbr = nodeNbr) :
    embargoesAt (setEmbargoes nodes nodeNbr embargoes) n = if n = nodeNbr then embargoes else embargoesAt nodes n := by
  by_cases hn : n = nodeNbr
  · rw [if_pos hn, hn]
    by_cases hmem : ∃ node ∈ nodes, node.nodeNbr = nodeNbr
    · obtain ⟨node, hnode, rfl⟩ := hmem
      exact embargoesAt_of_mem (mem_setEmbargoes.mpr ⟨node, hnode, if_pos rfl⟩)
    · have hnil : embargoes = [] := by
        by_contra hne
        exact hmem (hknown hne)
      rw [hnil]
      apply embargoesAt_of_absent
      intro node hnode heq
      obtain ⟨old, hold, rfl⟩ := mem_setEmbargoes.mp hnode
      refine hmem ⟨old, hold, ?_⟩
      split at heq <;> exact heq
  · rw [if_neg hn]
    cases hfound : findNode nodes n with
    | some node =>
      obtain ⟨hnode, rfl⟩ := SortedIndex.lookup_eq_some.mp hfound
      rw [embargoesAt_of_mem hnode]
      exact embargoesAt_of_mem (mem_setEmbargoes.mpr ⟨node, hnode, if_neg hn⟩)
    | none =>
      have habsent := SortedIndex.lookup_eq_none.mp hfound
      rw [embargoesAt_of_absent habsent]
      apply embargoesAt_of_absent
      intro node hnode heq
      obtain ⟨old, hold, rfl⟩ := mem_setEmbargoes.mp hnode
      refine habsent old hold ?_
      split at heq <;> exact heq

/-- The nodes have the embargoes that they had. -/
def SameEmbargoes (s t : IonState) : Prop := ∀ n, embargoesAt t.nodes n = embargoesAt s.nodes n

theorem SameEmbargoes.trans {s t u : IonState} (h : SameEmbargoes s t) (h' : SameEmbargoes t u) : SameEmbargoes s u :=
  fun n => (h' n).trans (h n)

theorem insertRXref_sameEmbargoes (s : IonState) (now : Int) (r : IonRXref) (h : s.rangeIndex.lookup r.key = none) :
    SameEmbargoes s (insertRXref s now r h) := by
  intro n
  rcases insertRXref_cases s now r h with ⟨-, he⟩ | ⟨-, h', he⟩ <;> rw [he]
  · exact (embargoesAt_loadNode _ _ n).trans (embargoesAt_loadNode _ _ n)
  · exact (embargoesAt_loadNode _ _ n).trans (embargoesAt_loadNode _ _ n)

theorem addRange_sameEmbargoes (s : IonState) (now : Int) (span : Span) (owlt : Nat) (nextElt : Option IonRXref)
    (h : s.rangeIndex.lookup span.key = none) : SameEmbargoes s (addRange s now span owlt nextElt h).1 := by
  apply addRange_preserves (fun _ => rfl)
  exact insertRXref_sameEmbargoes (recordRange s span owlt) now (newRange s span owlt) h

theorem insertRange_sameEmbargoes (s : IonState) (now : Int) (span : Span) (owlt : Nat) :
    SameEmbargoes s (insertRange s now span owlt).1 := by
  rcases insertRange_cases s now span owlt with ⟨r, -, -, h⟩ | ⟨r, hr, -, h⟩ | ⟨hk, h⟩ <;> rw [h]
  · exact fun _ => rfl
  · exact addRange_sameEmbargoes (dropImputed s r) now span owlt none (lookup_dropImputed hr)
  · exact addRange_sameEmbargoes s now span owlt _ hk

theorem deleteRange_sameEmbargoes (s : IonState) (now : Int) (r : IonRXref) (conditional : Bool) :
    SameEmbargoes s (deleteRange s now r conditional) := by
  intro n
  unfold deleteRange
  split <;> rfl

theorem edit_sameEmbargoes {s t : IonState} {c : Int × Edit} (h : edit s c = some t) : SameEmbargoes s t := by
  refine edit_preserves (SameEmbargoes s) ?_ ?_ ?_ ?_ (fun _ => rfl) h
  · intro u now span xmitRate prob hk hu _
    exact hu.trans (fun n => (embargoesAt_loadNode _ _ n).trans (embargoesAt_loadNode _ _ n))
  · exact fun _ _ _ hu _ => hu
  · exact fun u now span owlt hu => hu.trans (insertRange_sameEmbargoes u now span owlt)
  · exact fun u now r conditional hu _ => hu.trans (deleteRange_sameEmbargoes u now r conditional)

/-! Runs of calls and of operations on embargoes. -/

/-- Who is embargoed for whom at each node, and the probes that were posted there, in order of posting. -/
structure History where
  embargoed : Nat → Nat → Finset Nat
  posted : Nat → List IonProbe

def History.start : History := ⟨fun _ _ => ∅, fun _ => []⟩

/-- What the operations are for: an embargo stands until it is removed, or its node starts anew, and
a probe is posted whenever one is new. -/
def History.after (findNeighbor : Nat → Nat → Option IonNeighbor) (H : History) : Event σ → History
  | .call ⟨nodeNbr, _, .initializeNode⟩ =>
    if nodeNbr = 0 then H
    else ⟨Function.update H.embargoed nodeNbr (fun _ => ∅), Function.update H.posted nodeNbr []⟩
  | .call _ => H
  | .addEmbargo nodeNbr time destNodeNbr n =>
    if n ∈ H.embargoed nodeNbr destNodeNbr then H
    else
      { embargoed := Function.update H.embargoed nodeNbr (Function.update (H.embargoed nodeNbr) destNodeNbr
          (insert n (H.embargoed nodeNbr destNodeNbr)))
        posted := Function.update H.posted nodeNbr (H.posted nodeNbr ++
          [⟨time + probeInterval (findNeighbor nodeNbr n), destNodeNbr, n⟩]) }
  | .removeEmbargo nodeNbr destNodeNbr n =>
    { H with embargoed := Function.update H.embargoed nodeNbr (Function.update (H.embargoed nodeNbr) destNodeNbr
        ((H.embargoed nodeNbr destNodeNbr).erase n)) }

/-- Each known list is that of the neighbors embargoed so far, and the probes are in order of time. -/
structure Refines (w : World) (H : History) : Prop where
  lists : ∀ nodeNbr part, w.process.partitions nodeNbr = some part →
    ∀ destNodeNbr, Lists (embargoesAt part.ion.nodes destNodeNbr) (H.embargoed nodeNbr destNodeNbr)
  probes : ∀ nodeNbr, Queued (w.probes nodeNbr) (H.posted nodeNbr)

theorem refines_start : Refines World.start History.start := ⟨nofun, fun _ => queued_nil⟩

variable {w w' : World} {H : History} {lookup : CgrLookup δ σ} {findNeighbor : Nat → Nat → Option IonNeighbor}

/-- A routing call leaves the databases of all nodes alone. -/
theorem cgrForward_ion {p p' : IonProcess} {nodeNbr : Nat} {bundle : Bundle} {terminusNodeNbr : Nat} {now : Int} {env : σ}
    {forwarding : Forwarding δ σ}
    (h : cgrForward p nodeNbr lookup bundle terminusNodeNbr now env = some (p', forwarding)) {other : Nat}
    {part' : Partition} (hpart' : p'.partitions other = some part') :
    ∃ part, p.partitions other = some part ∧ part'.ion = part.ion := by
  obtain ⟨part, vdb, hpart, -, hcases⟩ := cgrForward_cases h
  have hrefresh : ∀ (n : Nat) (q : Partition), (refresh p vdb part.ion.lastEditTime now).partitions n = some q →
      ∃ part, p.partitions n = some part ∧ q.ion = part.ion := by
    intro n q hq
    obtain ⟨-, hkept⟩ | ⟨-, hdue, -⟩ := refresh_cases p vdb part.ion.lastEditTime now
    · rw [hkept] at hq
      exact ⟨q, hq, rfl⟩
    · rw [hdue] at hq
      obtain ⟨old, hold, rfl⟩ := Option.map_eq_some_iff.mp hq
      exact ⟨old, hold, rfl⟩
  obtain ⟨rfl, -⟩ | ⟨rfl, -⟩ | ⟨refreshed, terminusNode, identified, hrefreshed, -, rfl, -⟩ := hcases
  · exact ⟨part', hpart', rfl⟩
  · exact hrefresh other part' hpart'
  · by_cases hother : other = nodeNbr
    · subst hother
      have hself : part' = setRoutes refreshed terminusNodeNbr (some identified.walked.routes) := by
        simpa [keepRoutes] using hpart'.symm
      obtain ⟨old, hold, hion⟩ := hrefresh other refreshed hrefreshed
      exact ⟨old, hold, by rw [hself, ← hion]; rfl⟩
    · have hsame : (refresh p vdb part.ion.lastEditTime now).partitions other = some part' := by
        rw [← hpart']
        exact (Function.update_of_ne hother ..).symm
      exact hrefresh other part' hsame

/-- The list of one node is replaced in one partition. -/
theorem withEmbargoes_lists {p : IonProcess} (h : ∀ nodeNbr part, p.partitions nodeNbr = some part →
      ∀ destNodeNbr, Lists (embargoesAt part.ion.nodes destNodeNbr) (H.embargoed nodeNbr destNodeNbr))
    {nodeNbr : Nat} {part : Partition} (hpart : p.partitions nodeNbr = some part) {destNodeNbr : Nat}
    {embargoes : List Embargo} {neighbors : Finset Nat} (hlists : Lists embargoes neighbors)
    (hknown : embargoes ≠ [] → ∃ node ∈ part.ion.nodes, node.nodeNbr = destNodeNbr) :
    ∀ n q, (withEmbargoes p nodeNbr part destNodeNbr embargoes).partitions n = some q →
      ∀ t, Lists (embargoesAt q.ion.nodes t)
        (Function.update H.embargoed nodeNbr (Function.update (H.embargoed nodeNbr) destNodeNbr neighbors) n t) := by
  intro n q hq t
  by_cases hn : n = nodeNbr
  · subst hn
    have hself : q = { part with ion := { part.ion with nodes := setEmbargoes part.ion.nodes destNodeNbr embargoes } } := by
      simpa [withEmbargoes] using hq.symm
    rw [hself, embargoesAt_setEmbargoes _ _ _ _ hknown, Function.update_self]
    by_cases ht : t = destNodeNbr
    · rw [if_pos ht, ht, Function.update_self]
      exact hlists
    · rw [if_neg ht, Function.update_of_ne ht]
      exact h n part hpart t
  · have hsame : p.partitions n = some q := by
      rw [← hq]
      exact (Function.update_of_ne hn ..).symm
    rw [Function.update_of_ne hn]
    exact h n q hsame t

theorem foldl_sendProbe (hquiet : ∀ embargo ∈ embargoes, embargo.probeIsDue = false) (selected : List (ProximateNode δ)) :
    selected.foldl (fun embargoes node => sendProbe embargoes node.neighborNodeNbr) embargoes = embargoes := by
  induction selected with
  | nil => rfl
  | cons node rest ih =>
    rw [List.foldl_cons, sendProbe_quiet hquiet]
    exact ih

theorem known_of_embargoesAt {nodes : NodeTree} {nodeNbr : Nat} (h : embargoesAt nodes nodeNbr ≠ []) :
    ∃ node ∈ nodes, node.nodeNbr = nodeNbr := by
  by_contra hnone
  exact h (embargoesAt_of_absent (fun node hnode heq => hnone ⟨node, hnode, heq⟩))

/-- With no probe due, what is forwarded changes no embargo. -/
theorem sendProbes_lists {p : IonProcess} (h : ∀ nodeNbr part, p.partitions nodeNbr = some part →
      ∀ destNodeNbr, Lists (embargoesAt part.ion.nodes destNodeNbr) (H.embargoed nodeNbr destNodeNbr))
    (nodeNbr terminusNodeNbr : Nat) (selected : List (ProximateNode δ)) :
    ∀ n q, (sendProbes p nodeNbr terminusNodeNbr selected).partitions n = some q →
      ∀ t, Lists (embargoesAt q.ion.nodes t) (H.embargoed n t) := by
  unfold sendProbes
  cases hpart : p.partitions nodeNbr with
  | none => exact h
  | some part =>
    have hlists := h nodeNbr part hpart terminusNodeNbr
    have hafter := withEmbargoes_lists h hpart hlists known_of_embargoesAt
    rw [Function.update_eq_self, Function.update_eq_self] at hafter
    dsimp only
    rw [foldl_sendProbe hlists.quiet]
    exact hafter

theorem call_refines (h : Refines w H) {a : Addressed σ} (hs : call lookup w a = some w') :
    Refines w' (H.after findNeighbor (.call a)) := by
  obtain ⟨nodeNbr, time, c⟩ := a
  obtain ⟨⟨p, report⟩, hperform, rfl⟩ := Option.map_eq_some_iff.mp hs
  cases c with
  | initializeNode =>
    obtain ⟨rfl, -⟩ := Prod.mk.inj (Option.some.inj hperform)
    by_cases hzero : nodeNbr = 0
    · simp only [History.after, if_pos hzero, initializeNode]
      exact h
    · simp only [History.after, if_neg hzero, initializeNode]
      constructor
      · intro n part hpart t
        dsimp only at hpart ⊢
        by_cases hn : n = nodeNbr
        · subst hn
          rw [Function.update_self] at hpart
          obtain rfl := Option.some.inj hpart
          rw [Function.update_self]
          exact lists_nil
        · rw [Function.update_of_ne hn] at hpart ⊢
          exact h.lists n part hpart t
      · intro n
        dsimp only
        by_cases hn : n = nodeNbr
        · rw [hn, Function.update_self, Function.update_self]
          exact queued_nil
        · rw [Function.update_of_ne hn, Function.update_of_ne hn]
          exact h.probes n
  | edit e =>
    obtain ⟨p', hedit, he⟩ := Option.map_eq_some_iff.mp hperform
    obtain ⟨rfl, -⟩ := Prod.mk.inj he
    obtain ⟨part, ion, hpart, hion, rfl⟩ := editNode_eq_some hedit
    refine ⟨?_, h.probes⟩
    intro n q hq t
    dsimp only at hq
    by_cases hn : n = nodeNbr
    · subst hn
      rw [Function.update_self] at hq
      obtain rfl := Option.some.inj hq
      rw [edit_sameEmbargoes hion t]
      exact h.lists n part hpart t
    · rw [Function.update_of_ne hn] at hq
      exact h.lists n q hq t
  | cgrForward bundle terminusNodeNbr env =>
    obtain ⟨⟨p', forwarding⟩, hforward, he⟩ := Option.map_eq_some_iff.mp hperform
    obtain ⟨rfl, rfl⟩ := Prod.mk.inj he
    refine ⟨?_, h.probes⟩
    apply sendProbes_lists
    intro n q hq t
    obtain ⟨part, hpart, hion⟩ := cgrForward_ion hforward hq
    rw [hion]
    exact h.lists n part hpart t

theorem step_refines (h : Refines w H) {e : Event σ} (hs : step findNeighbor lookup w e = some w') :
    Refines w' (H.after findNeighbor e) := by
  cases e with
  | call a => exact call_refines h hs
  | addEmbargo nodeNbr time destNodeNbr n =>
    obtain ⟨part, hpart, hs⟩ := Option.bind_eq_some_iff.mp hs
    obtain ⟨node, hnode, rfl⟩ := Option.map_eq_some_iff.mp hs
    have hlists := h.lists nodeNbr part hpart destNodeNbr
    rw [embargoesAt_of_find hnode] at hlists
    obtain ⟨hmem, hnone⟩ | ⟨hnew, embargoes, hsome, hadded⟩ := hlists.add (n := n)
    · simp only [History.after, if_pos hmem, hnone]
      exact h
    · simp only [History.after, if_neg hnew, hsome]
      constructor
      · exact withEmbargoes_lists h.lists hpart hadded (fun _ => ⟨node, SortedIndex.lookup_eq_some.mp hnode⟩)
      · intro i
        dsimp only
        by_cases hi : i = nodeNbr
        · rw [hi, Function.update_self, Function.update_self]
          exact (h.probes nodeNbr).post _
        · rw [Function.update_of_ne hi, Function.update_of_ne hi]
          exact h.probes i
  | removeEmbargo nodeNbr destNodeNbr n =>
    obtain ⟨part, hpart, hs⟩ := Option.bind_eq_some_iff.mp hs
    obtain ⟨node, hnode, rfl⟩ := Option.map_eq_some_iff.mp hs
    have hlists := h.lists nodeNbr part hpart destNodeNbr
    rw [embargoesAt_of_find hnode] at hlists
    refine ⟨?_, h.probes⟩
    exact withEmbargoes_lists h.lists hpart (hlists.remove n) (fun _ => ⟨node, SortedIndex.lookup_eq_some.mp hnode⟩)

theorem run_refines {events : List (Event σ)} (h : Refines w H)
    (hrun : Runs.run (step findNeighbor lookup) w events = some w') :
    Refines w' (events.foldl (History.after findNeighbor) H) := by
  induction events generalizing w H with
  | nil => exact Option.some.inj hrun ▸ h
  | cons e rest ih =>
    obtain ⟨u, hu, hrest⟩ := Option.bind_eq_some_iff.mp hrun
    exact ih (step_refines h hu) hrest

/-- An embargoed neighbor is an excluded node. -/
theorem embargoed_excluded {bundle : Bundle} {nodes : NodeTree} {terminusNodeNbr : Nat} {terminusNode : IonNode}
    (hnode : findNode nodes terminusNodeNbr = some terminusNode) (h : Lists (embargoesAt nodes terminusNodeNbr) neighbors)
    (hn : n ∈ neighbors) : n ∈ excludedNodes bundle terminusNode := by
  rw [embargoesAt_of_find hnode] at h
  obtain ⟨embargo, hmem, rfl⟩ := (h.mem n).mp hn
  apply List.mem_append_right
  refine List.mem_map_of_mem (List.mem_filter.mpr ⟨hmem, ?_⟩)
  rw [h.quiet embargo hmem]
  rfl

/-- After any calls and any operations on embargoes, the lists are those of the embargoes that
stand and the probes are in order; and no routing of a bundle tries a route through a neighbor that
is embargoed for its terminus, or selects such a neighbor. -/
theorem embargoes_respected (findNeighbor : Nat → Nat → Option IonNeighbor) (lookup : CgrLookup δ σ)
    (events : List (Event σ)) (w : World) (hrun : Runs.run (step findNeighbor lookup) World.start events = some w) :
    Refines w (events.foldl (History.after findNeighbor) History.start) ∧
    ∀ (nodeNbr : Nat) (bundle : Bundle) (terminusNodeNbr : Nat) (now : Int) (env : σ) (p : IonProcess)
      (forwarding : Forwarding δ σ),
      cgrForward w.process nodeNbr lookup bundle terminusNodeNbr now env = some (p, forwarding) →
      ∀ n ∈ (events.foldl (History.after findNeighbor) History.start).embargoed nodeNbr terminusNodeNbr,
        (∀ t ∈ forwarding.tried, t.1.toNodeNbr ≠ n) ∧ ∀ node ∈ forwarding.selected, node.neighborNodeNbr ≠ n := by
  have hrefines := run_refines refines_start hrun
  refine ⟨hrefines, ?_⟩
  intro nodeNbr bundle terminusNodeNbr now env p forwarding hforward n hn
  obtain ⟨hselected, htried⟩ | ⟨part, terminusNode, routingObject, identified, hpart, hnode, hid, hselected, htried⟩ :=
    BestNeighbor.cgrForward_selected hforward
  · rw [hselected, htried]
    exact ⟨nofun, nofun⟩
  have hexcluded : n ∈ excludedNodes bundle terminusNode :=
    embargoed_excluded hnode (hrefines.lists nodeNbr part hpart terminusNodeNbr) hn
  obtain ⟨hbest, hmay⟩ := BestNeighbor.identifyProximateNodes_best hid
  have hroutes : ∀ t ∈ identified.walked.tried, t.1.toNodeNbr ≠ n := by
    rintro t ht rfl
    exact (hmay t ht).1 hexcluded
  rw [hselected, htried]
  refine ⟨hroutes, ?_⟩
  intro node hmem
  have hmem : node ∈ identified.walked.proximateNodes := by
    cases hlatency : bundle.minimumLatency with
    | true => simpa [selectProximateNodes, hlatency] using hmem
    | false => exact selectProximateNodes_mem hlatency hmem
  obtain ⟨x, hx, hto, -⟩ := hbest.carries node hmem
  rw [← hto]
  exact hroutes _ hx

/-- Node 1 knows two ways to node 4, the faster one through node 2, which refuses. -/
def refusal : List (Event Unit) :=
  let edit := fun e => Event.call ⟨1, 0, .edit e⟩
  [.call ⟨1, 0, .initializeNode⟩, edit (.insertContact 10 100 1 2 1000 1), edit (.insertRange 10 100 1 2 1),
    edit (.insertContact 10 100 2 4 1000 1), edit (.insertRange 10 100 2 4 1), edit (.insertContact 30 100 1 3 1000 1),
    edit (.insertRange 30 100 1 3 1), edit (.insertContact 30 100 3 4 1000 1), edit (.insertRange 30 100 3 4 1),
    .call ⟨1, 15, .cgrForward (bundleTo 4) 4 ()⟩, .addEmbargo 1 20 4 2, .addEmbargo 1 21 4 3, .addEmbargo 1 22 4 2,
    .removeEmbargo 1 4 3]

theorem embargoes_respected_refusal :
    ∃ w p forwarding, Runs.run (step (fun _ _ => none) openDucts) World.start refusal = some w ∧
      cgrForward w.process 1 openDucts (bundleTo 4) 4 25 () = some (p, forwarding) ∧
      forwarding.selected.map ProximateNode.neighborNodeNbr = [3] ∧ w.probes 1 = [⟨26, 4, 2⟩, ⟨27, 4, 3⟩] ∧
      ∀ t ∈ forwarding.tried, t.1.toNodeNbr ≠ 2 := by
  have hsome : (Runs.run (step (fun _ _ => none) openDucts) World.start refusal).any (fun w =>
      (cgrForward w.process 1 openDucts (bundleTo 4) 4 25 ()).any (fun r =>
        decide (r.2.selected.map ProximateNode.neighborNodeNbr = [3] ∧ w.probes 1 = [⟨26, 4, 2⟩, ⟨27, 4, 3⟩]))) = true := by
    decide +kernel
  obtain ⟨w, hrun, hsome⟩ := (Option.any_eq_true _ _).mp hsome
  obtain ⟨⟨p, forwarding⟩, hforward, hsome⟩ := (Option.any_eq_true _ _).mp hsome
  obtain ⟨hselected, hprobes⟩ := of_decide_eq_true hsome
  have hembargoed : 2 ∈ (refusal.foldl (History.after (fun _ _ => none)) History.start).embargoed 1 4 := by
    decide +kernel
  exact ⟨w, p, forwarding, hrun, hforward, hselected, hprobes,
    ((embargoes_respected (fun _ _ => none) openDucts refusal w hrun).2 1 (bundleTo 4) 4 25 () p forwarding hforward 2
      hembargoed).1⟩

end Embargoes
