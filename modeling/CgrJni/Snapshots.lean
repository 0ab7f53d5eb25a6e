import CgrJni.OutductList

/-!
No converted outduct outlives its call: what a call reads was made from the outducts
of that call, and when it returns the catalogue has no outduct any more.
-/

namespace Snapshots

open IonDb Forward RouteWalk Process Router Fallible Psm Smlist OutductList
open Interface (ionOutduct getOutductName atol ionBundle)

/-- Where a call has put the record of the outduct to a host. -/
structure Snapshot where
  outductElt : PsmAddress
  outductObj : PsmAddress
  host : Nat

def links (snapshots : List Snapshot) : List (PsmAddress × PsmAddress) :=
  snapshots.map (fun snapshot => (snapshot.outductElt, snapshot.outductObj))

def objects (snapshots : List Snapshot) : List PsmAddress := snapshots.map Snapshot.outductObj

/-- All blocks of the list, the list first. -/
def blocks (outductList : PsmAddress) (snapshots : List Snapshot) : List PsmAddress :=
  outductList :: (elts (links snapshots) ++ objects snapshots)

/-- In the course of a call that began on `base`: the list holds a record for each outduct that
was converted, in blocks of its own, and the catalogue has nothing else that is new. -/
structure Listed (sim : Simulator) (java : Outducts) (base heap : SdrHeap) (outductList : PsmAddress)
    (snapshots : List Snapshot) : Prop where
  sound : heap.Sound
  kept : ∀ a, base.memory a ≠ none → heap.memory a ≠ none
  empty : outductList = 0 → snapshots = []
  linked : outductList ≠ 0 →
    ∃ buffer, heap.memory outductList = some (.list buffer) ∧ Chain heap.memory buffer.first (links snapshots)
  distinct : (blocks outductList snapshots).Nodup
  fresh : ∀ a ∈ blocks outductList snapshots, base.memory a = none
  records : ∀ snapshot ∈ snapshots,
    heap.memory snapshot.outductObj = some (.object (.outduct (ionOutduct java.router snapshot.host)))
  hosts : ∀ snapshot ∈ snapshots, snapshot.host ∈ sim.hosts ∧ java.created snapshot.host = true
  located : ∀ name a, heap.located name = some a ↔
    base.located name = some a ∨ ∃ snapshot ∈ snapshots, name = getOutductName snapshot.host ∧ a = snapshot.outductElt

section

variable {sim : Simulator} {java : Outducts} {base heap heap' : SdrHeap} {outductList : PsmAddress}
  {snapshots : List Snapshot}

theorem listed_start (h : base.Sound) : Listed sim java base base 0 [] where
  sound := h
  kept := fun _ ha => ha
  empty := fun _ => rfl
  linked := fun hne => absurd rfl hne
  distinct := List.nodup_singleton 0
  fresh := by
    intro a ha
    rw [List.mem_singleton.mp ha]
    exact h.null
  records := by simp
  hosts := by simp
  located := by simp

theorem mem_blocks_of_elt {snapshot : Snapshot} (h : snapshot ∈ snapshots) :
    snapshot.outductElt ∈ blocks outductList snapshots := by
  apply List.mem_cons_of_mem
  apply List.mem_append_left
  exact List.mem_map.mpr ⟨_, List.mem_map_of_mem h, rfl⟩

theorem mem_blocks_of_obj {snapshot : Snapshot} (h : snapshot ∈ snapshots) :
    snapshot.outductObj ∈ blocks outductList snapshots := by
  apply List.mem_cons_of_mem
  apply List.mem_append_right
  exact List.mem_map_of_mem h

/-- Only the blocks of the list, what was allocated and the names count. -/
theorem Listed.frame (h : Listed sim java base heap outductList snapshots) (hsound : heap'.Sound)
    (hkept : ∀ a, heap.memory a ≠ none → heap'.memory a ≠ none)
    (hsame : ∀ a ∈ blocks outductList snapshots, heap'.memory a = heap.memory a)
    (hlocated : ∀ name, heap'.located name = heap.located name) :
    Listed sim java base heap' outductList snapshots where
  sound := hsound
  kept := fun a ha => hkept a (h.kept a ha)
  empty := h.empty
  linked := by
    intro hne
    obtain ⟨buffer, hlist, hchain⟩ := h.linked hne
    refine ⟨buffer, ?_, hchain.congr ?_⟩
    · rw [hsame outductList List.mem_cons_self, hlist]
    · intro a ha
      exact hsame a (List.mem_cons_of_mem _ (List.mem_append_left _ ha))
  distinct := h.distinct
  fresh := h.fresh
  records := by
    intro snapshot hmem
    rw [hsame _ (mem_blocks_of_obj hmem), h.records snapshot hmem]
  hosts := h.hosts
  located := by
    intro name a
    rw [hlocated]
    exact h.located name a

/-- The blocks of the list are allocated, except for a list that was not made yet. -/
theorem Listed.block_allocated (h : Listed sim java base heap outductList snapshots) {a : PsmAddress}
    (ha : a ∈ blocks outductList snapshots) (hne : a ≠ 0) : heap.memory a ≠ none := by
  unfold blocks at ha
  rw [List.mem_cons, List.mem_append] at ha
  obtain rfl | helt | hobj := ha
  · obtain ⟨buffer, hlist, -⟩ := h.linked hne
    rw [hlist]
    exact Option.some_ne_none _
  · by_cases hlist : outductList = 0
    · rw [h.empty hlist] at helt
      cases helt
    · obtain ⟨buffer, -, hchain⟩ := h.linked hlist
      exact hchain.elt_allocated helt
  · obtain ⟨snapshot, hmem, rfl⟩ := List.mem_map.mp hobj
    rw [h.records snapshot hmem]
    exact Option.some_ne_none _

theorem Listed.allocated (h : Listed sim java base heap outductList snapshots) {a : PsmAddress}
    (hz : Allocated heap heap' a) : Listed sim java base heap' outductList snapshots := by
  apply h.frame hz.sound (fun _ => hz.keeps) _ hz.located
  intro b hb
  by_cases hzero : b = 0
  · rw [hzero, hz.sound.null, h.sound.null]
  · exact hz.memory b (hz.ne_of_allocated (h.block_allocated hb hzero))

theorem Listed.put (h : Listed sim java base heap outductList snapshots) {a : PsmAddress}
    (ha : heap.memory a ≠ none) (hnot : a ∉ blocks outductList snapshots) (value : Block SdrObject) :
    Listed sim java base (heap.put a value) outductList snapshots := by
  apply h.frame (h.sound.put ha value) (fun b => (heap.put_allocated value ha b).mpr) _ (fun _ => rfl)
  intro b hb
  apply heap.put_of_ne
  intro heq
  exact hnot (heq ▸ hb)

/-- What was there when the call began is no block of the list. -/
theorem Listed.notMem_blocks (h : Listed sim java base heap outductList snapshots) {a : PsmAddress}
    (ha : base.memory a ≠ none) : a ∉ blocks outductList snapshots := by
  intro hmem
  exact ha (h.fresh a hmem)

theorem Listed.unused (h : Listed sim java base heap outductList snapshots) {a : PsmAddress}
    (ha : heap.memory a = none) : base.memory a = none := by
  by_contra hbase
  exact h.kept a hbase ha

/-- The list is made. -/
theorem Listed.create (h : Listed sim java base heap 0 snapshots) (hz : Allocated heap heap' outductList)
    (hlist : heap'.memory outductList = some (.list erasedList)) :
    Listed sim java base heap' outductList [] := by
  have hnone := h.empty rfl
  subst hnone
  have h' := h.allocated hz
  exact {
    sound := hz.sound
    kept := h'.kept
    empty := fun _ => rfl
    linked := fun _ => ⟨erasedList, hlist, rfl⟩
    distinct := List.nodup_singleton _
    fresh := by
      intro a ha
      rw [List.mem_singleton.mp ha]
      exact h.unused hz.unused
    records := by simp
    hosts := by simp
    located := h'.located }

theorem blocks_cons (snapshot : Snapshot) :
    (blocks outductList (snapshot :: snapshots)).Perm
      (snapshot.outductElt :: snapshot.outductObj :: blocks outductList snapshots) := by
  unfold blocks
  apply List.Perm.trans (List.Perm.swap _ _ _)
  apply List.Perm.cons
  apply List.Perm.trans (List.Perm.cons _ List.perm_middle)
  exact List.Perm.swap _ _ _

/-- Blocks of a list that was made are allocated. -/
theorem Listed.block_ne (h : Listed sim java base heap outductList snapshots) (hne : outductList ≠ 0) {a b : PsmAddress}
    (ha : heap.memory a = none) (hb : b ∈ blocks outductList snapshots) : b ≠ a := by
  have hzero : b ≠ 0 := by
    intro heq
    have hmem : (0 : PsmAddress) ∈ blocks outductList snapshots := heq ▸ hb
    unfold blocks at hmem
    rw [List.mem_cons, List.mem_append] at hmem
    obtain heq | helt | hobj := hmem
    · exact hne heq.symm
    · obtain ⟨buffer, -, hchain⟩ := h.linked hne
      exact hchain.elt_allocated helt h.sound.null
    · obtain ⟨snapshot, hs, hsnap⟩ := List.mem_map.mp hobj
      have hrecord := h.records snapshot hs
      rw [hsnap, h.sound.null] at hrecord
      cases hrecord
  intro heq
  exact h.block_allocated hb hzero (heq ▸ ha)

theorem notMem_links_of_blocks {a : PsmAddress} (ha : a ∉ blocks outductList snapshots) :
    a ∉ outductList :: elts (links snapshots) := by
  intro hmem
  apply ha
  obtain rfl | hmem := List.mem_cons.mp hmem
  · exact List.mem_cons_self
  · exact List.mem_cons_of_mem _ (List.mem_append_left _ hmem)

theorem obj_notMem_links (hn : (blocks outductList snapshots).Nodup) {snapshot : Snapshot} (h : snapshot ∈ snapshots) :
    snapshot.outductObj ∉ outductList :: elts (links snapshots) := by
  obtain ⟨hlist, hn⟩ := List.nodup_cons.mp hn
  have hobj : snapshot.outductObj ∈ objects snapshots := List.mem_map_of_mem h
  intro hmem
  obtain heq | helt := List.mem_cons.mp hmem
  · exact hlist (List.mem_append_right _ (heq ▸ hobj))
  · exact List.disjoint_of_nodup_append hn helt hobj

/-- A record is put into the list, and its element into the catalogue. -/
theorem Listed.insert (h : Listed sim java base heap outductList snapshots) (hne : outductList ≠ 0)
    {heap₁ heap₂ : SdrHeap} {outductObj outductElt : PsmAddress} {host : Nat}
    (hname : heap.located (getOutductName host) = none) (hhost : host ∈ sim.hosts ∧ java.created host = true)
    (hz : Allocated heap heap₁ outductObj)
    (hobj : heap₁.memory outductObj = some (.object (.outduct (ionOutduct java.router host))))
    (hins : Inserted heap₁ heap₂ outductList outductElt outductObj (links snapshots)) :
    Listed sim java base (psmCatlg heap₂ (getOutductName host) outductElt) outductList
      (⟨outductElt, outductObj, host⟩ :: snapshots) := by
  have h₁ := h.allocated hz
  have helt_ne : outductElt ≠ outductObj := by
    intro heq
    have hunused := hins.unused
    rw [heq, hobj] at hunused
    cases hunused
  have helt : outductElt ∉ blocks outductList snapshots := fun hmem => h₁.block_ne hne hins.unused hmem rfl
  have hobj_new : outductObj ∉ blocks outductList snapshots := fun hmem => h.block_ne hne hz.unused hmem rfl
  obtain ⟨buffer, hlist, hchain⟩ := hins.linked
  have hused : heap₂.memory outductElt ≠ none := hchain.elt_allocated List.mem_cons_self
  have hname₂ : heap₂.located (getOutductName host) = none := by rw [hins.located, hz.located, hname]
  have hunnamed : ∀ name', heap₂.located name' ≠ some outductElt := by
    intro name' hloc
    rw [hins.located] at hloc
    exact hz.sound.allocated name' _ hloc hins.unused
  have hsame : ∀ a, a ≠ outductElt → a ∉ outductList :: elts (links snapshots) → heap₂.memory a = heap₁.memory a := by
    intro a hne ha
    rw [List.mem_cons, not_or] at ha
    exact hins.memory a hne ha.1 ha.2
  exact {
    sound := hins.sound.psmCatlg hname₂ hused hunnamed
    kept := by
      intro a ha
      have hkept := h₁.kept a ha
      have hne : a ≠ outductElt := by
        intro heq
        exact hkept (heq ▸ hins.unused)
      have hmem := hsame a hne (notMem_links_of_blocks (h.notMem_blocks ha))
      exact fun hnone => hkept (hmem ▸ hnone)
    empty := fun hzero => absurd hzero hne
    linked := fun _ => ⟨buffer, hlist, hchain⟩
    distinct := by
      rw [(blocks_cons _).nodup_iff, List.nodup_cons, List.nodup_cons, List.mem_cons, not_or]
      exact ⟨⟨helt_ne, helt⟩, hobj_new, h.distinct⟩
    fresh := by
      intro a ha
      rw [(blocks_cons _).mem_iff, List.mem_cons, List.mem_cons] at ha
      obtain rfl | rfl | ha := ha
      · exact h₁.unused hins.unused
      · exact h.unused hz.unused
      · exact h.fresh a ha
    records := by
      intro snapshot hmem
      obtain rfl | hmem := List.mem_cons.mp hmem
      · have hnew := hsame outductObj helt_ne.symm (notMem_links_of_blocks hobj_new)
        exact hnew.trans hobj
      · have hne : snapshot.outductObj ≠ outductElt := by
          intro heq
          exact helt (heq ▸ mem_blocks_of_obj hmem)
        have hold := hsame _ hne (obj_notMem_links h.distinct hmem)
        exact hold.trans (h₁.records snapshot hmem)
    hosts := by
      intro snapshot hmem
      obtain rfl | hmem := List.mem_cons.mp hmem
      · exact hhost
      · exact h.hosts snapshot hmem
    located := by
      intro name a
      rw [psmCatlg_located hname₂, hins.located, List.exists_mem_cons_iff]
      by_cases heq : name = getOutductName host
      · subst heq
        have hold : ¬ (base.located (getOutductName host) = some a ∨
            ∃ snapshot ∈ snapshots, getOutductName host = getOutductName snapshot.host ∧ a = snapshot.outductElt) := by
          rw [← h.located, hname]
          simp
        rw [not_or] at hold
        simp only [hold, if_true, Option.some.injEq, true_and, false_or, or_false]
        exact eq_comm
      · simp only [heq, if_false, false_and, false_or]
        exact h₁.located name a }

/-- A list with a record in it was made. -/
theorem Listed.list_ne (h : Listed sim java base heap outductList snapshots) {snapshot : Snapshot}
    (hmem : snapshot ∈ snapshots) : outductList ≠ 0 := by
  intro hzero
  rw [h.empty hzero] at hmem
  cases hmem

theorem Listed.readOutduct_eq (h : Listed sim java base heap outductList snapshots) {snapshot : Snapshot}
    (hmem : snapshot ∈ snapshots) :
    readOutduct heap snapshot.outductElt = .ok (ionOutduct java.router snapshot.host) := by
  obtain ⟨list, -, hchain⟩ := h.linked (h.list_ne hmem)
  obtain ⟨buffer, helt, hdata⟩ := hchain.data_of_mem (List.mem_map_of_mem hmem)
  have hrecord := h.records snapshot hmem
  have hobj : snapshot.outductObj ≠ 0 := h.sound.ne_zero (by simp [hrecord])
  unfold readOutduct sdrRead
  rw [smListData_eq h.sound helt, hdata]
  simp only [bind, Except.bind, if_neg hobj]
  rw [deref_eq h.sound hrecord]
  rfl

/-- The failures that end the process rather than let it run on: an exception of the Java side, and
an access through `NULL` when there is no memory left. -/
def Crash (failure : Failure) : Prop := failure = .exception ∨ failure = .nullPointer

variable {malloc : SdrMalloc}

theorem initOutductList_ends (h : Listed sim java base heap outductList snapshots) :
    Ends (fun _ => False) (fun r => Listed sim java base r.2 r.1 snapshots)
      (initOutductList malloc heap outductList) := by
  unfold initOutductList
  by_cases hzero : outductList = 0
  · rw [if_pos hzero]
    subst hzero
    apply (smListCreate_ends h.sound malloc).mono (fun _ hfail => hfail)
    rintro ⟨list, heap'⟩ ⟨hz, hlist⟩
    by_cases hne : list = 0
    · subst hne
      exact h.allocated hz
    · rw [h.empty rfl]
      exact h.create hz (hlist hne)
  · rw [if_neg hzero]
    exact h

theorem convertOutduct_ends (h : Listed sim java base heap outductList snapshots) {host : Nat}
    (hname : heap.located (getOutductName host) = none) (hhost : host ∈ sim.hosts ∧ java.created host = true) :
    Ends Crash (fun r => r.1 = 0 ∨
        ∃ outductObj, Listed sim java base r.2 outductList (⟨r.1, outductObj, host⟩ :: snapshots))
      (convertOutduct malloc java heap outductList host) := by
  have hz := psmZalloc_allocated h.sound malloc
  unfold convertOutduct sdrWrite
  generalize psmZalloc malloc heap = r at hz
  obtain ⟨outductObj, heap₁⟩ := r
  dsimp only at hz ⊢
  by_cases hobj : outductObj = 0
  · subst hobj
    exact Or.inr rfl
  have hw := hz.put hobj (.object (.outduct (ionOutduct java.router host)))
  have hrecord := heap₁.put_self outductObj (.object (.outduct (ionOutduct java.router host)))
  rw [assign_eq hz.sound (hz.used hobj)]
  simp only [bind, Except.bind]
  generalize heap₁.put outductObj (.object (.outduct (ionOutduct java.router host))) = heap₂ at hw hrecord ⊢
  by_cases hne : outductList = 0
  · rw [smListInsertFirst, if_pos hne]
    exact Or.inl rfl
  obtain ⟨buffer, hlist, hchain⟩ := (h.allocated hw).linked hne
  obtain ⟨r, hr, hins⟩ := (smListInsertFirst_ends hw.sound hlist hchain malloc outductObj).total
  rw [hr]
  obtain hzero | hins := hins
  · exact Or.inl hzero
  · exact Or.inr ⟨outductObj, h.insert hne hname hhost hw hrecord hins⟩

theorem getOutductName_injective {host host' : Nat} (h : getOutductName host = getOutductName host') : host = host' := by
  have hnumber : (host : Int) = host' := by
    rw [← Reports.atol_toString host, ← Reports.atol_toString host']
    exact congrArg atol h
  omega

/-- A name that stands for no object, or for `NULL`, is not in the catalogue. -/
theorem located_of_sdrFind (h : heap.Sound) {name : String} (hfind : sdrFind heap name = 0) :
    heap.located name = none := by
  unfold sdrFind at hfind
  cases hloc : heap.located name with
  | none => rfl
  | some a =>
    rw [hloc, Option.getD_some] at hfind
    subst hfind
    exact absurd h.null (h.allocated name 0 hloc)

theorem getONEOutductToNode_ends (nodeNbr : Nat) :
    Ends Crash (fun found => ∀ host, found = some host → host = nodeNbr ∧ host ∈ sim.hosts ∧ java.created host = true)
      (getONEOutductToNode sim java nodeNbr) := by
  unfold getONEOutductToNode
  cases hhost : getHostFromNumber sim nodeNbr with
  | none => exact Or.inl rfl
  | some host =>
    obtain ⟨hmem, heq⟩ := Reports.getHostFromNumber_eq_some hhost
    intro host' hfound
    split at hfound
    · rename_i hcreated
      obtain rfl := Option.some.inj hfound
      exact ⟨Int.natCast_inj.mp heq, hmem, hcreated⟩
    · cases hfound

/-- Two records are in the list; the later has all that the earlier had. -/
def Extends (earlier later : List Snapshot) : Prop := ∀ snapshot ∈ earlier, snapshot ∈ later

/-- A directive is the element of a record for the neighbor, old or new; the element `NULL` is that
of a record for which there was no memory. -/
theorem getONEDirective_ends (h : Listed sim java base heap outductList snapshots)
    (hclean : ∀ host, base.located (getOutductName host) = none) (nodeNbr : Nat) :
    Ends Crash (fun r => r.1 = some 0 ∨ ∃ later, Listed sim java base r.2.2 r.2.1 later ∧ Extends snapshots later ∧
        ∀ outductElt, r.1 = some outductElt →
          ∃ snapshot ∈ later, snapshot.outductElt = outductElt ∧ snapshot.host = nodeNbr)
      (getONEDirective sim malloc java nodeNbr heap outductList) := by
  unfold getONEDirective
  apply (getONEOutductToNode_ends nodeNbr).bind
  intro found hfound
  cases found with
  | none => exact Or.inr ⟨snapshots, h, fun _ hmem => hmem, by simp⟩
  | some host =>
    obtain ⟨rfl, hhost⟩ := hfound host rfl
    apply (initOutductList_ends h).weaken.bind
    rintro ⟨list, heap'⟩ h'
    dsimp only at h' ⊢
    by_cases hzero : sdrFind heap' (getOutductName host) = 0
    · rw [if_pos hzero]
      apply (convertOutduct_ends h' (located_of_sdrFind h'.sound hzero) hhost).bind
      rintro ⟨outductElt, heap''⟩ hpost
      obtain hnull | ⟨outductObj, hlisted⟩ := hpost
      · exact Or.inl (congrArg some hnull)
      · refine Or.inr ⟨_, hlisted, fun _ hmem => List.mem_cons_of_mem _ hmem, ?_⟩
        intro elt helt
        exact ⟨_, List.mem_cons_self, Option.some.inj helt, rfl⟩
    · rw [if_neg hzero]
      refine Or.inr ⟨snapshots, h', fun _ hmem => hmem, ?_⟩
      intro outductElt helt
      have hloc : heap'.located (getOutductName host) = some outductElt := by
        rw [← Option.some.inj helt]
        unfold sdrFind at hzero ⊢
        cases hloc : heap'.located (getOutductName host) with
        | none => simp [hloc] at hzero
        | some a => rfl
      obtain hold | ⟨snapshot, hmem, hname, heq⟩ := (h'.located _ _).mp hloc
      · rw [hclean host] at hold
        cases hold
      · exact ⟨snapshot, hmem, heq.symm, (getOutductName_injective hname).symm⟩

/-- A record that was read for a neighbor, from the outducts of the call. -/
def Fresh (sim : Simulator) (java : Outducts) (read : Nat × Forward.Outduct) : Prop :=
  read.1 ∈ sim.hosts ∧ java.created read.1 = true ∧ read.2 = ionOutduct java.router read.1

/-- What holds between the lookups of a call. -/
structure InCall (sim : Simulator) (java : Outducts) (base : SdrHeap) (state : CallState) : Prop where
  reads : ∀ read ∈ state.reads, Fresh sim java read
  failed : ∀ failure, state.failed = some failure → Crash failure
  listed : state.failed = none → ∃ snapshots, Listed sim java base state.heap state.outductList snapshots

/-- A directive for a neighbor leads to a record for it. -/
def LeadsTo (sim : Simulator) (java : Outducts) (base : SdrHeap) (state : CallState) (nodeNbr : Nat)
    (outductElt : PsmAddress) : Prop :=
  state.failed = none → ∃ snapshots, Listed sim java base state.heap state.outductList snapshots ∧
    ∃ snapshot ∈ snapshots, snapshot.outductElt = outductElt ∧ snapshot.host = nodeNbr

theorem readOutduct_null (heap : SdrHeap) : readOutduct heap 0 = .error .nullPointer := rfl

/-- A lookup ends the process, finds no directive, or reads the record for the neighbor. -/
theorem lookupOutduct_cases {state state' : CallState} {found : Option PsmAddress} {nodeNbr : Nat}
    (h : Listed sim java base state.heap state.outductList snapshots) (hrun : state.failed = none)
    (hclean : ∀ host, base.located (getOutductName host) = none)
    (hr : lookupOutduct sim malloc java nodeNbr state = (found, state')) :
    (∃ failure, Crash failure ∧ found = none ∧ state' = { state with failed := some failure }) ∨
    state'.failed = none ∧ ∃ later, Listed sim java base state'.heap state'.outductList later ∧ Extends snapshots later ∧
      (found = none ∧ state'.reads = state.reads ∨
        ∃ snapshot ∈ later, snapshot.host = nodeNbr ∧ found = some snapshot.outductElt ∧
          state'.reads = state.reads ++ [(nodeNbr, ionOutduct java.router nodeNbr)]) := by
  have hends : Ends Crash _ (getONEDirective sim malloc java nodeNbr state.heap state.outductList) :=
    getONEDirective_ends h hclean nodeNbr
  unfold lookupOutduct at hr
  rw [hrun] at hr
  dsimp only at hr
  cases hget : getONEDirective sim malloc java nodeNbr state.heap state.outductList with
  | error failure =>
    rw [hget] at hr
    obtain ⟨rfl, rfl⟩ := Prod.mk.inj hr
    exact Or.inl ⟨failure, hends.failure hget, rfl, rfl⟩
  | ok r =>
    obtain ⟨directive, outductList', heap'⟩ := r
    have hpost := hends.post hget
    rw [hget] at hr
    cases directive with
    | none =>
      obtain ⟨rfl, rfl⟩ := Prod.mk.inj hr
      obtain hnull | ⟨later, hlisted, hext, -⟩ := hpost
      · cases hnull
      · exact Or.inr ⟨rfl, later, hlisted, hext, Or.inl ⟨rfl, rfl⟩⟩
    | some outductElt =>
      dsimp only at hr hpost
      obtain hnull | ⟨later, hlisted, hext, hfound⟩ := hpost
      · obtain rfl := Option.some.inj hnull
        rw [readOutduct_null] at hr
        obtain ⟨rfl, rfl⟩ := Prod.mk.inj hr
        exact Or.inl ⟨.nullPointer, Or.inr rfl, rfl, rfl⟩
      · obtain ⟨snapshot, hmem, rfl, rfl⟩ := hfound outductElt rfl
        rw [hlisted.readOutduct_eq hmem] at hr
        obtain ⟨rfl, rfl⟩ := Prod.mk.inj hr
        exact Or.inr ⟨rfl, later, hlisted, hext, Or.inr ⟨snapshot, hmem, rfl, rfl, rfl⟩⟩

theorem lookupOutduct_failed {state : CallState} {failure : Failure} (hfailed : state.failed = some failure)
    (nodeNbr : Nat) : lookupOutduct sim malloc java nodeNbr state = (none, state) := by
  unfold lookupOutduct
  rw [hfailed]

theorem oneLookup_keeps (hclean : ∀ host, base.located (getOutductName host) = none) (bundle : Bundle) :
    LookupKeeps (oneLookup sim malloc java) bundle (InCall sim java base) (LeadsTo sim java base) := by
  constructor
  · intro nodeNbr state found state' hI hr
    cases hfailed : state.failed with
    | some failure =>
      have hsame := (lookupOutduct_failed hfailed nodeNbr).symm.trans hr
      obtain ⟨-, rfl⟩ := Prod.mk.inj hsame
      exact hI
    | none =>
      obtain ⟨snapshots, hlisted⟩ := hI.listed hfailed
      obtain ⟨failure, hcrash, -, rfl⟩ | ⟨hrun, later, hlater, -, hread⟩ := lookupOutduct_cases hlisted hfailed hclean hr
      · refine ⟨hI.reads, ?_, by simp⟩
        intro failure' hsome
        exact Option.some.inj hsome ▸ hcrash
      · refine ⟨?_, ?_, fun _ => ⟨later, hlater⟩⟩
        · intro read hmem
          obtain ⟨-, hreads⟩ | ⟨snapshot, hsnap, rfl, -, hreads⟩ := hread
          · exact hI.reads read (hreads ▸ hmem)
          · rw [hreads, List.mem_append, List.mem_singleton] at hmem
            obtain hold | rfl := hmem
            · exact hI.reads read hold
            · obtain ⟨hhost, hcreated⟩ := hlater.hosts snapshot hsnap
              exact ⟨hhost, hcreated, rfl⟩
        · intro failure hsome
          rw [hrun] at hsome
          cases hsome
  · intro nodeNbr state outductElt state' hI hr hrun'
    cases hfailed : state.failed with
    | some failure =>
      have hsame := (lookupOutduct_failed hfailed nodeNbr).symm.trans hr
      cases (Prod.mk.inj hsame).1
    | none =>
      obtain ⟨snapshots, hlisted⟩ := hI.listed hfailed
      obtain ⟨failure, -, hnone, -⟩ | ⟨-, later, hlater, -, hread⟩ := lookupOutduct_cases hlisted hfailed hclean hr
      · cases hnone
      · obtain ⟨hnone, -⟩ | ⟨snapshot, hsnap, hhost, hfound, -⟩ := hread
        · cases hnone
        · exact ⟨later, hlater, snapshot, hsnap, (Option.some.inj hfound).symm, hhost⟩
  · intro nodeNbr state found state' hI hr m outductElt hleads hrun'
    cases hfailed : state.failed with
    | some failure =>
      have hsame := (lookupOutduct_failed hfailed nodeNbr).symm.trans hr
      obtain ⟨-, rfl⟩ := Prod.mk.inj hsame
      exact hleads hrun'
    | none =>
      obtain ⟨snapshots, hlisted, snapshot, hsnap, helt, hhost⟩ := hleads hfailed
      obtain ⟨failure, -, -, rfl⟩ | ⟨-, later, hlater, hext, -⟩ := lookupOutduct_cases hlisted hfailed hclean hr
      · cases hrun'
      · exact ⟨later, hlater, snapshot, hext snapshot hsnap, helt, hhost⟩

theorem insertBpTimelineEvent_ends (malloc : SdrMalloc) (h : Listed sim java base heap outductList snapshots)
    (time : Int) :
    Ends (fun _ => False) (fun r => Listed sim java base r.2 outductList snapshots ∧ heap.memory r.1 = none ∧
        (r.1 ≠ 0 → r.2.memory r.1 = some (.object (.event time))))
      (insertBpTimelineEvent malloc heap time) := by
  have hz := psmZalloc_allocated h.sound malloc
  unfold insertBpTimelineEvent sdrWrite
  generalize psmZalloc malloc heap = r at hz
  obtain ⟨addr, heap'⟩ := r
  dsimp only at hz ⊢
  by_cases hnull : addr = 0
  · subst hnull
    exact ⟨h.allocated hz, hz.unused, fun hne => absurd rfl hne⟩
  · rw [if_neg hnull, assign_eq hz.sound (hz.used hnull)]
    exact ⟨h.allocated (hz.put hnull _), hz.unused, fun _ => heap'.put_self _ _⟩

theorem readEvent_eq (h : heap.Sound) {overdueElt : PsmAddress} {time : Int}
    (hevent : heap.memory overdueElt = some (.object (.event time))) : readEvent heap overdueElt = .ok time := by
  have hne : overdueElt ≠ 0 := h.ne_zero (by simp [hevent])
  unfold readEvent sdrRead
  rw [if_neg hne, deref_eq h hevent]
  rfl

theorem insertBundleIntoOutduct_ends (router : ContactGraphRouter) (m : Message) (toNodeNbr : Int) :
    Ends Crash (fun _ => True) (OutductList.insertBundleIntoOutduct sim java router m toNodeNbr) := by
  unfold OutductList.insertBundleIntoOutduct
  split
  · exact Or.inl rfl
  · trivial

/-- The record of the neighbor is still there when the bundle is enqueued. -/
theorem bpEnqueONE_ends (h : Listed sim java base heap outductList snapshots) {overdueElt : PsmAddress} {time : Int}
    (hevent : heap.memory overdueElt = some (.object (.event time))) {snapshot : Snapshot} (hmem : snapshot ∈ snapshots)
    (reference : Int) (m : Message) (router : ContactGraphRouter) :
    Ends Crash (fun _ => True) (bpEnqueONE sim java reference m router heap overdueElt snapshot.outductElt) := by
  unfold bpEnqueONE
  rw [readEvent_eq h.sound hevent, h.readOutduct_eq hmem]
  exact (insertBundleIntoOutduct_ends _ m _).bind (fun _ _ => trivial)

theorem enqueueToNeighbor_ends {state : Enqueued} (h : Listed sim java base state.heap outductList snapshots)
    {bundleObj : PsmAddress} (hbundle : base.memory bundleObj ≠ none) {neighbor : ProximateNode PsmAddress}
    (hdir : ∃ snapshot ∈ snapshots, snapshot.outductElt = neighbor.directive) (reference : Int) (m : Message) :
    Ends Crash (fun state' => Listed sim java base state'.heap outductList snapshots)
      (enqueueToNeighbor sim malloc java reference m bundleObj state neighbor) := by
  obtain ⟨⟨overdueElt, heap'⟩, hinsert, h', hunused, hevent⟩ :=
    (insertBpTimelineEvent_ends malloc h neighbor.forfeitTime).total
  obtain ⟨snapshot, hmem, hdir⟩ := hdir
  unfold enqueueToNeighbor sdrWrite
  rw [hinsert]
  simp only [bind, Except.bind]
  by_cases hnull : overdueElt = 0
  · rw [if_pos hnull]
    exact h'
  have hlive := h'.kept bundleObj hbundle
  have hne : overdueElt ≠ bundleObj := by
    intro heq
    exact h.kept bundleObj hbundle (heq ▸ hunused)
  have h'' := h'.put hlive (h'.notMem_blocks hbundle) (.object .bundle)
  have hevent' := heap'.put_of_ne (.object .bundle) hne
  rw [hevent hnull] at hevent'
  rw [if_neg hnull, assign_eq h'.sound hlive, ← hdir]
  exact (bpEnqueONE_ends h'' hevent' hmem reference m state.router).bind (fun _ _ => h'')

theorem enqueueToAll_ends {bundleObj : PsmAddress} (hbundle : base.memory bundleObj ≠ none) (reference : Int)
    (m : Message) {neighbors : List (ProximateNode PsmAddress)} {state : Enqueued}
    (h : Listed sim java base state.heap outductList snapshots)
    (hdir : ∀ neighbor ∈ neighbors, ∃ snapshot ∈ snapshots, snapshot.outductElt = neighbor.directive) :
    Ends Crash (fun state' => Listed sim java base state'.heap outductList snapshots)
      (enqueueToAll sim malloc java reference m bundleObj neighbors state) := by
  induction neighbors generalizing state with
  | nil => exact h
  | cons neighbor rest ih =>
    rw [enqueueToAll]
    apply (enqueueToNeighbor_ends h hbundle (hdir neighbor List.mem_cons_self) reference m).bind
    intro state' h'
    split
    · exact h'
    · exact ih h' (fun other hmem => hdir other (List.mem_cons_of_mem _ hmem))

/-- The data of a chain is released; the chain itself stays as it is. -/
theorem freeOutducts_ends {a : PsmAddress} {chain : List (PsmAddress × PsmAddress)} {fuel : Nat} (h : heap.Sound)
    (hchain : Chain heap.memory a chain) (hdata : ∀ entry ∈ chain, heap.memory entry.2 ≠ none)
    (hn : (elts chain ++ chain.map Prod.snd).Nodup) (hfuel : chain.length ≤ fuel) :
    Ends (fun _ => False) (fun heap' => Released heap heap' (chain.map Prod.snd)) (freeOutducts fuel heap a) := by
  induction chain generalizing heap a fuel with
  | nil =>
    have hzero : a = 0 := hchain
    cases fuel with
    | zero => rw [freeOutducts, if_pos hzero]; exact Released.none h
    | succ fuel => rw [freeOutducts, if_pos hzero]; exact Released.none h
  | cons entry rest ih =>
    obtain ⟨rfl, buffer, hmem, hbuffer, hrest⟩ := hchain
    have hused : heap.memory entry.1 ≠ none := by simp [hmem]
    have hn' : (entry.1 :: (elts rest ++ entry.2 :: rest.map Prod.snd)).Nodup := hn
    obtain ⟨helt, hn'⟩ := List.nodup_cons.mp hn'
    obtain ⟨hobj, hn'⟩ := List.nodup_cons.mp (List.perm_middle.nodup_iff.mp hn')
    cases fuel with
    | zero => simp at hfuel
    | succ fuel =>
      obtain ⟨heap', hfree, hreleased⟩ := (psmFree_ends h (hdata entry List.mem_cons_self)).total
      have hne : entry.1 ∉ [entry.2] := by
        intro hsame
        exact helt (List.mem_append_right _ (List.mem_singleton.mp hsame ▸ List.mem_cons_self))
      have hkept : ∀ b ∈ elts rest ++ rest.map Prod.snd, heap'.memory b = heap.memory b := by
        intro b hb
        apply hreleased.of_notMem
        intro hsame
        exact hobj (List.mem_singleton.mp hsame ▸ hb)
      have hmem' := hreleased.of_notMem hne
      rw [hmem] at hmem'
      rw [freeOutducts, if_neg (h.ne_zero hused), smListData_eq h hmem, hbuffer]
      simp only [bind, Except.bind]
      rw [hfree]
      dsimp only
      rw [smListNext_eq hreleased.sound hmem']
      have hrest' := hrest.congr (fun b hb => hkept b (List.mem_append_left _ hb))
      have hdata' : ∀ other ∈ rest, heap'.memory other.2 ≠ none := by
        intro other hother
        rw [hkept other.2 (List.mem_append_right _ (List.mem_map_of_mem hother))]
        exact hdata other (List.mem_cons_of_mem _ hother)
      have hfuel' : rest.length ≤ fuel := by simpa using hfuel
      exact (ih hreleased.sound hrest' hdata' hn' hfuel').mono (fun _ hfail => hfail) (fun _ hrel => hreleased.trans hrel)

/-- The state of the memory when a call has cleaned up: what was there before is still there, and
the catalogue is the old one. -/
structure Restored (base heap : SdrHeap) : Prop where
  sound : heap.Sound
  kept : ∀ a, base.memory a ≠ none → heap.memory a ≠ none
  located : ∀ name a, heap.located name = some a → base.located name = some a

theorem objects_links (snapshots : List Snapshot) : (links snapshots).map Prod.snd = objects snapshots := by
  rw [links, List.map_map]
  rfl

/-- With the elements of the list go their entries in the catalogue, which are all that is new there. -/
theorem wipeOutductList_ends (h : Listed sim java base heap outductList snapshots) :
    Ends (fun _ => False) (Restored base) (wipeOutductList heap outductList) := by
  unfold wipeOutductList
  by_cases hzero : outductList = 0
  · rw [if_pos hzero]
    refine ⟨h.sound, h.kept, ?_⟩
    intro name a hloc
    obtain hold | ⟨snapshot, hmem, -⟩ := (h.located name a).mp hloc
    · exact hold
    · exact absurd hzero (h.list_ne hmem)
  rw [if_neg hzero]
  obtain ⟨buffer, hlist, hchain⟩ := h.linked hzero
  obtain ⟨hnot, hn⟩ := List.nodup_cons.mp h.distinct
  have hdata : ∀ entry ∈ links snapshots, heap.memory entry.2 ≠ none := by
    intro entry hentry
    obtain ⟨snapshot, hmem, rfl⟩ := List.mem_map.mp hentry
    rw [h.records snapshot hmem]
    exact Option.some_ne_none _
  have hfuel : (links snapshots).length ≤ heap.partition.addresses.card := by
    have hle := h.sound.length_le (List.Nodup.of_append_left hn) (fun a ha => hchain.elt_allocated ha)
    rwa [elts, List.length_map] at hle
  -- first the records, then the elements and the list
  obtain ⟨heap₁, hfree, hreleased⟩ :=
    (freeOutducts_ends h.sound hchain hdata ((objects_links snapshots).symm ▸ hn) hfuel).total
  rw [objects_links] at hreleased
  have hlist₁ := hreleased.of_notMem (fun hmem => hnot (List.mem_append_right _ hmem))
  rw [hlist] at hlist₁
  have hchain₁ := hchain.congr (fun a ha => hreleased.of_notMem (fun hmem => List.disjoint_of_nodup_append hn ha hmem))
  obtain ⟨heap₂, hwipe, hlast⟩ := (wipeList_ends hreleased.sound hlist₁ hchain₁ (List.Nodup.of_append_left hn)).total
  have hall := hreleased.trans hlast
  have hblocks : ∀ a, a ∈ objects snapshots ++ (elts (links snapshots) ++ [outductList]) ↔
      a ∈ blocks outductList snapshots := by
    intro a
    simp only [blocks, List.mem_append, List.mem_cons, List.not_mem_nil, or_false]
    tauto
  rw [smListFirst_eq h.sound hlist]
  simp only [bind, Except.bind]
  rw [hfree]
  dsimp only
  rw [hwipe]
  refine ⟨hall.sound, ?_, ?_⟩
  · intro a ha
    rw [hall.of_notMem (fun hmem => h.notMem_blocks ha ((hblocks a).mp hmem))]
    exact h.kept a ha
  · intro name a hloc
    obtain ⟨hloc, hnotMem⟩ := (hall.located name a).mp hloc
    obtain hold | ⟨snapshot, hmem, -, rfl⟩ := (h.located name a).mp hloc
    · exact hold
    · exact absurd ((hblocks _).mpr (mem_blocks_of_elt hmem)) hnotMem

/-- All that is known of the list names the same elements. -/
theorem Listed.elt_mem (h : Listed sim java base heap outductList snapshots) {snapshots' : List Snapshot}
    (h' : Listed sim java base heap outductList snapshots') {snapshot : Snapshot} (hmem : snapshot ∈ snapshots') :
    ∃ same ∈ snapshots, same.outductElt = snapshot.outductElt := by
  have hne := h'.list_ne hmem
  obtain ⟨buffer, hlist, hchain⟩ := h.linked hne
  obtain ⟨buffer', hlist', hchain'⟩ := h'.linked hne
  rw [hlist, Option.some.injEq, Block.list.injEq] at hlist'
  subst hlist'
  have hlinks : (snapshot.outductElt, snapshot.outductObj) ∈ links snapshots := by
    rw [hchain.unique h.sound.null hchain']
    exact List.mem_map_of_mem hmem
  obtain ⟨same, hsame, heq⟩ := List.mem_map.mp hlinks
  exact ⟨same, hsame, (Prod.mk.inj heq).1⟩

theorem finishForwarding_ends {call : ForwardCall} {bundleObj : PsmAddress} {forwarding : Forwarding PsmAddress CallState}
    (hbundle : base.memory bundleObj ≠ none) (hI : InCall sim call.java base forwarding.env)
    (hdir : ∀ node ∈ forwarding.selected, LeadsTo sim call.java base forwarding.env node.neighborNodeNbr node.directive) :
    Ends Crash (fun returned => returned.heap.Sound ∧
        ∀ name a, returned.heap.located name = some a → base.located name = some a)
      (finishForwarding sim malloc call bundleObj forwarding) := by
  unfold finishForwarding
  cases hfailed : forwarding.env.failed with
  | some failure => exact hI.failed failure hfailed
  | none =>
    obtain ⟨snapshots, hlisted⟩ := hI.listed hfailed
    have henqueued : Ends Crash (fun state => Listed sim call.java base state.heap forwarding.env.outductList snapshots)
        (enqueueSelected sim malloc call bundleObj forwarding) := by
      unfold enqueueSelected
      split
      · exact hlisted
      · apply enqueueToAll_ends hbundle call.reference call.message hlisted
        intro node hnode
        obtain ⟨snapshots', hlisted', snapshot, hmem, helt, -⟩ := hdir node hnode hfailed
        obtain ⟨same, hsame, heq⟩ := hlisted.elt_mem hlisted' hmem
        exact ⟨same, hsame, heq.trans helt⟩
    apply henqueued.bind
    intro state hstate
    apply (wipeOutductList_ends hstate).weaken.bind
    intro heap hrestored
    apply (psmFree_ends hrestored.sound (hrestored.kept bundleObj hbundle)).weaken.bind
    intro heap' hreleased
    exact ⟨hreleased.sound, fun name a hloc => hrestored.located name a ((hreleased.located name a).mp hloc).1⟩

/-- What is left between two calls. -/
structure BetweenCalls (heap : SdrHeap) : Prop where
  sound : heap.Sound
  clean : ∀ host, heap.located (getOutductName host) = none

/-- The names that are left after a call were there before it. -/
theorem BetweenCalls.of_located (h : BetweenCalls heap) (hsound : heap'.Sound)
    (hlocated : ∀ name a, heap'.located name = some a → heap.located name = some a) : BetweenCalls heap' where
  sound := hsound
  clean := by
    intro host
    cases hloc : heap'.located (getOutductName host) with
    | none => rfl
    | some a =>
      have hold := hlocated _ a hloc
      rw [h.clean host] at hold
      cases hold

/-- A call does not outlive itself: its records are its own, and its names go with it. -/
structure NothingOutlives (sim : Simulator) (call : ForwardCall) (performed : Performed) : Prop where
  reads : ∀ read ∈ performed.reads, Fresh sim call.java read
  returned : ∀ returned, performed.outcome = .ok returned → BetweenCalls returned.heap
  failed : ∀ failure, performed.outcome = .error failure → Crash failure

theorem inCall_start (h : base.Sound) : InCall sim java base (CallState.start base) where
  reads := by simp [CallState.start]
  failed := by simp [CallState.start]
  listed _ := ⟨[], listed_start h⟩

/-- A call has no memory for the bundle, or the neighbors are chosen, each with the record that leads to it, and then
the bundle is enqueued. -/
theorem cgrForwardONE_walks (h : BetweenCalls heap) {call : ForwardCall} {performed : Performed}
    (hrun : cgrForwardONE sim malloc call heap = some performed) :
    performed = ⟨[], .error .nullPointer⟩ ∨
      ∃ base bundleObj process' forwarding, BetweenCalls base ∧ base.memory bundleObj ≠ none ∧
        Process.cgrForward call.process sim.host (oneLookup sim malloc call.java)
          (ionBundle call.message call.ttl call.now) call.terminusNodeNbr call.now (CallState.start base) =
            some (process', forwarding) ∧
        InCall sim call.java base forwarding.env ∧
        (∀ node ∈ forwarding.selected, LeadsTo sim call.java base forwarding.env node.neighborNodeNbr node.directive) ∧
        performed = ⟨forwarding.env.reads, finishForwarding sim malloc call bundleObj forwarding⟩ := by
  have hz := psmZalloc_allocated h.sound malloc
  unfold cgrForwardONE sdrWrite at hrun
  generalize psmZalloc malloc heap = r at hz hrun
  obtain ⟨bundleObj, heap'⟩ := r
  dsimp only at hz hrun
  by_cases hnull : bundleObj = 0
  · subst hnull
    exact Or.inl (Option.some.inj hrun).symm
  have hw := hz.put hnull (.object .bundle)
  rw [assign_eq hz.sound (hz.used hnull)] at hrun
  dsimp only at hrun
  generalize heap'.put bundleObj (.object .bundle) = base at hw hrun
  have hclean : ∀ host, base.located (getOutductName host) = none := by
    intro host
    rw [hw.located]
    exact h.clean host
  obtain ⟨⟨process', forwarding⟩, hf, rfl⟩ := Option.map_eq_some_iff.mp hrun
  refine Or.inr ⟨base, bundleObj, process', forwarding, ⟨hw.sound, hclean⟩, hw.used hnull, hf, ?_⟩
  have hI₀ : InCall sim call.java base (CallState.start base) := inCall_start hw.sound
  have hall : RoutesAll (fun _ => True) call.process := fun _ _ _ _ _ _ _ _ => trivial
  obtain ⟨hsel, -, -, henv⟩ | ⟨s, excluded, routes, walked, -, hw, hsel, -, -, henv⟩ :=
    cgrForward_walked (fun _ _ _ => trivial) hall hf
  · rw [hsel, henv]
    exact ⟨hI₀, by simp, rfl⟩
  · obtain ⟨hI, hnodes⟩ := walkRoutes_env (oneLookup_keeps hclean _) hI₀ hw
    rw [hsel, henv]
    exact ⟨hI, fun node hnode => hnodes node (selectProximateNodes_mem rfl hnode), rfl⟩

theorem cgrForwardONE_nothingOutlives (h : BetweenCalls heap) {call : ForwardCall} {performed : Performed}
    (hrun : cgrForwardONE sim malloc call heap = some performed) : NothingOutlives sim call performed := by
  obtain rfl | ⟨base, bundleObj, process', forwarding, hbase, hbundle, -, hI, hdir, rfl⟩ := cgrForwardONE_walks h hrun
  · exact ⟨by simp, by simp, fun failure hfail => Or.inr (Except.error.inj hfail).symm⟩
  · have hfinish : Ends Crash _ (finishForwarding sim malloc call bundleObj forwarding) :=
      finishForwarding_ends hbundle hI hdir
    refine ⟨hI.reads, ?_, fun failure hfail => hfinish.failure hfail⟩
    intro returned hok
    obtain ⟨hsound, hlocated⟩ := hfinish.post hok
    exact hbase.of_located hsound hlocated

/-- Nothing that is done between two calls puts an outduct into the catalogue. -/
theorem reachable_betweenCalls (h : Reachable sim malloc heap) : BetweenCalls heap := by
  induction h with
  | start =>
    refine ⟨sound_new, ?_⟩
    intro host
    rfl
  | call heap call performed returned _ hrun hok ih => exact (cgrForwardONE_nothingOutlives ih hrun).returned returned hok
  | allocate heap _ ih =>
    have hz := psmZalloc_allocated ih.sound malloc
    refine ⟨hz.sound, ?_⟩
    intro host
    rw [hz.located, ih.clean host]
  | write heap heap' address block _ hassign ih =>
    obtain ⟨hused, rfl⟩ := assign_eq_ok hassign
    exact ⟨ih.sound.put hused block, ih.clean⟩
  | release heap heap' address _ hfree ih =>
    obtain ⟨addresses, hreleased⟩ := psmFree_eq_ok ih.sound hfree
    exact ih.of_located hreleased.sound (fun name a hloc => ((hreleased.located name a).mp hloc).1)
  | catalogue heap name address _ hname hused hunnamed ih =>
    by_cases hnew : heap.located name = none
    · refine ⟨ih.sound.psmCatlg hnew hused hunnamed, ?_⟩
      intro host
      rw [psmCatlg_located hnew, if_neg (hname host).symm, ih.clean host]
    · rw [psmCatlg_of_located hnew]
      exact ih

theorem outducts_end_with_call (h : Reachable sim malloc heap) :
    (∀ host, sdrFind heap (getOutductName host) = 0) ∧
    ∀ call performed, cgrForwardONE sim malloc call heap = some performed → NothingOutlives sim call performed := by
  have hbetween := reachable_betweenCalls h
  refine ⟨?_, fun call performed hrun => cgrForwardONE_nothingOutlives hbetween hrun⟩
  intro host
  rw [sdrFind, hbetween.clean host]
  rfl

end

/-- An allocator that gives out the first address that is free, and so the same ones to each call. -/
def firstFree : SdrMalloc where
  pointer heap := ((List.range 16).find? (fun a => a ≠ 0 ∧ (heap.memory a).isNone)).getD 0
  contents _ := .object .bundle
  fresh := by
    intro heap hne
    cases hfind : (List.range 16).find? (fun a => a ≠ 0 ∧ (heap.memory a).isNone) with
    | none => exact absurd (by rw [hfind]; rfl) hne
    | some a =>
      have hfree := List.find?_some hfind
      rw [Option.getD_some]
      exact Option.isNone_iff_eq_none.mp (of_decide_eq_true hfree).2

/-- A message for host 3, when the router has so many bytes enqueued for each host. -/
def callWithBacklog (process : IonProcess) (backlog : Int) : ForwardCall where
  process := process
  java := ⟨⟨fun _ => none, ⟨[], 0⟩, fun _ => ⟨[], backlog⟩, fun _ => 0, fun _ => 0, []⟩, fun _ => true⟩
  message := RouterQueues.messageTo 1 "M1" 3
  ttl := 500
  now := 1010
  reference := 1000
  terminusNodeNbr := 3

open RouterQueues Reports in
/-- The second of two calls, in the same memory, sees the bytes that were enqueued in between. -/
theorem outducts_end_with_call_backlog :
    ∃ process heap performed, Reachable threeHosts firstFree heap ∧
      cgrForwardONE threeHosts firstFree (callWithBacklog process 300) heap = some performed ∧
      performed.reads = [(3, ⟨"3", false, 1024 * 1024 * 1024, ⟨0, 300⟩⟩)] ∧
      NothingOutlives threeHosts (callWithBacklog process 300) performed := by
  have hsome : (Runs.run (Process.step (Interface.oneLookup threeHosts)) IonProcess.start planOfHost).any (fun process =>
      (cgrForwardONE threeHosts firstFree (callWithBacklog process 0) Heap.new).any (fun performed =>
        match performed.outcome with
        | .error _ => false
        | .ok returned =>
          (cgrForwardONE threeHosts firstFree (callWithBacklog process 300) returned.heap).any (fun performed =>
            decide (performed.reads = [(3, ⟨"3", false, 1024 * 1024 * 1024, ⟨0, 300⟩⟩)])))) = true := by
    decide +kernel
  obtain ⟨process, -, hcalls⟩ := (Option.any_eq_true _ _).mp hsome
  obtain ⟨performed, hfirst, hcalls⟩ := (Option.any_eq_true _ _).mp hcalls
  cases hok : performed.outcome with
  | error failure => simp [hok] at hcalls
  | ok returned =>
    rw [hok] at hcalls
    obtain ⟨performed', hsecond, hreads⟩ := (Option.any_eq_true _ _).mp hcalls
    have hreach : Reachable threeHosts firstFree returned.heap := .call _ _ _ _ .start hfirst hok
    exact ⟨process, returned.heap, performed', hreach, hsecond, of_decide_eq_true hreads,
      (outducts_end_with_call hreach).2 _ _ hsecond⟩

end Snapshots
