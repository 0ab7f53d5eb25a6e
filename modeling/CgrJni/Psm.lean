import CgrJni.IonDb
import CgrJni.Fallible

/-!
Managed memory: the allocator of the C library, and the partition that keeps
account, in Java, of the addresses in use and of the objects that have a name.
-/

namespace Psm

open IonDb Fallible

/-- How the native code comes to grief. -/
inductive Failure
  | exception
  | nullPointer
  | dangling
  | uninitialized
  | wrongBlock
  | endless
  deriving DecidableEq

/-- The catalogue holds its newest entry first, the map of the source its oldest. -/
structure PsmPartition where
  addresses : Finset PsmAddress
  catalog : AList (fun _ : String => PsmAddress)

namespace PsmPartition

def new : PsmPartition := ⟨∅, ∅⟩

def psmLocate (p : PsmPartition) (name : String) : Option PsmAddress := p.catalog.lookup name

/-- A name that is in use is not given to another object. -/
def psmCatlg (p : PsmPartition) (name : String) (objLocation : PsmAddress) : PsmPartition :=
  if name ∈ p.catalog then p else { p with catalog := p.catalog.insert name objLocation }

def psmAlloc (p : PsmPartition) (pointer : PsmAddress) : Option PsmAddress × PsmPartition :=
  if pointer ∈ p.addresses then (none, p)
  else (some pointer, { p with addresses := insert pointer p.addresses })

/-- Only the oldest entry for the address is removed. -/
def psmFree (p : PsmPartition) (address : PsmAddress) : PsmPartition where
  addresses := p.addresses.erase address
  catalog :=
    match p.catalog.entries.reverse.find? (fun entry => entry.2 = address) with
    | none => p.catalog
    | some entry => p.catalog.erase entry.1

theorem psmLocate_eq_some {p : PsmPartition} {name : String} {a : PsmAddress} :
    p.psmLocate name = some a ↔ ⟨name, a⟩ ∈ p.catalog.entries := AList.mem_lookup_iff

theorem psmLocate_psmCatlg {p : PsmPartition} {name : String} (h : p.psmLocate name = none)
    (objLocation : PsmAddress) (name' : String) :
    (p.psmCatlg name objLocation).psmLocate name' = if name' = name then some objLocation else p.psmLocate name' := by
  have hnew : name ∉ p.catalog := AList.lookup_eq_none.mp h
  unfold psmCatlg psmLocate
  rw [if_neg hnew]
  split
  · rename_i heq
    rw [heq]
    exact AList.lookup_insert _
  · rename_i hne
    exact AList.lookup_insert_ne hne

/-- Where no object has two names, every name of the object goes. -/
theorem psmLocate_psmFree {p : PsmPartition}
    (honce : ∀ name name' a, p.psmLocate name = some a → p.psmLocate name' = some a → name = name')
    (address : PsmAddress) (name : String) :
    (p.psmFree address).psmLocate name = if p.psmLocate name = some address then none else p.psmLocate name := by
  unfold psmFree
  cases hfind : p.catalog.entries.reverse.find? (fun entry => entry.2 = address) with
  | none =>
    have hnone := List.find?_eq_none.mp hfind
    rw [if_neg]
    · rfl
    · intro hloc
      exact hnone ⟨name, address⟩ (List.mem_reverse.mpr (psmLocate_eq_some.mp hloc)) (by simp)
  | some entry =>
    have hmem : entry ∈ p.catalog.entries := List.mem_reverse.mp (List.mem_of_find?_eq_some hfind)
    have haddr : entry.2 = address := by simpa using List.find?_some hfind
    have hentry : p.psmLocate entry.1 = some address := psmLocate_eq_some.mpr (haddr ▸ hmem)
    by_cases hloc : p.psmLocate name = some address
    · rw [if_pos hloc, honce name entry.1 address hloc hentry]
      exact AList.lookup_erase _ _
    · rw [if_neg hloc]
      apply AList.lookup_erase_ne
      intro heq
      exact hloc (heq ▸ hentry)

end PsmPartition

/-- The blocks that are allocated in a partition, by their first address; 0 is `NULL`. -/
structure Heap (κ : Type) where
  partition : PsmPartition
  memory : PsmAddress → Option κ
  mallocs : Nat

section

variable {κ : Type}

def Heap.new : Heap κ := ⟨.new, fun _ => none, 0⟩

def Heap.located (heap : Heap κ) (name : String) : Option PsmAddress := heap.partition.psmLocate name

/-- The allocator of the C library. It may fail, may give out again what was freed, and
leaves in a block whatever was there before. -/
structure Malloc (κ : Type) where
  pointer : Heap κ → PsmAddress
  contents : Heap κ → κ
  fresh : ∀ heap, pointer heap ≠ 0 → heap.memory (pointer heap) = none

def Heap.malloc (heap : Heap κ) (pointer : PsmAddress) (contents : κ) : PsmAddress → Option κ :=
  if pointer = 0 then heap.memory else Function.update heap.memory pointer (some contents)

/-- Zero when the partition does not answer with the same pointer. -/
def psmZalloc (malloc : Malloc κ) (heap : Heap κ) : PsmAddress × Heap κ :=
  let pointer := malloc.pointer heap
  let memory := heap.malloc pointer (malloc.contents heap)
  match heap.partition.psmAlloc pointer with
  | (none, partition) => (0, ⟨partition, memory, heap.mallocs + 1⟩)
  | (some result, partition) => (result, ⟨partition, memory, heap.mallocs + 1⟩)

/-- Releasing `NULL` has no effect on the memory; what is not allocated must not be released. -/
def psmFree (heap : Heap κ) (address : PsmAddress) : Except Failure (Heap κ) :=
  let partition := heap.partition.psmFree address
  if address = 0 then .ok { heap with partition := partition }
  else
    match heap.memory address with
    | none => .error .dangling
    | some _ => .ok { heap with partition := partition, memory := Function.update heap.memory address none }

def psmCatlg (heap : Heap κ) (name : String) (objLocation : PsmAddress) : Heap κ :=
  { heap with partition := heap.partition.psmCatlg name objLocation }

/-- An access through a pointer. -/
def deref (heap : Heap κ) (address : PsmAddress) : Except Failure κ :=
  if address = 0 then .error .nullPointer
  else
    match heap.memory address with
    | none => .error .dangling
    | some value => .ok value

def assign (heap : Heap κ) (address : PsmAddress) (value : κ) : Except Failure (Heap κ) := do
  let _ ← deref heap address
  return { heap with memory := Function.update heap.memory address (some value) }

/-- The accounts of the partition agree with the memory, and no object has two names. -/
structure Heap.Sound (heap : Heap κ) : Prop where
  null : heap.memory 0 = none
  addresses : ∀ a, a ≠ 0 → (a ∈ heap.partition.addresses ↔ heap.memory a ≠ none)
  allocated : ∀ name a, heap.located name = some a → heap.memory a ≠ none
  once : ∀ name name' a, heap.located name = some a → heap.located name' = some a → name = name'

theorem Heap.Sound.ne_zero {heap : Heap κ} {a : PsmAddress} (h : heap.Sound) (ha : heap.memory a ≠ none) : a ≠ 0 := by
  intro hzero
  rw [hzero] at ha
  exact ha h.null

theorem sound_new : (Heap.new : Heap κ).Sound where
  null := rfl
  addresses := by simp [Heap.new, PsmPartition.new]
  allocated := by
    intro name a h
    cases h
  once := by
    intro name name' a h
    cases h

/-- What an allocation does; nothing else is touched, and 0 stands for a failure. -/
structure Allocated (heap heap' : Heap κ) (address : PsmAddress) : Prop where
  sound : heap'.Sound
  unused : heap.memory address = none
  used : address ≠ 0 → heap'.memory address ≠ none
  memory : ∀ a, a ≠ address → heap'.memory a = heap.memory a
  located : ∀ name, heap'.located name = heap.located name

theorem Heap.Sound.counted {heap : Heap κ} (h : heap.Sound) :
    (⟨heap.partition, heap.memory, heap.mallocs + 1⟩ : Heap κ).Sound :=
  ⟨h.null, h.addresses, h.allocated, h.once⟩

theorem psmZalloc_allocated {heap : Heap κ} (h : heap.Sound) (malloc : Malloc κ) :
    Allocated heap (psmZalloc malloc heap).2 (psmZalloc malloc heap).1 := by
  have hfresh := malloc.fresh heap
  unfold psmZalloc PsmPartition.psmAlloc Heap.malloc
  generalize malloc.pointer heap = pointer at hfresh
  generalize malloc.contents heap = contents
  by_cases hzero : pointer = 0
  · subst hzero
    by_cases hmem : 0 ∈ heap.partition.addresses
    · simp only [hmem, if_true]
      exact ⟨h.counted, h.null, by simp, fun _ _ => rfl, fun _ => rfl⟩
    · simp only [hmem, if_false, if_true]
      refine ⟨⟨h.null, ?_, h.allocated, h.once⟩, h.null, by simp, fun _ _ => rfl, fun _ => rfl⟩
      intro a ha
      simp only [Finset.mem_insert, ha, false_or]
      exact h.addresses a ha
  · have hnone := hfresh hzero
    have hmem : pointer ∉ heap.partition.addresses := by
      rw [h.addresses pointer hzero]
      exact not_not_intro hnone
    simp only [hmem, hzero, if_false]
    refine ⟨⟨?_, ?_, ?_, h.once⟩, hnone, by simp, ?_, fun _ => rfl⟩
    · dsimp only
      rw [Function.update_of_ne (Ne.symm hzero)]
      exact h.null
    · intro a ha
      dsimp only
      by_cases heq : a = pointer
      · subst heq
        simp
      · rw [Function.update_of_ne heq, Finset.mem_insert]
        simp only [heq, false_or]
        exact h.addresses a ha
    · intro name a hloc
      have hold := h.allocated name a hloc
      have hne : a ≠ pointer := by
        intro heq
        exact hold (heq ▸ hnone)
      dsimp only
      rw [Function.update_of_ne hne]
      exact hold
    · intro a hne
      exact Function.update_of_ne hne _ _

/-- What is left of a heap when some blocks are released, and with them their names. -/
structure Released (heap heap' : Heap κ) (addresses : List PsmAddress) : Prop where
  sound : heap'.Sound
  memory : ∀ a, heap'.memory a = if a ∈ addresses then none else heap.memory a
  located : ∀ name a, heap'.located name = some a ↔ heap.located name = some a ∧ a ∉ addresses

theorem Released.none {heap : Heap κ} (h : heap.Sound) : Released heap heap [] where
  sound := h
  memory := by simp
  located := by simp

theorem Released.trans {heap heap' heap'' : Heap κ} {as bs : List PsmAddress}
    (h : Released heap heap' as) (h' : Released heap' heap'' bs) : Released heap heap'' (as ++ bs) where
  sound := h'.sound
  memory := by
    intro a
    rw [h'.memory, h.memory]
    by_cases ha : a ∈ as <;> by_cases hb : a ∈ bs <;> simp [ha, hb]
  located := by
    intro name a
    rw [h'.located, h.located, List.mem_append]
    tauto

theorem Released.of_notMem {heap heap' : Heap κ} {as : List PsmAddress} {a : PsmAddress}
    (h : Released heap heap' as) (ha : a ∉ as) : heap'.memory a = heap.memory a := by
  rw [h.memory, if_neg ha]

theorem psmFree_ends {heap : Heap κ} {address : PsmAddress} (h : heap.Sound) (ha : heap.memory address ≠ .none) :
    Ends (fun _ => False) (fun heap' => Released heap heap' [address]) (psmFree heap address) := by
  unfold psmFree
  rw [if_neg (h.ne_zero ha)]
  cases hmem : heap.memory address with
  | none => exact ha hmem
  | some value =>
    have hlocated : ∀ name a, (heap.partition.psmFree address).psmLocate name = some a ↔
        heap.located name = some a ∧ a ∉ [address] := by
      intro name a
      rw [PsmPartition.psmLocate_psmFree h.once]
      by_cases hloc : heap.partition.psmLocate name = some address
      · have hloc' : heap.located name = some address := hloc
        rw [if_pos hloc, hloc']
        simp only [reduceCtorEq, Option.some.injEq, List.mem_singleton, false_iff, not_and, not_not]
        exact Eq.symm
      · rw [if_neg hloc]
        constructor
        · intro hsome
          refine ⟨hsome, fun heq => hloc ?_⟩
          rw [List.mem_singleton] at heq
          rw [← heq]
          exact hsome
        · exact And.left
    have hmemory : ∀ a, Function.update heap.memory address .none a = if a ∈ [address] then .none else heap.memory a := by
      intro a
      by_cases heq : a = address
      · simp [heq]
      · simp [heq]
    refine ⟨⟨?_, ?_, ?_, ?_⟩, hmemory, hlocated⟩
    · dsimp only
      rw [hmemory, h.null, ite_self]
    · intro a hne
      dsimp only [PsmPartition.psmFree]
      rw [hmemory, Finset.mem_erase, h.addresses a hne]
      by_cases heq : a = address
      · simp [heq]
      · simp [heq]
    · intro name a hloc
      obtain ⟨hold, hnot⟩ := (hlocated name a).mp hloc
      dsimp only
      rw [hmemory, if_neg hnot]
      exact h.allocated name a hold
    · intro name name' a hloc hloc'
      exact h.once name name' a ((hlocated name a).mp hloc).1 ((hlocated name' a).mp hloc').1

def Heap.put (heap : Heap κ) (address : PsmAddress) (value : κ) : Heap κ :=
  { heap with memory := Function.update heap.memory address (some value) }

@[simp] theorem Heap.put_self (heap : Heap κ) (address : PsmAddress) (value : κ) :
    (heap.put address value).memory address = some value := Function.update_self _ _ _

theorem Heap.put_of_ne (heap : Heap κ) {address a : PsmAddress} (value : κ) (h : a ≠ address) :
    (heap.put address value).memory a = heap.memory a := Function.update_of_ne h _ _

@[simp] theorem Heap.located_put (heap : Heap κ) (address : PsmAddress) (value : κ) (name : String) :
    (heap.put address value).located name = heap.located name := rfl

theorem Heap.put_allocated (heap : Heap κ) {address : PsmAddress} (value : κ) (ha : heap.memory address ≠ .none)
    (a : PsmAddress) : (heap.put address value).memory a ≠ .none ↔ heap.memory a ≠ .none := by
  by_cases heq : a = address
  · rw [heq, heap.put_self]
    exact ⟨fun _ => ha, fun _ => Option.some_ne_none _⟩
  · rw [heap.put_of_ne value heq]

/-- What was written before the release does not matter. -/
theorem Released.overwritten {heap heap' : Heap κ} {address : PsmAddress} {value : κ}
    (h : Released (heap.put address value) heap' [address]) : Released heap heap' [address] where
  sound := h.sound
  memory := by
    intro a
    rw [h.memory]
    by_cases heq : a = address
    · simp [heq]
    · simp [heq, heap.put_of_ne value heq]
  located := h.located

theorem Heap.Sound.put {heap : Heap κ} {address : PsmAddress} (h : heap.Sound) (ha : heap.memory address ≠ .none)
    (value : κ) : (heap.put address value).Sound where
  null := by rw [heap.put_of_ne value (h.ne_zero ha).symm, h.null]
  addresses := by
    intro a hne
    rw [heap.put_allocated value ha]
    exact h.addresses a hne
  allocated := by
    intro name a hloc
    rw [heap.put_allocated value ha]
    exact h.allocated name a hloc
  once := h.once

theorem deref_eq {heap : Heap κ} {address : PsmAddress} {value : κ} (h : heap.Sound)
    (ha : heap.memory address = some value) : deref heap address = .ok value := by
  have hne : address ≠ 0 := h.ne_zero (by simp [ha])
  simp only [deref, if_neg hne, ha]

theorem assign_eq {heap : Heap κ} {address : PsmAddress} (h : heap.Sound) (ha : heap.memory address ≠ .none)
    (value : κ) : assign heap address value = .ok (heap.put address value) := by
  obtain ⟨old, hold⟩ := Option.ne_none_iff_exists'.mp ha
  unfold assign
  rw [deref_eq h hold]
  rfl

theorem Allocated.put {heap heap' : Heap κ} {address : PsmAddress} (h : Allocated heap heap' address)
    (hne : address ≠ 0) (value : κ) : Allocated heap (heap'.put address value) address where
  sound := h.sound.put (h.used hne) value
  unused := h.unused
  used := by simp
  memory := by
    intro a ha
    rw [heap'.put_of_ne value ha]
    exact h.memory a ha
  located := h.located

theorem Allocated.ne_of_allocated {heap heap' : Heap κ} {address a : PsmAddress} (h : Allocated heap heap' address)
    (ha : heap.memory a ≠ .none) : a ≠ address := by
  intro heq
  exact ha (heq ▸ h.unused)

theorem Allocated.keeps {heap heap' : Heap κ} {address a : PsmAddress} (h : Allocated heap heap' address)
    (ha : heap.memory a ≠ .none) : heap'.memory a ≠ .none := by
  rw [h.memory a (h.ne_of_allocated ha)]
  exact ha

/-- No more distinct blocks are allocated than the partition knows addresses. -/
theorem Heap.Sound.length_le {heap : Heap κ} (h : heap.Sound) {as : List PsmAddress} (hn : as.Nodup)
    (has : ∀ a ∈ as, heap.memory a ≠ .none) : as.length ≤ heap.partition.addresses.card := by
  rw [← List.toFinset_card_of_nodup hn]
  apply Finset.card_le_card
  intro a ha
  have hmem := has a (List.mem_toFinset.mp ha)
  exact (h.addresses a (h.ne_zero hmem)).mpr hmem

/-- A new name for a block that has none. -/
theorem psmCatlg_located {heap : Heap κ} {name : String} (hname : heap.located name = .none) (objLocation : PsmAddress)
    (name' : String) :
    (psmCatlg heap name objLocation).located name' = if name' = name then some objLocation else heap.located name' :=
  PsmPartition.psmLocate_psmCatlg hname objLocation name'

theorem Heap.Sound.psmCatlg {heap : Heap κ} {name : String} {objLocation : PsmAddress} (h : heap.Sound)
    (hname : heap.located name = .none) (ha : heap.memory objLocation ≠ .none)
    (hunnamed : ∀ name', heap.located name' ≠ some objLocation) : (psmCatlg heap name objLocation).Sound where
  null := h.null
  addresses := by
    intro a hne
    unfold Psm.psmCatlg PsmPartition.psmCatlg
    split <;> exact h.addresses a hne
  allocated := by
    intro name' a hloc
    rw [psmCatlg_located hname] at hloc
    split at hloc
    · exact Option.some.inj hloc ▸ ha
    · exact h.allocated name' a hloc
  once := by
    intro name₁ name₂ a h₁ h₂
    rw [psmCatlg_located hname] at h₁ h₂
    split at h₁ <;> split at h₂
    · rename_i he₁ he₂
      rw [he₁, he₂]
    · exact absurd (Option.some.inj h₁ ▸ h₂) (hunnamed name₂)
    · exact absurd (Option.some.inj h₂ ▸ h₁) (hunnamed name₁)
    · exact h.once name₁ name₂ a h₁ h₂

theorem assign_eq_ok {heap heap' : Heap κ} {address : PsmAddress} {value : κ}
    (h : assign heap address value = .ok heap') :
    heap.memory address ≠ .none ∧ heap' = heap.put address value := by
  unfold assign deref at h
  by_cases hzero : address = 0
  · rw [if_pos hzero] at h
    cases h
  · rw [if_neg hzero] at h
    cases hmem : heap.memory address with
    | none =>
      rw [hmem] at h
      cases h
    | some old =>
      rw [hmem] at h
      exact ⟨Option.some_ne_none _, (Except.ok.inj h).symm⟩

/-- A release that is not an error, of `NULL` or of a block. -/
theorem psmFree_eq_ok {heap heap' : Heap κ} {address : PsmAddress} (h : heap.Sound)
    (hfree : psmFree heap address = .ok heap') :
    ∃ addresses, Released heap heap' addresses := by
  by_cases hused : heap.memory address = .none
  · unfold psmFree at hfree
    by_cases hzero : address = 0
    · rw [if_pos hzero] at hfree
      obtain rfl := Except.ok.inj hfree
      have hlocated : ∀ name a, (heap.partition.psmFree address).psmLocate name = some a ↔ heap.located name = some a := by
        intro name a
        rw [PsmPartition.psmLocate_psmFree h.once, if_neg]
        · rfl
        · intro hloc
          exact h.allocated name address hloc hused
      refine ⟨[], ⟨h.null, ?_, ?_, ?_⟩, by simp, ?_⟩
      · intro a hne
        dsimp only [PsmPartition.psmFree]
        rw [Finset.mem_erase, h.addresses a hne, hzero]
        exact and_iff_right hne
      · intro name a hloc
        exact h.allocated name a ((hlocated name a).mp hloc)
      · intro name name' a hloc hloc'
        exact h.once name name' a ((hlocated name a).mp hloc) ((hlocated name' a).mp hloc')
      · intro name a
        simp only [List.not_mem_nil, not_false_iff, and_true]
        exact hlocated name a
    · rw [if_neg hzero, hused] at hfree
      cases hfree
  · exact ⟨[address], (psmFree_ends h hused).post hfree⟩

theorem psmCatlg_of_located {heap : Heap κ} {name : String} (hname : heap.located name ≠ .none)
    (objLocation : PsmAddress) :
    psmCatlg heap name objLocation = heap := by
  have hmem : name ∈ heap.partition.catalog := by
    by_contra hnot
    exact hname (AList.lookup_eq_none.mpr hnot)
  unfold psmCatlg PsmPartition.psmCatlg
  rw [if_pos hmem]

end

end Psm
