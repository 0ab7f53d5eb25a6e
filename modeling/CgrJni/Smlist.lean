import CgrJni.Psm

/-!
Linked lists in managed memory. A list and its elements are blocks of their own; an
element refers to its neighbors and to its data by address.
-/

namespace Smlist

open IonDb Fallible Psm

structure SmList where
  userData : PsmAddress
  first : PsmAddress
  last : PsmAddress
  length : Nat

structure SmListElt where
  list : PsmAddress
  prev : PsmAddress
  next : PsmAddress
  data : PsmAddress

/-- What a block holds: a list, an element, or an object of the program. -/
inductive Block (β : Type)
  | list (list : SmList)
  | elt (elt : SmListElt)
  | object (object : β)

section

variable {β : Type}

def erasedList : SmList := ⟨0, 0, 0, 0⟩

def erasedListElt : SmListElt := ⟨0, 0, 0, 0⟩

def listBuffer (heap : Heap (Block β)) (list : PsmAddress) : Except Failure SmList := do
  match ← deref heap list with
  | .list buffer => return buffer
  | _ => .error .wrongBlock

def eltBuffer (heap : Heap (Block β)) (elt : PsmAddress) : Except Failure SmListElt := do
  match ← deref heap elt with
  | .elt buffer => return buffer
  | _ => .error .wrongBlock

def smListCreate (malloc : Malloc (Block β)) (heap : Heap (Block β)) :
    Except Failure (PsmAddress × Heap (Block β)) := do
  let (list, heap) := psmZalloc malloc heap
  if list = 0 then return (0, heap)
  return (list, ← assign heap list (.list erasedList))

/-- The old first element, if there is one, gets the new one as its predecessor. -/
def finishInsertingFirst (malloc : Malloc (Block β)) (heap : Heap (Block β)) (list data : PsmAddress) :
    Except Failure (PsmAddress × Heap (Block β)) := do
  let (elt, heap) := psmZalloc malloc heap
  if elt = 0 then return (0, heap)
  let buffer ← listBuffer heap list
  let heap ← assign heap elt (.elt ⟨list, 0, buffer.first, data⟩)
  if buffer.first ≠ 0 then
    let next ← eltBuffer heap buffer.first
    let heap ← assign heap buffer.first (.elt { next with prev := elt })
    return (elt, ← assign heap list (.list { buffer with first := elt, length := buffer.length + 1 }))
  else
    return (elt, ← assign heap list (.list { buffer with first := elt, last := elt, length := buffer.length + 1 }))

def smListInsertFirst (malloc : Malloc (Block β)) (heap : Heap (Block β)) (list data : PsmAddress) :
    Except Failure (PsmAddress × Heap (Block β)) :=
  if list = 0 then .ok (0, heap) else finishInsertingFirst malloc heap list data

def smListFirst (heap : Heap (Block β)) (list : PsmAddress) : Except Failure PsmAddress := do
  return (← listBuffer heap list).first

def smListNext (heap : Heap (Block β)) (elt : PsmAddress) : Except Failure PsmAddress := do
  return (← eltBuffer heap elt).next

def smListData (heap : Heap (Block β)) (elt : PsmAddress) : Except Failure PsmAddress := do
  return (← eltBuffer heap elt).data

/-- The loop of `wipeList`; a list that ran in a circle would come back to what was released. -/
def wipeElts (deleteFn : Heap (Block β) → PsmAddress → Except Failure (Heap (Block β))) :
    Nat → Heap (Block β) → PsmAddress → Except Failure (Heap (Block β))
  | 0, heap, elt => if elt = 0 then .ok heap else .error .endless
  | fuel + 1, heap, elt =>
    if elt = 0 then .ok heap
    else do
      let next := (← eltBuffer heap elt).next
      let heap ← deleteFn heap elt
      let heap ← assign heap elt (.elt erasedListElt)
      let heap ← psmFree heap elt
      wipeElts deleteFn fuel heap next

/-- A deletion function that is `NULL`. -/
def noDeleteFn (heap : Heap (Block β)) (_ : PsmAddress) : Except Failure (Heap (Block β)) := .ok heap

def wipeList (heap : Heap (Block β)) (list : PsmAddress)
    (deleteFn : Heap (Block β) → PsmAddress → Except Failure (Heap (Block β))) (destroy : Bool) :
    Except Failure (Heap (Block β)) := do
  let first := (← listBuffer heap list).first
  let heap ← wipeElts deleteFn heap.partition.addresses.card heap first
  let heap ← assign heap list (.list erasedList)
  if destroy then psmFree heap list else return heap

/-- The elements from an address on, each with its data, in the order of the links. -/
def Chain (memory : PsmAddress → Option (Block β)) : PsmAddress → List (PsmAddress × PsmAddress) → Prop
  | a, [] => a = 0
  | a, (elt, data) :: rest =>
    a = elt ∧ ∃ buffer, memory elt = some (.elt buffer) ∧ buffer.data = data ∧ Chain memory buffer.next rest

def elts (chain : List (PsmAddress × PsmAddress)) : List PsmAddress := chain.map Prod.fst

@[simp] theorem elts_nil : elts [] = [] := rfl

@[simp] theorem elts_cons (elt data : PsmAddress) (rest : List (PsmAddress × PsmAddress)) :
    elts ((elt, data) :: rest) = elt :: elts rest := rfl

/-- The links of a chain lie in its elements. -/
theorem Chain.congr {memory memory' : PsmAddress → Option (Block β)} {chain : List (PsmAddress × PsmAddress)}
    {a : PsmAddress} (h : Chain memory a chain) (hsame : ∀ elt ∈ elts chain, memory' elt = memory elt) :
    Chain memory' a chain := by
  induction chain generalizing a with
  | nil => exact h
  | cons entry rest ih =>
    obtain ⟨heq, buffer, hmem, hdata, hrest⟩ := h
    refine ⟨heq, buffer, ?_, hdata, ih hrest ?_⟩
    · rw [hsame entry.1 (by simp [elts]), hmem]
    · intro elt helt
      exact hsame elt (List.mem_cons_of_mem _ helt)

theorem Chain.elt_allocated {memory : PsmAddress → Option (Block β)} {chain : List (PsmAddress × PsmAddress)}
    {a elt : PsmAddress} (h : Chain memory a chain) (helt : elt ∈ elts chain) : memory elt ≠ none := by
  induction chain generalizing a with
  | nil => cases helt
  | cons entry rest ih =>
    obtain ⟨-, buffer, hmem, -, hrest⟩ := h
    rw [elts_cons, List.mem_cons] at helt
    cases helt with
    | inl heq =>
      rw [heq, hmem]
      exact Option.some_ne_none _
    | inr hmem' => exact ih hrest hmem'

theorem Chain.data_of_mem {memory : PsmAddress → Option (Block β)} {chain : List (PsmAddress × PsmAddress)}
    {a elt data : PsmAddress} (h : Chain memory a chain) (hmem : (elt, data) ∈ chain) :
    ∃ buffer, memory elt = some (.elt buffer) ∧ buffer.data = data := by
  induction chain generalizing a with
  | nil => cases hmem
  | cons entry rest ih =>
    obtain ⟨-, buffer, hbuffer, hdata, hrest⟩ := h
    cases List.mem_cons.mp hmem with
    | inl heq =>
      subst heq
      exact ⟨buffer, hbuffer, hdata⟩
    | inr hmem' => exact ih hrest hmem'

/-- The links determine the chain. -/
theorem Chain.unique {memory : PsmAddress → Option (Block β)} (hnull : memory 0 = none)
    {chain chain' : List (PsmAddress × PsmAddress)} {a : PsmAddress} (h : Chain memory a chain)
    (h' : Chain memory a chain') : chain = chain' := by
  induction chain generalizing a chain' with
  | nil =>
    have hzero : a = 0 := h
    cases chain' with
    | nil => rfl
    | cons entry' rest' =>
      obtain ⟨heq, buffer, hbuffer, -⟩ := h'
      rw [← heq, hzero, hnull] at hbuffer
      cases hbuffer
  | cons entry rest ih =>
    obtain ⟨heq, buffer, hbuffer, hdata, hrest⟩ := h
    cases chain' with
    | nil =>
      have hzero : a = 0 := h'
      rw [← heq, hzero, hnull] at hbuffer
      cases hbuffer
    | cons entry' rest' =>
      obtain ⟨heq', buffer', hbuffer', hdata', hrest'⟩ := h'
      have helt : entry.1 = entry'.1 := heq.symm.trans heq'
      rw [helt, hbuffer', Option.some.injEq, Block.elt.injEq] at hbuffer
      subst hbuffer
      rw [ih hrest hrest', Prod.ext helt (hdata.symm.trans hdata')]

theorem eltBuffer_eq {heap : Heap (Block β)} {elt : PsmAddress} {buffer : SmListElt} (h : heap.Sound)
    (ha : heap.memory elt = some (.elt buffer)) : eltBuffer heap elt = .ok buffer := by
  unfold eltBuffer
  rw [deref_eq h ha]
  rfl

theorem listBuffer_eq {heap : Heap (Block β)} {list : PsmAddress} {buffer : SmList} (h : heap.Sound)
    (ha : heap.memory list = some (.list buffer)) : listBuffer heap list = .ok buffer := by
  unfold listBuffer
  rw [deref_eq h ha]
  rfl

theorem smListFirst_eq {heap : Heap (Block β)} {list : PsmAddress} {buffer : SmList} (h : heap.Sound)
    (ha : heap.memory list = some (.list buffer)) : smListFirst heap list = .ok buffer.first := by
  unfold smListFirst
  rw [listBuffer_eq h ha]
  rfl

theorem smListNext_eq {heap : Heap (Block β)} {elt : PsmAddress} {buffer : SmListElt} (h : heap.Sound)
    (ha : heap.memory elt = some (.elt buffer)) : smListNext heap elt = .ok buffer.next := by
  unfold smListNext
  rw [eltBuffer_eq h ha]
  rfl

theorem smListData_eq {heap : Heap (Block β)} {elt : PsmAddress} {buffer : SmListElt} (h : heap.Sound)
    (ha : heap.memory elt = some (.elt buffer)) : smListData heap elt = .ok buffer.data := by
  unfold smListData
  rw [eltBuffer_eq h ha]
  rfl

theorem smListCreate_ends {heap : Heap (Block β)} (h : heap.Sound) (malloc : Malloc (Block β)) :
    Ends (fun _ => False) (fun r => Allocated heap r.2 r.1 ∧ (r.1 ≠ 0 → r.2.memory r.1 = some (.list erasedList)))
      (smListCreate malloc heap) := by
  have hz := psmZalloc_allocated h malloc
  unfold smListCreate
  generalize psmZalloc malloc heap = r at hz
  obtain ⟨list, heap'⟩ := r
  dsimp only at hz ⊢
  by_cases hlist : list = 0
  · rw [if_pos hlist]
    subst hlist
    exact ⟨hz, fun hne => absurd rfl hne⟩
  · rw [if_neg hlist, assign_eq hz.sound (hz.used hlist)]
    exact ⟨hz.put hlist _, fun _ => heap'.put_self _ _⟩

/-- The backward links are not part of a chain. -/
theorem Chain.relink {memory : PsmAddress → Option (Block β)} {chain : List (PsmAddress × PsmAddress)}
    {a elt : PsmAddress} {buffer : SmListElt} (h : Chain memory a chain) (helt : memory elt = some (.elt buffer))
    (prev : PsmAddress) :
    Chain (Function.update memory elt (some (.elt { buffer with prev := prev }))) a chain := by
  induction chain generalizing a with
  | nil => exact h
  | cons entry rest ih =>
    obtain ⟨heq, old, hmem, hdata, hrest⟩ := h
    by_cases hsame : entry.1 = elt
    · have hold : old = buffer := by
        rw [hsame, helt] at hmem
        injection hmem with hmem
        injection hmem with hmem
        exact hmem.symm
      subst hold
      refine ⟨heq, { old with prev := prev }, ?_, hdata, ih hrest⟩
      rw [hsame, Function.update_self]
    · refine ⟨heq, old, ?_, hdata, ih hrest⟩
      rw [Function.update_of_ne hsame, hmem]

/-- What an insertion does: a new element comes first, and only the list and the links of
the other elements are touched. -/
structure Inserted (heap heap' : Heap (Block β)) (list elt data : PsmAddress) (chain : List (PsmAddress × PsmAddress)) :
    Prop where
  sound : heap'.Sound
  unused : heap.memory elt = none
  linked : ∃ buffer, heap'.memory list = some (.list buffer) ∧ Chain heap'.memory buffer.first ((elt, data) :: chain)
  memory : ∀ a, a ≠ elt → a ≠ list → a ∉ elts chain → heap'.memory a = heap.memory a
  located : ∀ name, heap'.located name = heap.located name

theorem Chain.list_notMem {heap : Heap (Block β)} {list a : PsmAddress} {buffer : SmList}
    {chain : List (PsmAddress × PsmAddress)} (h : Chain heap.memory a chain)
    (hlist : heap.memory list = some (.list buffer)) : list ∉ elts chain := by
  induction chain generalizing a with
  | nil => simp
  | cons entry rest ih =>
    obtain ⟨-, old, hmem, -, hrest⟩ := h
    rw [elts_cons, List.mem_cons, not_or]
    refine ⟨?_, ih hrest⟩
    intro heq
    rw [← heq, hlist] at hmem
    cases hmem

/-- The last step of an insertion: the list is made to begin with the new element. -/
theorem inserted_of {heap heap' : Heap (Block β)} {list elt data first : PsmAddress} {buffer : SmList}
    {chain : List (PsmAddress × PsmAddress)} (hsound : heap'.Sound) (hunused : heap.memory elt = none)
    (helt : heap'.memory elt = some (.elt ⟨list, 0, first, data⟩)) (hlist : heap'.memory list = some (.list buffer))
    (hchain : Chain heap'.memory first chain) (hframe : ∀ a, a ≠ elt → a ∉ elts chain → heap'.memory a = heap.memory a)
    (hlocated : ∀ name, heap'.located name = heap.located name) (userData last : PsmAddress) (length : Nat) :
    Inserted heap (heap'.put list (.list ⟨userData, elt, last, length⟩)) list elt data chain where
  sound := hsound.put (by simp [hlist]) _
  unused := hunused
  linked := by
    have hne : elt ≠ list := by
      intro heq
      rw [heq, hlist] at helt
      cases helt
    refine ⟨_, heap'.put_self _ _, rfl, ⟨list, 0, first, data⟩, ?_, rfl, ?_⟩
    · rw [heap'.put_of_ne _ hne, helt]
    · apply hchain.congr
      intro a ha
      apply heap'.put_of_ne
      intro heq
      exact hchain.list_notMem hlist (heq ▸ ha)
  memory := by
    intro a helt' hlist' hchain'
    rw [heap'.put_of_ne _ hlist', hframe a helt' hchain']
  located := hlocated

theorem smListInsertFirst_ends {heap : Heap (Block β)} {list : PsmAddress} {buffer : SmList}
    {chain : List (PsmAddress × PsmAddress)} (h : heap.Sound) (hlist : heap.memory list = some (.list buffer))
    (hchain : Chain heap.memory buffer.first chain) (malloc : Malloc (Block β)) (data : PsmAddress) :
    Ends (fun _ => False) (fun r => r.1 = 0 ∨ Inserted heap r.2 list r.1 data chain)
      (smListInsertFirst malloc heap list data) := by
  have hz := psmZalloc_allocated h malloc
  unfold smListInsertFirst finishInsertingFirst
  rw [if_neg (h.ne_zero (by simp [hlist]))]
  generalize psmZalloc malloc heap = r at hz
  obtain ⟨elt, heap₁⟩ := r
  dsimp only at hz ⊢
  by_cases helt : elt = 0
  · rw [if_pos helt]
    exact Or.inl rfl
  -- the new element is written before any link to it
  have hlist_ne : list ≠ elt := hz.ne_of_allocated (by simp [hlist])
  have hfirst_ne : ∀ a ∈ elts chain, a ≠ elt := fun a ha => hz.ne_of_allocated (hchain.elt_allocated ha)
  have hlist₁ : heap₁.memory list = some (.list buffer) := by rw [hz.memory list hlist_ne, hlist]
  have hw := hz.put helt (.elt ⟨list, 0, buffer.first, data⟩)
  have hchain₂ : Chain (heap₁.put elt (.elt ⟨list, 0, buffer.first, data⟩)).memory buffer.first chain := by
    apply hchain.congr
    intro a ha
    exact hw.memory a (hfirst_ne a ha)
  rw [if_neg helt, listBuffer_eq hz.sound hlist₁]
  simp only [bind, Except.bind]
  rw [assign_eq hz.sound (hz.used helt)]
  have helt₂ := heap₁.put_self elt (.elt ⟨list, 0, buffer.first, data⟩)
  have hlist₂ := hw.memory list hlist_ne
  rw [hlist] at hlist₂
  dsimp only
  generalize heap₁.put elt (.elt ⟨list, 0, buffer.first, data⟩) = heap₂ at hw hchain₂ helt₂ hlist₂ ⊢
  cases chain with
  | nil =>
    have hfirst : buffer.first = 0 := hchain
    rw [if_neg (not_not_intro hfirst), assign_eq hw.sound (by simp [hlist₂])]
    exact Or.inr (inserted_of hw.sound hw.unused helt₂ hlist₂ hchain₂ (fun a ha _ => hw.memory a ha) hw.located _ _ _)
  | cons entry rest =>
    obtain ⟨hfirst, next, hnext, -, -⟩ := id hchain₂
    have hlive : heap₂.memory buffer.first = some (.elt next) := hfirst ▸ hnext
    have hused : heap₂.memory buffer.first ≠ none := by simp [hlive]
    rw [if_pos (hw.sound.ne_zero hused), eltBuffer_eq hw.sound hlive]
    dsimp only
    rw [assign_eq hw.sound hused]
    have hmem : buffer.first ∈ elts (entry :: rest) := hfirst ▸ List.mem_cons_self
    have hfirst_list : list ≠ buffer.first := by
      intro heq
      rw [heq, hlive] at hlist₂
      cases hlist₂
    have helt₃ := heap₂.put_of_ne (.elt { next with prev := elt }) (hfirst_ne _ hmem).symm
    have hlist₃ := heap₂.put_of_ne (.elt { next with prev := elt }) hfirst_list
    rw [helt₂] at helt₃
    rw [hlist₂] at hlist₃
    dsimp only
    have hsound₃ := hw.sound.put hused (.elt { next with prev := elt })
    rw [assign_eq hsound₃ (by simp [hlist₃])]
    refine Or.inr (inserted_of hsound₃ hw.unused helt₃ hlist₃ (hchain₂.relink hlive elt) ?_ hw.located _ _ _)
    intro a ha hnot
    have hne : a ≠ buffer.first := by
      intro heq
      exact hnot (heq.symm ▸ hmem)
    rw [heap₂.put_of_ne _ hne, hw.memory a ha]

/-- The elements of a chain are released one after the other, and their data is left alone. -/
theorem wipeElts_ends {heap : Heap (Block β)} {a : PsmAddress} {chain : List (PsmAddress × PsmAddress)} {fuel : Nat}
    (h : heap.Sound) (hchain : Chain heap.memory a chain) (hn : (elts chain).Nodup) (hfuel : chain.length ≤ fuel) :
    Ends (fun _ => False) (fun heap' => Released heap heap' (elts chain)) (wipeElts noDeleteFn fuel heap a) := by
  induction chain generalizing heap a fuel with
  | nil =>
    have hzero : a = 0 := hchain
    cases fuel with
    | zero => rw [wipeElts, if_pos hzero]; exact Released.none h
    | succ fuel => rw [wipeElts, if_pos hzero]; exact Released.none h
  | cons entry rest ih =>
    obtain ⟨rfl, buffer, hmem, -, hrest⟩ := hchain
    obtain ⟨hnot, hn⟩ := List.nodup_cons.mp hn
    have hused : heap.memory entry.1 ≠ none := by simp [hmem]
    cases fuel with
    | zero => simp at hfuel
    | succ fuel =>
      rw [wipeElts, if_neg (h.ne_zero hused), eltBuffer_eq h hmem]
      simp only [bind, Except.bind, noDeleteFn]
      rw [assign_eq h hused]
      have hsound := h.put hused (.elt erasedListElt)
      obtain ⟨heap₁, hfree, hreleased⟩ := (psmFree_ends hsound ((heap.put_allocated _ hused _).mpr hused)).total
      dsimp only
      rw [hfree]
      have hold := hreleased.overwritten
      have hkept : Chain heap₁.memory buffer.next rest := by
        apply hrest.congr
        intro b hb
        apply hold.of_notMem
        intro heq
        exact hnot (List.mem_singleton.mp heq ▸ hb)
      have hlength : rest.length ≤ fuel := by simpa using hfuel
      exact (ih hold.sound hkept hn hlength).mono (fun _ hfail => hfail) (fun _ hrel => hold.trans hrel)

theorem wipeList_ends {heap : Heap (Block β)} {list : PsmAddress} {buffer : SmList}
    {chain : List (PsmAddress × PsmAddress)} (h : heap.Sound) (hlist : heap.memory list = some (.list buffer))
    (hchain : Chain heap.memory buffer.first chain)
    (hn : (elts chain).Nodup) :
    Ends (fun _ => False) (fun heap' => Released heap heap' (elts chain ++ [list]))
      (wipeList heap list noDeleteFn true) := by
  have hfuel : chain.length ≤ heap.partition.addresses.card := by
    have hle := h.length_le hn (fun a ha => hchain.elt_allocated ha)
    rwa [elts, List.length_map] at hle
  obtain ⟨heap₁, hwipe, hreleased⟩ := (wipeElts_ends h hchain hn hfuel).total
  have hlist₁ : heap₁.memory list ≠ none := by
    rw [hreleased.of_notMem (hchain.list_notMem hlist), hlist]
    exact Option.some_ne_none _
  obtain ⟨heap₂, hfree, hlast⟩ :=
    (psmFree_ends (hreleased.sound.put hlist₁ (.list erasedList)) ((heap₁.put_allocated _ hlist₁ _).mpr hlist₁)).total
  unfold wipeList
  rw [listBuffer_eq h hlist]
  simp only [bind, Except.bind, if_true]
  rw [hwipe]
  dsimp only
  rw [assign_eq hreleased.sound hlist₁]
  dsimp only
  rw [hfree]
  exact hreleased.trans hlast.overwritten

end

end Smlist
