import CgrJni.Psm
import CgrJni.TakenBlocks

/-!
The lists that the C code keeps in Java, and the blocks that it takes for their objects from the
allocator of the C library. An element of a list holds the address of its object.
-/

namespace Lysts

open IonDb TakenBlocks
open Psm (Failure)

structure LystElt where
  list : Nat
  data : PsmAddress

/-- The only function that is ever set. -/
inductive LystCallback
  | deleteObject

structure Lyst where
  list : List Nat
  deleteCallbackFunction : Option LystCallback

/-- The Java objects are numbered as they are made, lists and elements alike. -/
structure Memory (κ : Type) where
  blocks : PsmAddress → Option κ
  mallocs : Nat
  lysts : Nat → Lyst
  elts : Nat → LystElt
  made : Nat

/-- The allocator of the C library. It may fail, may give out again what was freed, and leaves in a
block whatever was there before. -/
structure Malloc (κ : Type) where
  pointer : Memory κ → PsmAddress
  contents : Memory κ → κ
  fresh : ∀ m, pointer m ≠ 0 → m.blocks (pointer m) = none

section

variable {κ : Type}

def mtake (malloc : Malloc κ) (m : Memory κ) : PsmAddress × Memory κ :=
  let pointer := malloc.pointer m
  if pointer = 0 then (0, { m with mallocs := m.mallocs + 1 })
  else
    (pointer, { m with
      blocks := Function.update m.blocks pointer (some (malloc.contents m))
      mallocs := m.mallocs + 1 })

def mrelease (m : Memory κ) (block : PsmAddress) : Except Failure (Memory κ) :=
  if block = 0 then .ok m
  else
    match m.blocks block with
    | none => .error .dangling
    | some _ => .ok { m with blocks := Function.update m.blocks block none }

def deref (m : Memory κ) (block : PsmAddress) : Except Failure κ :=
  if block = 0 then .error .nullPointer
  else
    match m.blocks block with
    | none => .error .dangling
    | some value => .ok value

def assign (m : Memory κ) (block : PsmAddress) (value : κ) : Except Failure (Memory κ) := do
  let _ ← deref m block
  return { m with blocks := Function.update m.blocks block (some value) }

def lystCreateUsing (m : Memory κ) : Nat × Memory κ :=
  (m.made, { m with lysts := Function.update m.lysts m.made ⟨[], none⟩, made := m.made + 1 })

def lystDeleteSet (m : Memory κ) (list : Nat) (callbackFunction : LystCallback) : Memory κ :=
  { m with lysts := Function.update m.lysts list ⟨(m.lysts list).list, some callbackFunction⟩ }

def setList (m : Memory κ) (list : Nat) (elts : List Nat) : Memory κ :=
  { m with lysts := Function.update m.lysts list ⟨elts, (m.lysts list).deleteCallbackFunction⟩ }

def lystInsertLast (m : Memory κ) (list : Nat) (data : PsmAddress) : Nat × Memory κ :=
  let el := m.made
  let m := { m with elts := Function.update m.elts el ⟨list, data⟩, made := m.made + 1 }
  (el, setList m list ((m.lysts list).list ++ [el]))

def lystFirst (m : Memory κ) (list : Nat) : Option Nat := (m.lysts list).list.head?

/-- The index of an element that is not in its list is -1, and its successor then the first one. -/
def lystNext (m : Memory κ) (el : Nat) : Option Nat :=
  let list := (m.lysts (m.elts el).list).list
  match list.idxOf? el with
  | none => list[0]?
  | some i => list[i + 1]?

def lystData (m : Memory κ) (el : Nat) : PsmAddress := (m.elts el).data

def lystDataSet (m : Memory κ) (el : Nat) (data : PsmAddress) : PsmAddress × Memory κ :=
  ((m.elts el).data, { m with elts := Function.update m.elts el ⟨(m.elts el).list, data⟩ })

def deleteObject (m : Memory κ) (elt : Nat) : Except Failure (Memory κ) :=
  let object := lystData m elt
  if object = 0 then .ok m else mrelease m (lystData m elt)

/-- The callback runs before the element leaves the list. -/
def lystDelete (m : Memory κ) (elt : Nat) : Except Failure (Memory κ) :=
  match (m.lysts (m.elts elt).list).deleteCallbackFunction with
  | none => .error .nullPointer
  | some .deleteObject => do
    let m ← deleteObject m elt
    let list := (m.elts elt).list
    return setList m list ((m.lysts list).list.erase elt)

def destroyElts : Nat → Memory κ → Nat → Except Failure (Memory κ)
  | fuel, m, list =>
    match lystFirst m list, fuel with
    | none, _ => .ok m
    | some _, 0 => .error .endless
    | some cur, fuel + 1 => do destroyElts fuel (← lystDelete m cur) list

def lystDestroy (m : Memory κ) (list : Nat) : Except Failure (Memory κ) :=
  destroyElts (m.lysts list).list.length m list

/-- The loop over a list that ends at the first element whose object passes a test. -/
def findFrom (m : Memory κ) (test : κ → Except Failure Bool) : Nat → Option Nat → Except Failure (Option PsmAddress)
  | _, none => .ok none
  | 0, some _ => .error .endless
  | fuel + 1, some elt => do
    let object := lystData m elt
    if ← test (← deref m object) then return some object
    findFrom m test fuel (lystNext m elt)

def findObject (m : Memory κ) (list : Nat) (test : κ → Except Failure Bool) : Except Failure (Option PsmAddress) :=
  findFrom m test (m.lysts list).list.length (lystFirst m list)

end

/-- An element with the address of its object, and what is there. -/
structure Entry (κ : Type) where
  elt : Nat
  address : PsmAddress
  block : κ

variable {κ : Type}

def blocksOf (entries : List (Entry κ)) : List (PsmAddress × κ) := entries.map (fun e => (e.address, e.block))

@[simp] theorem blocksOf_nil : blocksOf ([] : List (Entry κ)) = [] := rfl

@[simp] theorem blocksOf_cons (e : Entry κ) (entries : List (Entry κ)) :
    blocksOf (e :: entries) = (e.address, e.block) :: blocksOf entries := rfl

@[simp] theorem blocksOf_append (pre post : List (Entry κ)) : blocksOf (pre ++ post) = blocksOf pre ++ blocksOf post :=
  List.map_append

/-- The Java side of a list: its elements in order, each with the address of its object. -/
structure Keeps (m : Memory κ) (list : Nat) (entries : List (Entry κ)) : Prop where
  contents : (m.lysts list).list = entries.map Entry.elt
  callback : (m.lysts list).deleteCallbackFunction = some .deleteObject
  nodup : (entries.map Entry.elt).Nodup
  elts : ∀ e ∈ entries, m.elts e.elt = ⟨list, e.address⟩
  nonnull : ∀ e ∈ entries, e.address ≠ 0
  older : list < m.made
  eltsOlder : ∀ e ∈ entries, e.elt < m.made

/-- What an operation on one list leaves alone. -/
structure Apart (list : Nat) (m m' : Memory κ) : Prop where
  lysts : ∀ other, other ≠ list → m'.lysts other = m.lysts other
  elts : ∀ elt, elt < m.made → (m.elts elt).list ≠ list → m'.elts elt = m.elts elt
  made : m.made ≤ m'.made

variable {m m' m'' : Memory κ} {list other : Nat} {entries pre rest : List (Entry κ)} {e : Entry κ}
  {base : PsmAddress → Option κ} {held : List (PsmAddress × κ)}

theorem Apart.refl : Apart list m m := ⟨fun _ _ => rfl, fun _ _ _ => rfl, le_rfl⟩

theorem Apart.trans (h : Apart list m m') (h' : Apart list m' m'') : Apart list m m'' where
  lysts := fun other hne => (h'.lysts other hne).trans (h.lysts other hne)
  elts := by
    intro elt hold hne
    have hsame := h.elts elt hold hne
    rw [h'.elts elt (hold.trans_le h.made) (by rw [hsame]; exact hne), hsame]
  made := h.made.trans h'.made

theorem Keeps.apart (h : Keeps m other entries) (ha : Apart list m m') (hne : other ≠ list) :
    Keeps m' other entries where
  contents := by rw [ha.lysts other hne, h.contents]
  callback := by rw [ha.lysts other hne, h.callback]
  nodup := h.nodup
  elts := by
    intro e he
    rw [ha.elts e.elt (h.eltsOlder e he) (by rw [h.elts e he]; exact hne), h.elts e he]
  nonnull := h.nonnull
  older := h.older.trans_le ha.made
  eltsOlder := fun e he => (h.eltsOlder e he).trans_le ha.made

/-- The Java side does not depend on the blocks. -/
theorem Keeps.blocks (h : Keeps m list entries) (blocks : PsmAddress → Option κ) (mallocs : Nat) :
    Keeps { m with blocks := blocks, mallocs := mallocs } list entries :=
  ⟨h.contents, h.callback, h.nodup, h.elts, h.nonnull, h.older, h.eltsOlder⟩

theorem Keeps.overwrite (h : Keeps m list (pre ++ e :: rest)) (block : κ) :
    Keeps m list (pre ++ { e with block := block } :: rest) := by
  have helts := h.elts
  have hnonnull := h.nonnull
  have holder := h.eltsOlder
  simp only [List.forall_mem_append, List.forall_mem_cons] at helts hnonnull holder
  constructor
  · simpa using h.contents
  · exact h.callback
  · simpa using h.nodup
  · simpa only [List.forall_mem_append, List.forall_mem_cons] using helts
  · simpa only [List.forall_mem_append, List.forall_mem_cons] using hnonnull
  · exact h.older
  · simpa only [List.forall_mem_append, List.forall_mem_cons] using holder

theorem mtake_cases (malloc : Malloc κ) (m : Memory κ) :
    (malloc.pointer m = 0 ∧ mtake malloc m = (0, { m with mallocs := m.mallocs + 1 })) ∨
      ∃ a, a ≠ 0 ∧ m.blocks a = none ∧
        mtake malloc m = (a, { m with
          blocks := Function.update m.blocks a (some (malloc.contents m))
          mallocs := m.mallocs + 1 }) := by
  by_cases hzero : malloc.pointer m = 0
  · exact Or.inl ⟨hzero, by simp [mtake, hzero]⟩
  · exact Or.inr ⟨malloc.pointer m, hzero, malloc.fresh m hzero, by simp [mtake, hzero]⟩

theorem deref_eq {a : PsmAddress} {value : κ} (hne : a ≠ 0) (ha : m.blocks a = some value) : deref m a = .ok value := by
  simp [deref, hne, ha]

theorem mrelease_eq {a : PsmAddress} {value : κ} (hne : a ≠ 0) (ha : m.blocks a = some value) :
    mrelease m a = .ok { m with blocks := Function.update m.blocks a none } := by
  simp [mrelease, hne, ha]

theorem assign_eq {a : PsmAddress} {old : κ} (hne : a ≠ 0) (ha : m.blocks a = some old) (value : κ) :
    assign m a value = .ok { m with blocks := Function.update m.blocks a (some value) } := by
  simp [assign, deref_eq hne ha, bind, Except.bind, pure, Except.pure]

theorem Keeps.insertLast (h : Keeps m list entries) {a : PsmAddress} (hne : a ≠ 0) (value : κ) :
    Keeps (lystInsertLast m list a).2 list (entries ++ [⟨m.made, a, value⟩]) where
  contents := by simp [lystInsertLast, setList, h.contents]
  callback := by simp [lystInsertLast, setList, h.callback]
  nodup := by
    rw [List.map_append, List.nodup_append']
    refine ⟨h.nodup, List.nodup_singleton _, ?_⟩
    intro elt hmem hnew
    obtain ⟨e, he, rfl⟩ := List.mem_map.mp hmem
    exact (h.eltsOlder e he).ne (by simpa using hnew)
  elts := by
    intro e he
    cases List.mem_append.mp he with
    | inl he => simp [lystInsertLast, setList, (h.eltsOlder e he).ne, h.elts e he]
    | inr he => simp [List.mem_singleton.mp he, lystInsertLast, setList]
  nonnull := by
    intro e he
    cases List.mem_append.mp he with
    | inl he => exact h.nonnull e he
    | inr he => simpa [List.mem_singleton.mp he] using hne
  older := Nat.lt_succ_of_lt h.older
  eltsOlder := by
    intro e he
    cases List.mem_append.mp he with
    | inl he => exact Nat.lt_succ_of_lt (h.eltsOlder e he)
    | inr he => simp [List.mem_singleton.mp he, lystInsertLast, setList]

theorem apart_insertLast (m : Memory κ) (list : Nat) (a : PsmAddress) : Apart list m (lystInsertLast m list a).2 where
  lysts := by
    intro other hne
    simp [lystInsertLast, setList, hne]
  elts := by
    intro elt hold _
    simp [lystInsertLast, setList, hold.ne]
  made := Nat.le_succ _

theorem Keeps.lystFirst (h : Keeps m list entries) : lystFirst m list = entries.head?.map Entry.elt := by
  rw [Lysts.lystFirst, h.contents, List.head?_map]

theorem idxOf?_append_cons {l₁ l₂ : List Nat} {a : Nat} (h : a ∉ l₁) : (l₁ ++ a :: l₂).idxOf? a = some l₁.length := by
  induction l₁ with
  | nil => simp [List.idxOf?_cons]
  | cons b l₁ ih =>
    rw [List.mem_cons, not_or] at h
    rw [List.cons_append, List.idxOf?_cons, ih h.2]
    simp [Ne.symm h.1]

theorem Keeps.lystNext (h : Keeps m list (pre ++ e :: rest)) : lystNext m e.elt = rest.head?.map Entry.elt := by
  have hnodup := h.nodup
  rw [List.map_append, List.map_cons, List.nodup_append'] at hnodup
  have hnot : e.elt ∉ pre.map Entry.elt := fun hmem => hnodup.2.2 hmem List.mem_cons_self
  have hidx : ((pre ++ e :: rest).map Entry.elt).idxOf? e.elt = some pre.length := by
    rw [List.map_append, List.map_cons, idxOf?_append_cons hnot, List.length_map]
  simp only [Lysts.lystNext, h.elts e (by simp), h.contents, hidx]
  simp [List.getElem?_append_right, List.head?_eq_getElem?]

theorem Keeps.lystNext_first (h : Keeps m list (e :: rest)) : Lysts.lystNext m e.elt = rest.head?.map Entry.elt :=
  @Keeps.lystNext κ m list [] rest e h

def passes (test : κ → Except Failure Bool) (object : κ) : Bool := (test object).toOption.getD false

theorem passes_eq {test : κ → Except Failure Bool} {object : κ} {b : Bool} (h : test object = .ok b) :
    passes test object = b := by
  simp [passes, h, Except.toOption]

/-- The loop finds the first object that passes. -/
theorem Keeps.findFrom (h : Keeps m list (pre ++ rest)) {test : κ → Except Failure Bool}
    (hblocks : ∀ e ∈ rest, m.blocks e.address = some e.block) (htest : ∀ e ∈ rest, ∃ b, test e.block = .ok b)
    {fuel : Nat} (hfuel : rest.length ≤ fuel) :
    findFrom m test fuel (rest.head?.map Entry.elt) =
      .ok ((rest.find? (fun e => passes test e.block)).map Entry.address) := by
  induction rest generalizing pre fuel with
  | nil => cases fuel <;> rfl
  | cons e rest ih =>
    cases fuel with
    | zero => simp at hfuel
    | succ fuel =>
      have hdata : lystData m e.elt = e.address := by simp [lystData, h.elts e (by simp)]
      have hread := deref_eq (h.nonnull e (by simp)) (hblocks e List.mem_cons_self)
      have hpre : Keeps m list ((pre ++ [e]) ++ rest) := by simpa using h
      have hrest := ih hpre (fun x hx => hblocks x (List.mem_cons_of_mem _ hx))
        (fun x hx => htest x (List.mem_cons_of_mem _ hx)) (Nat.le_of_succ_le_succ hfuel)
      obtain ⟨b, hb⟩ := htest e List.mem_cons_self
      simp only [List.head?_cons, Option.map_some, Lysts.findFrom, hdata, hread, hb, bind, Except.bind, h.lystNext]
      cases b with
      | true => simp [passes_eq hb, pure, Except.pure]
      | false => simp [passes_eq hb, hrest]

theorem Keeps.findObject (h : Keeps m list entries) {test : κ → Except Failure Bool}
    (hblocks : ∀ e ∈ entries, m.blocks e.address = some e.block) (htest : ∀ e ∈ entries, ∃ b, test e.block = .ok b) :
    findObject m list test = .ok ((entries.find? (fun e => passes test e.block)).map Entry.address) := by
  have hlen : (m.lysts list).list.length = entries.length := by rw [h.contents, List.length_map]
  rw [Lysts.findObject, h.lystFirst, hlen]
  exact @Keeps.findFrom κ m list [] entries h test hblocks htest _ le_rfl

/-- Without its first element a list is still one, whatever becomes of that element. -/
theorem Keeps.tail (h : Keeps m list (e :: rest)) (blocks : PsmAddress → Option κ) (data : PsmAddress) :
    Keeps (setList { m with blocks := blocks, elts := Function.update m.elts e.elt ⟨list, data⟩ } list
      ((m.lysts list).list.erase e.elt)) list rest where
  contents := by simp [setList, h.contents]
  callback := by simp [setList, h.callback]
  nodup := (List.nodup_cons.mp h.nodup).2
  elts := by
    intro x hx
    have hne : x.elt ≠ e.elt := by
      intro heq
      exact (List.nodup_cons.mp h.nodup).1 (List.mem_map.mpr ⟨x, hx, heq⟩)
    simp [setList, hne, h.elts x (List.mem_cons_of_mem _ hx)]
  nonnull := fun x hx => h.nonnull x (List.mem_cons_of_mem _ hx)
  older := h.older
  eltsOlder := fun x hx => h.eltsOlder x (List.mem_cons_of_mem _ hx)

theorem Keeps.tail_apart (h : Keeps m list (e :: rest)) (blocks : PsmAddress → Option κ) (data : PsmAddress) :
    Apart list m (setList { m with blocks := blocks, elts := Function.update m.elts e.elt ⟨list, data⟩ } list
      ((m.lysts list).list.erase e.elt)) where
  lysts := by
    intro other hne
    simp [setList, hne]
  elts := by
    intro elt _ hne
    have hother : elt ≠ e.elt := by
      intro heq
      rw [heq, h.elts e List.mem_cons_self] at hne
      exact hne rfl
    simp [setList, hother]
  made := le_rfl

/-- The object of the first element is taken out of the list, and the callback finds none. -/
theorem Keeps.takeFirst (h : Keeps m list (e :: rest)) :
    (lystDataSet m e.elt 0).1 = e.address ∧
      ∃ m', lystDelete (lystDataSet m e.elt 0).2 e.elt = .ok m' ∧ Keeps m' list rest ∧ m'.blocks = m.blocks ∧
        Apart list m m' := by
  have helt := h.elts e List.mem_cons_self
  refine ⟨by simp [lystDataSet, helt], _, ?_, h.tail m.blocks 0, rfl, h.tail_apart m.blocks 0⟩
  simp [lystDelete, deleteObject, lystDataSet, lystData, helt, h.callback, bind, Except.bind, pure, Except.pure]

theorem Keeps.deleteFirst (h : Keeps m list (e :: rest)) (hblock : m.blocks e.address = some e.block) :
    ∃ m', lystDelete m e.elt = .ok m' ∧ Keeps m' list rest ∧ m'.blocks = Function.update m.blocks e.address none ∧
      Apart list m m' := by
  have helt := h.elts e List.mem_cons_self
  have hnonnull := h.nonnull e List.mem_cons_self
  have hsame : Function.update m.elts e.elt ⟨list, e.address⟩ = m.elts := by rw [← helt, Function.update_eq_self]
  have htail := h.tail (Function.update m.blocks e.address none) e.address
  have hapart := h.tail_apart (Function.update m.blocks e.address none) e.address
  rw [hsame] at htail hapart
  refine ⟨_, ?_, htail, rfl, hapart⟩
  simp [lystDelete, deleteObject, lystData, helt, h.callback, hnonnull, mrelease_eq hnonnull hblock, bind, Except.bind, pure,
    Except.pure]

/-- A list goes with all its objects. -/
theorem Keeps.destroyElts (h : Keeps m list entries) (ht : Taken base m.blocks (blocksOf entries ++ held)) :
    ∃ m', destroyElts entries.length m list = .ok m' ∧ Keeps m' list ([] : List (Entry κ)) ∧ Taken base m'.blocks held ∧
      Apart list m m' := by
  induction entries generalizing m with
  | nil => exact ⟨m, by simp [Lysts.destroyElts, h.lystFirst], h, ht, Apart.refl⟩
  | cons e rest ih =>
    obtain ⟨m₁, hdelete, h₁, hblocks, ha₁⟩ := h.deleteFirst (ht.kept (e.address, e.block) (by simp))
    obtain ⟨m', hrest, h', ht', ha'⟩ := ih h₁ (by rw [hblocks]; exact ht.release)
    refine ⟨m', ?_, h', ht', ha₁.trans ha'⟩
    simp [Lysts.destroyElts, h.lystFirst, hdelete, hrest, bind, Except.bind]

theorem Keeps.destroy (h : Keeps m list entries) (ht : Taken base m.blocks (blocksOf entries ++ held)) :
    ∃ m', lystDestroy m list = .ok m' ∧ Keeps m' list ([] : List (Entry κ)) ∧ Taken base m'.blocks held ∧
      Apart list m m' := by
  have hlen : (m.lysts list).list.length = entries.length := by rw [h.contents, List.length_map]
  rw [lystDestroy, hlen]
  exact h.destroyElts ht

end Lysts
