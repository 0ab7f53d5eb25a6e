import CgrJni.Smlist

/-!
The insertions, the deletion and the walks of `smlist.c`, and the links that they
keep: an element knows its list and both its neighbors, and a neighbor that is
missing is the beginning or the end of the list.
-/

namespace Smlist

open IonDb Fallible Psm

section

variable {β : Type}

def setNext (heap : Heap (Block β)) (elt next : PsmAddress) : Except Failure (Heap (Block β)) := do
  let buffer ← eltBuffer heap elt
  assign heap elt (.elt { buffer with next := next })

def setPrev (heap : Heap (Block β)) (elt prev : PsmAddress) : Except Failure (Heap (Block β)) := do
  let buffer ← eltBuffer heap elt
  assign heap elt (.elt { buffer with prev := prev })

def setFirst (heap : Heap (Block β)) (list first : PsmAddress) : Except Failure (Heap (Block β)) := do
  let buffer ← listBuffer heap list
  assign heap list (.list { buffer with first := first })

def setLast (heap : Heap (Block β)) (list last : PsmAddress) : Except Failure (Heap (Block β)) := do
  let buffer ← listBuffer heap list
  assign heap list (.list { buffer with last := last })

/-- What comes before an element: another one, or else the beginning of the list. -/
def linkBefore (heap : Heap (Block β)) (list prev elt : PsmAddress) : Except Failure (Heap (Block β)) :=
  if prev ≠ 0 then setNext heap prev elt else setFirst heap list elt

/-- What comes after an element: another one, or else the end of the list. -/
def linkAfter (heap : Heap (Block β)) (list next elt : PsmAddress) : Except Failure (Heap (Block β)) :=
  if next ≠ 0 then setPrev heap next elt else setLast heap list elt

def setLength (heap : Heap (Block β)) (list : PsmAddress) (length : Nat → Nat) :
    Except Failure (Heap (Block β)) := do
  let buffer ← listBuffer heap list
  assign heap list (.list { buffer with length := length buffer.length })

def smListInsertLast (malloc : Malloc (Block β)) (heap : Heap (Block β)) (list data : PsmAddress) :
    Except Failure (PsmAddress × Heap (Block β)) := do
  let buffer ← listBuffer heap list
  let (elt, heap) := psmZalloc malloc heap
  if elt = 0 then return (0, heap)
  let heap ← assign heap elt (.elt ⟨list, buffer.last, 0, data⟩)
  let heap ← linkBefore heap list buffer.last elt
  let heap ← setLast heap list elt
  return (elt, ← setLength heap list (· + 1))

def smListInsertBefore (malloc : Malloc (Block β)) (heap : Heap (Block β)) (oldElt data : PsmAddress) :
    Except Failure (PsmAddress × Heap (Block β)) := do
  let old ← eltBuffer heap oldElt
  if old.list = 0 then return (0, heap)
  let (elt, heap) := psmZalloc malloc heap
  if elt = 0 then return (0, heap)
  let heap ← assign heap elt (.elt ⟨old.list, old.prev, oldElt, data⟩)
  let heap ← linkBefore heap old.list old.prev elt
  let heap ← setPrev heap oldElt elt
  return (elt, ← setLength heap old.list (· + 1))

def finishInsertingAfter (malloc : Malloc (Block β)) (heap : Heap (Block β)) (oldElt list data : PsmAddress) :
    Except Failure (PsmAddress × Heap (Block β)) := do
  let old ← eltBuffer heap oldElt
  let (elt, heap) := psmZalloc malloc heap
  if elt = 0 then return (0, heap)
  let heap ← assign heap elt (.elt ⟨list, oldElt, old.next, data⟩)
  let heap ← linkAfter heap list old.next elt
  let heap ← setNext heap oldElt elt
  return (elt, ← setLength heap list (· + 1))

def smListInsertAfter (malloc : Malloc (Block β)) (heap : Heap (Block β)) (oldElt data : PsmAddress) :
    Except Failure (PsmAddress × Heap (Block β)) := do
  let old ← eltBuffer heap oldElt
  if old.list = 0 then return (0, heap)
  finishInsertingAfter malloc heap oldElt old.list data

/-- From the end of the list to the last element that does not come after the new data. -/
def findPosition (compare : PsmAddress → Int) : Nat → Heap (Block β) → PsmAddress → Except Failure PsmAddress
  | 0, _, elt => if elt = 0 then .ok 0 else .error .endless
  | fuel + 1, heap, elt =>
    if elt = 0 then .ok 0
    else do
      let buffer ← eltBuffer heap elt
      if compare buffer.data ≤ 0 then return elt
      findPosition compare fuel heap buffer.prev

/-- Without a comparison the new element comes last. -/
def smListInsert (malloc : Malloc (Block β)) (heap : Heap (Block β)) (list data : PsmAddress)
    (compare : Option (PsmAddress → Int)) : Except Failure (PsmAddress × Heap (Block β)) :=
  match compare with
  | none => smListInsertLast malloc heap list data
  | some compare => do
    let elt ← findPosition compare heap.partition.addresses.card heap (← listBuffer heap list).last
    if elt = 0 then finishInsertingFirst malloc heap list data
    else finishInsertingAfter malloc heap elt list data

/-- The status is zero for success. -/
def smListDelete (heap : Heap (Block β)) (elt : PsmAddress)
    (deleteFn : Heap (Block β) → PsmAddress → Except Failure (Heap (Block β))) :
    Except Failure (Int × Heap (Block β)) := do
  let buffer ← eltBuffer heap elt
  if buffer.list = 0 then return (-1, heap)
  if (← listBuffer heap buffer.list).length < 1 then return (-1, heap)
  let heap ← deleteFn heap elt
  let heap ← assign heap elt (.elt erasedListElt)
  let heap ← psmFree heap elt
  let heap ← linkBefore heap buffer.list buffer.prev buffer.next
  let heap ← linkAfter heap buffer.list buffer.next buffer.prev
  return (0, ← setLength heap buffer.list (· - 1))

def smListLast (heap : Heap (Block β)) (list : PsmAddress) : Except Failure PsmAddress := do
  return (← listBuffer heap list).last

def smListPrev (heap : Heap (Block β)) (elt : PsmAddress) : Except Failure PsmAddress := do
  return (← eltBuffer heap elt).prev

/-- A caller's loop over the elements: from one of them on, the links are followed to their end. -/
def walk (follow : Heap (Block β) → PsmAddress → Except Failure PsmAddress) (heap : Heap (Block β)) :
    Nat → PsmAddress → Except Failure (List (PsmAddress × PsmAddress))
  | 0, elt => if elt = 0 then .ok [] else .error .endless
  | fuel + 1, elt =>
    if elt = 0 then .ok []
    else do
      let data ← smListData heap elt
      return (elt, data) :: (← walk follow heap fuel (← follow heap elt))

/-- The element that a run of elements begins with, or else what follows it. -/
def firstOr (next : PsmAddress) : List (PsmAddress × PsmAddress) → PsmAddress
  | [] => next
  | entry :: _ => entry.1

/-- The element that a run of elements ends with, or else what comes before it. -/
def lastOr (prev : PsmAddress) : List (PsmAddress × PsmAddress) → PsmAddress
  | [] => prev
  | entry :: rest => lastOr entry.1 rest

/-- A run of elements of a list, linked both ways, between one element and another. -/
def Segment (memory : PsmAddress → Option (Block β)) (list prev next : PsmAddress) :
    List (PsmAddress × PsmAddress) → Prop
  | [] => True
  | (elt, data) :: rest =>
    memory elt = some (.elt ⟨list, prev, firstOr next rest, data⟩) ∧ Segment memory list elt next rest

/-- The list in memory is this sequence of elements, each with its data. -/
structure Represents (heap : Heap (Block β)) (list : PsmAddress) (seq : List (PsmAddress × PsmAddress)) : Prop where
  sound : heap.Sound
  listed : ∃ userData, heap.memory list = some (.list ⟨userData, firstOr 0 seq, lastOr 0 seq, seq.length⟩)
  segment : Segment heap.memory list 0 0 seq
  nodup : (elts seq).Nodup

variable {memory memory' : PsmAddress → Option (Block β)} {heap heap' : Heap (Block β)}
variable {list prev next elt data : PsmAddress} {xs ys seq : List (PsmAddress × PsmAddress)}
variable {buffer : SmListElt} {listBuf : SmList}

@[simp] theorem firstOr_nil : firstOr next [] = next := rfl
@[simp] theorem firstOr_cons : firstOr next ((elt, data) :: xs) = elt := rfl
@[simp] theorem lastOr_nil : lastOr prev [] = prev := rfl
@[simp] theorem lastOr_cons : lastOr prev ((elt, data) :: xs) = lastOr elt xs := rfl

@[simp] theorem firstOr_append : firstOr next (xs ++ ys) = firstOr (firstOr next ys) xs := by
  cases xs <;> rfl

@[simp] theorem lastOr_append : lastOr prev (xs ++ ys) = lastOr (lastOr prev xs) ys := by
  induction xs generalizing prev with
  | nil => rfl
  | cons entry rest ih => exact ih

theorem elts_append : elts (xs ++ ys) = elts xs ++ elts ys := List.map_append

theorem mem_elts_left (h : elt ∈ elts xs) : elt ∈ elts (xs ++ ys) := by
  rw [elts_append]
  exact List.mem_append_left _ h

theorem mem_elts_right (h : elt ∈ elts ys) : elt ∈ elts (xs ++ ys) := by
  rw [elts_append]
  exact List.mem_append_right _ h

theorem segment_append : Segment memory list prev next (xs ++ ys) ↔
    Segment memory list prev (firstOr next ys) xs ∧ Segment memory list (lastOr prev xs) next ys := by
  induction xs generalizing prev with
  | nil => simp [Segment]
  | cons entry rest ih =>
    simp only [List.cons_append, Segment, ih, firstOr_append, lastOr]
    exact and_assoc.symm

theorem Segment.congr (h : Segment memory list prev next xs) (hsame : ∀ elt ∈ elts xs, memory' elt = memory elt) :
    Segment memory' list prev next xs := by
  induction xs generalizing prev with
  | nil => trivial
  | cons entry rest ih =>
    obtain ⟨hentry, hrest⟩ := h
    refine ⟨?_, ih hrest ?_⟩
    · rw [hsame entry.1 (by simp [elts]), hentry]
    · exact fun elt helt => hsame elt (List.mem_cons_of_mem _ helt)

theorem Segment.elt_linked (h : Segment memory list prev next xs) (helt : elt ∈ elts xs) :
    ∃ buffer, memory elt = some (.elt buffer) ∧ buffer.list = list := by
  induction xs generalizing prev with
  | nil => cases helt
  | cons entry rest ih =>
    obtain ⟨hentry, hrest⟩ := h
    rw [elts_cons, List.mem_cons] at helt
    cases helt with
    | inl heq => exact ⟨_, heq ▸ hentry, rfl⟩
    | inr hmem => exact ih hrest hmem

/-- Only the last element of a run has a link beyond its end. -/
theorem Segment.relink_next (h : Segment memory list prev next (xs ++ [(elt, data)])) (next' : PsmAddress)
    (hsame : ∀ a ∈ elts xs, memory' a = memory a)
    (helt : memory' elt = some (.elt ⟨list, lastOr prev xs, next', data⟩)) :
    Segment memory' list prev next' (xs ++ [(elt, data)]) := by
  rw [segment_append] at h ⊢
  exact ⟨h.1.congr hsame, helt, trivial⟩

/-- Only the first element of a run has a link to what comes before. -/
theorem Segment.relink_prev (h : Segment memory list prev next ((elt, data) :: ys)) (prev' : PsmAddress)
    (hsame : ∀ a ∈ elts ys, memory' a = memory a)
    (helt : memory' elt = some (.elt ⟨list, prev', firstOr next ys, data⟩)) :
    Segment memory' list prev' next ((elt, data) :: ys) :=
  ⟨helt, h.2.congr hsame⟩

theorem Represents.elt_allocated (h : Represents heap list seq) (helt : elt ∈ elts seq) : heap.memory elt ≠ none := by
  obtain ⟨buffer, hbuffer, -⟩ := h.segment.elt_linked helt
  simp [hbuffer]

theorem Represents.list_allocated (h : Represents heap list seq) : heap.memory list ≠ none := by
  obtain ⟨userData, hlist⟩ := h.listed
  simp [hlist]

theorem Represents.elt_ne_zero (h : Represents heap list seq) (helt : elt ∈ elts seq) : elt ≠ 0 :=
  h.sound.ne_zero (h.elt_allocated helt)

theorem Represents.list_ne_zero (h : Represents heap list seq) : list ≠ 0 := h.sound.ne_zero h.list_allocated

theorem Represents.list_notMem (h : Represents heap list seq) : list ∉ elts seq := by
  intro hmem
  obtain ⟨buffer, hbuffer, -⟩ := h.segment.elt_linked hmem
  obtain ⟨userData, hlist⟩ := h.listed
  rw [hlist] at hbuffer
  cases hbuffer

/-- An element in the sequence, with the links that it has. -/
theorem Represents.elt_eq (h : Represents heap list (xs ++ (elt, data) :: ys)) :
    heap.memory elt = some (.elt ⟨list, lastOr 0 xs, firstOr 0 ys, data⟩) := by
  exact (segment_append.mp h.segment).2.1

/-- Two parts of a list, and the links of the one to what comes next and of the other to what comes
before, on the way from one sequence to another. -/
structure Linking (heap : Heap (Block β)) (list : PsmAddress) (xs : List (PsmAddress × PsmAddress))
    (next prev : PsmAddress) (ys : List (PsmAddress × PsmAddress)) (length : Nat) : Prop where
  sound : heap.Sound
  listed : ∃ userData, heap.memory list = some (.list ⟨userData, firstOr next xs, lastOr prev ys, length⟩)
  before : Segment heap.memory list 0 next xs
  after : Segment heap.memory list prev 0 ys
  nodup : (elts (xs ++ ys)).Nodup

/-- Nothing but a list and its elements is touched. -/
def Elsewhere (heap heap' : Heap (Block β)) (list : PsmAddress) (seq : List (PsmAddress × PsmAddress)) : Prop :=
  ∀ a, a ≠ list → a ∉ elts seq → heap'.memory a = heap.memory a

variable {heap'' : Heap (Block β)} {next' prev' : PsmAddress} {n : Nat}

theorem Elsewhere.trans (h : Elsewhere heap heap' list seq) (h' : Elsewhere heap' heap'' list seq) :
    Elsewhere heap heap'' list seq := by
  intro a hlist ha
  rw [h' a hlist ha, h a hlist ha]

theorem linking_of_represents (h : Represents heap list (xs ++ ys)) :
    Linking heap list xs (firstOr 0 ys) (lastOr 0 xs) ys (xs ++ ys).length where
  sound := h.sound
  listed := by
    obtain ⟨userData, hlisted⟩ := h.listed
    exact ⟨userData, by rw [hlisted, firstOr_append, lastOr_append]⟩
  before := (segment_append.mp h.segment).1
  after := (segment_append.mp h.segment).2
  nodup := h.nodup

theorem Linking.represents (h : Linking heap list xs (firstOr 0 ys) (lastOr 0 xs) ys (xs ++ ys).length) :
    Represents heap list (xs ++ ys) where
  sound := h.sound
  listed := by
    obtain ⟨userData, hlisted⟩ := h.listed
    exact ⟨userData, by rw [hlisted, firstOr_append, lastOr_append]⟩
  segment := segment_append.mpr ⟨h.before, h.after⟩
  nodup := h.nodup

/-- The two parts without the element between them. -/
theorem linking_of_represents_cons (h : Represents heap list (xs ++ (elt, data) :: ys)) :
    Linking heap list xs elt elt ys ((xs ++ ys).length + 1) where
  sound := h.sound
  listed := by
    obtain ⟨userData, hlisted⟩ := h.listed
    refine ⟨userData, ?_⟩
    rw [hlisted, firstOr_append, lastOr_append, List.length_append, List.length_append]
    rfl
  before := (segment_append.mp h.segment).1
  after := (segment_append.mp h.segment).2.2
  nodup := by
    have hnodup := h.nodup
    rw [elts_append, elts_cons, List.nodup_middle, List.nodup_cons, ← elts_append] at hnodup
    exact hnodup.2

/-- The two parts with a new element between them. -/
theorem Linking.represents_cons (h : Linking heap list xs elt elt ys ((xs ++ ys).length + 1))
    (helt : heap.memory elt = some (.elt ⟨list, lastOr 0 xs, firstOr 0 ys, data⟩)) (hnew : elt ∉ elts (xs ++ ys)) :
    Represents heap list (xs ++ (elt, data) :: ys) where
  sound := h.sound
  listed := by
    obtain ⟨userData, hlisted⟩ := h.listed
    refine ⟨userData, ?_⟩
    rw [hlisted, firstOr_append, lastOr_append, List.length_append, List.length_append]
    rfl
  segment := segment_append.mpr ⟨h.before, helt, h.after⟩
  nodup := by
    rw [elts_append, elts_cons, List.nodup_middle, List.nodup_cons, ← elts_append]
    exact ⟨hnew, h.nodup⟩

theorem Linking.list_notMem (h : Linking heap list xs next prev ys n) : list ∉ elts (xs ++ ys) := by
  intro hmem
  obtain ⟨userData, hlisted⟩ := h.listed
  rw [elts_append, List.mem_append] at hmem
  obtain ⟨buffer, hbuffer, -⟩ := hmem.elim h.before.elt_linked h.after.elt_linked
  rw [hlisted] at hbuffer
  cases hbuffer

theorem setNext_eq (h : heap.Sound) (ha : heap.memory elt = some (.elt buffer)) (next : PsmAddress) :
    setNext heap elt next = .ok (heap.put elt (.elt { buffer with next := next })) := by
  unfold setNext
  rw [eltBuffer_eq h ha]
  exact assign_eq h (by simp [ha]) _

theorem setPrev_eq (h : heap.Sound) (ha : heap.memory elt = some (.elt buffer)) (prev : PsmAddress) :
    setPrev heap elt prev = .ok (heap.put elt (.elt { buffer with prev := prev })) := by
  unfold setPrev
  rw [eltBuffer_eq h ha]
  exact assign_eq h (by simp [ha]) _

theorem setFirst_eq (h : heap.Sound) (ha : heap.memory list = some (.list listBuf)) (first : PsmAddress) :
    setFirst heap list first = .ok (heap.put list (.list { listBuf with first := first })) := by
  unfold setFirst
  rw [listBuffer_eq h ha]
  exact assign_eq h (by simp [ha]) _

theorem setLast_eq (h : heap.Sound) (ha : heap.memory list = some (.list listBuf)) (last : PsmAddress) :
    setLast heap list last = .ok (heap.put list (.list { listBuf with last := last })) := by
  unfold setLast
  rw [listBuffer_eq h ha]
  exact assign_eq h (by simp [ha]) _

theorem setLength_eq (h : heap.Sound) (ha : heap.memory list = some (.list listBuf)) (length : Nat → Nat) :
    setLength heap list length = .ok (heap.put list (.list { listBuf with length := length listBuf.length })) := by
  unfold setLength
  rw [listBuffer_eq h ha]
  exact assign_eq h (by simp [ha]) _

/-- The first part, which may be empty, gets another link to what comes next. -/
theorem Linking.linkBefore (h : Linking heap list xs next prev ys n) (next' : PsmAddress) :
    ∃ heap', linkBefore heap list (lastOr 0 xs) next' = .ok heap' ∧ Linking heap' list xs next' prev ys n ∧
      Elsewhere heap heap' list (xs ++ ys) := by
  obtain ⟨userData, hlisted⟩ := h.listed
  have hlist := h.list_notMem
  have hnodup := h.nodup
  rw [elts_append, List.nodup_append'] at hnodup
  unfold Smlist.linkBefore
  rcases List.eq_nil_or_concat' xs with rfl | ⟨zs, ⟨e, d⟩, hxs⟩
  · rw [lastOr_nil, if_neg (not_not_intro rfl), setFirst_eq h.sound hlisted]
    refine ⟨_, rfl, ⟨h.sound.put (by simp [hlisted]) _, ⟨userData, heap.put_self _ _⟩, trivial, ?_, h.nodup⟩, ?_⟩
    · apply h.after.congr
      exact fun a ha => heap.put_of_ne _ (by rintro rfl; exact hlist ha)
    · exact fun a ha _ => heap.put_of_ne _ ha
  · have hin : e ∈ elts xs := by simp [hxs, elts]
    have hlast : lastOr 0 xs = e := by
      rw [hxs, lastOr_append]
      rfl
    have hseg := h.before
    rw [hxs] at hseg
    have hmem := (segment_append.mp hseg).2.1
    have hzs : e ∉ elts zs := by
      have hnx := hnodup.1
      rw [hxs, elts_append, List.nodup_append'] at hnx
      exact fun he => hnx.2.2 he (List.mem_singleton.mpr rfl)
    rw [hlast, if_pos (h.sound.ne_zero (by simp [hmem])), setNext_eq h.sound hmem]
    refine ⟨_, rfl, ⟨h.sound.put (by simp [hmem]) _, ⟨userData, ?_⟩, ?_, ?_, h.nodup⟩, ?_⟩
    · rw [heap.put_of_ne _ (by rintro rfl; exact hlist (mem_elts_left hin)),
        hlisted, hxs]
      cases zs <;> rfl
    · rw [hxs]
      refine hseg.relink_next next' ?_ (heap.put_self _ _)
      exact fun a ha => heap.put_of_ne _ (by rintro rfl; exact hzs ha)
    · apply h.after.congr
      exact fun a ha => heap.put_of_ne _ (by rintro rfl; exact hnodup.2.2 hin ha)
    · intro a _ ha
      apply heap.put_of_ne
      rintro rfl
      exact ha (mem_elts_left hin)

/-- The second part, which may be empty, gets another link to what comes before. -/
theorem Linking.linkAfter (h : Linking heap list xs next prev ys n) (prev' : PsmAddress) :
    ∃ heap', linkAfter heap list (firstOr 0 ys) prev' = .ok heap' ∧ Linking heap' list xs next prev' ys n ∧
      Elsewhere heap heap' list (xs ++ ys) := by
  obtain ⟨userData, hlisted⟩ := h.listed
  have hlist := h.list_notMem
  have hnodup := h.nodup
  rw [elts_append, List.nodup_append'] at hnodup
  unfold Smlist.linkAfter
  cases ys with
  | nil =>
    rw [firstOr_nil, if_neg (not_not_intro rfl), setLast_eq h.sound hlisted]
    refine ⟨_, rfl, ⟨h.sound.put (by simp [hlisted]) _, ⟨userData, heap.put_self _ _⟩, ?_, trivial, h.nodup⟩, ?_⟩
    · apply h.before.congr
      intro a ha
      apply heap.put_of_ne
      rintro rfl
      exact hlist (by rwa [List.append_nil])
    · exact fun a ha _ => heap.put_of_ne _ ha
  | cons entry zs =>
    obtain ⟨e, d⟩ := entry
    have hin : e ∈ elts ((e, d) :: zs) := List.mem_cons_self
    have hmem := h.after.1
    have hzs : e ∉ elts zs := (List.nodup_cons.mp hnodup.2.1).1
    rw [firstOr_cons, if_pos (h.sound.ne_zero (by simp [hmem])), setPrev_eq h.sound hmem]
    refine ⟨_, rfl, ⟨h.sound.put (by simp [hmem]) _, ⟨userData, ?_⟩, ?_, ?_, h.nodup⟩, ?_⟩
    · rw [heap.put_of_ne _ (by rintro rfl; exact hlist (mem_elts_right hin)),
        hlisted]
      rfl
    · apply h.before.congr
      exact fun a ha => heap.put_of_ne _ (by rintro rfl; exact hnodup.2.2 ha hin)
    · refine h.after.relink_prev prev' ?_ (heap.put_self _ _)
      exact fun a ha => heap.put_of_ne _ (by rintro rfl; exact hzs ha)
    · intro a _ ha
      apply heap.put_of_ne
      rintro rfl
      exact ha (mem_elts_right hin)

/-- The list itself is written to last. -/
theorem Linking.put_list (h : Linking heap list xs next prev ys n) (userData first last : PsmAddress) (m : Nat)
    (hfirst : first = firstOr next' xs) (hlast : last = lastOr prev' ys) (hxs : xs = [] ∨ next' = next)
    (hys : ys = [] ∨ prev' = prev) :
    Linking (heap.put list (.list ⟨userData, first, last, m⟩)) list xs next' prev' ys m ∧
      Elsewhere heap (heap.put list (.list ⟨userData, first, last, m⟩)) list (xs ++ ys) := by
  obtain ⟨userData', hlisted⟩ := h.listed
  have hlist := h.list_notMem
  rw [elts_append, List.mem_append, not_or] at hlist
  refine ⟨⟨h.sound.put (by simp [hlisted]) _, ⟨userData, ?_⟩, ?_, ?_, h.nodup⟩, fun a ha _ => heap.put_of_ne _ ha⟩
  · rw [heap.put_self, hfirst, hlast]
  · cases hxs with
    | inl hnil => rw [hnil]; trivial
    | inr heq =>
      rw [heq]
      exact h.before.congr (fun a ha => heap.put_of_ne _ (by rintro rfl; exact hlist.1 ha))
  · cases hys with
    | inl hnil => rw [hnil]; trivial
    | inr heq =>
      rw [heq]
      exact h.after.congr (fun a ha => heap.put_of_ne _ (by rintro rfl; exact hlist.2 ha))

theorem Linking.setLength (h : Linking heap list xs next prev ys n) (length : Nat → Nat) :
    ∃ heap', setLength heap list length = .ok heap' ∧ Linking heap' list xs next prev ys (length n) ∧
      Elsewhere heap heap' list (xs ++ ys) := by
  obtain ⟨userData, hlisted⟩ := h.listed
  rw [setLength_eq h.sound hlisted]
  exact ⟨_, rfl, h.put_list userData _ _ _ rfl rfl (Or.inr rfl) (Or.inr rfl)⟩

/-- A new element that has its own links, while the list does not know it yet. -/
structure Linkable (heap heap' : Heap (Block β)) (list : PsmAddress) (xs : List (PsmAddress × PsmAddress))
    (elt data : PsmAddress) (ys : List (PsmAddress × PsmAddress)) : Prop where
  linking : Linking heap' list xs (firstOr 0 ys) (lastOr 0 xs) ys (xs ++ ys).length
  new : heap'.memory elt = some (.elt ⟨list, lastOr 0 xs, firstOr 0 ys, data⟩)
  unused : heap.memory elt = none
  elsewhere : ∀ a, a ≠ elt → heap'.memory a = heap.memory a

/-- An insertion begins with an element that is allocated and gets its own links. -/
theorem linkable (h : Represents heap list (xs ++ ys)) (hz : Allocated heap heap' elt) (helt : elt ≠ 0)
    (data : PsmAddress) :
    ∃ heap'', assign heap' elt (.elt ⟨list, lastOr 0 xs, firstOr 0 ys, data⟩) = .ok heap'' ∧
      Linkable heap heap'' list xs elt data ys := by
  have hw := hz.put helt (.elt ⟨list, lastOr 0 xs, firstOr 0 ys, data⟩)
  obtain ⟨userData, hlisted⟩ := h.listed
  have h' := linking_of_represents h
  have hkeep : ∀ a, heap.memory a ≠ none →
      (heap'.put elt (.elt ⟨list, lastOr 0 xs, firstOr 0 ys, data⟩)).memory a = heap.memory a :=
    fun a ha => hw.memory a (hz.ne_of_allocated ha)
  rw [assign_eq hz.sound (hz.used helt)]
  refine ⟨_, rfl, ⟨hw.sound, ⟨userData, ?_⟩, ?_, ?_, h.nodup⟩, heap'.put_self _ _, hw.unused, hw.memory⟩
  · rw [hkeep list h.list_allocated, hlisted, firstOr_append, lastOr_append]
  · exact h'.before.congr (fun a ha => hkeep a (h.elt_allocated (mem_elts_left ha)))
  · exact h'.after.congr (fun a ha => hkeep a (h.elt_allocated (mem_elts_right ha)))

/-- The new element stands between the two parts, and nothing else is touched. -/
structure LinkedIn (heap heap' : Heap (Block β)) (list : PsmAddress) (xs : List (PsmAddress × PsmAddress))
    (elt data : PsmAddress) (ys : List (PsmAddress × PsmAddress)) : Prop where
  represents : Represents heap' list (xs ++ (elt, data) :: ys)
  unused : heap.memory elt = none
  elsewhere : ∀ a, a ≠ elt → a ≠ list → a ∉ elts (xs ++ ys) → heap'.memory a = heap.memory a

theorem Linkable.linkedIn (h : Linkable heap heap' list xs elt data ys)
    (hl : Linking heap'' list xs elt elt ys ((xs ++ ys).length + 1))
    (hsame : Elsewhere heap' heap'' list (xs ++ ys)) (hseq : Represents heap list (xs ++ ys)) :
    LinkedIn heap heap'' list xs elt data ys := by
  have hlist : elt ≠ list := by
    rintro rfl
    exact hseq.list_allocated h.unused
  have hnew : elt ∉ elts (xs ++ ys) := fun hmem => hseq.elt_allocated hmem h.unused
  refine ⟨hl.represents_cons ?_ hnew, h.unused, ?_⟩
  · rw [hsame elt hlist hnew, h.new]
  · intro a ha hal hamem
    rw [hsame a hal hamem, h.elsewhere a ha]

/-- The links to the new element, from before it and then from after it, and the length. -/
theorem Linkable.link (h : Linkable heap heap' list xs elt data ys) (hseq : Represents heap list (xs ++ ys)) :
    ∃ heap₁ heap₂ heap₃, linkBefore heap' list (lastOr 0 xs) elt = .ok heap₁ ∧
      linkAfter heap₁ list (firstOr 0 ys) elt = .ok heap₂ ∧ setLength heap₂ list (· + 1) = .ok heap₃ ∧
      LinkedIn heap heap₃ list xs elt data ys := by
  obtain ⟨heap₁, hbefore, hl₁, he₁⟩ := h.linking.linkBefore elt
  obtain ⟨heap₂, hafter, hl₂, he₂⟩ := hl₁.linkAfter elt
  obtain ⟨heap₃, hlength, hl₃, he₃⟩ := hl₂.setLength (· + 1)
  exact ⟨heap₁, heap₂, heap₃, hbefore, hafter, hlength, h.linkedIn hl₃ ((he₁.trans he₂).trans he₃) hseq⟩

/-- What an insertion returns: zero and a list as it was, or a new element in its place. -/
def InsertedBetween (heap : Heap (Block β)) (list : PsmAddress) (xs : List (PsmAddress × PsmAddress)) (data : PsmAddress)
    (ys : List (PsmAddress × PsmAddress)) (r : PsmAddress × Heap (Block β)) : Prop :=
  (r.1 = 0 ∧ Allocated heap r.2 0) ∨ (r.1 ≠ 0 ∧ LinkedIn heap r.2 list xs r.1 data ys)

theorem smListInsertFirst_between (h : Represents heap list seq) (malloc : Malloc (Block β)) (data : PsmAddress) :
    Ends (fun _ => False) (InsertedBetween heap list [] data seq) (finishInsertingFirst malloc heap list data) := by
  obtain ⟨userData, hlisted⟩ := h.listed
  have hz := psmZalloc_allocated h.sound malloc
  unfold finishInsertingFirst
  simp only [bind, Except.bind]
  generalize psmZalloc malloc heap = r at hz
  obtain ⟨elt, heap₁⟩ := r
  dsimp only at hz ⊢
  by_cases helt : elt = 0
  · rw [if_pos helt]
    exact Or.inl ⟨rfl, helt ▸ hz⟩
  have hlisted₁ : heap₁.memory list = some (.list ⟨userData, firstOr 0 seq, lastOr 0 seq, seq.length⟩) := by
    rw [hz.memory list (hz.ne_of_allocated h.list_allocated), hlisted]
  rw [if_neg helt, listBuffer_eq hz.sound hlisted₁]
  have h' : Represents heap list ([] ++ seq) := h
  obtain ⟨heap₂, hassign, hnew⟩ := linkable h' hz helt data
  rw [lastOr_nil] at hassign
  dsimp only
  rw [hassign]
  dsimp only
  have hl₂ := hnew.linking
  obtain ⟨userData₂, hlisted₂⟩ := hl₂.listed
  cases seq with
  | nil =>
    rw [firstOr_nil, if_neg (not_not_intro rfl), assign_eq hl₂.sound (by simp [hlisted₂])]
    obtain ⟨hl₃, he₃⟩ := hl₂.put_list userData elt elt 1 (by rw [firstOr_nil]) (by rw [lastOr_nil])
      (Or.inl rfl) (Or.inl rfl)
    exact Or.inr ⟨helt, hnew.linkedIn hl₃ he₃ h'⟩
  | cons entry rest =>
    obtain ⟨e, d⟩ := entry
    have hfirst := hl₂.after.1
    obtain ⟨heap₃, hafter, hl₃, he₃⟩ := hl₂.linkAfter elt
    obtain ⟨userData₃, hlisted₃⟩ := hl₃.listed
    have he : e ≠ 0 := hl₂.sound.ne_zero (by simp [hfirst])
    unfold Smlist.linkAfter setPrev at hafter
    rw [firstOr_cons, if_pos he, eltBuffer_eq hl₂.sound hfirst] at hafter
    simp only [bind, Except.bind] at hafter
    rw [firstOr_cons, if_pos he, eltBuffer_eq hl₂.sound hfirst]
    dsimp only
    rw [hafter]
    dsimp only
    rw [assign_eq hl₃.sound (by simp [hlisted₃])]
    obtain ⟨hl₄, he₄⟩ := hl₃.put_list userData elt (lastOr e rest) (rest.length + 1 + 1) rfl rfl (Or.inl rfl) (Or.inr rfl)
    exact Or.inr ⟨helt, hnew.linkedIn hl₄ (he₃.trans he₄) h'⟩

theorem smListInsertLast_between (h : Represents heap list seq) (malloc : Malloc (Block β)) (data : PsmAddress) :
    Ends (fun _ => False) (InsertedBetween heap list seq data []) (smListInsertLast malloc heap list data) := by
  obtain ⟨userData, hlisted⟩ := h.listed
  have hz := psmZalloc_allocated h.sound malloc
  have h' : Represents heap list (seq ++ []) := by rwa [List.append_nil]
  unfold smListInsertLast
  rw [listBuffer_eq h.sound hlisted]
  simp only [bind, Except.bind]
  generalize psmZalloc malloc heap = r at hz
  obtain ⟨elt, heap₁⟩ := r
  dsimp only at hz ⊢
  by_cases helt : elt = 0
  · rw [if_pos helt]
    exact Or.inl ⟨rfl, helt ▸ hz⟩
  rw [if_neg helt]
  obtain ⟨heap₂, hassign, hnew⟩ := linkable h' hz helt data
  rw [firstOr_nil] at hassign
  rw [hassign]
  obtain ⟨heap₃, heap₄, heap₅, hbefore, hafter, hlength, hlinked⟩ := hnew.link h'
  rw [linkAfter, firstOr_nil, if_neg (not_not_intro rfl)] at hafter
  dsimp only
  rw [hbefore]
  dsimp only
  rw [hafter]
  dsimp only
  rw [hlength]
  exact Or.inr ⟨helt, hlinked⟩

theorem smListInsertBefore_between (h : Represents heap list (xs ++ (elt, data) :: ys)) (malloc : Malloc (Block β))
    (newData : PsmAddress) :
    Ends (fun _ => False) (InsertedBetween heap list xs newData ((elt, data) :: ys))
      (smListInsertBefore malloc heap elt newData) := by
  have hz := psmZalloc_allocated h.sound malloc
  have helt_ne : elt ≠ 0 := h.elt_ne_zero (by simp [elts])
  unfold smListInsertBefore
  rw [eltBuffer_eq h.sound h.elt_eq]
  simp only [bind, Except.bind]
  rw [if_neg h.list_ne_zero]
  generalize psmZalloc malloc heap = r at hz
  obtain ⟨new, heap₁⟩ := r
  dsimp only at hz ⊢
  by_cases hnew : new = 0
  · rw [if_pos hnew]
    exact Or.inl ⟨rfl, hnew ▸ hz⟩
  rw [if_neg hnew]
  obtain ⟨heap₂, hassign, hlinkable⟩ := linkable h hz hnew newData
  rw [firstOr_cons] at hassign
  rw [hassign]
  obtain ⟨heap₃, heap₄, heap₅, hbefore, hafter, hlength, hlinked⟩ := hlinkable.link h
  rw [linkAfter, firstOr_cons, if_pos helt_ne] at hafter
  dsimp only
  rw [hbefore]
  dsimp only
  rw [hafter]
  dsimp only
  rw [hlength]
  exact Or.inr ⟨hnew, hlinked⟩

theorem finishInsertingAfter_between (h : Represents heap list (xs ++ (elt, data) :: ys)) (malloc : Malloc (Block β))
    (newData : PsmAddress) :
    Ends (fun _ => False) (InsertedBetween heap list (xs ++ [(elt, data)]) newData ys)
      (finishInsertingAfter malloc heap elt list newData) := by
  have hz := psmZalloc_allocated h.sound malloc
  have helt_ne : elt ≠ 0 := h.elt_ne_zero (by simp [elts])
  have h' : Represents heap list (xs ++ [(elt, data)] ++ ys) := by rwa [List.append_assoc]
  have hlast : lastOr 0 (xs ++ [(elt, data)]) = elt := by rw [lastOr_append]; rfl
  unfold finishInsertingAfter
  rw [eltBuffer_eq h.sound h.elt_eq]
  simp only [bind, Except.bind]
  generalize psmZalloc malloc heap = r at hz
  obtain ⟨new, heap₁⟩ := r
  dsimp only at hz ⊢
  by_cases hnew : new = 0
  · rw [if_pos hnew]
    exact Or.inl ⟨rfl, hnew ▸ hz⟩
  rw [if_neg hnew]
  obtain ⟨heap₂, hassign, hlinkable⟩ := linkable h' hz hnew newData
  rw [hlast] at hassign
  rw [hassign]
  obtain ⟨heap₃, hafter, hl₃, he₃⟩ := hlinkable.linking.linkAfter new
  dsimp only
  rw [hafter]
  obtain ⟨heap₄, hbefore, hl₄, he₄⟩ := hl₃.linkBefore new
  unfold Smlist.linkBefore at hbefore
  rw [hlast, if_pos helt_ne] at hbefore
  dsimp only
  rw [hbefore]
  obtain ⟨heap₅, hlength, hl₅, he₅⟩ := hl₄.setLength (· + 1)
  dsimp only
  rw [hlength]
  exact Or.inr ⟨hnew, hlinkable.linkedIn hl₅ ((he₃.trans he₄).trans he₅) h'⟩

theorem smListInsertAfter_between (h : Represents heap list (xs ++ (elt, data) :: ys)) (malloc : Malloc (Block β))
    (newData : PsmAddress) :
    Ends (fun _ => False) (InsertedBetween heap list (xs ++ [(elt, data)]) newData ys)
      (smListInsertAfter malloc heap elt newData) := by
  unfold smListInsertAfter
  rw [eltBuffer_eq h.sound h.elt_eq]
  simp only [bind, Except.bind]
  rw [if_neg h.list_ne_zero]
  exact finishInsertingAfter_between h malloc newData

/-- The search ends at the last element that does not come after the new data, or before all of them. -/
theorem findPosition_eq {compare : PsmAddress → Int} (hsound : heap.Sound)
    (hseg : Segment heap.memory list 0 next (xs ++ ys)) (hxs : ∀ zs e d, xs = zs ++ [(e, d)] → compare d ≤ 0)
    (hys : ∀ entry ∈ ys, ¬ compare entry.2 ≤ 0) {fuel : Nat} (hfuel : (xs ++ ys).length ≤ fuel) :
    findPosition compare fuel heap (lastOr 0 (xs ++ ys)) = .ok (lastOr 0 xs) := by
  induction ys using List.reverseRecOn generalizing next fuel with
  | nil =>
    rw [List.append_nil] at hseg hfuel ⊢
    rcases List.eq_nil_or_concat' xs with rfl | ⟨zs, ⟨e, d⟩, heq⟩
    · cases fuel <;> simp [findPosition]
    · have hstop := hxs zs e d heq
      rw [heq] at hseg hfuel ⊢
      have hmem := (segment_append.mp hseg).2.1
      rw [List.length_append, List.length_singleton] at hfuel
      obtain ⟨fuel, rfl⟩ : ∃ n, fuel = n + 1 := ⟨fuel - 1, by omega⟩
      rw [lastOr_append, lastOr_cons, lastOr_nil, findPosition, if_neg (hsound.ne_zero (by simp [hmem])),
        eltBuffer_eq hsound hmem]
      simp only [bind, Except.bind]
      rw [if_pos hstop]
      rfl
  | append_singleton ys entry ih =>
    obtain ⟨e, d⟩ := entry
    have hgo := hys (e, d) (by simp)
    rw [← List.append_assoc] at hseg hfuel ⊢
    obtain ⟨hseg', hmem, -⟩ := segment_append.mp hseg
    rw [List.length_append, List.length_singleton] at hfuel
    obtain ⟨fuel, rfl⟩ : ∃ n, fuel = n + 1 := ⟨fuel - 1, by omega⟩
    rw [lastOr_append, lastOr_cons, lastOr_nil, findPosition, if_neg (hsound.ne_zero (by simp [hmem])),
      eltBuffer_eq hsound hmem]
    simp only [bind, Except.bind]
    rw [if_neg hgo]
    exact ih hseg' (fun entry hentry => hys entry (List.mem_append_left _ hentry)) (by omega)

theorem Represents.length_le (h : Represents heap list seq) : seq.length ≤ heap.partition.addresses.card := by
  have hle := h.sound.length_le h.nodup (fun a ha => h.elt_allocated ha)
  rwa [elts, List.length_map] at hle

/-- Where a comparison puts a new element: after the last that does not come after it. -/
theorem smListInsert_between {compare : PsmAddress → Int} (h : Represents heap list (xs ++ ys))
    (hxs : ∀ zs e d, xs = zs ++ [(e, d)] → compare d ≤ 0) (hys : ∀ entry ∈ ys, ¬ compare entry.2 ≤ 0)
    (malloc : Malloc (Block β)) (data : PsmAddress) :
    Ends (fun _ => False) (InsertedBetween heap list xs data ys) (smListInsert malloc heap list data (some compare)) := by
  obtain ⟨userData, hlisted⟩ := h.listed
  unfold smListInsert
  dsimp only
  rw [listBuffer_eq h.sound hlisted]
  simp only [bind, Except.bind]
  rw [findPosition_eq h.sound h.segment hxs hys h.length_le]
  dsimp only
  rcases List.eq_nil_or_concat' xs with rfl | ⟨zs, ⟨e, d⟩, rfl⟩
  · rw [lastOr_nil, if_pos rfl]
    exact smListInsertFirst_between h malloc data
  · have h' : Represents heap list (zs ++ (e, d) :: ys) := by rwa [List.append_assoc] at h
    rw [lastOr_append, lastOr_cons, lastOr_nil, if_neg (h'.elt_ne_zero (by simp [elts]))]
    exact finishInsertingAfter_between h' malloc data

theorem Linking.congr (h : Linking heap list xs next prev ys n) (hsound : heap'.Sound)
    (hlist : heap'.memory list = heap.memory list) (hsame : ∀ a ∈ elts (xs ++ ys), heap'.memory a = heap.memory a) :
    Linking heap' list xs next prev ys n where
  sound := hsound
  listed := by
    rw [hlist]
    exact h.listed
  before := h.before.congr (fun a ha => hsame a (mem_elts_left ha))
  after := h.after.congr (fun a ha => hsame a (mem_elts_right ha))
  nodup := h.nodup

theorem Represents.congr (h : Represents heap list seq) (hsound : heap'.Sound)
    (hlist : heap'.memory list = heap.memory list) (hsame : ∀ a ∈ elts seq, heap'.memory a = heap.memory a) :
    Represents heap' list seq where
  sound := hsound
  listed := by
    rw [hlist]
    exact h.listed
  segment := h.segment.congr hsame
  nodup := h.nodup

/-- A delete function that comes to an end and leaves lists and their elements alone. -/
def Spares (deleteFn : Heap (Block β) → PsmAddress → Except Failure (Heap (Block β))) : Prop :=
  ∀ heap elt, heap.Sound → Ends (fun _ => False) (fun heap' => heap'.Sound ∧
    (∀ a buffer, heap.memory a = some (.list buffer) → heap'.memory a = heap.memory a) ∧
    ∀ a buffer, heap.memory a = some (.elt buffer) → heap'.memory a = heap.memory a) (deleteFn heap elt)

/-- A deletion takes the element out, whatever its place, and releases it. -/
theorem smListDelete_out (h : Represents heap list (xs ++ (elt, data) :: ys))
    {deleteFn : Heap (Block β) → PsmAddress → Except Failure (Heap (Block β))} (hspares : Spares deleteFn) :
    Ends (fun _ => False) (fun r => r.1 = 0 ∧ Represents r.2 list (xs ++ ys) ∧ r.2.memory elt = none)
      (smListDelete heap elt deleteFn) := by
  obtain ⟨userData, hlisted⟩ := h.listed
  obtain ⟨heap₁, hdelete, hsound₁, hlists, helts⟩ := (hspares heap elt h.sound).total
  have h₁ : Represents heap₁ list (xs ++ (elt, data) :: ys) := by
    apply h.congr hsound₁ (hlists list _ hlisted)
    intro a ha
    obtain ⟨buffer, hbuffer, -⟩ := h.segment.elt_linked ha
    exact helts a buffer hbuffer
  have hused : heap₁.memory elt ≠ none := by simp [h₁.elt_eq]
  have hlist := h₁.list_notMem
  have hnodup := h₁.nodup
  rw [elts_append, elts_cons, List.nodup_middle, List.nodup_cons, ← elts_append] at hnodup
  have hlist_elt : list ≠ elt := by
    rintro rfl
    exact hlist (by simp [elts])
  unfold smListDelete
  rw [eltBuffer_eq h.sound h.elt_eq]
  simp only [bind, Except.bind]
  rw [if_neg h.list_ne_zero, listBuffer_eq h.sound hlisted]
  dsimp only
  rw [if_neg (by simp), hdelete]
  dsimp only
  rw [assign_eq hsound₁ hused]
  obtain ⟨heap₂, hfree, hreleased⟩ :=
    (psmFree_ends (hsound₁.put hused (.elt erasedListElt)) ((heap₁.put_allocated _ hused _).mpr hused)).total
  have hgone := hreleased.overwritten
  dsimp only
  rw [hfree]
  have hkeep : ∀ a, a ≠ elt → heap₂.memory a = heap₁.memory a :=
    fun a ha => hgone.of_notMem (fun hmem => ha (List.mem_singleton.mp hmem))
  have hl₂ : Linking heap₂ list xs elt elt ys ((xs ++ ys).length + 1) := by
    apply (linking_of_represents_cons h₁).congr hgone.sound (hkeep list hlist_elt)
    exact fun a ha => hkeep a (by rintro rfl; exact hnodup.1 ha)
  obtain ⟨heap₃, hbefore, hl₃, he₃⟩ := hl₂.linkBefore (firstOr 0 ys)
  dsimp only
  rw [hbefore]
  obtain ⟨heap₄, hafter, hl₄, he₄⟩ := hl₃.linkAfter (lastOr 0 xs)
  dsimp only
  rw [hafter]
  obtain ⟨heap₅, hlength, hl₅, he₅⟩ := hl₄.setLength (· - 1)
  dsimp only
  rw [hlength]
  refine ⟨rfl, Linking.represents hl₅, ?_⟩
  dsimp only
  rw [((he₃.trans he₄).trans he₅) elt hlist_elt.symm hnodup.1, hgone.memory, if_pos (List.mem_singleton.mpr rfl)]

end

end Smlist
