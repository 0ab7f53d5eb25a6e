import CgrJni.SmlistOps
import CgrJni.Runs

/-!
Any sequence of operations on a list in memory, compared with the same operations
on a plain list of elements. An allocation that fails leaves the list as it was.
-/

namespace SmlistRuns

open IonDb Fallible Psm Smlist Runs

abbrev Entry := PsmAddress × PsmAddress

/-- What is done to a list. A comparison is with the data to be inserted. -/
inductive Operation (β : Type)
  | insertFirst (data : PsmAddress)
  | insertLast (data : PsmAddress)
  | insertBefore (oldElt data : PsmAddress)
  | insertAfter (oldElt data : PsmAddress)
  | insert (data : PsmAddress) (compare : Option (PsmAddress → Int))
  | delete (elt : PsmAddress) (deleteFn : Heap (Block β) → PsmAddress → Except Failure (Heap (Block β)))

def insertBefore (oldElt : PsmAddress) (new : Entry) : List Entry → List Entry
  | [] => []
  | entry :: rest => if entry.1 = oldElt then new :: entry :: rest else entry :: insertBefore oldElt new rest

def insertAfter (oldElt : PsmAddress) (new : Entry) : List Entry → List Entry
  | [] => []
  | entry :: rest => if entry.1 = oldElt then entry :: new :: rest else entry :: insertAfter oldElt new rest

/-- After the last element that does not come after the new one. -/
def insertSorted (compare : PsmAddress → Int) (new : Entry) (seq : List Entry) : List Entry :=
  seq.rdropWhile (fun entry => compare entry.2 > 0) ++ new :: seq.rtakeWhile (fun entry => compare entry.2 > 0)

section

variable {β : Type}

/-- The operation on a plain list. An insertion is told the address of the new element, zero for none. -/
def onPlainList (op : Operation β) (elt : PsmAddress) (seq : List Entry) : List Entry :=
  match op with
  | .delete old _ => seq.filter (fun entry => entry.1 ≠ old)
  | .insertFirst data => if elt = 0 then seq else (elt, data) :: seq
  | .insertLast data => if elt = 0 then seq else seq ++ [(elt, data)]
  | .insertBefore oldElt data => if elt = 0 then seq else insertBefore oldElt (elt, data) seq
  | .insertAfter oldElt data => if elt = 0 then seq else insertAfter oldElt (elt, data) seq
  | .insert data none => if elt = 0 then seq else seq ++ [(elt, data)]
  | .insert data (some compare) => if elt = 0 then seq else insertSorted compare (elt, data) seq

/-- The elements that are in the list, in the order in which they were inserted. -/
def inTime (op : Operation β) (elt : PsmAddress) (inserted : List Entry) : List Entry :=
  match op with
  | .delete old _ => inserted.filter (fun entry => entry.1 ≠ old)
  | .insertFirst data | .insertLast data | .insertBefore _ data | .insertAfter _ data | .insert data _ =>
    if elt = 0 then inserted else inserted ++ [(elt, data)]

/-- The operation in memory; a deletion that reports an error is none. -/
def perform (malloc : Malloc (Block β)) (list : PsmAddress) (heap : Heap (Block β)) (op : Operation β) :
    Option (PsmAddress × Heap (Block β)) :=
  match op with
  | .insertFirst data => (smListInsertFirst malloc heap list data).toOption
  | .insertLast data => (smListInsertLast malloc heap list data).toOption
  | .insertBefore oldElt data => (smListInsertBefore malloc heap oldElt data).toOption
  | .insertAfter oldElt data => (smListInsertAfter malloc heap oldElt data).toOption
  | .insert data compare => (smListInsert malloc heap list data compare).toOption
  | .delete elt deleteFn =>
    (smListDelete heap elt deleteFn).toOption.bind fun r => if r.1 = 0 then some (0, r.2) else none

/-- The memory, the plain list, and the order of insertion. -/
structure State (β : Type) where
  heap : Heap (Block β)
  seq : List Entry
  inserted : List Entry

def step (malloc : Malloc (Block β)) (list : PsmAddress) (s : State β) (op : Operation β) : Option (State β) :=
  (perform malloc list s.heap op).map fun r => ⟨r.2, onPlainList op r.1 s.seq, inTime op r.1 s.inserted⟩

/-- An operation refers to elements of the list, and a deletion disturbs no lists. -/
def Live (s : State β) : Operation β → Prop
  | .insertBefore oldElt _ => oldElt ∈ elts s.seq
  | .insertAfter oldElt _ => oldElt ∈ elts s.seq
  | .delete elt deleteFn => elt ∈ elts s.seq ∧ Spares deleteFn
  | _ => True

/-- What a caller sees of the list is the sequence. -/
structure Implements (heap : Heap (Block β)) (list : PsmAddress) (seq : List Entry) : Prop where
  first : smListFirst heap list = .ok (firstOr 0 seq)
  last : smListLast heap list = .ok (lastOr 0 seq)
  length : ∃ buffer, listBuffer heap list = .ok buffer ∧ buffer.length = seq.length
  forward : walk smListNext heap seq.length (firstOr 0 seq) = .ok seq
  backward : walk smListPrev heap seq.length (lastOr 0 seq) = .ok seq.reverse
  next_prev : ∀ a ∈ elts seq, ∃ b, smListNext heap a = .ok b ∧ (b ≠ 0 → b ∈ elts seq ∧ smListPrev heap b = .ok a)
  prev_next : ∀ a ∈ elts seq, ∃ b, smListPrev heap a = .ok b ∧ (b ≠ 0 → b ∈ elts seq ∧ smListNext heap b = .ok a)

/-- A total preorder on the data. -/
structure TotalPreorder (le : PsmAddress → PsmAddress → Bool) : Prop where
  total : ∀ x y, le x y = true ∨ le y x = true
  trans : ∀ x y z, le x y = true → le y z = true → le x z = true

/-- Sorted insertions, by an order on the data, and deletions. -/
def Orderly (le : PsmAddress → PsmAddress → Bool) : Operation β → Prop
  | .insert data (some compare) => ∀ x, compare x ≤ 0 ↔ le x data = true
  | .delete _ _ => True
  | _ => False

def Sorted (le : PsmAddress → PsmAddress → Bool) (seq : List Entry) : Prop :=
  seq.Pairwise fun x y => le x.2 y.2 = true

/-- The elements with a key equal to the given one. -/
def ofKey (le : PsmAddress → PsmAddress → Bool) (key : PsmAddress) (seq : List Entry) : List Entry :=
  seq.filter fun entry => le entry.2 key && le key entry.2

/-! Sorted insertion into a plain list. -/

variable {le : PsmAddress → PsmAddress → Bool} {compare : PsmAddress → Int} {seq inserted xs ys : List Entry}
variable {elt data key : PsmAddress}

theorem rdropWhile_append_rtakeWhile (p : Entry → Bool) (seq : List Entry) :
    seq.rdropWhile p ++ seq.rtakeWhile p = seq := by
  rw [List.rdropWhile, List.rtakeWhile, ← List.reverse_append, List.takeWhile_append_dropWhile, List.reverse_reverse]

/-- A sorted list is cut where the new element goes. -/
structure Cut (le : PsmAddress → PsmAddress → Bool) (data : PsmAddress) (seq xs ys : List Entry) : Prop where
  split : seq = xs ++ ys
  before : ∀ entry ∈ xs, le entry.2 data = true
  after : ∀ entry ∈ ys, le entry.2 data = false

theorem cut_insertSorted (hle : TotalPreorder le) (hsorted : Sorted le seq)
    (hcompare : ∀ x, compare x ≤ 0 ↔ le x data = true) (new : Entry) :
    ∃ xs ys, Cut le data seq xs ys ∧ insertSorted compare new seq = xs ++ new :: ys := by
  have hsplit := rdropWhile_append_rtakeWhile (fun entry => compare entry.2 > 0) seq
  refine ⟨_, _, ⟨hsplit.symm, ?_, ?_⟩, rfl⟩
  · -- the last element of the first part does not come after the new one, and so none before it does
    intro entry hentry
    have hlast := List.rdropWhile_last_not (fun entry => compare entry.2 > 0) seq (List.ne_nil_of_mem hentry)
    rw [decide_eq_true_eq, gt_iff_lt, not_lt, hcompare] at hlast
    have hpart : Sorted le (seq.rdropWhile fun entry => compare entry.2 > 0) :=
      hsorted.sublist (List.rdropWhile_prefix _ _).sublist
    generalize seq.rdropWhile (fun entry => decide (compare entry.2 > 0)) = part at *
    rcases List.eq_nil_or_concat' part with rfl | ⟨front, last, rfl⟩
    · cases hentry
    · rw [List.getLast_append_singleton] at hlast
      rw [List.mem_append, List.mem_singleton] at hentry
      cases hentry with
      | inl hfront =>
        have hpair := (List.pairwise_append.mp hpart).2.2 entry hfront last (List.mem_singleton.mpr rfl)
        exact hle.trans _ _ _ hpair hlast
      | inr heq => rwa [heq]
  · intro entry hentry
    have hpos := List.mem_rtakeWhile_imp hentry
    rw [decide_eq_true_eq, gt_iff_lt, ← not_le, hcompare] at hpos
    exact Bool.eq_false_iff.mpr hpos

theorem Cut.sorted (hle : TotalPreorder le) (h : Cut le data seq xs ys) (hsorted : Sorted le seq) :
    Sorted le (xs ++ (elt, data) :: ys) := by
  have hsorted := hsorted
  rw [h.split, Sorted, List.pairwise_append] at hsorted
  rw [Sorted, List.pairwise_append, List.pairwise_cons]
  refine ⟨hsorted.1, ⟨?_, hsorted.2.1⟩, ?_⟩
  · intro y hy
    have hafter := h.after y hy
    exact (hle.total data y.2).resolve_right (by simp [hafter])
  · intro x hx y hy
    rw [List.mem_cons] at hy
    cases hy with
    | inl heq => rw [heq]; exact h.before x hx
    | inr hmem => exact hsorted.2.2 x hx y hmem

/-- The new element comes after those with an equal key, whose order stays. -/
theorem Cut.ofKey (hle : TotalPreorder le) (h : Cut le data seq xs ys)
    (hkey : ofKey le key seq = ofKey le key inserted) :
    ofKey le key (xs ++ (elt, data) :: ys) = ofKey le key (inserted ++ [(elt, data)]) := by
  have hnew : SmlistRuns.ofKey le key (inserted ++ [(elt, data)]) =
      SmlistRuns.ofKey le key xs ++ (SmlistRuns.ofKey le key ys ++ SmlistRuns.ofKey le key [(elt, data)]) := by
    rw [← List.append_assoc]
    unfold SmlistRuns.ofKey at hkey ⊢
    rw [List.filter_append, ← hkey, h.split, List.filter_append]
  rw [hnew]
  by_cases hequal : le data key && le key data
  · have hys : SmlistRuns.ofKey le key ys = [] := by
      refine List.filter_eq_nil_iff.mpr ?_
      intro y hy hsame
      rw [Bool.and_eq_true] at hequal hsame
      have hafter := h.after y hy
      rw [hle.trans _ _ _ hsame.1 hequal.2] at hafter
      cases hafter
    rw [hys, List.nil_append]
    unfold SmlistRuns.ofKey at hys ⊢
    rw [List.filter_append, List.filter_cons, hys]
    simp [hequal]
  · unfold SmlistRuns.ofKey
    rw [List.filter_append, List.filter_cons]
    simp [hequal]

/-! The operations of the source carry out those on a plain list. -/

variable {malloc : Malloc (Block β)} {heap heap' : Heap (Block β)} {list : PsmAddress} {s s' : State β}
variable {op : Operation β}

theorem insertBefore_split {new : Entry} (hnot : elt ∉ elts xs) :
    insertBefore elt new (xs ++ (elt, data) :: ys) = xs ++ new :: (elt, data) :: ys := by
  induction xs with
  | nil => simp [insertBefore]
  | cons entry rest ih =>
    rw [elts, List.map_cons, List.mem_cons, not_or] at hnot
    rw [List.cons_append, insertBefore, if_neg (Ne.symm hnot.1), ih hnot.2]
    rfl

theorem insertAfter_split {new : Entry} (hnot : elt ∉ elts xs) :
    insertAfter elt new (xs ++ (elt, data) :: ys) = xs ++ (elt, data) :: new :: ys := by
  induction xs with
  | nil => simp [insertAfter]
  | cons entry rest ih =>
    rw [elts, List.map_cons, List.mem_cons, not_or] at hnot
    rw [List.cons_append, insertAfter, if_neg (Ne.symm hnot.1), ih hnot.2]
    rfl

theorem filter_split (hnodup : (elts (xs ++ (elt, data) :: ys)).Nodup) :
    (xs ++ (elt, data) :: ys).filter (fun entry => entry.1 ≠ elt) = xs ++ ys := by
  rw [elts_append, elts_cons, List.nodup_middle, List.nodup_cons, List.mem_append, not_or] at hnodup
  have hkeep : ∀ zs : List Entry, elt ∉ elts zs → zs.filter (fun entry => entry.1 ≠ elt) = zs := by
    intro zs hzs
    rw [List.filter_eq_self]
    intro entry hentry
    rw [decide_eq_true_eq]
    rintro rfl
    exact hzs (List.mem_map_of_mem hentry)
  rw [List.filter_append, List.filter_cons, hkeep xs hnodup.1.1, hkeep ys hnodup.1.2]
  simp

/-- An element of the list, at its place. -/
theorem exists_place (h : Represents heap list seq) (helt : elt ∈ elts seq) :
    ∃ xs data ys, seq = xs ++ (elt, data) :: ys ∧ elt ∉ elts xs := by
  obtain ⟨⟨a, data⟩, hmem, rfl⟩ := List.mem_map.mp helt
  obtain ⟨xs, ys, rfl⟩ := List.append_of_mem hmem
  refine ⟨xs, data, ys, rfl, ?_⟩
  have hnodup := h.nodup
  rw [elts_append, elts_cons, List.nodup_middle, List.nodup_cons, List.mem_append, not_or] at hnodup
  exact hnodup.1.1

/-- What an insertion between two parts comes to, on either side. -/
theorem inserted_represents {result : Except Failure (PsmAddress × Heap (Block β))}
    (plain : PsmAddress → List Entry) (h : Represents heap list (xs ++ ys))
    (hends : Ends (fun _ => False) (InsertedBetween heap list xs data ys) result)
    (hplain : ∀ elt, plain elt = if elt = 0 then xs ++ ys else xs ++ (elt, data) :: ys) :
    ∃ r, result.toOption = some r ∧ Represents r.2 list (plain r.1) := by
  obtain ⟨r, rfl, hr⟩ := hends.total
  refine ⟨r, rfl, ?_⟩
  rw [hplain]
  cases hr with
  | inl hfailed =>
    obtain ⟨hzero, hsame⟩ := hfailed
    rw [if_pos hzero]
    refine h.congr hsame.sound (hsame.memory _ h.list_ne_zero) ?_
    exact fun a ha => hsame.memory a (h.elt_ne_zero ha)
  | inr hlinked =>
    rw [if_neg hlinked.1]
    exact hlinked.2.represents

theorem perform_represents (h : Represents heap list seq) (malloc : Malloc (Block β))
    (hlive : Live ⟨heap, seq, inserted⟩ op) :
    ∃ r, perform malloc list heap op = some r ∧ Represents r.2 list (onPlainList op r.1 seq) := by
  have hlast : Represents heap list (seq ++ []) := by rwa [List.append_nil]
  cases op with
  | insertFirst data =>
    have hends := smListInsertFirst_between h malloc data
    have h' : Represents heap list ([] ++ seq) := h
    obtain ⟨r, hr, hrep⟩ := inserted_represents (fun elt => onPlainList (.insertFirst data) elt seq) h' hends
      (fun elt => rfl)
    refine ⟨r, ?_, hrep⟩
    rw [perform, smListInsertFirst, if_neg h.list_ne_zero, hr]
  | insertLast data =>
    exact inserted_represents (fun elt => onPlainList (.insertLast data) elt seq) hlast
      (smListInsertLast_between h malloc data) (fun elt => by rw [List.append_nil]; rfl)
  | insertBefore oldElt data =>
    obtain ⟨xs, oldData, ys, rfl, hnot⟩ := exists_place h hlive
    exact inserted_represents (fun elt => onPlainList (.insertBefore oldElt data) elt _) h
      (smListInsertBefore_between h malloc data) (fun elt => by rw [onPlainList, insertBefore_split hnot])
  | insertAfter oldElt data =>
    obtain ⟨xs, oldData, ys, rfl, hnot⟩ := exists_place h hlive
    have h' : Represents heap list (xs ++ [(oldElt, oldData)] ++ ys) := by rwa [List.append_assoc]
    refine inserted_represents (fun elt => onPlainList (.insertAfter oldElt data) elt _) h'
      (smListInsertAfter_between h malloc data) (fun elt => ?_)
    rw [onPlainList, insertAfter_split hnot, List.append_assoc, List.append_assoc]
    rfl
  | insert data compare =>
    cases compare with
    | none =>
      exact inserted_represents (fun elt => onPlainList (.insert data none) elt seq) hlast
        (smListInsertLast_between h malloc data) (fun elt => by rw [List.append_nil]; rfl)
    | some compare =>
      have hsplit := rdropWhile_append_rtakeWhile (fun entry => compare entry.2 > 0) seq
      have h' := h
      rw [← hsplit] at h'
      refine inserted_represents (fun elt => onPlainList (.insert data (some compare)) elt seq) h'
        (smListInsert_between h' ?_ ?_ malloc data) (fun elt => by rw [onPlainList, hsplit]; rfl)
      · intro zs e d heq
        have hne : seq.rdropWhile (fun entry => compare entry.2 > 0) ≠ [] := by simp [heq]
        have hstop := List.rdropWhile_last_not (fun entry => compare entry.2 > 0) seq hne
        simp only [heq, List.getLast_append_singleton, decide_eq_true_eq, gt_iff_lt, not_lt] at hstop
        exact hstop
      · intro entry hentry
        have hpos := List.mem_rtakeWhile_imp hentry
        rw [decide_eq_true_eq] at hpos
        exact not_le.mpr hpos
  | delete elt deleteFn =>
    obtain ⟨hmem, hspares⟩ := hlive
    obtain ⟨xs, data, ys, rfl, -⟩ := exists_place h hmem
    obtain ⟨r, hr, hstatus, hrep, -⟩ := (smListDelete_out h hspares).total
    refine ⟨(0, r.2), ?_, ?_⟩
    · rw [perform, hr]
      simp [Except.toOption, hstatus]
    · rw [onPlainList, filter_split h.nodup]
      exact hrep

/-- What a single operation does, on either side. -/
theorem step_represents (h : Represents s.heap list s.seq) (hlive : Live s op) (malloc : Malloc (Block β)) :
    ∃ s', step malloc list s op = some s' ∧ Represents s'.heap list s'.seq := by
  obtain ⟨r, hr, hrep⟩ := perform_represents h malloc hlive
  rw [step, hr]
  exact ⟨_, rfl, hrep⟩

theorem run_represents (ops : List (Operation β)) (h : Represents s.heap list s.seq)
    (hlive : StepsMeet (step malloc list) Live s ops) :
    ∃ s', run (step malloc list) s ops = some s' ∧ Represents s'.heap list s'.seq := by
  induction ops generalizing s with
  | nil => exact ⟨s, rfl, h⟩
  | cons op ops ih =>
    obtain ⟨t, ht, hrep⟩ := step_represents h hlive.1 malloc
    rw [run_cons, ht]
    exact ih hrep (hlive.2 t ht)

/-- The walk from an element on, in either direction. -/
theorem walk_next (h : heap.Sound) {prev : PsmAddress} (hseg : Segment heap.memory list prev 0 seq) {fuel : Nat}
    (hfuel : seq.length ≤ fuel) : walk smListNext heap fuel (firstOr 0 seq) = .ok seq := by
  induction seq generalizing prev fuel with
  | nil => cases fuel <;> simp [walk]
  | cons entry rest ih =>
    obtain ⟨hmem, hrest⟩ := hseg
    rw [List.length_cons] at hfuel
    obtain ⟨fuel, rfl⟩ : ∃ n, fuel = n + 1 := ⟨fuel - 1, by omega⟩
    rw [firstOr, walk, if_neg (h.ne_zero (by simp [hmem])), smListData_eq h hmem, smListNext_eq h hmem]
    simp only [bind, Except.bind]
    rw [ih hrest (by omega)]
    rfl

theorem smListPrev_eq {buffer : SmListElt} (h : heap.Sound) (ha : heap.memory elt = some (.elt buffer)) :
    smListPrev heap elt = .ok buffer.prev := by
  unfold smListPrev
  rw [eltBuffer_eq h ha]
  rfl

theorem walk_prev (h : heap.Sound) {next : PsmAddress} (hseg : Segment heap.memory list 0 next seq) {fuel : Nat}
    (hfuel : seq.length ≤ fuel) : walk smListPrev heap fuel (lastOr 0 seq) = .ok seq.reverse := by
  induction seq using List.reverseRecOn generalizing next fuel with
  | nil => cases fuel <;> simp [walk]
  | append_singleton front entry ih =>
    obtain ⟨hfront, hmem, -⟩ := segment_append.mp hseg
    rw [List.length_append, List.length_singleton] at hfuel
    obtain ⟨fuel, rfl⟩ : ∃ n, fuel = n + 1 := ⟨fuel - 1, by omega⟩
    rw [lastOr_append, lastOr, lastOr_nil, walk, if_neg (h.ne_zero (by simp [hmem])), smListData_eq h hmem,
      smListPrev_eq h hmem]
    simp only [bind, Except.bind]
    rw [ih hfront (by omega), List.reverse_append]
    rfl

theorem represents_implements (h : Represents heap list seq) : Implements heap list seq := by
  obtain ⟨userData, hlisted⟩ := h.listed
  refine ⟨smListFirst_eq h.sound hlisted, ?_, ⟨_, listBuffer_eq h.sound hlisted, rfl⟩,
    walk_next h.sound h.segment le_rfl, walk_prev h.sound h.segment le_rfl, ?_, ?_⟩
  · unfold smListLast
    rw [listBuffer_eq h.sound hlisted]
    rfl
  · intro a ha
    obtain ⟨xs, data, ys, rfl, -⟩ := exists_place h ha
    refine ⟨firstOr 0 ys, smListNext_eq h.sound h.elt_eq, ?_⟩
    intro hne
    cases ys with
    | nil => exact absurd rfl hne
    | cons entry rest =>
      have h' : Represents heap list ((xs ++ [(a, data)]) ++ (entry.1, entry.2) :: rest) := by
        rwa [List.append_assoc]
      refine ⟨by simp [elts, firstOr], ?_⟩
      rw [firstOr, smListPrev_eq h.sound h'.elt_eq, lastOr_append]
      rfl
  · intro a ha
    obtain ⟨xs, data, ys, rfl, -⟩ := exists_place h ha
    refine ⟨lastOr 0 xs, smListPrev_eq h.sound h.elt_eq, ?_⟩
    intro hne
    rcases List.eq_nil_or_concat' xs with rfl | ⟨front, entry, rfl⟩
    · exact absurd rfl hne
    · have h' : Represents heap list (front ++ (entry.1, entry.2) :: ((a, data) :: ys)) := by
        rwa [List.append_assoc] at h
      rw [lastOr_append, lastOr, lastOr_nil]
      refine ⟨by simp [elts], ?_⟩
      rw [smListNext_eq h.sound h'.elt_eq]
      rfl

/-- What a step by an order on the data does to a list that is sorted by it. -/
structure KeepsOrder (le : PsmAddress → PsmAddress → Bool) (s s' : State β) : Prop where
  sorted : Sorted le s'.seq
  in_time : ∀ key, ofKey le key s.seq = ofKey le key s.inserted → ofKey le key s'.seq = ofKey le key s'.inserted

theorem step_keepsOrder (hle : TotalPreorder le) (hsorted : Sorted le s.seq) (hop : Orderly le op)
    (hstep : step malloc list s op = some s') : KeepsOrder le s s' := by
  obtain ⟨⟨elt, heap⟩, -, rfl⟩ := Option.map_eq_some_iff.mp hstep
  cases op with
  | insertFirst data => exact hop.elim
  | insertLast data => exact hop.elim
  | insertBefore oldElt data => exact hop.elim
  | insertAfter oldElt data => exact hop.elim
  | insert data compare =>
    cases compare with
    | none => exact hop.elim
    | some compare =>
      by_cases helt : elt = 0
      · simp only [onPlainList, inTime, if_pos helt]
        exact ⟨hsorted, fun key hkey => hkey⟩
      · obtain ⟨xs, ys, hcut, heq⟩ := cut_insertSorted hle hsorted hop (elt, data)
        simp only [onPlainList, inTime, if_neg helt, heq]
        exact ⟨hcut.sorted hle hsorted, fun key hkey => hcut.ofKey hle hkey⟩
  | delete old deleteFn =>
    refine ⟨hsorted.sublist List.filter_sublist, ?_⟩
    intro key hkey
    unfold ofKey at hkey ⊢
    rw [onPlainList, inTime, List.filter_comm, hkey, List.filter_comm]

theorem create_represents {heap₀ : Heap (Block β)} (h : heap₀.Sound)
    (hcreate : smListCreate malloc heap₀ = .ok (list, heap)) (hlist : list ≠ 0) : Represents heap list [] := by
  obtain ⟨halloc, herased⟩ := (smListCreate_ends h malloc).post hcreate
  exact ⟨halloc.sound, ⟨0, herased hlist⟩, trivial, List.nodup_nil⟩

theorem smList_implements {heap₀ : Heap (Block β)} (h : heap₀.Sound)
    (hcreate : smListCreate malloc heap₀ = .ok (list, heap)) (hlist : list ≠ 0) (ops : List (Operation β))
    (hlive : StepsMeet (step malloc list) Live ⟨heap, [], []⟩ ops) :
    ∃ s, run (step malloc list) ⟨heap, [], []⟩ ops = some s ∧ Implements s.heap list s.seq ∧
      ∀ le, TotalPreorder le → Sorted le s.seq → ∀ op s', Orderly le op → step malloc list s op = some s' →
        KeepsOrder le s s' := by
  obtain ⟨s, hrun, hrep⟩ := run_represents ops (create_represents h hcreate hlist) hlive
  refine ⟨s, hrun, represents_implements hrep, ?_⟩
  intro le hle hsorted op s' hop hstep
  exact step_keepsOrder hle hsorted hop hstep

end

/-- An allocator that gives out the lowest address that is free. -/
def lowestFree : Malloc (Block Unit) where
  pointer heap := ((List.range 16).find? (fun a => a ≠ 0 ∧ (heap.memory a).isNone)).getD 0
  contents _ := .object ()
  fresh := by
    intro heap hne
    cases hfind : (List.range 16).find? (fun a => a ≠ 0 ∧ (heap.memory a).isNone) with
    | none => exact absurd (by rw [hfind]; rfl) hne
    | some a =>
      have hfree := List.find?_some hfind
      rw [Option.getD_some]
      exact Option.isNone_iff_eq_none.mp (of_decide_eq_true hfree).2

def emptyList : Heap (Block Unit) := ((smListCreate lowestFree Heap.new).toOption.map Prod.snd).getD Heap.new

/-- Two elements, a third by comparison between them, and a fourth before the third. -/
def fourInsertions : List (Operation Unit) :=
  [.insertLast 60, .insertFirst 50, .insert 50 (some fun x => (x : Int) - 50), .insertBefore 4 70]

theorem smList_implements_four : ∃ s, run (step lowestFree 1) ⟨emptyList, [], []⟩ fourInsertions = some s ∧
    s.seq = [(3, 50), (5, 70), (4, 50), (2, 60)] ∧ Implements s.heap 1 s.seq := by
  have hcreate : smListCreate lowestFree Heap.new = .ok (1, emptyList) := rfl
  have hthree : ((run (step lowestFree 1) ⟨emptyList, [], []⟩ (fourInsertions.take 3)).all
      fun s => decide (4 ∈ elts s.seq)) = true := by decide +kernel
  have hlive : StepsMeet (step lowestFree 1) Live ⟨emptyList, [], []⟩ fourInsertions := by
    refine ⟨trivial, fun s₁ h₁ => ⟨trivial, fun s₂ h₂ => ⟨trivial, fun s₃ h₃ => ⟨?_, fun _ _ => trivial⟩⟩⟩⟩
    simp only [fourInsertions, List.take, run_cons, run_nil, h₁, h₂, h₃, Option.bind_some, Option.all_some] at hthree
    have hmem : 4 ∈ elts s₃.seq := of_decide_eq_true hthree
    exact hmem
  obtain ⟨s, hrun, himplements, -⟩ := smList_implements sound_new hcreate (by decide) fourInsertions hlive
  have hseq : (run (step lowestFree 1) ⟨emptyList, [], []⟩ fourInsertions).map State.seq =
      some [(3, 50), (5, 70), (4, 50), (2, 60)] := by decide +kernel
  rw [hrun] at hseq
  exact ⟨s, hrun, Option.some.inj hseq, himplements⟩

end SmlistRuns
