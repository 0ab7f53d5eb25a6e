import Mathlib

/-!
Lists in the data store: a sequence of elements, each with its address and the
object that it holds. An address of zero stands for no element.
-/

abbrev SdrList := List (Nat × Nat)

namespace SdrList

def first (l : SdrList) : Nat := (l.head?.map Prod.fst).getD 0

def last (l : SdrList) : Nat := (l.getLast?.map Prod.fst).getD 0

def prev (l : SdrList) (elt : Nat) : Nat := last (l.takeWhile (fun e => e.1 ≠ elt))

def next (l : SdrList) (elt : Nat) : Nat := first (l.dropWhile (fun e => e.1 ≠ elt)).tail

def data (l : SdrList) (elt : Nat) : Nat := ((l.find? (fun e => e.1 = elt)).map Prod.snd).getD 0

def delete (l : SdrList) (elt : Nat) : SdrList := l.filter (fun e => e.1 ≠ elt)

/-- The addresses are those of different elements. -/
structure Distinct (l : SdrList) : Prop where
  nodup : (l.map Prod.fst).Nodup
  nonzero : ∀ e ∈ l, e.1 ≠ 0

variable {l pre post : SdrList} {e : Nat × Nat} {elt : Nat}

@[simp] theorem first_nil : first [] = 0 := rfl

@[simp] theorem first_cons (e : Nat × Nat) (l : SdrList) : first (e :: l) = e.1 := rfl

@[simp] theorem last_nil : last [] = 0 := rfl

@[simp] theorem last_concat (l : SdrList) (e : Nat × Nat) : last (l ++ [e]) = e.1 := by
  simp [last]

theorem last_append_of_ne {l' : SdrList} (h : l' ≠ []) : last (l ++ l') = last l' := by
  obtain ⟨m, e, rfl⟩ := (List.eq_nil_or_concat' l').resolve_left h
  rw [← List.append_assoc, last_concat, last_concat]

theorem first_append_of_ne {l' : SdrList} (h : l ≠ []) : first (l ++ l') = first l := by
  cases l with
  | nil => exact absurd rfl h
  | cons e l => rfl

theorem Distinct.sublist {l' : SdrList} (h : Distinct l) (hsub : l'.Sublist l) : Distinct l' :=
  ⟨h.nodup.sublist (hsub.map _), fun e he => h.nonzero e (hsub.subset he)⟩

theorem Distinct.last_ne (h : Distinct l) (hne : l ≠ []) : last l ≠ 0 := by
  obtain ⟨m, e, rfl⟩ := (List.eq_nil_or_concat' l).resolve_left hne
  rw [last_concat]
  exact h.nonzero e (List.mem_append_right _ (List.mem_singleton.mpr rfl))

theorem Distinct.ne_of_append (h : Distinct (pre ++ e :: post)) : (∀ a ∈ pre, a.1 ≠ e.1) ∧ ∀ a ∈ post, a.1 ≠ e.1 := by
  have hn := h.nodup
  rw [List.map_append, List.map_cons, List.nodup_append, List.nodup_cons] at hn
  constructor
  · intro a ha
    exact hn.2.2 a.1 (List.mem_map_of_mem ha) e.1 List.mem_cons_self
  · intro a ha he
    exact hn.2.1.1 (he ▸ List.mem_map_of_mem ha)

/-- Up to an element come the ones before it. -/
theorem Distinct.takeWhile_eq (h : Distinct (pre ++ e :: post)) :
    (pre ++ e :: post).takeWhile (fun a => a.1 ≠ e.1) = pre := by
  rw [List.takeWhile_append_of_pos (fun a ha => decide_eq_true (h.ne_of_append.1 a ha)),
    List.takeWhile_cons_of_neg (by simp), List.append_nil]

theorem Distinct.dropWhile_eq (h : Distinct (pre ++ e :: post)) :
    (pre ++ e :: post).dropWhile (fun a => a.1 ≠ e.1) = e :: post := by
  rw [List.dropWhile_append_of_pos (fun a ha => decide_eq_true (h.ne_of_append.1 a ha)),
    List.dropWhile_cons_of_neg (by simp)]

theorem Distinct.prev_eq (h : Distinct (pre ++ e :: post)) : prev (pre ++ e :: post) e.1 = last pre := by
  rw [prev, h.takeWhile_eq]

theorem Distinct.next_eq (h : Distinct (pre ++ e :: post)) : next (pre ++ e :: post) e.1 = first post := by
  rw [next, h.dropWhile_eq, List.tail_cons]

theorem Distinct.data_eq (h : Distinct l) (he : e ∈ l) : data l e.1 = e.2 := by
  obtain ⟨pre, post, rfl⟩ := List.append_of_mem he
  have hnone : pre.find? (fun a => decide (a.1 = e.1)) = none := by
    rw [List.find?_eq_none]
    intro a ha
    simpa using h.ne_of_append.1 a ha
  simp [data, List.find?_append, hnone]

theorem delete_of_notMem (h : elt ∉ l.map Prod.fst) : delete l elt = l := by
  rw [delete, List.filter_eq_self]
  intro a ha
  exact decide_eq_true (fun he => h (he ▸ List.mem_map_of_mem ha))

theorem delete_sublist (l : SdrList) (elt : Nat) : (delete l elt).Sublist l := List.filter_sublist

theorem delete_append (l l' : SdrList) (elt : Nat) : delete (l ++ l') elt = delete l elt ++ delete l' elt :=
  List.filter_append ..

end SdrList
