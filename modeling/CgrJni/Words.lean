import Mathlib

/-!
The words of a list: its longest runs without a separator.
-/

namespace Words

variable {α : Type} {sep : α → Bool}

def words (sep : α → Bool) (l : List α) : List (List α) := (l.splitOnP sep).filter (fun w => !w.isEmpty)

@[simp] theorem words_nil : words sep [] = [] := by
  simp [words, List.splitOnP_nil]

/-- Separators in front of a list separate nothing. -/
theorem words_cons_sep {c : α} (hc : sep c = true) (l : List α) : words sep (c :: l) = words sep l := by
  simp [words, List.splitOnP_cons_eq_if_modifyHead, hc]

theorem words_dropWhile (l : List α) : words sep (l.dropWhile sep) = words sep l := by
  induction l with
  | nil => rfl
  | cons c l ih =>
    cases hc : sep c with
    | true => rw [List.dropWhile_cons_of_pos hc, ih, words_cons_sep hc]
    | false => rw [List.dropWhile_cons_of_neg (by simp [hc])]

theorem words_of_word {w : List α} (hw : ∀ c ∈ w, sep c = false) (hne : w ≠ []) : words sep w = [w] := by
  simp [words, List.splitOnP_eq_singleton hw, hne]

/-- The first word ends at the first separator behind it. -/
theorem words_word_append {w : List α} (hw : ∀ c ∈ w, sep c = false) (hne : w ≠ []) {c : α} (hc : sep c = true)
    (l : List α) : words sep (w ++ c :: l) = w :: words sep l := by
  simp [words, List.splitOnP_append_cons_of_forall_mem hw c hc, hne]

theorem words_eq_nil {l : List α} : words sep l = [] ↔ ∀ c ∈ l, sep c = true := by
  induction l with
  | nil => simp
  | cons c l ih =>
    cases hc : sep c with
    | true => simp [words_cons_sep hc, ih, hc]
    | false =>
      have hword : ∀ d ∈ (c :: l).takeWhile (fun d => !sep d), sep d = false := by
        intro d hd
        simpa using List.mem_takeWhile_imp hd
      have hne : (c :: l).takeWhile (fun d => !sep d) ≠ [] := by simp [hc]
      have hsplit := List.takeWhile_append_dropWhile (p := fun d => !sep d) (l := c :: l)
      refine iff_of_false ?_ (fun h => by simp [h c List.mem_cons_self] at hc)
      rw [← hsplit]
      cases htail : (c :: l).dropWhile (fun d => !sep d) with
      | nil =>
        rw [List.append_nil, words_of_word hword hne]
        exact List.cons_ne_nil _ _
      | cons d rest =>
        have hd : sep d = true := by
          have := List.head?_dropWhile_not (fun d => !sep d) (c :: l)
          rw [htail] at this
          simpa using this
        rw [words_word_append hword hne hd]
        exact List.cons_ne_nil _ _

/-- What a list ends with, when its last part does not consist of such elements alone. -/
theorem rtakeWhile_append_of_exists {p : α → Bool} (a : List α) {b : List α} (h : ∃ x ∈ b, p x = false) :
    (a ++ b).rtakeWhile p = b.rtakeWhile p := by
  obtain ⟨x, hx, hp⟩ := h
  have hshort : ¬ (b.reverse.takeWhile p).length = b.reverse.length := by
    intro he
    have hall := List.takeWhile_eq_self_iff.mp ((List.takeWhile_prefix p).eq_of_length he)
    have := hall x (List.mem_reverse.mpr hx)
    simp [hp] at this
  rw [List.rtakeWhile, List.reverse_append, List.takeWhile_append, if_neg hshort]
  rfl

theorem rtakeWhile_append_of_all {p : α → Bool} (a : List α) {b : List α} (h : ∀ x ∈ b, p x = true) :
    (a ++ b).rtakeWhile p = a.rtakeWhile p ++ b := by
  have hall : b.reverse.takeWhile p = b.reverse := List.takeWhile_eq_self_iff.mpr (by simpa using h)
  rw [List.rtakeWhile, List.reverse_append, List.takeWhile_append, if_pos (by rw [hall]), List.reverse_append,
    List.reverse_reverse]
  rfl

end Words
