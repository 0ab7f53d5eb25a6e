import Mathlib

/-!
Journeys in legs: each leg can be entered from some time on and takes some time. The
arrival is the latest of the sums of times from any point on, so two journeys can be
compared sum by sum.
-/

namespace Journeys

structure Leg (T : Type) where
  opens : T
  takes : T

section

variable {T : Type} [AddCommMonoid T]

def total (legs : List (Leg T)) : T := (legs.map Leg.takes).sum

@[simp] theorem total_nil : total ([] : List (Leg T)) = 0 := rfl

@[simp] theorem total_cons (leg : Leg T) (rest : List (Leg T)) :
    total (leg :: rest) = leg.takes + total rest := by
  simp [total]

/-- The times without waiting: from the beginning, and from the opening of each leg on. -/
def sums : T → List (Leg T) → List T
  | t, [] => [t]
  | t, leg :: rest => (t + total (leg :: rest)) :: sums (leg.opens + leg.takes) rest

theorem mem_sums {t x : T} {legs : List (Leg T)} : x ∈ sums t legs ↔
    x = t + total legs ∨ ∃ leg rest, leg :: rest <:+ legs ∧ x = leg.opens + total (leg :: rest) := by
  induction legs generalizing t with
  | nil => simp [sums]
  | cons first legs ih =>
    rw [sums, List.mem_cons, ih, total_cons, add_assoc]
    constructor
    · rintro (h | h | ⟨leg, rest, hsuffix, h⟩)
      · exact Or.inl h
      · exact Or.inr ⟨first, legs, List.suffix_refl _, h⟩
      · exact Or.inr ⟨leg, rest, hsuffix.trans (List.suffix_cons first legs), h⟩
    · rintro (h | ⟨leg, rest, hsuffix, h⟩)
      · exact Or.inl h
      · cases List.suffix_cons_iff.mp hsuffix with
        | inl heq =>
          obtain ⟨rfl, rfl⟩ := List.cons.inj heq
          exact Or.inr (Or.inl (by rw [h, total_cons]))
        | inr hsuffix => exact Or.inr (Or.inr ⟨leg, rest, hsuffix, h⟩)

end

variable {T : Type} [AddCommMonoid T] [LinearOrder T]

def arrive : T → List (Leg T) → T
  | t, [] => t
  | t, leg :: rest => arrive (max leg.opens t + leg.takes) rest

variable [IsOrderedAddMonoid T]

theorem arrive_max (t u : T) (legs : List (Leg T)) :
    arrive (max t u) legs = max (arrive t legs) (arrive u legs) := by
  induction legs generalizing t u with
  | nil => rfl
  | cons leg rest ih =>
    simp only [arrive]
    rw [← ih, ← max_add, max_max_max_comm, max_self]

theorem arrive_mono {t u : T} (h : t ≤ u) (legs : List (Leg T)) : arrive t legs ≤ arrive u legs := by
  have hmax := arrive_max t u legs
  rw [max_eq_right h] at hmax
  rw [hmax]
  exact le_max_left _ _

theorem add_total_le_arrive (t : T) (legs : List (Leg T)) : t + total legs ≤ arrive t legs := by
  induction legs generalizing t with
  | nil => rw [total_nil, add_zero, arrive]
  | cons leg rest ih =>
    have hnext := ih (max leg.opens t + leg.takes)
    rw [total_cons, ← add_assoc, arrive]
    apply le_trans _ hnext
    apply add_le_add_left
    apply add_le_add_left
    exact le_max_right _ _

/-- Whatever waiting there is on the way, an earlier traveller waits as well. -/
theorem arrive_le_max (t u : T) (legs : List (Leg T)) :
    arrive t legs ≤ max (t + total legs) (arrive u legs) := by
  induction legs generalizing t u with
  | nil =>
    rw [total_nil, add_zero, arrive]
    exact le_max_left _ _
  | cons leg rest ih =>
    have hopens := ih (t + leg.takes) (max leg.opens u + leg.takes)
    have hwait : arrive (leg.opens + leg.takes) rest ≤ arrive (max leg.opens u + leg.takes) rest := by
      apply arrive_mono
      apply add_le_add_left
      exact le_max_left _ _
    simp only [arrive]
    rw [max_add, arrive_max, total_cons, ← add_assoc]
    exact max_le (le_trans hwait (le_max_right _ _)) hopens

/-- An arrival is decided at the beginning or at the opening of a leg. -/
theorem arrive_cons (t : T) (leg : Leg T) (rest : List (Leg T)) :
    arrive t (leg :: rest) = max (t + total (leg :: rest)) (arrive (leg.opens + leg.takes) rest) := by
  apply le_antisymm
  · rw [arrive, max_add, arrive_max, total_cons, ← add_assoc]
    apply max_le
    · exact le_max_right _ _
    · exact arrive_le_max _ _ rest
  · apply max_le
    · exact add_total_le_arrive t (leg :: rest)
    · apply arrive_mono
      apply add_le_add_left
      exact le_max_left _ _

theorem le_arrive_iff {t x : T} {legs : List (Leg T)} : x ≤ arrive t legs ↔ ∃ a ∈ sums t legs, x ≤ a := by
  induction legs generalizing t with
  | nil => simp [arrive, sums]
  | cons leg rest ih =>
    rw [arrive_cons, le_max_iff, ih, sums]
    simp

end Journeys
