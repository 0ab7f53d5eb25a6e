import Mathlib

/-!
A memory of blocks as another one with some blocks on top: what has been taken and not yet given
back, in any order.
-/

namespace TakenBlocks

variable {α κ : Type}

/-- All blocks of the base are as they were; besides there are just the ones held. -/
structure Taken (base memory : α → Option κ) (held : List (α × κ)) : Prop where
  nodup : (held.map Prod.fst).Nodup
  unused : ∀ b ∈ held, base b.1 = none
  kept : ∀ b ∈ held, memory b.1 = some b.2
  others : ∀ a, a ∉ held.map Prod.fst → memory a = base a

namespace Taken

variable {base memory memory' : α → Option κ} {held held' pre post : List (α × κ)} {a : α} {x y : κ}

theorem nil (base : α → Option κ) : Taken base base [] := ⟨List.nodup_nil, by simp, by simp, by simp⟩

theorem eq_base (h : Taken base memory []) : memory = base := funext (fun a => h.others a (by simp))

theorem perm (h : Taken base memory held) (hp : held.Perm held') : Taken base memory held' where
  nodup := (hp.map Prod.fst).nodup_iff.mp h.nodup
  unused := fun b hb => h.unused b (hp.mem_iff.mpr hb)
  kept := fun b hb => h.kept b (hp.mem_iff.mpr hb)
  others := fun a ha => h.others a (fun hmem => ha ((hp.map Prod.fst).mem_iff.mp hmem))

theorem notMem_of_none (h : Taken base memory held) (ha : memory a = none) : a ∉ held.map Prod.fst := by
  intro hmem
  obtain ⟨b, hb, rfl⟩ := List.mem_map.mp hmem
  rw [h.kept b hb] at ha
  cases ha

/-- What is held on top of what is held. -/
theorem trans (h : Taken base memory held) (h' : Taken memory memory' held') : Taken base memory' (held ++ held') := by
  have hnew : ∀ b ∈ held', b.1 ∉ held.map Prod.fst := fun b hb => h.notMem_of_none (h'.unused b hb)
  have hold : ∀ b ∈ held, b.1 ∉ held'.map Prod.fst := by
    intro b hb hmem
    obtain ⟨c, hc, heq⟩ := List.mem_map.mp hmem
    exact hnew c hc (List.mem_map.mpr ⟨b, hb, heq.symm⟩)
  refine ⟨?_, ?_, ?_, ?_⟩
  · rw [List.map_append, List.nodup_append']
    refine ⟨h.nodup, h'.nodup, ?_⟩
    intro a ha ha'
    obtain ⟨b, hb, rfl⟩ := List.mem_map.mp ha
    exact hold b hb ha'
  · intro b hb
    cases List.mem_append.mp hb with
    | inl hb => exact h.unused b hb
    | inr hb => rw [← h'.unused b hb, h.others b.1 (hnew b hb)]
  · intro b hb
    cases List.mem_append.mp hb with
    | inl hb => rw [h'.others b.1 (hold b hb), h.kept b hb]
    | inr hb => exact h'.kept b hb
  · intro a ha
    rw [List.map_append, List.mem_append, not_or] at ha
    rw [h'.others a ha.2, h.others a ha.1]

variable [DecidableEq α]

theorem take (h : Taken base memory held) (ha : memory a = none) :
    Taken base (Function.update memory a (some x)) ((a, x) :: held) where
  nodup := List.nodup_cons.mpr ⟨h.notMem_of_none ha, h.nodup⟩
  unused := by
    intro b hb
    cases hb with
    | head => rw [← ha, h.others a (h.notMem_of_none ha)]
    | tail _ hb => exact h.unused b hb
  kept := by
    intro b hb
    cases hb with
    | head => exact Function.update_self ..
    | tail _ hb =>
      have hne : b.1 ≠ a := by
        intro heq
        exact h.notMem_of_none ha (List.mem_map.mpr ⟨b, hb, heq⟩)
      rw [Function.update_of_ne hne]
      exact h.kept b hb
  others := by
    intro c hc
    rw [List.map_cons, List.mem_cons, not_or] at hc
    rw [Function.update_of_ne hc.1]
    exact h.others c hc.2

/-- A block that is held can be written. -/
theorem put (h : Taken base memory ((a, x) :: held)) :
    Taken base (Function.update memory a (some y)) ((a, y) :: held) where
  nodup := h.nodup
  unused := by
    intro b hb
    cases hb with
    | head => exact h.unused (a, x) List.mem_cons_self
    | tail _ hb => exact h.unused b (List.mem_cons_of_mem _ hb)
  kept := by
    intro b hb
    cases hb with
    | head => exact Function.update_self ..
    | tail _ hb =>
      have hne : b.1 ≠ a := by
        intro heq
        exact (List.nodup_cons.mp h.nodup).1 (List.mem_map.mpr ⟨b, hb, heq⟩)
      rw [Function.update_of_ne hne]
      exact h.kept b (List.mem_cons_of_mem _ hb)
  others := by
    intro c hc
    have hne : c ≠ a := fun heq => hc (List.mem_map.mpr ⟨(a, y), List.mem_cons_self, heq.symm⟩)
    rw [Function.update_of_ne hne]
    exact h.others c hc

/-- A block that is given back is as it was in the base. -/
theorem release (h : Taken base memory ((a, x) :: held)) : Taken base (Function.update memory a none) held where
  nodup := (List.nodup_cons.mp h.nodup).2
  unused := fun b hb => h.unused b (List.mem_cons_of_mem _ hb)
  kept := by
    intro b hb
    have hne : b.1 ≠ a := by
      intro heq
      exact (List.nodup_cons.mp h.nodup).1 (List.mem_map.mpr ⟨b, hb, heq⟩)
    rw [Function.update_of_ne hne]
    exact h.kept b (List.mem_cons_of_mem _ hb)
  others := by
    intro c hc
    by_cases heq : c = a
    · rw [heq, Function.update_self, h.unused (a, x) List.mem_cons_self]
    · rw [Function.update_of_ne heq]
      exact h.others c (by simpa [heq] using hc)

end Taken

/-- What has been taken and not given back, whatever its addresses are. -/
def Leaves (base memory : α → Option κ) (lost : List κ) : Prop :=
  ∃ held, held.map Prod.snd = lost ∧ Taken base memory held

theorem Leaves.trans {base memory memory' : α → Option κ} {lost lost' : List κ} (h : Leaves base memory lost)
    (h' : Leaves memory memory' lost') : Leaves base memory' (lost ++ lost') := by
  obtain ⟨held, rfl, ht⟩ := h
  obtain ⟨held', rfl, ht'⟩ := h'
  exact ⟨held ++ held', List.map_append, ht.trans ht'⟩

theorem leaves_nil {base memory : α → Option κ} : Leaves base memory [] ↔ memory = base := by
  constructor
  · rintro ⟨held, hnil, ht⟩
    rw [List.map_eq_nil_iff.mp hnil] at ht
    exact ht.eq_base
  · rintro rfl
    exact ⟨[], rfl, Taken.nil _⟩

end TakenBlocks
