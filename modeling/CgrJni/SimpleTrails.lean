import CgrJni.SearchOrder

/-!
Several vertices may be at one place, and what can be done next depends on the place only.
An earliest-arrival search then records no trail that comes back to a place: the steps
from there were tried before, and no later.
-/

namespace EarliestArrival

variable {V T P : Type} {N : Network V T} {L : Labels V T} {cur : Option V} {place : Option V → P}

/-- Vertices at one place can be left in the same ways. -/
def Placed (N : Network V T) (place : Option V → P) : Prop :=
  ∀ u w v t, place u = place w → N.step u v t = N.step w v t

/-- The places of the source and of the vertices on a path. -/
def places (place : Option V → P) (p : List V) : List P := place none :: p.map (fun v => place (some v))

@[simp] theorem places_nil (place : Option V → P) : places place [] = [place none] := rfl

theorem places_concat (place : Option V → P) (p : List V) (v : V) :
    places place (p ++ [v]) = places place p ++ [place (some v)] := by
  simp [places]

theorem mem_places {p : List V} {x : P} : x ∈ places place p ↔ x = place none ∨ ∃ v ∈ p, place (some v) = x := by
  simp [places]

/-- A trail of vertices whose labels no longer change, with no place left twice. -/
structure Straight (N : Network V T) (place : Option V → P) (L : Labels V T) (cur : Option V) (v : V)
    (p : List V) : Prop where
  trail : Trail N L (some v) (p ++ [v])
  fixed : ∀ x ∈ p, Fixed L cur x
  nodup : (places place p).Nodup

/-- Every label comes with a straight trail, and the best target is the first target on its own. -/
structure Simple (N : Network V T) (place : Option V → P) (target : V → Prop) (H : T) [LT T] (L : Labels V T)
    (cur : Option V) (final : Option V) : Prop where
  labelled : ∀ v, L.dist v < H → ∃ p, Straight N place L cur v p
  best : ∀ v, final = some v → ∃ p, Straight N place L cur v p ∧ ∀ x ∈ p, ¬ target x

theorem Relaxed.fixed {L' : Labels V T} {u : Option V} {v : V} {a : T} (h : Relaxed L u v a L') {x : V}
    (hx : Fixed L cur x) : Fixed L' cur x := hx.imp_left (fun hd => h.done ▸ hd)

/-- Another vertex keeps its trail, as that avoids the vertex relaxed. -/
theorem Straight.relaxed {L' : Labels V T} {v : V} {a : T} (hr : Relaxed L cur v a L') (hnf : ¬ Fixed L cur v)
    {w : V} (hw : w ≠ v) {p : List V} (h : Straight N place L cur w p) : Straight N place L' cur w p := by
  have hne : ∀ x ∈ p ++ [w], x ≠ v := by
    intro x hx
    cases List.mem_append.mp hx with
    | inl hx => exact fun he => hnf (he ▸ h.fixed x hx)
    | inr hx => exact List.mem_singleton.mp hx ▸ hw
  constructor
  · exact h.trail.congr (fun x hx => hr.dist_other x (hne x hx)) (fun x hx => hr.pred_other x (hne x hx))
  · exact fun x hx => hr.fixed (h.fixed x hx)
  · exact h.nodup

/-- An improved label has the trail of the current vertex, with one more step. -/
theorem Straight.improved {L' : Labels V T} {v : V} {a : T} (hr : Relaxed L cur v a L') (hnf : ¬ Fixed L cur v)
    (hstep : N.step cur v (L.time N cur) = some a) {p : List V} (hp : Trail N L cur p)
    (hfixed : ∀ x ∈ p, Fixed L cur x) (hnodup : (places place p).Nodup) : Straight N place L' cur v p := by
  have hne : ∀ x ∈ p, x ≠ v := fun x hx he => hnf (he ▸ hfixed x hx)
  have htrail : Trail N L' cur p :=
    hp.congr (fun x hx => hr.dist_other x (hne x hx)) (fun x hx => hr.pred_other x (hne x hx))
  have htime : L'.time N cur = L.time N cur := by
    cases cur with
    | none => rfl
    | some c => exact hr.dist_other c (fun he => hnf (Or.inr (congrArg some he)))
  refine ⟨?_, fun x hx => hr.fixed (hfixed x hx), hnodup⟩
  exact Trail.via htrail hr.pred_self (by rw [htime, hr.dist_self]; exact hstep) (fun hx => hne v hx rfl)

theorem Straight.settle [DecidableEq V] {v : V} {p : List V} (h : Straight N place L cur v p) (next : Option V) :
    Straight N place (EarliestArrival.settle L cur) next v p where
  trail := h.trail.congr (fun x _ => by rw [settle_dist]) (fun x _ => by rw [settle_pred])
  fixed x hx := Or.inl ((settle_done L cur x).mpr (h.fixed x hx))
  nodup := h.nodup

section

variable [LinearOrder T] {H : T} {seen : V → Prop} {target : V → Prop} {best : T} {final : Option V}

theorem Simple.init (hH : ∀ v, L.dist v = H) : Simple N place target H L none none where
  labelled v h := absurd h (by rw [hH v]; exact lt_irrefl _)
  best v h := by cases h

/-- What is left of a place other than by the current vertex has been tried, and no later. -/
theorem Inv.tried_place (hI : Inv N H L cur seen) (hF : Fifo N) (hN : Placed N place) {v : V} {a : T}
    (hstep : N.step cur v (L.time N cur) = some a) (hlt : a < L.dist v) :
    (cur ≠ none → place none ≠ place cur) ∧ ∀ x, L.done x = true → place (some x) ≠ place cur := by
  have haH : a < H := hlt.trans_le (hI.ceiling v)
  constructor
  · intro hcur heq
    rw [← hN none cur v _ heq] at hstep
    obtain ⟨b, hb, hba⟩ := hF.step_mono none v _ N.start a hstep hI.start_le
    have hle := hI.relaxed_source hcur v b hb (hba.trans_lt haH)
    exact absurd (hle.trans hba) (not_le.mpr hlt)
  · intro x hx heq
    rw [← hN (some x) cur v _ heq] at hstep
    obtain ⟨b, hb, hba⟩ := hF.step_mono (some x) v _ (L.dist x) a hstep (hI.done_le x hx)
    have hle := hI.relaxed x hx v b hb (hba.trans_lt haH)
    exact absurd (hle.trans hba) (not_le.mpr hlt)

/-- The trail to the current vertex, with the places of all its vertices apart: otherwise the
step that is tried next would not improve a label. -/
theorem Simple.trail_cur (h : Simple N place target H L cur final) (hI : Inv N H L cur seen) (hF : Fifo N)
    (hN : Placed N place) {v : V} {a : T} (hstep : N.step cur v (L.time N cur) = some a) (hlt : a < L.dist v) :
    ∃ p, Trail N L cur p ∧ (∀ x ∈ p, Fixed L cur x) ∧ (places place p).Nodup := by
  obtain ⟨hsource, hdone⟩ := hI.tried_place hF hN hstep hlt
  cases cur with
  | none => exact ⟨[], Trail.source, by simp, by simp⟩
  | some c =>
    obtain ⟨p, hp⟩ := h.labelled c (hI.cur_open c rfl).2
    refine ⟨p ++ [c], hp.trail, ?_, ?_⟩
    · intro x hx
      cases List.mem_append.mp hx with
      | inl hx => exact hp.fixed x hx
      | inr hx => exact Or.inr (congrArg some (List.mem_singleton.mp hx).symm)
    · rw [places_concat, List.nodup_append]
      refine ⟨hp.nodup, List.nodup_singleton _, ?_⟩
      intro x hx y hy
      rw [List.mem_singleton.mp hy]
      cases mem_places.mp hx with
      | inl hx => exact hx ▸ hsource (by simp)
      | inr hx =>
        obtain ⟨w, hw, rfl⟩ := hx
        have hwc : c ≠ w := by
          rintro rfl
          exact (List.nodup_append.mp hp.trail.nodup).2.2 _ hw _ (List.mem_singleton_self _) rfl
        apply hdone w
        cases hp.fixed w hw with
        | inl hd => exact hd
        | inr hc => exact absurd (Option.some.inj hc) hwc

theorem Simple.relaxed (h : Simple N place target H L cur final) (hI : Inv N H L cur seen) (hF : Fifo N)
    (hN : Placed N place) {v : V} {a : T} (hstep : N.step cur v (L.time N cur) = some a) (hlt : a < L.dist v)
    {L' : Labels V T} (hr : Relaxed L cur v a L') (w : V) (hw : L'.dist w < H) :
    ∃ p, Straight N place L' cur w p := by
  have hnf := hI.not_fixed hF hstep hlt
  by_cases hwv : w = v
  · obtain ⟨p, hp, hfixed, hnodup⟩ := h.trail_cur hI hF hN hstep hlt
    rw [hwv]
    exact ⟨p, Straight.improved hr hnf hstep hp hfixed hnodup⟩
  · rw [hr.dist_other w hwv] at hw
    obtain ⟨p, hp⟩ := h.labelled w hw
    exact ⟨p, hp.relaxed hr hnf hwv⟩

variable [DecidableEq V]

/-- Trying a step keeps the trails straight. -/
theorem Simple.attempt (h : Simple N place target H L cur final) (hI : Inv N H L cur seen) (hF : Fifo N)
    (hN : Placed N place) (hB : Best target H L best final) {v : V} {L' : Labels V T} {best' : T}
    {final' : Option V} (ha : Attempt N target L best final cur v L' best' final') :
    Simple N place target H L' cur final' := by
  cases ha with
  | useless _ => exact h
  | @better a hstep hlt hno =>
    have hr := relaxed_of_lt (u := cur) hlt
    have hnf := hI.not_fixed hF hstep hlt
    refine ⟨h.relaxed hI hF hN hstep hlt hr, ?_⟩
    intro w hw
    obtain ⟨htarget, hdist, hbest⟩ := hB.attained w hw
    have hwv : w ≠ v := by
      rintro rfl
      exact absurd (hdist ▸ hlt) (not_lt.mpr (hno htarget))
    obtain ⟨p, hp, hfirst⟩ := h.best w hw
    exact ⟨p, hp.relaxed hr hnf hwv, hfirst⟩
  | best hstep hlt htarget hbetter =>
    have hr := relaxed_of_lt (u := cur) hlt
    have hnf := hI.not_fixed hF hstep hlt
    refine ⟨h.relaxed hI hF hN hstep hlt hr, ?_⟩
    intro w hw
    rw [← Option.some.inj hw]
    obtain ⟨p, hp, hfixed, hnodup⟩ := h.trail_cur hI hF hN hstep hlt
    refine ⟨p, Straight.improved hr hnf hstep hp hfixed hnodup, ?_⟩
    -- a target on the way would have been a better one
    intro x hx hxt
    have hxa : L.dist x ≤ best' := (hI.fixed_le (hfixed x hx)).trans (hF.le_step cur v _ best' hstep)
    have haH : best' < H := hlt.trans_le (hI.ceiling v)
    exact absurd ((hB.le_target x hxt (hxa.trans_lt haH)).trans hxa) (not_le.mpr hbetter)

theorem Simple.settle (h : Simple N place target H L cur final) (next : Option V) :
    Simple N place target H (EarliestArrival.settle L cur) next final where
  labelled v hv := by
    rw [settle_dist] at hv
    obtain ⟨p, hp⟩ := h.labelled v hv
    exact ⟨p, hp.settle next⟩
  best v hv := by
    obtain ⟨p, hp, hfirst⟩ := h.best v hv
    exact ⟨p, hp.settle next, hfirst⟩

end

end EarliestArrival
