import Mathlib

/-!
Earliest arrival in a network whose edges are open at certain times: labels,
their relaxation from one vertex after another, and what holds of them. The
source is `none`; an arrival from the horizon on counts as none.
-/

namespace EarliestArrival

variable {V T : Type}

/-- When what is at one vertex, or at the source, at some time can be at a next vertex. -/
structure Network (V T : Type) where
  start : T
  step : Option V → V → T → Option T

def arrive (N : Network V T) : Option V → T → List V → Option T
  | _, t, [] => some t
  | u, t, v :: rest => (N.step u v t).bind (fun a => arrive N (some v) a rest)

/-- The last vertex of a path, or the vertex at which it begins. -/
def endpoint (u : Option V) : List V → Option V
  | [] => u
  | v :: rest => endpoint (some v) rest

/-- Tentative arrivals, the vertices they come from, and the vertices dealt with. -/
@[ext] structure Labels (V T : Type) where
  dist : V → T
  pred : V → Option (Option V)
  done : V → Bool

def Labels.time (L : Labels V T) (N : Network V T) : Option V → T
  | none => N.start
  | some v => L.dist v

/-- The vertices along the recorded predecessors, with the times on the labels. -/
inductive Trail (N : Network V T) (L : Labels V T) : Option V → List V → Prop
  | source : Trail N L none []
  | via {u : Option V} {p : List V} {v : V} (hp : Trail N L u p) (hpred : L.pred v = some u)
      (hstep : N.step u v (L.time N u) = some (L.dist v)) (hnew : v ∉ p) : Trail N L (some v) (p ++ [v])

/-- Vertices dealt with, and the one being dealt with: their labels no longer change. -/
def Fixed (L : Labels V T) (cur : Option V) (v : V) : Prop := L.done v = true ∨ cur = some v

variable {N : Network V T} {L : Labels V T} {cur : Option V}

theorem arrive_append (u : Option V) (t : T) (p q : List V) :
    arrive N u t (p ++ q) = (arrive N u t p).bind (fun a => arrive N (endpoint u p) a q) := by
  induction p generalizing u t with
  | nil => rfl
  | cons v rest ih =>
    simp only [List.cons_append, arrive, endpoint]
    cases N.step u v t with
    | none => rfl
    | some a => exact ih (some v) a

@[simp] theorem endpoint_concat (u : Option V) (p : List V) (v : V) : endpoint u (p ++ [v]) = some v := by
  induction p generalizing u with
  | nil => rfl
  | cons w rest ih => exact ih (some w)

/-- Along a trail the labels are the arrivals. -/
theorem Trail.arrive {u : Option V} {p : List V} (h : Trail N L u p) :
    arrive N none N.start p = some (L.time N u) ∧ endpoint none p = u := by
  induction h with
  | source => exact ⟨rfl, rfl⟩
  | via hp hpred hstep hnew ih =>
    rw [arrive_append, ih.1, ih.2]
    refine ⟨?_, endpoint_concat _ _ _⟩
    simp only [Option.bind_some, EarliestArrival.arrive, hstep]
    rfl

theorem Trail.nodup {u : Option V} {p : List V} (h : Trail N L u p) : p.Nodup := by
  induction h with
  | source => exact List.nodup_nil
  | via hp hpred hstep hnew ih =>
    rw [List.nodup_append]
    refine ⟨ih, List.nodup_singleton _, ?_⟩
    intro x hx y hy
    rw [List.mem_singleton.mp hy]
    rintro rfl
    exact hnew hx

/-- A trail only depends on the labels of its own vertices. -/
theorem Trail.congr {L' : Labels V T} {u : Option V} {p : List V} (h : Trail N L u p)
    (hd : ∀ v ∈ p, L'.dist v = L.dist v) (hp : ∀ v ∈ p, L'.pred v = L.pred v) : Trail N L' u p := by
  induction h with
  | source => exact Trail.source
  | @via u p v hq hpred hstep hnew ih =>
    have hq' := ih (fun w hw => hd w (List.mem_append_left _ hw)) (fun w hw => hp w (List.mem_append_left _ hw))
    have htime : L'.time N u = L.time N u := by
      cases hq with
      | source => rfl
      | via _ _ _ _ => exact hd _ (List.mem_append_left _ (List.mem_append_right _ (List.mem_singleton_self _)))
    have hv : v ∈ p ++ [v] := List.mem_append_right _ (List.mem_singleton_self v)
    refine Trail.via hq' ((hp v hv).trans hpred) ?_ hnew
    rw [htime, hd v hv]
    exact hstep

section Settle

variable [DecidableEq V]

def settle (L : Labels V T) : Option V → Labels V T
  | none => L
  | some v => { L with done := Function.update L.done v true }

@[simp] theorem settle_dist (L : Labels V T) (u : Option V) : (settle L u).dist = L.dist := by
  cases u <;> rfl

@[simp] theorem settle_pred (L : Labels V T) (u : Option V) : (settle L u).pred = L.pred := by
  cases u <;> rfl

@[simp] theorem settle_time (L : Labels V T) (u w : Option V) : (settle L u).time N w = L.time N w := by
  cases w with
  | none => rfl
  | some v => simp [Labels.time]

theorem settle_done (L : Labels V T) (u : Option V) (v : V) :
    (settle L u).done v = true ↔ Fixed L u v := by
  cases u with
  | none => simp [settle, Fixed]
  | some w =>
    by_cases hv : v = w
    · simp [settle, Fixed, hv]
    · simp [settle, Fixed, eq_comm (a := w), hv]

end Settle

section Order

variable [LinearOrder T]

/-- No step goes back in time, and being earlier is never worse. -/
structure Fifo (N : Network V T) : Prop where
  le_step : ∀ u v t a, N.step u v t = some a → t ≤ a
  step_mono : ∀ u v t t' a, N.step u v t = some a → t' ≤ t → ∃ a', N.step u v t' = some a' ∧ a' ≤ a

/-- What holds while the steps from `cur` are tried, those to `seen` having been tried. -/
structure Inv (N : Network V T) (H : T) (L : Labels V T) (cur : Option V) (seen : V → Prop) : Prop where
  cur_open : ∀ v, cur = some v → L.done v = false ∧ L.dist v < H
  start_le : N.start ≤ L.time N cur
  done_le : ∀ v, L.done v = true → L.dist v ≤ L.time N cur
  done_lt : ∀ v, L.done v = true → L.dist v < H
  le_open : ∀ v, L.done v = false → L.dist v < H → L.time N cur ≤ L.dist v
  ceiling : ∀ v, L.dist v ≤ H
  relaxed_source : cur ≠ none → ∀ v a, N.step none v N.start = some a → a < H → L.dist v ≤ a
  relaxed : ∀ u, L.done u = true → ∀ v a, N.step (some u) v (L.dist u) = some a → a < H → L.dist v ≤ a
  relaxed_cur : ∀ v, seen v → ∀ a, N.step cur v (L.time N cur) = some a → a < H → L.dist v ≤ a
  trail : ∀ v, L.dist v < H → ∃ p, Trail N L (some v) (p ++ [v]) ∧ ∀ w ∈ p, Fixed L cur w

variable {H : T} {seen : V → Prop}

theorem arrive_le (hF : Fifo N) {u : Option V} {t a : T} {p : List V} (h : arrive N u t p = some a) :
    t ≤ a := by
  induction p generalizing u t with
  | nil => exact (Option.some.inj h).le
  | cons v rest ih =>
    obtain ⟨b, hb, hr⟩ := Option.bind_eq_some_iff.mp h
    exact (hF.le_step u v t b hb).trans (ih hr)

/-- A network that starts no later and has, at no later a time, a step that ends no later. -/
structure Improves (N N' : Network V T) : Prop where
  start_le : N'.start ≤ N.start
  step_le : ∀ u v t a, N.step u v t = some a → ∀ t' ≤ t, ∃ a', N'.step u v t' = some a' ∧ a' ≤ a

theorem arrive_improves {N' : Network V T} (hN : Improves N N') {u : Option V} {t t' a : T} (ht : t' ≤ t) {p : List V}
    (h : arrive N u t p = some a) : ∃ a', arrive N' u t' p = some a' ∧ a' ≤ a := by
  induction p generalizing u t t' with
  | nil =>
    obtain rfl := Option.some.inj h
    exact ⟨t', rfl, ht⟩
  | cons v rest ih =>
    obtain ⟨b, hb, hr⟩ := Option.bind_eq_some_iff.mp h
    obtain ⟨b', hb', hle⟩ := hN.step_le u v t b hb t' ht
    obtain ⟨a', ha', hle'⟩ := ih hle hr
    refine ⟨a', ?_, hle'⟩
    rw [arrive, hb']
    exact ha'

/-- No label along a trail is later than the one at its end. -/
theorem Trail.le (hF : Fifo N) {u : Option V} {p : List V} (h : Trail N L u p) :
    ∀ w ∈ p, L.dist w ≤ L.time N u := by
  induction h with
  | source => simp
  | @via u p v hp hpred hstep hnew ih =>
    intro w hw
    cases List.mem_append.mp hw with
    | inl hw => exact (ih w hw).trans (hF.le_step u v _ _ hstep)
    | inr hw =>
      rw [List.mem_singleton.mp hw]
      exact le_rfl

/-- The trail that leads to the vertex being dealt with. -/
theorem Inv.trail_cur (hI : Inv N H L cur seen) : ∃ p, Trail N L cur p ∧ ∀ w ∈ p, Fixed L cur w := by
  cases hc : cur with
  | none => exact ⟨[], Trail.source, by simp⟩
  | some c =>
    obtain ⟨p, hp, hfix⟩ := hI.trail c (hI.cur_open c hc).2
    subst hc
    refine ⟨p ++ [c], hp, fun w hw => ?_⟩
    cases List.mem_append.mp hw with
    | inl hw => exact hfix w hw
    | inr hw =>
      rw [List.mem_singleton.mp hw]
      exact Or.inr rfl

theorem Inv.fixed_le (hI : Inv N H L cur seen) {v : V} (h : Fixed L cur v) : L.dist v ≤ L.time N cur := by
  rcases h with h | rfl
  · exact hI.done_le v h
  · exact le_rfl

/-- A step that has been tried, or is not possible, needs no further attention. -/
theorem Inv.see (hI : Inv N H L cur seen) {v : V}
    (h : ∀ a, N.step cur v (L.time N cur) = some a → a < H → L.dist v ≤ a) :
    Inv N H L cur (fun w => seen w ∨ w = v) where
  __ := hI
  relaxed_cur := by
    rintro w (hw | rfl)
    · exact hI.relaxed_cur w hw
    · exact h

/-- Once what has been dealt with is relaxed, a path ends at a vertex dealt with whose label is no
later, or an open vertex has a label no later. -/
theorem reached (hF : Fifo N)
    (hsource : ∀ v a, N.step none v N.start = some a → a < H → L.dist v ≤ a)
    (hrel : ∀ u, L.done u = true → ∀ v a, N.step (some u) v (L.dist u) = some a → a < H → L.dist v ≤ a)
    {u : Option V} {p : List V} {t a : T} (hu : ∀ v, u = some v → L.done v = true) (ht : L.time N u ≤ t)
    (h : arrive N u t p = some a) (ha : a < H) :
    ((∀ v, endpoint u p = some v → L.done v = true) ∧ L.time N (endpoint u p) ≤ a) ∨
      ∃ v, L.done v = false ∧ L.dist v < H ∧ L.dist v ≤ a := by
  induction p generalizing u t with
  | nil => exact Or.inl ⟨hu, Option.some.inj h ▸ ht⟩
  | cons v rest ih =>
    obtain ⟨b, hb, hr⟩ := Option.bind_eq_some_iff.mp h
    obtain ⟨b', hb', hle⟩ := hF.step_mono u v t (L.time N u) b hb ht
    have hba : b ≤ a := arrive_le hF hr
    have hbH : b' < H := (hle.trans hba).trans_lt ha
    have hdist : L.dist v ≤ b' := by
      cases u with
      | none => exact hsource v b' hb' hbH
      | some w => exact hrel w (hu w rfl) v b' hb' hbH
    cases hv : L.done v with
    | true => exact ih (fun w hw => Option.some.inj hw ▸ hv) (hdist.trans hle) hr
    | false => exact Or.inr ⟨v, hv, hdist.trans_lt hbH, hdist.trans (hle.trans hba)⟩

/-- With every vertex closed that could still matter, the labels are optimal up to the bound. -/
theorem optimal (hF : Fifo N) {B : T}
    (hsource : ∀ v a, N.step none v N.start = some a → a < H → L.dist v ≤ a)
    (hrel : ∀ u, L.done u = true → ∀ v a, N.step (some u) v (L.dist u) = some a → a < H → L.dist v ≤ a)
    (hopen : ∀ v, L.done v = false → L.dist v < H → B < L.dist v) {u : Option V} {p : List V} {t a : T}
    (hu : ∀ v, u = some v → L.done v = true) (ht : L.time N u ≤ t) (h : arrive N u t p = some a) (ha : a < H) :
    L.time N (endpoint u p) ≤ a ∨ B ≤ a := by
  obtain ⟨-, hle⟩ | ⟨v, hv, hvH, hle⟩ := reached hF hsource hrel hu ht h ha
  · exact Or.inl hle
  · exact Or.inr ((hopen v hv hvH).le.trans hle)

/-- At the start nothing is labelled and the source is dealt with. -/
theorem Inv.init (hH : ∀ v, L.dist v = H) (hdone : ∀ v, L.done v = false) :
    Inv N H L none (fun _ => False) where
  cur_open _ h := by cases h
  start_le := le_rfl
  done_le v h := by rw [hdone v] at h; cases h
  done_lt v h := by rw [hdone v] at h; cases h
  le_open v _ h := absurd h (by rw [hH v]; exact lt_irrefl _)
  ceiling v := (hH v).le
  relaxed_source h := absurd rfl h
  relaxed u h := by rw [hdone u] at h; cases h
  relaxed_cur _ h := h.elim
  trail v h := absurd h (by rw [hH v]; exact lt_irrefl _)

/-- The least label of a target so far, and the target that has it. -/
structure Best (target : V → Prop) (H : T) (L : Labels V T) (best : T) (final : Option V) : Prop where
  le_target : ∀ v, target v → L.dist v < H → best ≤ L.dist v
  attained : ∀ v, final = some v → target v ∧ L.dist v = best ∧ best < H
  none_found : final = none → best = H

theorem Best.of_dist {target : V → Prop} {best : T} {final : Option V} {L' : Labels V T}
    (hB : Best target H L best final) (h : L'.dist = L.dist) :
    Best target H L' best final where
  le_target := by rw [h]; exact hB.le_target
  attained := by rw [h]; exact hB.attained
  none_found := hB.none_found

end Order

section Relax

variable [DecidableEq V] [LinearOrder T]

def relax (L : Labels V T) (u : Option V) (v : V) (a : T) : Labels V T :=
  if a < L.dist v then
    { L with dist := Function.update L.dist v a, pred := Function.update L.pred v (some u) }
  else L

variable {H : T} {seen : V → Prop}

theorem relax_of_le {u : Option V} {v : V} {a : T} (h : L.dist v ≤ a) : relax L u v a = L := by
  rw [relax, if_neg (not_lt.mpr h)]

/-- The labels after a step that brings a vertex an earlier time. -/
structure Relaxed (L : Labels V T) (u : Option V) (v : V) (a : T) (L' : Labels V T) : Prop where
  dist_self : L'.dist v = a
  pred_self : L'.pred v = some u
  dist_other : ∀ w, w ≠ v → L'.dist w = L.dist w
  pred_other : ∀ w, w ≠ v → L'.pred w = L.pred w
  done : L'.done = L.done

theorem relaxed_of_lt {u : Option V} {v : V} {a : T} (h : a < L.dist v) : Relaxed L u v a (relax L u v a) := by
  rw [relax, if_pos h]
  exact ⟨Function.update_self .., Function.update_self .., fun _ hw => Function.update_of_ne hw ..,
    fun _ hw => Function.update_of_ne hw .., rfl⟩

theorem Relaxed.dist_le {L' : Labels V T} {u : Option V} {v : V} {a : T} (h : Relaxed L u v a L')
    (hlt : a < L.dist v) (w : V) : L'.dist w ≤ L.dist w := by
  by_cases hw : w = v
  · rw [hw, h.dist_self]
    exact hlt.le
  · rw [h.dist_other w hw]

/-- The trails of other vertices avoid the relaxed one, whose trail is that of `cur` with it added. -/
theorem Inv.trail_relaxed (hI : Inv N H L cur seen) {L' : Labels V T} {v : V} {a : T} (h : Relaxed L cur v a L')
    (hnf : ¬ Fixed L cur v) (hstep : N.step cur v (L'.time N cur) = some a) (w : V) (hwH : L'.dist w < H) :
    ∃ p, Trail N L' (some w) (p ++ [w]) ∧ ∀ x ∈ p, Fixed L' cur x := by
  have hne : ∀ x, Fixed L cur x → x ≠ v := fun x hx he => hnf (he ▸ hx)
  have hfix : ∀ x, Fixed L cur x → Fixed L' cur x := by
    rintro x (hx | hx)
    · exact Or.inl (h.done ▸ hx)
    · exact Or.inr hx
  by_cases hwv : w = v
  · obtain ⟨p, hp, hpf⟩ := hI.trail_cur
    have hpv : ∀ x ∈ p, x ≠ v := fun x hx => hne x (hpf x hx)
    have htrail : Trail N L' cur p :=
      hp.congr (fun x hx => h.dist_other x (hpv x hx)) (fun x hx => h.pred_other x (hpv x hx))
    refine ⟨p, ?_, fun x hx => hfix x (hpf x hx)⟩
    rw [hwv]
    exact Trail.via htrail h.pred_self (by rw [h.dist_self]; exact hstep) (fun hx => hpv v hx rfl)
  · rw [h.dist_other w hwv] at hwH
    obtain ⟨p, hp, hpf⟩ := hI.trail w hwH
    have hpv : ∀ x ∈ p ++ [w], x ≠ v := by
      intro x hx
      cases List.mem_append.mp hx with
      | inl hx => exact hne x (hpf x hx)
      | inr hx => exact List.mem_singleton.mp hx ▸ hwv
    exact ⟨p, hp.congr (fun x hx => h.dist_other x (hpv x hx)) (fun x hx => h.pred_other x (hpv x hx)),
      fun x hx => hfix x (hpf x hx)⟩

theorem Inv.relax (hI : Inv N H L cur seen) (hF : Fifo N) {v : V} {a : T}
    (hstep : N.step cur v (L.time N cur) = some a) :
    Inv N H (relax L cur v a) cur (fun w => seen w ∨ w = v) := by
  by_cases hlt : a < L.dist v
  · have hca : L.time N cur ≤ a := hF.le_step cur v _ a hstep
    have hnf : ¬ Fixed L cur v := fun hf => absurd hlt (not_lt.mpr ((hI.fixed_le hf).trans hca))
    have hne : ∀ w, Fixed L cur w → w ≠ v := fun w hw he => hnf (he ▸ hw)
    have hr : Relaxed L cur v a (EarliestArrival.relax L cur v a) := relaxed_of_lt hlt
    have hle := hr.dist_le hlt
    generalize EarliestArrival.relax L cur v a = L' at hr hle ⊢
    have htime : L'.time N cur = L.time N cur := by
      cases hc : cur with
      | none => rfl
      | some c => exact hr.dist_other c (hne c (Or.inr hc))
    refine ⟨?_, ?_, ?_, ?_, ?_, ?_, ?_, ?_, ?_, ?_⟩
    · intro w hw
      rw [hr.done, hr.dist_other w (hne w (Or.inr hw))]
      exact hI.cur_open w hw
    · rw [htime]
      exact hI.start_le
    · intro w hw
      rw [hr.done] at hw
      rw [htime, hr.dist_other w (hne w (Or.inl hw))]
      exact hI.done_le w hw
    · intro w hw
      rw [hr.done] at hw
      rw [hr.dist_other w (hne w (Or.inl hw))]
      exact hI.done_lt w hw
    · intro w hw hwH
      rw [hr.done] at hw
      rw [htime]
      by_cases hwv : w = v
      · rw [hwv, hr.dist_self]
        exact hca
      · rw [hr.dist_other w hwv] at hwH ⊢
        exact hI.le_open w hw hwH
    · exact fun w => (hle w).trans (hI.ceiling w)
    · exact fun hc w b hb hbH => (hle w).trans (hI.relaxed_source hc w b hb hbH)
    · intro u hu w b hb hbH
      rw [hr.done] at hu
      rw [hr.dist_other u (hne u (Or.inl hu))] at hb
      exact (hle w).trans (hI.relaxed u hu w b hb hbH)
    · rintro w (hw | rfl) b hb hbH
      · rw [htime] at hb
        exact (hle w).trans (hI.relaxed_cur w hw b hb hbH)
      · rw [htime, hstep] at hb
        rw [hr.dist_self]
        exact (Option.some.inj hb).le
    · exact hI.trail_relaxed hr hnf (by rw [htime]; exact hstep)
  · rw [relax_of_le (not_lt.mp hlt)]
    refine hI.see (fun b hb _ => ?_)
    rw [hstep] at hb
    exact Option.some.inj hb ▸ not_lt.mp hlt

/-- Once all its steps have been tried, a vertex and the source are relaxed for good. -/
theorem Inv.settled (hI : Inv N H L cur seen)
    (hall : ∀ v a, N.step cur v (L.time N cur) = some a → seen v) :
    (∀ v a, N.step none v N.start = some a → a < H → (settle L cur).dist v ≤ a) ∧
    ∀ u, (settle L cur).done u = true → ∀ v a, N.step (some u) v ((settle L cur).dist u) = some a → a < H →
      (settle L cur).dist v ≤ a := by
  simp only [settle_dist, settle_done]
  constructor
  · intro v a ha haH
    cases hc : cur with
    | none =>
      subst hc
      exact hI.relaxed_cur v (hall v a ha) a ha haH
    | some c => exact hI.relaxed_source (by rw [hc]; simp) v a ha haH
  · rintro u (hu | rfl) v a ha haH
    · exact hI.relaxed u hu v a ha haH
    · exact hI.relaxed_cur v (hall v a ha) a ha haH

/-- Dealing next with an open vertex of least label keeps the invariant. -/
theorem Inv.settle (hI : Inv N H L cur seen)
    (hall : ∀ v a, N.step cur v (L.time N cur) = some a → seen v) {w : V}
    (hw : (settle L cur).done w = false) (hwH : L.dist w < H)
    (hmin : ∀ v, (settle L cur).done v = false → L.dist v < H → L.dist w ≤ L.dist v) :
    Inv N H (settle L cur) (some w) (fun _ => False) := by
  obtain ⟨hsource, hrel⟩ := hI.settled hall
  have hnf : ¬ Fixed L cur w := fun hf => by
    rw [(settle_done L cur w).mpr hf] at hw
    cases hw
  have hwopen : L.done w = false := Bool.eq_false_iff.mpr (fun hd => hnf (Or.inl hd))
  have hcw : L.time N cur ≤ L.dist w := hI.le_open w hwopen hwH
  have htime : (EarliestArrival.settle L cur).time N (some w) = L.dist w := by
    rw [settle_time]
    rfl
  refine ⟨?_, ?_, ?_, ?_, ?_, ?_, fun _ => hsource, hrel, fun _ h => h.elim, ?_⟩
  · intro v hv
    obtain rfl := Option.some.inj hv
    exact ⟨hw, by rw [settle_dist]; exact hwH⟩
  · rw [htime]
    exact hI.start_le.trans hcw
  · intro v hv
    rw [htime, settle_dist]
    exact (hI.fixed_le ((settle_done L cur v).mp hv)).trans hcw
  · intro v hv
    rw [settle_dist]
    cases (settle_done L cur v).mp hv with
    | inl hd => exact hI.done_lt v hd
    | inr hc => exact (hI.cur_open v hc).2
  · intro v hv hvH
    rw [settle_dist] at hvH
    rw [htime, settle_dist]
    exact hmin v hv hvH
  · rw [settle_dist]
    exact hI.ceiling
  · intro v hvH
    rw [settle_dist] at hvH
    obtain ⟨p, hp, hpf⟩ := hI.trail v hvH
    exact ⟨p, hp.congr (fun x _ => by rw [settle_dist]) (fun x _ => by rw [settle_pred]),
      fun x hx => Or.inl ((settle_done L cur x).mpr (hpf x hx))⟩

variable {target : V → Prop} {best : T} {final : Option V}

theorem relax_dist {u : Option V} {v : V} {a : T} (h : a < L.dist v) :
    (EarliestArrival.relax L u v a).dist = Function.update L.dist v a := by
  rw [EarliestArrival.relax, if_pos h]

/-- A better label on a target is noted. -/
theorem Best.improve (hB : Best target H L best final) {u : Option V} {v : V} {a : T} (h : a < L.dist v)
    (hv : target v) (hc : L.dist v ≤ H) (hbest : a < best) :
    Best target H (EarliestArrival.relax L u v a) a (some v) := by
  refine ⟨?_, ?_, by simp⟩
  · intro w hw hwH
    rw [relax_dist h] at hwH ⊢
    by_cases hwv : w = v
    · rw [hwv, Function.update_self]
    · rw [Function.update_of_ne hwv] at hwH ⊢
      exact hbest.le.trans (hB.le_target w hw hwH)
  · intro w hw
    obtain rfl := Option.some.inj hw
    rw [relax_dist h, Function.update_self]
    exact ⟨hv, rfl, h.trans_le hc⟩

/-- A label on another vertex, or no better than the best, leaves the note as it is. -/
theorem Best.keep (hB : Best target H L best final) {u : Option V} {v : V} {a : T}
    (h : target v → best ≤ a) : Best target H (EarliestArrival.relax L u v a) best final := by
  by_cases hlt : a < L.dist v
  · refine ⟨?_, ?_, hB.none_found⟩
    · intro w hw hwH
      rw [relax_dist hlt] at hwH ⊢
      by_cases hwv : w = v
      · rw [hwv, Function.update_self]
        exact h (hwv ▸ hw)
      · rw [Function.update_of_ne hwv] at hwH ⊢
        exact hB.le_target w hw hwH
    · intro w hw
      obtain ⟨ht, hd, hb⟩ := hB.attained w hw
      have hwv : w ≠ v := by
        rintro rfl
        rw [hd] at hlt
        exact absurd hlt (not_lt.mpr (h ht))
      rw [relax_dist hlt, Function.update_of_ne hwv]
      exact ⟨ht, hd, hb⟩
  · rw [relax_of_le (not_lt.mp hlt)]
    exact hB

/-- What trying the step from `cur` to `v` makes of the labels and of the best target. -/
inductive Attempt (N : Network V T) (target : V → Prop) (L : Labels V T) (best : T) (final : Option V)
    (cur : Option V) (v : V) : Labels V T → T → Option V → Prop
  | useless (h : ∀ a, N.step cur v (L.time N cur) = some a → L.dist v ≤ a) :
    Attempt N target L best final cur v L best final
  | better {a : T} (hstep : N.step cur v (L.time N cur) = some a) (hlt : a < L.dist v)
      (h : target v → best ≤ a) :
    Attempt N target L best final cur v (EarliestArrival.relax L cur v a) best final
  | best {a : T} (hstep : N.step cur v (L.time N cur) = some a) (hlt : a < L.dist v) (htarget : target v)
      (hbest : a < best) :
    Attempt N target L best final cur v (EarliestArrival.relax L cur v a) a (some v)

variable {v : V} {L' : Labels V T} {best' : T} {final' : Option V}

theorem Inv.attempt (hI : Inv N H L cur seen) (hF : Fifo N)
    (h : Attempt N target L best final cur v L' best' final') :
    Inv N H L' cur (fun w => seen w ∨ w = v) := by
  cases h with
  | useless h => exact hI.see (fun a ha _ => h a ha)
  | better hstep _ _ => exact hI.relax hF hstep
  | best hstep _ _ _ => exact hI.relax hF hstep

theorem Best.attempt (hB : Best target H L best final) (hI : Inv N H L cur seen)
    (h : Attempt N target L best final cur v L' best' final') : Best target H L' best' final' := by
  cases h with
  | useless _ => exact hB
  | better _ _ h => exact hB.keep h
  | best _ hlt htarget hbest => exact hB.improve hlt htarget (hI.ceiling v) hbest

end Relax

end EarliestArrival
