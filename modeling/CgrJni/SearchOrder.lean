import CgrJni.EarliestArrival

/-!
Which of several paths an earliest-arrival search follows: vertices are dealt with in the
order of their arrivals, and of a rank among equal ones, and the first step tried is kept.
-/

namespace EarliestArrival

variable {V T K : Type} {N : Network V T} {L : Labels V T} {cur : Option V} {seen : V → Prop}

/-- The vertices dealt with, and the source once it is no longer the one dealt with. -/
def Past (L : Labels V T) (cur : Option V) : Option V → Prop
  | none => cur ≠ none
  | some v => L.done v = true

def Tried (L : Labels V T) (cur : Option V) (seen : V → Prop) (w : Option V) (d : V) : Prop :=
  Past L cur w ∨ w = cur ∧ seen d

theorem Tried.dealt {w : Option V} {d : V} (h : Tried L cur seen w d) : Past L cur w ∨ w = cur :=
  h.imp_right And.left

theorem Tried.see {w : Option V} {d : V} (h : Tried L cur seen w d) (v : V) :
    Tried L cur (fun x => seen x ∨ x = v) w d :=
  h.imp_right (fun hcur => ⟨hcur.1, Or.inl hcur.2⟩)

theorem Relaxed.past_iff {L' : Labels V T} {u : Option V} {v : V} {a : T} (h : Relaxed L u v a L') (w : Option V) :
    Past L' cur w ↔ Past L cur w := by
  cases w with
  | none => exact Iff.rfl
  | some x => rw [Past, Past, h.done]

theorem Relaxed.time_eq {L' : Labels V T} {u : Option V} {v : V} {a : T} (h : Relaxed L u v a L')
    (hnf : ¬ Fixed L cur v) {w : Option V} (hw : Past L cur w ∨ w = cur) : L'.time N w = L.time N w := by
  cases w with
  | none => rfl
  | some x =>
    have hfix : Fixed L cur x := hw.imp_right Eq.symm
    exact h.dist_other x (fun he => hnf (he ▸ hfix))

theorem Relaxed.tried_iff {L' : Labels V T} {u : Option V} {v : V} {a : T} (h : Relaxed L u v a L') (w : Option V)
    (d : V) : Tried L' cur seen w d ↔ Tried L cur seen w d := or_congr_left (h.past_iff w)

/-- Every step from a vertex dealt with has been tried. -/
theorem tried_of_dealt (hall : ∀ v a, N.step cur v (L.time N cur) = some a → seen v) {w : Option V} {d : V} {b : T}
    (hw : Past L cur w ∨ w = cur) (hstep : N.step w d (L.time N w) = some b) : Tried L cur seen w d := by
  obtain hpast | rfl := hw
  · exact Or.inl hpast
  · exact Or.inr ⟨rfl, hall d b hstep⟩

theorem past_settle [DecidableEq V] {w : V} {u : Option V} :
    Past (EarliestArrival.settle L cur) (some w) u ↔ Past L cur u ∨ u = cur := by
  cases u with
  | none =>
    have hany : cur ≠ none ∨ none = cur := by
      cases cur <;> simp
    exact iff_of_true (by simp [Past]) hany
  | some x => exact (settle_done L cur x).trans (or_congr_right eq_comm)

variable [LinearOrder T]

/-- When a vertex is reached first; the source is there from the start. -/
def Earliest (N : Network V T) (u : Option V) (t : T) : Prop :=
  (∃ p, arrive N none N.start p = some t ∧ endpoint none p = u) ∧
    ∀ p b, arrive N none N.start p = some b → endpoint none p = u → t ≤ b

/-- A vertex that is reached at a time only from vertices reached at that same time. -/
def AtOnce (N : Network V T) : Option V → T → Prop
  | none, _ => False
  | some v, t => ∀ p t', arrive N none N.start p = some t' → N.step (endpoint none p) v t' = some t → t' = t

def place (rank : V → K) : Option V → WithBot K
  | none => ⊥
  | some v => rank v

variable [LinearOrder K]

/-- Vertices are dealt with by time and then by rank; one that is reached at once may have to wait. -/
def Precedes (N : Network V T) (rank : V → K) (u : Option V) (t : T) (w : Option V) (t' : T) : Prop :=
  t < t' ∨ t = t' ∧ (place rank u < place rank w ∨ AtOnce N w t')

/-- Of the steps by which the vertices in `S` are reached at `a`, the one that is tried first. -/
structure Foremost (N : Network V T) (rank : V → K) (S : V → Prop) (a : T) (u : Option V) (t : T) (v : V) :
    Prop where
  reached : Earliest N u t
  member : S v
  step : N.step u v t = some a
  same : ∀ d, S d → N.step u d t = some a → rank v ≤ rank d
  other : ∀ w, w ≠ u → ∀ d t', S d → Earliest N w t' → N.step w d t' = some a → Precedes N rank u t w t'

/-- A path each of whose vertices is reached as early as possible and by the first step that does so. -/
inductive Chosen (N : Network V T) (rank : V → K) : Option V → List V → Prop
  | source : Chosen N rank none []
  | via {u : Option V} {p : List V} {v : V} {t a : T} (hp : Chosen N rank u p)
      (hv : Earliest N (some v) a) (hstep : Foremost N rank (fun d => d = v) a u t v) :
    Chosen N rank (some v) (p ++ [v])

/-- The path to a target that is kept in the end. -/
structure Preferred (N : Network V T) (rank : V → K) (target : V → Prop) (p : List V) (a : T) : Prop where
  chosen : ∃ q u t v, p = q ++ [v] ∧ Chosen N rank u q ∧ Foremost N rank target a u t v
  earliest : ∀ q b d, arrive N none N.start q = some b → endpoint none q = some d → target d → a ≤ b

variable {rank : V → K} {target : V → Prop} {H : T} {best : T} {final : Option V}

theorem Earliest.unique {u : Option V} {t t' : T} (h : Earliest N u t) (h' : Earliest N u t') : t = t' := by
  obtain ⟨⟨p, hp, hu⟩, hle⟩ := h
  obtain ⟨⟨p', hp', hu'⟩, hle'⟩ := h'
  exact le_antisymm (hle p' t' hp' hu') (hle' p t hp hu)

theorem endpoint_eq_none {u : Option V} {p : List V} (h : endpoint u p = none) : p = [] := by
  induction p generalizing u with
  | nil => rfl
  | cons v rest ih =>
    obtain rfl := ih (u := some v) h
    cases h

theorem earliest_source : Earliest N none N.start := by
  refine ⟨⟨[], rfl, rfl⟩, fun p b hp hn => ?_⟩
  obtain rfl := endpoint_eq_none hn
  exact (Option.some.inj hp).le

/-- Where every step takes time, nothing is reached at once. -/
theorem Earliest.not_atOnce (hpos : ∀ u v t a, N.step u v t = some a → t < a) {w : Option V} {t : T}
    (h : Earliest N w t) : ¬ AtOnce N w t := by
  intro honce
  obtain ⟨⟨p, hp, hend⟩, -⟩ := h
  cases w with
  | none => exact honce
  | some v =>
    obtain rfl | ⟨q, x, rfl⟩ := List.eq_nil_or_concat' p
    · cases hend
    · rw [endpoint_concat] at hend
      obtain rfl := Option.some.inj hend
      rw [arrive_append] at hp
      obtain ⟨b, hb, hr⟩ := Option.bind_eq_some_iff.mp hp
      obtain ⟨a, ha, hat⟩ := Option.bind_eq_some_iff.mp hr
      obtain rfl := Option.some.inj hat
      exact absurd (honce q b hb ha) (hpos _ _ b a ha).ne

theorem Earliest.source_eq {t : T} (h : Earliest N none t) : t = N.start := h.unique earliest_source

/-- No step tried so far that reaches `S` at `b` was tried before the one from `u` to `v`. -/
structure FirstOf (N : Network V T) (rank : V → K) (L : Labels V T) (cur : Option V) (seen : V → Prop)
    (S : V → Prop) (b : T) (u : Option V) (v : V) : Prop where
  same : ∀ d, S d → Tried L cur seen u d → N.step u d (L.time N u) = some b → rank v ≤ rank d
  other : ∀ w, w ≠ u → ∀ d, S d → Tried L cur seen w d → N.step w d (L.time N w) = some b →
    Precedes N rank u (L.time N u) w (L.time N w)

/-- The order in which the vertices have been dealt with, and what it says of the steps recorded. -/
structure Ordered (N : Network V T) (rank : V → K) (target : V → Prop) (H : T) (L : Labels V T)
    (cur : Option V) (seen : V → Prop) (best : T) (final : Option V) : Prop where
  behind : ∀ u, Past L cur u → Precedes N rank u (L.time N u) cur (L.time N cur)
  ahead : ∀ u, Past L cur u ∨ u = cur → ∀ x, ¬ Fixed L cur x → Earliest N (some x) (L.time N u) →
    AtOnce N (some x) (L.time N u) ∨ place rank u < rank x
  tried : ∀ v u, L.dist v < H → L.pred v = some u → Tried L cur seen u v
  pred_first : ∀ v u, L.dist v < H → L.pred v = some u →
    FirstOf N rank L cur seen (fun d => d = v) (L.dist v) u v
  final_first : ∀ v u, final = some v → L.pred v = some u → FirstOf N rank L cur seen target best u v

theorem Inv.past_lt (hI : Inv N H L cur seen) {v : V} (h : Past L cur (some v) ∨ some v = cur) :
    L.dist v < H := by
  cases h with
  | inl h => exact hI.done_lt v h
  | inr h => exact (hI.cur_open v h.symm).2

/-- A labelled vertex is reached at its label, as soon as no open vertex has an earlier one. -/
theorem Inv.earliest [DecidableEq V] (hI : Inv N H L cur seen) (hF : Fifo N)
    (hall : ∀ v a, N.step cur v (L.time N cur) = some a → seen v) {v : V} (hv : L.dist v < H)
    (hmin : ∀ x, (EarliestArrival.settle L cur).done x = false → L.dist x < H → L.dist v ≤ L.dist x) :
    Earliest N (some v) (L.dist v) := by
  obtain ⟨hsource, hrel⟩ := hI.settled hall
  obtain ⟨p, hp, -⟩ := hI.trail v hv
  refine ⟨⟨p ++ [v], hp.arrive⟩, fun q b hq hend => ?_⟩
  by_contra hlt
  have hb : b < L.dist v := not_le.mp hlt
  obtain ⟨-, hle⟩ | ⟨x, hx, hxH, hle⟩ := reached hF hsource hrel (by simp)
    (show (EarliestArrival.settle L cur).time N none ≤ N.start from le_rfl) hq (hb.trans hv)
  · rw [hend, settle_time] at hle
    exact hlt hle
  · rw [settle_dist] at hxH hle
    exact hlt ((hmin x hx hxH).trans hle)

/-- What is reached before every open vertex has been dealt with, and its label is no later. -/
theorem Inv.dealt_le [DecidableEq V] (hI : Inv N H L cur seen) (hF : Fifo N)
    (hall : ∀ v a, N.step cur v (L.time N cur) = some a → seen v) {q : List V} {t : T}
    (hq : arrive N none N.start q = some t) (ht : t < H)
    (hopen : ∀ x, (EarliestArrival.settle L cur).done x = false → L.dist x < H → t < L.dist x) :
    (Past L cur (endpoint none q) ∨ endpoint none q = cur) ∧ L.time N (endpoint none q) ≤ t := by
  obtain ⟨hsource, hrel⟩ := hI.settled hall
  obtain ⟨hdone, hle⟩ | ⟨x, hx, hxH, hle⟩ := reached hF hsource hrel (by simp)
    (show (EarliestArrival.settle L cur).time N none ≤ N.start from le_rfl) hq ht
  · rw [settle_time] at hle
    refine ⟨?_, hle⟩
    cases hend : endpoint none q with
    | none =>
      by_cases hc : cur = none
      · exact Or.inr hc.symm
      · exact Or.inl hc
    | some v => exact ((settle_done L cur v).mp (hdone v hend)).imp_right Eq.symm
  · rw [settle_dist] at hxH hle
    exact absurd (hopen x hx hxH) (not_lt.mpr hle)

theorem Inv.dealt [DecidableEq V] (hI : Inv N H L cur seen) (hF : Fifo N)
    (hall : ∀ v a, N.step cur v (L.time N cur) = some a → seen v) {w : Option V} {t : T}
    (hw : Earliest N w t) (ht : t < H)
    (hopen : ∀ x, (EarliestArrival.settle L cur).done x = false → L.dist x < H → t < L.dist x) :
    (Past L cur w ∨ w = cur) ∧ L.time N w = t := by
  obtain ⟨⟨q, hq, rfl⟩, hleast⟩ := hw
  obtain ⟨hdealt, hle⟩ := hI.dealt_le hF hall hq ht hopen
  refine ⟨hdealt, le_antisymm hle ?_⟩
  cases hend : endpoint none q with
  | none => exact hleast [] _ rfl hend.symm
  | some v =>
    rw [hend] at hdealt hleast
    obtain ⟨p, hp, -⟩ := hI.trail v (hI.past_lt hdealt)
    exact hleast _ _ hp.arrive.1 hp.arrive.2

/-- A step that has been tried has brought the label down. -/
theorem Inv.tried_le (hI : Inv N H L cur seen) {w : Option V} {d : V} {b : T} (h : Tried L cur seen w d)
    (hstep : N.step w d (L.time N w) = some b) (hb : b < H) : L.dist d ≤ b := by
  cases h with
  | inl hpast =>
    cases w with
    | none => exact hI.relaxed_source hpast d b hstep hb
    | some v => exact hI.relaxed v hpast d b hstep hb
  | inr hcur =>
    obtain ⟨rfl, hseen⟩ := hcur
    exact hI.relaxed_cur d hseen b hstep hb

/-- One more step from the current vertex comes after the steps that have been recorded. -/
theorem FirstOf.see {S : V → Prop} {b : T} {u : Option V} {x v : V} (h : FirstOf N rank L cur seen S b u x)
    (hbehind : ∀ u, Past L cur u → Precedes N rank u (L.time N u) cur (L.time N cur))
    (htried : Tried L cur seen u x) (hsorted : ∀ d, seen d → rank d ≤ rank v) :
    FirstOf N rank L cur (fun d => seen d ∨ d = v) S b u x where
  same := by
    rintro d hd (hpast | ⟨rfl, hseen | rfl⟩) hstep
    · exact h.same d hd (Or.inl hpast) hstep
    · exact h.same d hd (Or.inr ⟨rfl, hseen⟩) hstep
    · cases htried with
      | inl hpast => exact h.same d hd (Or.inl hpast) hstep
      | inr hcur => exact hsorted x hcur.2
  other := by
    rintro w hw d hd (hpast | ⟨rfl, hseen | rfl⟩) hstep
    · exact h.other w hw d hd (Or.inl hpast) hstep
    · exact h.other w hw d hd (Or.inr ⟨rfl, hseen⟩) hstep
    · cases htried with
      | inl hpast => exact hbehind u hpast
      | inr hcur => exact absurd hcur.1.symm hw

/-- A useless step changes no record. -/
theorem Ordered.see (hO : Ordered N rank target H L cur seen best final) {v : V}
    (hsorted : ∀ d, seen d → rank d ≤ rank v) (hfinal : ∀ x, final = some x → L.dist x < H) :
    Ordered N rank target H L cur (fun d => seen d ∨ d = v) best final where
  behind := hO.behind
  ahead := hO.ahead
  tried x u hx hu := (hO.tried x u hx hu).see v
  pred_first x u hx hu := (hO.pred_first x u hx hu).see hO.behind (hO.tried x u hx hu) hsorted
  final_first x u hx hu := (hO.final_first x u hx hu).see hO.behind (hO.tried x u (hfinal x hx) hu) hsorted

/-- A label that is improved is none of those dealt with. -/
theorem Inv.not_fixed (hI : Inv N H L cur seen) (hF : Fifo N) {v : V} {a : T}
    (hstep : N.step cur v (L.time N cur) = some a) (hlt : a < L.dist v) : ¬ Fixed L cur v := fun hf =>
  absurd hlt (not_lt.mpr ((hI.fixed_le hf).trans (hF.le_step cur v _ a hstep)))

theorem FirstOf.relaxed {L' : Labels V T} {v : V} {a : T} (hr : Relaxed L cur v a L') (hnf : ¬ Fixed L cur v)
    {S : V → Prop} {b : T} {u : Option V} {x : V} (hu : Past L cur u ∨ u = cur)
    (h : FirstOf N rank L cur seen S b u x) : FirstOf N rank L' cur seen S b u x where
  same d hd ht hstep := by
    rw [hr.time_eq hnf hu] at hstep
    exact h.same d hd ((hr.tried_iff u d).mp ht) hstep
  other w hw d hd ht hstep := by
    have ht' := (hr.tried_iff w d).mp ht
    rw [hr.time_eq hnf ht'.dealt] at hstep ⊢
    rw [hr.time_eq hnf hu]
    exact h.other w hw d hd ht' hstep

/-- A step that gives `S` a better arrival than all those tried before is the first that does. -/
theorem FirstOf.improved {L' : Labels V T} {v : V} {a : T} (hr : Relaxed L cur v a L') (hnf : ¬ Fixed L cur v)
    {S : V → Prop} (hbetter : ∀ w d b, S d → Tried L cur seen w d → N.step w d (L.time N w) = some b → a < b) :
    FirstOf N rank L' cur (fun d => seen d ∨ d = v) S a cur v := by
  have hnone : ∀ w d, S d → Tried L cur seen w d → N.step w d (L'.time N w) ≠ some a := by
    intro w d hd ht hstep
    rw [hr.time_eq hnf ht.dealt] at hstep
    exact lt_irrefl a (hbetter w d a hd ht hstep)
  constructor
  · rintro d hd (hpast | ⟨-, hseen | rfl⟩) hstep
    · exact absurd hstep (hnone cur d hd (Or.inl ((hr.past_iff cur).mp hpast)))
    · exact absurd hstep (hnone cur d hd (Or.inr ⟨rfl, hseen⟩))
    · exact le_rfl
  · rintro w hw d hd (hpast | ⟨rfl, -⟩) hstep
    · exact absurd hstep (hnone w d hd (Or.inl ((hr.past_iff w).mp hpast)))
    · exact absurd rfl hw

theorem Ordered.init (hH : ∀ v, L.dist v = H) (hdone : ∀ v, L.done v = false) :
    Ordered N rank target H L none (fun _ => False) best none where
  behind u hu := by
    cases u with
    | none => exact absurd rfl hu
    | some v =>
      rw [Past, hdone v] at hu
      cases hu
  ahead u hu x _ _ := by
    cases u with
    | none => exact Or.inr (WithBot.bot_lt_coe _)
    | some v =>
      cases hu with
      | inl hu =>
        rw [Past, hdone v] at hu
        cases hu
      | inr hu => cases hu
  tried v _ h := absurd h (by rw [hH v]; exact lt_irrefl _)
  pred_first v _ h := absurd h (by rw [hH v]; exact lt_irrefl _)
  final_first _ _ h := by cases h

section

variable [DecidableEq V]

/-- An improved label leaves the other records alone, and its own step is the first to give it. -/
theorem Ordered.improved (hO : Ordered N rank target H L cur seen best final) (hI : Inv N H L cur seen)
    (hF : Fifo N) {v : V} (hsee : Ordered N rank target H L cur (fun d => seen d ∨ d = v) best final) {a : T}
    (hstep : N.step cur v (L.time N cur) = some a) (hlt : a < L.dist v) {L' : Labels V T}
    (hr : Relaxed L cur v a L') {b : T} {f : Option V}
    (hfinal : ∀ x u, f = some x → L'.pred x = some u →
      FirstOf N rank L' cur (fun d => seen d ∨ d = v) target b u x) :
    Ordered N rank target H L' cur (fun d => seen d ∨ d = v) b f := by
  have hnf := hI.not_fixed hF hstep hlt
  have haH : a < H := hlt.trans_le (hI.ceiling v)
  refine ⟨?_, ?_, ?_, ?_, hfinal⟩
  · intro u hu
    have hpast := (hr.past_iff u).mp hu
    rw [hr.time_eq hnf (Or.inl hpast), hr.time_eq hnf (Or.inr rfl)]
    exact hO.behind u hpast
  · intro u hu x hx hearly
    have hpast : Past L cur u ∨ u = cur := hu.imp_left (hr.past_iff u).mp
    rw [hr.time_eq hnf hpast] at hearly ⊢
    refine hO.ahead u hpast x (fun hf => hx (hf.imp_left ?_)) hearly
    rw [hr.done]
    exact id
  · intro x u hx hu
    by_cases hxv : x = v
    · rw [hxv, hr.pred_self, Option.some.injEq] at hu
      exact Or.inr ⟨hu.symm, Or.inr hxv⟩
    · rw [hr.dist_other x hxv] at hx
      rw [hr.pred_other x hxv] at hu
      exact (hr.tried_iff u x).mpr (hsee.tried x u hx hu)
  · intro x u hx hu
    by_cases hxv : x = v
    · subst hxv
      rw [hr.pred_self, Option.some.injEq] at hu
      rw [← hu, hr.dist_self]
      refine FirstOf.improved hr hnf ?_
      rintro w d b rfl ht hb
      by_contra hle
      exact absurd (hlt.trans_le (hI.tried_le ht hb ((not_lt.mp hle).trans_lt haH))) hle
    · rw [hr.dist_other x hxv] at hx ⊢
      rw [hr.pred_other x hxv] at hu
      exact (hsee.pred_first x u hx hu).relaxed hr hnf (hO.tried x u hx hu).dealt

/-- What trying a step makes of the records, when the steps are tried by rank. -/
theorem Ordered.attempt (hO : Ordered N rank target H L cur seen best final) (hI : Inv N H L cur seen)
    (hF : Fifo N) (hB : Best target H L best final) {v : V} (hsorted : ∀ d, seen d → rank d ≤ rank v)
    {L' : Labels V T} {best' : T} {final' : Option V}
    (h : Attempt N target L best final cur v L' best' final') :
    Ordered N rank target H L' cur (fun d => seen d ∨ d = v) best' final' := by
  have hlabelled : ∀ x, final = some x → L.dist x < H := fun x hx => by
    obtain ⟨-, hd, hb⟩ := hB.attained x hx
    exact hd ▸ hb
  have hsee := hO.see hsorted hlabelled
  cases h with
  | useless h => exact hsee
  | better hstep hlt hworse =>
    refine hO.improved hI hF hsee hstep hlt (relaxed_of_lt hlt) ?_
    intro x u hx hu
    have hr : Relaxed L cur v _ _ := relaxed_of_lt (u := cur) hlt
    obtain ⟨htarget, hd, -⟩ := hB.attained x hx
    have hxv : x ≠ v := by
      rintro rfl
      exact absurd (hd ▸ hlt) (not_lt.mpr (hworse htarget))
    rw [hr.pred_other x hxv] at hu
    exact (hsee.final_first x u hx hu).relaxed hr (hI.not_fixed hF hstep hlt)
      (hO.tried x u (hlabelled x hx) hu).dealt
  | best hstep hlt htarget hbest =>
    refine hO.improved hI hF hsee hstep hlt (relaxed_of_lt hlt) ?_
    intro x u hx hu
    have hr : Relaxed L cur v _ _ := relaxed_of_lt (u := cur) hlt
    obtain rfl := Option.some.inj hx
    rw [hr.pred_self, Option.some.injEq] at hu
    rw [← hu]
    refine FirstOf.improved hr (hI.not_fixed hF hstep hlt) ?_
    intro w d b hd ht hb
    by_contra hle
    have hbH : b < H := (not_lt.mp hle).trans_lt (hlt.trans_le (hI.ceiling v))
    have hdb := hI.tried_le ht hb hbH
    exact hle (hbest.trans_le ((hB.le_target d hd (hdb.trans_lt hbH)).trans hdb))

theorem FirstOf.settle (hall : ∀ v a, N.step cur v (L.time N cur) = some a → seen v) {S : V → Prop} {b : T}
    {u : Option V} {x w : V} (h : FirstOf N rank L cur seen S b u x) :
    FirstOf N rank (EarliestArrival.settle L cur) (some w) (fun _ => False) S b u x where
  same d hd ht hstep := by
    rw [settle_time] at hstep
    obtain hpast | ⟨-, hno⟩ := ht
    · exact h.same d hd (tried_of_dealt hall (past_settle.mp hpast) hstep) hstep
    · exact hno.elim
  other y hy d hd ht hstep := by
    rw [settle_time] at hstep
    rw [settle_time, settle_time]
    obtain hpast | ⟨-, hno⟩ := ht
    · exact h.other y hy d hd (tried_of_dealt hall (past_settle.mp hpast) hstep) hstep
    · exact hno.elim

/-- Dealing next with the first of the open vertices of least label keeps the order. -/
theorem Ordered.settle (hO : Ordered N rank target H L cur seen best final) (hI : Inv N H L cur seen)
    (hF : Fifo N) (hall : ∀ v a, N.step cur v (L.time N cur) = some a → seen v) {w : V}
    (hw : (EarliestArrival.settle L cur).done w = false) (hwH : L.dist w < H)
    (hmin : ∀ v, (EarliestArrival.settle L cur).done v = false → L.dist v < H → L.dist w ≤ L.dist v)
    (hfirst : ∀ v, (EarliestArrival.settle L cur).done v = false → v ≠ w → L.dist v = L.dist w → rank w < rank v) :
    Ordered N rank target H (EarliestArrival.settle L cur) (some w) (fun _ => False) best final := by
  have hearly : Earliest N (some w) (L.dist w) := hI.earliest hF hall hwH hmin
  have hopen : ∀ v, ¬ Fixed (EarliestArrival.settle L cur) (some w) v → ¬ Fixed L cur v ∧ v ≠ w ∧
      (EarliestArrival.settle L cur).done v = false := by
    intro v hv
    obtain ⟨hdone, hne⟩ := not_or.mp hv
    exact ⟨fun hf => hdone ((settle_done L cur v).mpr hf), fun he => hne (congrArg some he.symm),
      Bool.eq_false_iff.mpr hdone⟩
  have hle : ∀ u, Past L cur u ∨ u = cur → L.time N u ≤ L.dist w := by
    intro u hu
    have hcw : L.time N cur ≤ L.dist w := by
      refine hI.le_open w (Bool.eq_false_iff.mpr (fun hd => ?_)) hwH
      rw [(settle_done L cur w).mpr (Or.inl hd)] at hw
      cases hw
    cases u with
    | none => exact hI.start_le.trans hcw
    | some v => exact (hI.fixed_le (hu.imp_right Eq.symm)).trans hcw
  have hwf : ¬ Fixed L cur w := fun hf => by
    rw [(settle_done L cur w).mpr hf] at hw
    cases hw
  refine ⟨?_, ?_, ?_, ?_, ?_⟩
  · intro u hu
    have hdealt := past_settle.mp hu
    rw [settle_time, settle_time, show L.time N (some w) = L.dist w from rfl]
    obtain hlt | heq := lt_or_eq_of_le (hle u hdealt)
    · exact Or.inl hlt
    · exact Or.inr ⟨heq, (hO.ahead u hdealt w hwf (heq ▸ hearly)).symm.imp_right (fun h => heq ▸ h)⟩
  · rintro u hu x hx hxe
    obtain ⟨hxf, hxw, hxopen⟩ := hopen x hx
    rw [settle_time] at hxe ⊢
    obtain hpast | rfl := hu
    · exact hO.ahead u (past_settle.mp hpast) x hxf hxe
    · -- a vertex before `x` that is reached earlier has been dealt with, so `x` had its label already
      by_cases honce : AtOnce N (some x) (L.dist w)
      · exact Or.inl honce
      right
      simp only [AtOnce, not_forall] at honce
      obtain ⟨q, t, hq, hstep, hne⟩ := honce
      have hlt : t < L.dist w := lt_of_le_of_ne (hF.le_step _ x t _ hstep) hne
      obtain ⟨hdealt, hle⟩ := hI.dealt_le hF hall hq (hlt.trans hwH)
        (fun v hv hvH => hlt.trans_le (hmin v hv hvH))
      obtain ⟨b, hb, hbw⟩ := hF.step_mono _ x t _ _ hstep hle
      have hxle : L.dist x ≤ L.dist w :=
        (hI.tried_le (tried_of_dealt hall hdealt hb) hb (hbw.trans_lt hwH)).trans hbw
      have hxeq : L.dist x = L.dist w := le_antisymm hxle (hmin x hxopen (hxle.trans_lt hwH))
      exact WithBot.coe_lt_coe.mpr (hfirst x hxopen hxw hxeq)
  · intro v u hv hu
    rw [settle_dist] at hv
    rw [settle_pred] at hu
    exact Or.inl (past_settle.mpr (hO.tried v u hv hu).dealt)
  · intro v u hv hu
    rw [settle_dist] at hv ⊢
    rw [settle_pred] at hu
    exact (hO.pred_first v u hv hu).settle hall
  · intro v u hv hu
    rw [settle_pred] at hu
    exact (hO.final_first v u hv hu).settle hall

/-- Up to a bound before which every open vertex has been dealt with, the step recorded is the
foremost of all. -/
theorem FirstOf.foremost (hI : Inv N H L cur seen) (hF : Fifo N)
    (hall : ∀ v a, N.step cur v (L.time N cur) = some a → seen v) {b : T} (hbH : b < H)
    (hopen : ∀ x, (EarliestArrival.settle L cur).done x = false → L.dist x < H → b < L.dist x) {S : V → Prop}
    {u : Option V} {v : V} (hv : S v) (hu : Earliest N u (L.time N u)) (hstep : N.step u v (L.time N u) = some b)
    (h : FirstOf N rank L cur seen S b u v) : Foremost N rank S b u (L.time N u) v := by
  have hdealt : ∀ w d t, Earliest N w t → N.step w d t = some b →
      (Past L cur w ∨ w = cur) ∧ L.time N w = t := by
    intro w d t hw hb
    have htb := hF.le_step w d t b hb
    exact hI.dealt hF hall hw (htb.trans_lt hbH) (fun x hx hxH => htb.trans_lt (hopen x hx hxH))
  refine ⟨hu, hv, hstep, ?_, ?_⟩
  · intro d hd hb
    exact h.same d hd (tried_of_dealt hall (hdealt u d _ hu hb).1 hb) hb
  · intro w hw d t hd hwe hb
    obtain ⟨hpast, rfl⟩ := hdealt w d t hwe hb
    exact h.other w hw d hd (tried_of_dealt hall hpast hb) hb

/-- A trail within such a bound is a chosen path. -/
theorem Trail.chosen (hO : Ordered N rank target H L cur seen best final) (hI : Inv N H L cur seen) (hF : Fifo N)
    (hall : ∀ v a, N.step cur v (L.time N cur) = some a → seen v) {b : T} (hbH : b < H)
    (hopen : ∀ x, (EarliestArrival.settle L cur).done x = false → L.dist x < H → b < L.dist x) {u : Option V}
    {p : List V} (hp : Trail N L u p) (hle : ∀ x ∈ p, L.dist x ≤ b) :
    Chosen N rank u p ∧ Earliest N u (L.time N u) := by
  induction hp with
  | source => exact ⟨Chosen.source, earliest_source⟩
  | @via u p v hp hpred hstep hnew ih =>
    obtain ⟨hchosen, hu⟩ := ih (fun x hx => hle x (List.mem_append_left _ hx))
    have hvb : L.dist v ≤ b := hle v (List.mem_append_right _ (List.mem_singleton_self v))
    have hopenv : ∀ x, (EarliestArrival.settle L cur).done x = false → L.dist x < H → L.dist v < L.dist x :=
      fun x hx hxH => hvb.trans_lt (hopen x hx hxH)
    have hv : Earliest N (some v) (L.dist v) :=
      hI.earliest hF hall (hvb.trans_lt hbH) (fun x hx hxH => (hopenv x hx hxH).le)
    have hfirst := hO.pred_first v u (hvb.trans_lt hbH) hpred
    exact ⟨hchosen.via hv (hfirst.foremost hI hF hall (hvb.trans_lt hbH) hopenv rfl hu hstep), hv⟩

/-- The path that is kept when no open vertex could still lead to the best target. -/
theorem Ordered.preferred (hO : Ordered N rank target H L cur seen best final) (hI : Inv N H L cur seen)
    (hF : Fifo N) (hB : Best target H L best final)
    (hall : ∀ v a, N.step cur v (L.time N cur) = some a → seen v)
    (hopen : ∀ x, (EarliestArrival.settle L cur).done x = false → L.dist x < H → best < L.dist x) {v : V}
    (hv : final = some v) {p : List V} (hp : Trail N L (some v) p) : Preferred N rank target p best := by
  obtain ⟨htarget, hdist, hbest⟩ := hB.attained v hv
  cases hp with
  | @via u q _ hq hpred hstep hnew =>
    have hle : ∀ x ∈ q, L.dist x ≤ best := fun x hx =>
      hdist ▸ (hq.le hF x hx).trans (hF.le_step u v _ _ hstep)
    obtain ⟨hchosen, hu⟩ := hq.chosen hO hI hF hall hbest hopen hle
    rw [hdist] at hstep
    refine ⟨⟨q, u, _, v, rfl, hchosen,
      (hO.final_first v u hv hpred).foremost hI hF hall hbest hopen htarget hu hstep⟩, ?_⟩
    intro q' b d hq' hend hd
    by_contra hlt
    have hb : b < best := not_le.mp hlt
    obtain ⟨hsource, hrel⟩ := hI.settled hall
    obtain ⟨-, hdb⟩ | ⟨x, hx, hxH, hxb⟩ := reached hF hsource hrel (by simp)
      (show (EarliestArrival.settle L cur).time N none ≤ N.start from le_rfl) hq' (hb.trans hbest)
    · rw [hend, settle_time] at hdb
      exact hlt ((hB.le_target d hd (hdb.trans_lt (hb.trans hbest))).trans hdb)
    · rw [settle_dist] at hxH hxb
      exact hlt ((hopen x hx hxH).le.trans hxb)

end

theorem Chosen.arrive {u : Option V} {p : List V} {t : T} (h : Chosen N rank u p) (hu : Earliest N u t) :
    arrive N none N.start p = some t ∧ endpoint none p = u := by
  induction h generalizing t with
  | source => exact ⟨congrArg some hu.source_eq.symm, rfl⟩
  | @via u p v s a hp hv hstep ih =>
    obtain ⟨hs, hend⟩ := ih hstep.reached
    obtain rfl := hv.unique hu
    refine ⟨?_, endpoint_concat _ _ _⟩
    rw [arrive_append, hs, hend, Option.bind_some, EarliestArrival.arrive, hstep.step]
    rfl

theorem Preferred.arrive {p : List V} {a : T} (h : Preferred N rank target p a) :
    arrive N none N.start p = some a ∧ ∃ v, endpoint none p = some v ∧ target v := by
  obtain ⟨q, u, t, v, rfl, hchosen, hlast⟩ := h.chosen
  obtain ⟨hs, hend⟩ := hchosen.arrive hlast.reached
  refine ⟨?_, v, endpoint_concat _ _ _, hlast.member⟩
  rw [arrive_append, hs, hend, Option.bind_some, EarliestArrival.arrive, hlast.step]
  rfl

section

/-! Where no vertex is reached at once and no two have the same rank, there is no choice. -/

variable (honce : ∀ w t, Earliest N w t → ¬ AtOnce N w t)
  (hrank : ∀ u x t a u' x' t' a', N.step u x t = some a → N.step u' x' t' = some a' → rank x = rank x' → x = x')

include honce hrank

theorem Foremost.unique {S : V → Prop} {a : T} {u u' : Option V} {t t' : T} {v v' : V}
    (h : Foremost N rank S a u t v) (h' : Foremost N rank S a u' t' v') : u = u' ∧ v = v' := by
  have hu : u = u' := by
    by_contra hne
    have hlt := h.other u' (Ne.symm hne) v' t' h'.member h'.reached h'.step
    have hgt := h'.other u hne v t h.member h.reached h.step
    obtain hlt | ⟨rfl, hlt | hno⟩ := hlt
    · obtain hgt | ⟨rfl, -⟩ := hgt
      · exact lt_asymm hlt hgt
      · exact lt_irrefl _ hlt
    · obtain hgt | ⟨-, hgt | hno⟩ := hgt
      · exact lt_irrefl _ hgt
      · exact lt_asymm hlt hgt
      · exact honce u t h.reached hno
    · exact honce u' t h'.reached hno
  subst hu
  obtain rfl := h.reached.unique h'.reached
  exact ⟨rfl, hrank u v t a u v' t a h.step h'.step
    (le_antisymm (h.same v' h'.member h'.step) (h'.same v h.member h.step))⟩

theorem Chosen.unique {u : Option V} {p p' : List V} (h : Chosen N rank u p) (h' : Chosen N rank u p') : p = p' := by
  induction h generalizing p' with
  | source =>
    cases h' with
    | source => rfl
  | via hp hv hstep ih =>
    cases h' with
    | via hp' hv' hstep' =>
      obtain rfl := hv.unique hv'
      obtain ⟨rfl, -⟩ := hstep.unique honce hrank hstep'
      rw [ih hp']

theorem Preferred.unique {p p' : List V} {a a' : T} (h : Preferred N rank target p a)
    (h' : Preferred N rank target p' a') : p = p' := by
  obtain ⟨harr, v, hend, hv⟩ := h.arrive
  obtain ⟨harr', v', hend', hv'⟩ := h'.arrive
  obtain rfl : a = a' := le_antisymm (h.earliest p' a' v' harr' hend' hv') (h'.earliest p a v harr hend hv)
  obtain ⟨q, u, t, x, rfl, hchosen, hlast⟩ := h.chosen
  obtain ⟨q', u', t', x', rfl, hchosen', hlast'⟩ := h'.chosen
  obtain ⟨rfl, rfl⟩ := hlast.unique honce hrank hlast'
  rw [hchosen.unique honce hrank hchosen']

end

end EarliestArrival
