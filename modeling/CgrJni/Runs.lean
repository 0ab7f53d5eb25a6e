import Mathlib

/-!
Runs of a partial step function over a list of inputs, and fuelled loops. A
step or a loop that does not come to an end yields `none`.
-/

namespace Runs

variable {σ ι ρ : Type}

def run (step : σ → ι → Option σ) : σ → List ι → Option σ
  | s, [] => some s
  | s, i :: rest => (step s i).bind (fun t => run step t rest)

/-- Every step of the run that is actually taken meets a condition on the state before it. -/
def StepsMeet (step : σ → ι → Option σ) (ok : σ → ι → Prop) : σ → List ι → Prop
  | _, [] => True
  | s, i :: rest => ok s i ∧ ∀ t, step s i = some t → StepsMeet step ok t rest

instance decidableStepsMeet {step : σ → ι → Option σ} {ok : σ → ι → Prop} [∀ s i, Decidable (ok s i)] :
    ∀ (s : σ) (is : List ι), Decidable (StepsMeet step ok s is)
  | _, [] => isTrue trivial
  | s, i :: rest =>
    match h : step s i with
    | none => decidable_of_iff (ok s i)
        ⟨fun hok => ⟨hok, fun t ht => absurd (h.symm.trans ht) (Option.some_ne_none t).symm⟩, And.left⟩
    | some t =>
      have : Decidable (StepsMeet step ok t rest) := decidableStepsMeet t rest
      decidable_of_iff (ok s i ∧ StepsMeet step ok t rest)
        ⟨fun hok => ⟨hok.1, fun _ hu => Option.some.inj (h.symm.trans hu) ▸ hok.2⟩, fun hok => ⟨hok.1, hok.2 t h⟩⟩

/-- The states met on the way, the first and the last included, all satisfy a property. -/
def Throughout (step : σ → ι → Option σ) (P : σ → Prop) (s : σ) (is : List ι) : Prop :=
  ∀ pre post t, is = pre ++ post → run step s pre = some t → P t

variable {step : σ → ι → Option σ} {ok : σ → ι → Prop} {P I : σ → Prop}

@[simp] theorem run_nil (s : σ) : run step s [] = some s := rfl

@[simp] theorem run_cons (s : σ) (i : ι) (rest : List ι) :
    run step s (i :: rest) = (step s i).bind (fun t => run step t rest) := rfl

theorem run_append (s : σ) (first second : List ι) :
    run step s (first ++ second) = (run step s first).bind (fun t => run step t second) := by
  induction first generalizing s with
  | nil => rfl
  | cons i rest ih =>
    rw [List.cons_append, run_cons, run_cons, Option.bind_assoc]
    exact congrArg (Option.bind (step s i)) (funext ih)

/-- What every step preserves, every run preserves. -/
theorem run_invariant (hstep : ∀ s i t, I s → step s i = some t → I t) (is : List ι) (s t : σ)
    (hs : I s) (h : run step s is = some t) : I t := by
  induction is generalizing s with
  | nil =>
    rw [run_nil] at h
    exact Option.some.inj h ▸ hs
  | cons i rest ih =>
    rw [run_cons, Option.bind_eq_some_iff] at h
    obtain ⟨u, hu, hr⟩ := h
    exact ih u (hstep s i u hs hu) hr

/-- A run of conforming steps preserves what conforming steps preserve. -/
theorem run_conforming (hstep : ∀ s i t, I s → ok s i → step s i = some t → I t)
    (is : List ι) (s t : σ) (hs : I s) (hok : StepsMeet step ok s is)
    (h : run step s is = some t) : I t := by
  induction is generalizing s with
  | nil =>
    rw [run_nil] at h
    exact Option.some.inj h ▸ hs
  | cons i rest ih =>
    rw [run_cons, Option.bind_eq_some_iff] at h
    obtain ⟨u, hu, hr⟩ := h
    exact ih u (hstep s i u hs hok.1 hu) (hok.2 u hu) hr

/-- A simulation that skips inputs: where the other inputs are followed step by step, and
those that are skipped leave the states related, the run of the other inputs follows. -/
theorem run_filter {τ : Type} {step' : τ → ι → Option τ} {R : σ → τ → Prop} (keep : ι → Bool)
    (hkept : ∀ s i s' t, R s t → keep i = true → ok s i → step s i = some s' → ∃ t', step' t i = some t' ∧ R s' t')
    (hskipped : ∀ s i s' t, R s t → keep i = false → ok s i → step s i = some s' → R s' t)
    (is : List ι) (s s' : σ) (t : τ) (hR : R s t) (hok : StepsMeet step ok s is)
    (h : run step s is = some s') : ∃ t', run step' t (is.filter keep) = some t' ∧ R s' t' := by
  induction is generalizing s t with
  | nil =>
    rw [run_nil] at h
    exact ⟨t, rfl, Option.some.inj h ▸ hR⟩
  | cons i rest ih =>
    rw [run_cons, Option.bind_eq_some_iff] at h
    obtain ⟨u, hu, hr⟩ := h
    cases hi : keep i with
    | true =>
      obtain ⟨v, hv, hRv⟩ := hkept s i u t hR hi hok.1 hu
      obtain ⟨t', ht', hR'⟩ := ih u v hRv (hok.2 u hu) hr
      refine ⟨t', ?_, hR'⟩
      rw [List.filter_cons_of_pos hi, run_cons, hv]
      exact ht'
    | false =>
      obtain ⟨t', ht', hR'⟩ := ih u t (hskipped s i u t hR hi hok.1 hu) (hok.2 u hu) hr
      refine ⟨t', ?_, hR'⟩
      rw [List.filter_cons_of_neg (by rw [hi]; decide)]
      exact ht'

theorem throughout_nil {s : σ} : Throughout step P s [] ↔ P s := by
  constructor
  · intro h
    exact h [] [] s rfl rfl
  · intro h pre post t he hr
    obtain ⟨rfl, -⟩ := List.append_eq_nil_iff.mp he.symm
    exact Option.some.inj hr ▸ h

theorem throughout_cons {s : σ} {i : ι} {rest : List ι} :
    Throughout step P s (i :: rest) ↔ P s ∧ ∀ t, step s i = some t → Throughout step P t rest := by
  constructor
  · intro h
    refine ⟨h [] (i :: rest) s rfl rfl, ?_⟩
    intro t ht pre post u he hr
    exact h (i :: pre) post u (by rw [he]; rfl) (by rw [run_cons, ht]; exact hr)
  · rintro ⟨hs, hrest⟩ pre post u he hr
    cases pre with
    | nil => exact Option.some.inj hr ▸ hs
    | cons j pre =>
      obtain ⟨hij, hrestEq⟩ := List.cons.inj he
      rw [run_cons, Option.bind_eq_some_iff, ← hij] at hr
      obtain ⟨t, ht, hr⟩ := hr
      exact hrest t ht pre post u hrestEq hr

/-- Where a step keeps the property exactly when it meets the condition, a run
keeps it throughout exactly when all its steps meet the condition. -/
theorem throughout_iff (hkeep : ∀ s i t, I s → step s i = some t → I t)
    (hstep : ∀ s i t, I s → P s → step s i = some t → (P t ↔ ok s i))
    (hnone : ∀ s i, step s i = none → ok s i) (is : List ι) (s : σ) (hI : I s) (hs : P s) :
    Throughout step P s is ↔ StepsMeet step ok s is := by
  induction is generalizing s with
  | nil => simp [throughout_nil, StepsMeet, hs]
  | cons i rest ih =>
    rw [throughout_cons, StepsMeet]
    cases hi : step s i with
    | none => simp [hs, hnone s i hi]
    | some t =>
      simp only [Option.some.injEq, forall_eq']
      constructor
      · rintro ⟨-, ht⟩
        have hPt : P t := ht [] rest t rfl rfl
        exact ⟨(hstep s i t hI hs hi).mp hPt, (ih t (hkeep s i t hI hi) hPt).mp ht⟩
      · rintro ⟨hok, ht⟩
        have hPt : P t := (hstep s i t hI hs hi).mpr hok
        exact ⟨hs, (ih t (hkeep s i t hI hi) hPt).mpr ht⟩

/-- A loop body either goes round again or leaves with a result. -/
def loop (body : σ → σ ⊕ ρ) : Nat → σ → Option ρ
  | 0, _ => none
  | fuel + 1, s =>
    match body s with
    | .inl t => loop body fuel t
    | .inr r => some r

variable {body : σ → σ ⊕ ρ}

theorem loop_inl {s t : σ} {fuel : Nat} (h : body s = .inl t) : loop body (fuel + 1) s = loop body fuel t := by
  simp only [loop, h]

theorem loop_inr {s : σ} {r : ρ} {fuel : Nat} (h : body s = .inr r) : loop body (fuel + 1) s = some r := by
  simp only [loop, h]

/-- From one state the loop comes to another in so many rounds. -/
def Goes (body : σ → σ ⊕ ρ) (rounds : Nat) (s t : σ) : Prop :=
  ∀ fuel, loop body (rounds + fuel) s = loop body fuel t

theorem Goes.refl (s : σ) : Goes body 0 s s := by
  intro fuel
  rw [Nat.zero_add]

theorem Goes.trans {s t u : σ} {m n : Nat} (h : Goes body m s t) (h' : Goes body n t u) :
    Goes body (m + n) s u := by
  intro fuel
  rw [Nat.add_assoc, h, h']

theorem Goes.round {s t : σ} (h : body s = .inl t) : Goes body 1 s t := by
  intro fuel
  rw [Nat.add_comm]
  exact loop_inl h

/-- The state in which the round begins that leaves the loop. -/
def lastRound (body : σ → σ ⊕ ρ) : Nat → σ → Option σ
  | 0, _ => none
  | fuel + 1, s =>
    match body s with
    | .inl t => lastRound body fuel t
    | .inr _ => some s

theorem loop_eq_some_iff {fuel : Nat} {s : σ} {r : ρ} :
    loop body fuel s = some r ↔ ∃ t, lastRound body fuel s = some t ∧ body t = .inr r := by
  induction fuel generalizing s with
  | zero => simp [loop, lastRound]
  | succ fuel ih =>
    rw [loop, lastRound]
    cases hb : body s with
    | inl t => exact ih
    | inr r' => simp [hb]

theorem lastRound_invariant (J : σ → Prop) (hround : ∀ s t, J s → body s = .inl t → J t) (fuel : Nat) (s t : σ)
    (hs : J s) (h : lastRound body fuel s = some t) : J t := by
  induction fuel generalizing s with
  | zero => cases h
  | succ fuel ih =>
    rw [lastRound] at h
    cases hb : body s with
    | inl u =>
      rw [hb] at h
      exact ih u (hround s u hs hb) h
    | inr r =>
      rw [hb] at h
      exact Option.some.inj h ▸ hs

/-- With an invariant and a measure that every round lowers, a loop with more
fuel than the measure comes to an end, and its result meets the exit condition. -/
theorem loop_spec (J : σ → Prop) (Q : ρ → Prop) (μ : σ → Nat)
    (hround : ∀ s t, J s → body s = .inl t → J t ∧ μ t < μ s)
    (hexit : ∀ s r, J s → body s = .inr r → Q r) (fuel : Nat) (s : σ) (hs : J s) (hf : μ s < fuel) :
    ∃ r, loop body fuel s = some r ∧ Q r := by
  induction fuel generalizing s with
  | zero => omega
  | succ n ih =>
    cases hb : body s with
    | inl t =>
      obtain ⟨ht, hlt⟩ := hround s t hs hb
      obtain ⟨r, hr, hq⟩ := ih t ht (by omega)
      exact ⟨r, by simp only [loop, hb, hr], hq⟩
    | inr r => exact ⟨r, by simp only [loop, hb], hexit s r hs hb⟩

/-- The same where the bound on the rounds to come is not read off the state. -/
theorem loop_bounded (J : Nat → σ → Prop) (Q : ρ → Prop)
    (hround : ∀ n s, J n s → (∃ t m, body s = .inl t ∧ J m t ∧ m < n) ∨ ∃ r, body s = .inr r ∧ Q r)
    (n : Nat) (s : σ) (hs : J n s) (fuel : Nat) (hf : n < fuel) : ∃ r, loop body fuel s = some r ∧ Q r := by
  induction fuel generalizing n s with
  | zero => omega
  | succ fuel ih =>
    cases hround n s hs with
    | inl hgo =>
      obtain ⟨t, m, hb, ht, hlt⟩ := hgo
      obtain ⟨r, hr, hq⟩ := ih m t ht (by omega)
      exact ⟨r, by simp only [loop, hb, hr], hq⟩
    | inr hend =>
      obtain ⟨r, hb, hq⟩ := hend
      exact ⟨r, by simp only [loop, hb], hq⟩

/-- What every round preserves holds when the loop leaves, if it leaves. -/
theorem loop_partial (J : σ → Prop) (Q : ρ → Prop) (hround : ∀ s t, J s → body s = .inl t → J t)
    (hexit : ∀ s r, J s → body s = .inr r → Q r) (fuel : Nat) (s : σ) (hs : J s) (r : ρ)
    (h : loop body fuel s = some r) : Q r := by
  induction fuel generalizing s with
  | zero => cases h
  | succ n ih =>
    rw [loop] at h
    cases hb : body s with
    | inl t =>
      rw [hb] at h
      exact ih t (hround s t hs hb) h
    | inr r' =>
      rw [hb] at h
      exact Option.some.inj h ▸ hexit s r' hs hb

/-- Loops whose rounds correspond take the same number of them, and their results correspond. -/
theorem loop_simulates {τ ρ' : Type} {body' : τ → τ ⊕ ρ'} (R : σ → τ → Prop) (Q : ρ → ρ' → Prop)
    (hround : ∀ s t, R s t → (∃ s' t', body s = .inl s' ∧ body' t = .inl t' ∧ R s' t') ∨
      ∃ r r', body s = .inr r ∧ body' t = .inr r' ∧ Q r r') (fuel : Nat) (s : σ) (t : τ) (hR : R s t) :
    (loop body fuel s = none ∧ loop body' fuel t = none) ∨
      ∃ r r', loop body fuel s = some r ∧ loop body' fuel t = some r' ∧ Q r r' := by
  induction fuel generalizing s t with
  | zero => exact Or.inl ⟨rfl, rfl⟩
  | succ n ih =>
    obtain ⟨s', t', hs, ht, hR'⟩ | ⟨r, r', hs, ht, hQ⟩ := hround s t hR
    · rw [loop_inl hs, loop_inl ht]
      exact ih s' t' hR'
    · exact Or.inr ⟨r, r', loop_inr hs, loop_inr ht, hQ⟩

/-- The same where the first loop may also give up in any round. -/
theorem loop_simulates_or_gives_up {τ ρ' : Type} {body' : τ → τ ⊕ ρ'} (R : σ → τ → Prop) (Q : ρ → ρ' → Prop)
    (E : ρ → Prop)
    (hround : ∀ s t, R s t → (∃ s' t', body s = .inl s' ∧ body' t = .inl t' ∧ R s' t') ∨
      (∃ r r', body s = .inr r ∧ body' t = .inr r' ∧ Q r r') ∨ ∃ r, body s = .inr r ∧ E r)
    (fuel : Nat) (s : σ) (t : τ) (hR : R s t) :
    (loop body fuel s = none ∧ loop body' fuel t = none) ∨
      (∃ r r', loop body fuel s = some r ∧ loop body' fuel t = some r' ∧ Q r r') ∨
      ∃ r, loop body fuel s = some r ∧ E r := by
  induction fuel generalizing s t with
  | zero => exact Or.inl ⟨rfl, rfl⟩
  | succ n ih =>
    obtain ⟨s', t', hs, ht, hR'⟩ | ⟨r, r', hs, ht, hQ⟩ | ⟨r, hs, hE⟩ := hround s t hR
    · rw [loop_inl hs, loop_inl ht]
      exact ih s' t' hR'
    · exact Or.inr (Or.inl ⟨r, r', loop_inr hs, loop_inr ht, hQ⟩)
    · exact Or.inr (Or.inr ⟨r, loop_inr hs, hE⟩)

/-- How many rounds a loop may take does not matter as long as it ends. -/
theorem loop_unique {m n : Nat} {s : σ} {r r' : ρ} (h : loop body m s = some r) (h' : loop body n s = some r') :
    r = r' := by
  induction m generalizing n s with
  | zero => cases h
  | succ m ih =>
    cases n with
    | zero => cases h'
    | succ n =>
      rw [loop] at h h'
      cases hb : body s with
      | inl t =>
        rw [hb] at h h'
        exact ih h h'
      | inr x =>
        rw [hb] at h h'
        exact Option.some.inj (h.symm.trans h')

/-- A loop whose rounds all lead to another round does not come to an end, however long it is run. -/
theorem loop_stuck (J : σ → Prop) (hround : ∀ s, J s → ∃ t, body s = .inl t ∧ J t) (fuel : Nat) (s : σ)
    (hs : J s) : loop body fuel s = none := by
  induction fuel generalizing s with
  | zero => rfl
  | succ n ih =>
    obtain ⟨t, ht, hJ⟩ := hround s hs
    simp only [loop, ht]
    exact ih t hJ

end Runs
