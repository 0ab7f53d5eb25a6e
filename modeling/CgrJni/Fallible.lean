/-!
Computations that end in a value or in a failure: which of the two may happen,
and what is known of a value.
-/

namespace Fallible

variable {ε α β : Type} {admitted admitted' : ε → Prop} {P Q : α → Prop}

/-- A value meets the postcondition; a failure is one of those admitted. -/
def Ends (admitted : ε → Prop) (post : α → Prop) : Except ε α → Prop
  | .ok a => post a
  | .error e => admitted e

@[simp] theorem ends_ok {a : α} : Ends admitted Q (.ok a) ↔ Q a := Iff.rfl

@[simp] theorem ends_pure {a : α} : Ends admitted Q (pure a) ↔ Q a := Iff.rfl

@[simp] theorem ends_error {e : ε} : Ends admitted Q (.error e) ↔ admitted e := Iff.rfl

theorem Ends.bind {x : Except ε α} {f : α → Except ε β} {R : β → Prop} (hx : Ends admitted Q x)
    (hf : ∀ a, Q a → Ends admitted R (f a)) : Ends admitted R (x >>= f) := by
  cases x with
  | error e => exact hx
  | ok a => exact hf a hx

theorem Ends.mono {x : Except ε α} (hx : Ends admitted P x) (hfail : ∀ e, admitted e → admitted' e)
    (hpost : ∀ a, P a → Q a) : Ends admitted' Q x := by
  cases x with
  | error e => exact hfail e hx
  | ok a => exact hpost a hx

/-- What admits no failure admits any. -/
theorem Ends.weaken {x : Except ε α} (hx : Ends (fun _ => False) Q x) : Ends admitted Q x :=
  hx.mono (fun _ hfail => hfail.elim) (fun _ hpost => hpost)

theorem Ends.post {x : Except ε α} {a : α} (hx : Ends admitted Q x) (h : x = .ok a) : Q a := by
  rw [h] at hx
  exact hx

theorem Ends.failure {x : Except ε α} {e : ε} (hx : Ends admitted Q x) (h : x = .error e) : admitted e := by
  rw [h] at hx
  exact hx

/-- What admits no failure yields a value. -/
theorem Ends.total {x : Except ε α} (hx : Ends (fun _ => False) Q x) : ∃ a, x = .ok a ∧ Q a := by
  cases x with
  | error e => exact hx.elim
  | ok a => exact ⟨a, rfl, hx⟩

end Fallible
