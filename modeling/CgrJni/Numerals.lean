import CgrJni.Platform

/-!
Decimal numerals, as they are written and as the C library reads them back.
-/

namespace Numerals

open Platform

/-- A number as it is printed, without leading zeros. -/
def decimal (n : Nat) : CString := Nat.toDigits 10 n

/-- A number that is printed with at least so many digits. -/
def padded (width n : Nat) : CString := List.replicate (width - (decimal n).length) '0' ++ decimal n

theorem decimal_ne_nil (n : Nat) : decimal n ≠ [] := Nat.toDigits_ne_nil

theorem isDigit_decimal {n : Nat} {c : Char} (h : c ∈ decimal n) : c.isDigit = true :=
  Nat.isDigit_of_mem_toDigits (by decide) (by decide) h

theorem isDigit_padded {width n : Nat} {c : Char} (h : c ∈ padded width n) : c.isDigit = true := by
  cases List.mem_append.mp h with
  | inl hzero =>
    rw [List.eq_of_mem_replicate hzero]
    decide
  | inr hdigit => exact isDigit_decimal hdigit

theorem isDigit_iff {c : Char} : c.isDigit = true ↔ '0' ≤ c ∧ c ≤ '9' := by
  simp [Char.isDigit, Char.le_def]

theorem digitValue_of_isDigit {c : Char} (h : c.isDigit = true) : digitValue c = c.toNat - 48 ∧ digitValue c < 10 := by
  obtain ⟨hlow, hhigh⟩ := isDigit_iff.mp h
  have hvalue : digitValue c = c.toNat - 48 := by
    rw [digitValue, if_pos ⟨hlow, hhigh⟩]
  have hnine : c.toNat ≤ 57 := hhigh
  exact ⟨hvalue, by omega⟩

theorem isspace_of_isDigit {c : Char} (h : c.isDigit = true) : isspace c = false := by
  obtain ⟨hlow, -⟩ := isDigit_iff.mp h
  have hzero : 48 ≤ c.toNat := hlow
  have hblank : c ≠ ' ' := by
    rintro rfl
    cases h
  simp only [isspace, hblank, decide_false, Bool.false_or, Bool.and_eq_false_iff, decide_eq_false_iff_not]
  omega

theorem takeWhile_digits {l : CString} (hl : ∀ c ∈ l, c.isDigit = true) :
    (l.map digitValue).takeWhile (fun d => d < 10) = l.map digitValue := by
  rw [List.takeWhile_eq_self_iff]
  intro d hd
  obtain ⟨c, hc, rfl⟩ := List.mem_map.mp hd
  simpa using (digitValue_of_isDigit (hl c hc)).2

/-- A string of digits has the value of its digits. -/
theorem digits_ten {l : CString} (hl : ∀ c ∈ l, c.isDigit = true) : digits 10 l = Nat.ofDigitChars 10 l 0 := by
  rw [digits, takeWhile_digits hl]
  generalize 0 = init
  induction l generalizing init with
  | nil => rfl
  | cons c rest ih =>
    have hvalue := (digitValue_of_isDigit (hl c List.mem_cons_self)).1
    have hinit : init * 10 + digitValue c = 10 * init + (c.toNat - '0'.toNat) := by
      rw [hvalue, Nat.mul_comm]
      rfl
    rw [List.map_cons, List.foldl_cons, hinit, Nat.ofDigitChars_cons]
    exact ih (fun d hd => hl d (List.mem_cons_of_mem _ hd)) _

theorem digits_decimal (n : Nat) : digits 10 (decimal n) = n := by
  rw [digits_ten (fun c hc => isDigit_decimal hc)]
  exact Nat.ofDigitChars_ten_toDigits

theorem digits_padded (width n : Nat) : digits 10 (padded width n) = n := by
  rw [digits_ten (fun c hc => isDigit_padded hc), padded, Nat.ofDigitChars_append, Nat.ofDigitChars_replicate_zero,
    Nat.mul_zero]
  exact Nat.ofDigitChars_ten_toDigits

/-- Only zero is printed with a zero in front. -/
theorem decimal_head {n : Nat} (h : n ≠ 0) : (decimal n).head? ≠ some '0' := by
  induction n using Nat.strongRecOn with
  | ind n ih =>
    by_cases hn : n < 10
    · rw [decimal, Nat.toDigits_of_lt_base hn]
      interval_cases n <;> simp_all [Nat.digitChar]
    · have hsplit : decimal n = decimal (n / 10) ++ [(n % 10).digitChar] :=
        Nat.toDigits_of_base_le (by decide) (by omega)
      rw [hsplit, List.head?_append_of_ne_nil _ (decimal_ne_nil _)]
      exact ih (n / 10) (by omega) (by omega)

theorem decimal_length_le {n k : Nat} (hk : 0 < k) (h : n < 10 ^ k) : (decimal n).length ≤ k :=
  (Nat.length_toDigits_le_iff (by decide) hk).mpr h

theorem padded_length {width n : Nat} (hw : 0 < width) (h : n < 10 ^ width) : (padded width n).length = width := by
  have hle := decimal_length_le hw h
  rw [padded, List.length_append, List.length_replicate]
  omega

/-- Without a base, a numeral is decimal unless it begins with a zero, and then it is zero. -/
theorem magnitude_decimal {base : Nat} (hbase : base = 0 ∨ base = 10) (n : Nat) : magnitude base (decimal n) = n := by
  obtain rfl | rfl := hbase
  · by_cases hn : n = 0
    · subst hn
      decide
    · have hhead := decimal_head hn
      have hdigits := digits_decimal n
      revert hhead hdigits
      cases decimal n with
      | nil => exact fun _ h => h
      | cons c rest =>
        intro hhead hdigits
        have hc : c ≠ '0' := fun he => hhead (congrArg some he)
        simp only [magnitude, ne_eq, not_true_eq_false, if_false]
        split
        · simp_all
        · simp_all
        · exact hdigits
  · exact digits_decimal n

/-- A numeral has no sign and no space in front. -/
theorem signed_decimal (n : Nat) : signed ((decimal n).dropWhile isspace) = (false, decimal n) := by
  have hall : ∀ c ∈ decimal n, c.isDigit = true := fun c hc => isDigit_decimal hc
  have hne := decimal_ne_nil n
  revert hall hne
  cases decimal n with
  | nil => exact fun _ h => absurd rfl h
  | cons c rest =>
    intro hall _
    have hc := hall c List.mem_cons_self
    rw [List.dropWhile_cons_of_neg (by simp [isspace_of_isDigit hc])]
    unfold signed
    split
    · simp_all [Char.isDigit]
    · simp_all [Char.isDigit]
    · rfl

theorem strtol_decimal {base n : Nat} (hbase : base = 0 ∨ base = 10) (h : n < 2 ^ 63) :
    strtol base (decimal n) = n := by
  simp only [strtol, signed_decimal, magnitude_decimal hbase, Bool.false_eq_true, if_false]
  omega

theorem strtouvast_decimal {n : Nat} (h : n < 2 ^ 64) : strtouvast (decimal n) = n := by
  simp only [strtouvast, signed_decimal, magnitude_decimal (Or.inl rfl), Bool.false_eq_true, if_false]
  rw [if_neg (by omega)]

end Numerals
