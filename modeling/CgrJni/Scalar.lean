import Mathlib

/-!
Scalars: a count of gigs and units below one gig. The arithmetic that the
source does in `double` is read as exact.
-/

structure Scalar where
  gigs : Int
  units : Int
  deriving DecidableEq, Repr

namespace Scalar

abbrev oneGig : Int := 2 ^ 30

/-- The value of an expression passed as `signed int`. -/
def toInt32 (i : Int) : Int := i.bmod (2 ^ 32)

/-- Loop: while there is a whole gig of units, it is moved to the gigs. -/
def carry (s : Scalar) : Scalar :=
  if oneGig ≤ s.units then ⟨s.gigs + s.units / oneGig, s.units % oneGig⟩ else s

/-- Loop: while the units are below what is to be taken from them, a gig is borrowed. -/
def borrow (s : Scalar) (i : Int) : Scalar :=
  if s.units < i then
    let count := (i - s.units + oneGig - 1) / oneGig
    ⟨s.gigs - count, s.units + count * oneGig⟩
  else s

/-- The negative of the least `int` is no `int`: there `0 - i` is the same number again. -/
def magnitude (i : Int) : Int := if i < 0 then toInt32 (0 - i) else i

def loadScalar (i : Int) : Scalar := carry ⟨0, magnitude i⟩

def increaseScalar (s : Scalar) (i : Int) : Scalar :=
  let whole := carry ⟨s.gigs, magnitude i⟩
  carry ⟨whole.gigs, s.units + whole.units⟩

def reduceScalar (s : Scalar) (i : Int) : Scalar :=
  let whole := carry ⟨0, magnitude i⟩
  let t := borrow ⟨s.gigs - whole.gigs, s.units⟩ whole.units
  ⟨t.gigs, t.units - whole.units⟩

def value (s : Scalar) : Int := s.gigs * oneGig + s.units

/-- `ONE_GIG * gigs + units`, computed in `int`. -/
def intValue (s : Scalar) : Int := toInt32 (value s)

def multiplyScalar (s : Scalar) (i : Int) : Scalar :=
  let product := value s * magnitude i
  let gigs := product.tdiv oneGig
  ⟨gigs, product - gigs * oneGig⟩

/-- Division by zero leaves the scalar as it is. -/
def divideScalar (s : Scalar) (i : Int) : Scalar :=
  if i = 0 then s
  else
    let gigs := (value s).tdiv (magnitude i * oneGig)
    ⟨gigs, (value s - gigs * oneGig * magnitude i).tdiv (magnitude i)⟩

def addToScalar (s increment : Scalar) : Scalar :=
  let t := increaseScalar s increment.units
  ⟨t.gigs + increment.gigs, t.units⟩

def subtractFromScalar (s decrement : Scalar) : Scalar :=
  let t := reduceScalar s decrement.units
  ⟨t.gigs - decrement.gigs, t.units⟩

def scalarIsValid (s : Scalar) : Bool := 0 ≤ s.gigs

theorem value_carry (s : Scalar) : value (carry s) = value s := by
  unfold carry
  split
  · simp only [value, oneGig] at *
    omega
  · rfl

theorem toInt32_of_inInt {i : Int} (h : -2 ^ 31 ≤ i) (hlt : i < 2 ^ 31) : toInt32 i = i := by
  rw [toInt32, Int.bmod_def]
  omega

theorem toInt32_bounds (i : Int) : -2 ^ 31 ≤ toInt32 i ∧ toInt32 i < 2 ^ 31 := by
  rw [toInt32, Int.bmod_def]
  omega

@[simp] theorem magnitude_of_nonneg {i : Int} (h : 0 ≤ i) : magnitude i = i := if_neg (not_lt.mpr h)

/-- Of the numbers that an `int` holds, only the least has no magnitude. -/
theorem magnitude_eq_abs {i : Int} (h : -2 ^ 31 < i) : magnitude i = |i| := by
  unfold magnitude
  split
  · rename_i hneg
    rw [toInt32_of_inInt (by omega) (by omega), zero_sub, abs_of_neg hneg]
  · rename_i hneg
    rw [abs_of_nonneg (not_lt.mp hneg)]

theorem magnitude_nonneg {i : Int} (h : -2 ^ 31 < i) : 0 ≤ magnitude i := by
  rw [magnitude_eq_abs h]
  exact abs_nonneg i

/-- A magnitude is at least an `int`. -/
theorem magnitude_toInt32_cases (i : Int) :
    0 ≤ magnitude (toInt32 i) ∧ magnitude (toInt32 i) < 2 ^ 31 ∨ magnitude (toInt32 i) = -2 ^ 31 := by
  obtain ⟨hlow, hhigh⟩ := toInt32_bounds i
  by_cases hmin : toInt32 i = -2 ^ 31
  · right
    rw [hmin]
    decide
  · left
    have hgt : -2 ^ 31 < toInt32 i := by omega
    refine ⟨magnitude_nonneg hgt, ?_⟩
    rw [magnitude_eq_abs hgt, abs_lt]
    omega

theorem value_loadScalar (i : Int) : value (loadScalar i) = magnitude i := by
  rw [loadScalar, value_carry]
  simp [value]

theorem value_increaseScalar (s : Scalar) (i : Int) : value (increaseScalar s i) = value s + magnitude i := by
  have hwhole := value_carry ⟨s.gigs, magnitude i⟩
  rw [increaseScalar, value_carry]
  simp only [value] at *
  omega

theorem borrow_units (s : Scalar) (i : Int) : i ≤ (borrow s i).units := by
  unfold borrow
  split
  · simp only [oneGig] at *
    omega
  · omega

theorem value_nonneg {s : Scalar} (hvalid : scalarIsValid s = true) (hunits : 0 ≤ s.units) : 0 ≤ value s := by
  have hgigs : 0 ≤ s.gigs := of_decide_eq_true hvalid
  have hprod := Int.mul_nonneg hgigs (show (0 : Int) ≤ oneGig by decide)
  rw [value]
  omega

/-- The form in which every operation leaves a scalar that is not negative. -/
structure Normal (s : Scalar) : Prop where
  units_nonneg : 0 ≤ s.units
  units_lt : s.units < oneGig

theorem normal_carry {s : Scalar} (h : 0 ≤ s.units) : Normal (carry s) := by
  unfold carry
  split
  · constructor
    · exact Int.emod_nonneg _ (by decide)
    · exact Int.emod_lt_of_pos _ (by decide)
  · constructor
    · exact h
    · omega

theorem normal_loadScalar {i : Int} (h : -2 ^ 31 < i) : Normal (loadScalar i) := normal_carry (magnitude_nonneg h)

theorem normal_increaseScalar {s : Scalar} (h : Normal s) {i : Int} (hi : -2 ^ 31 < i) : Normal (increaseScalar s i) := by
  have hwhole : Normal (carry ⟨s.gigs, magnitude i⟩) := normal_carry (magnitude_nonneg hi)
  exact normal_carry (Int.add_nonneg h.units_nonneg hwhole.units_nonneg)

theorem magnitude_toInt32 {i : Int} (h : 0 ≤ i) (hlt : i < 2 ^ 31) : magnitude (toInt32 i) = i := by
  rw [toInt32_of_inInt (by omega) hlt, magnitude_of_nonneg h]

theorem value_borrow (s : Scalar) (i : Int) : value (borrow s i) = value s := by
  unfold borrow
  split
  · simp only [value, oneGig]
    omega
  · rfl

theorem borrow_lt {s : Scalar} {i : Int} (h : s.units < oneGig) (hi : 0 ≤ i) : (borrow s i).units < i + oneGig := by
  unfold borrow
  split
  · simp only [oneGig] at *
    omega
  · omega

theorem value_reduceScalar (s : Scalar) (i : Int) : value (reduceScalar s i) = value s - magnitude i := by
  have hwhole := value_carry ⟨0, magnitude i⟩
  have hborrow := value_borrow ⟨s.gigs - (carry ⟨0, magnitude i⟩).gigs, s.units⟩ (carry ⟨0, magnitude i⟩).units
  simp only [reduceScalar, value, oneGig] at *
  omega

theorem normal_reduceScalar {s : Scalar} (h : Normal s) {i : Int} (hi : -2 ^ 31 < i) : Normal (reduceScalar s i) := by
  have hwhole : Normal (carry ⟨0, magnitude i⟩) := normal_carry (magnitude_nonneg hi)
  have hlt := borrow_lt (s := ⟨s.gigs - (carry ⟨0, magnitude i⟩).gigs, s.units⟩) h.units_lt hwhole.units_nonneg
  constructor
  · exact Int.sub_nonneg_of_le (borrow_units _ _)
  · simp only [reduceScalar]
    omega

theorem value_subtractFromScalar (s : Scalar) {decrement : Scalar} (h : Normal decrement) :
    value (subtractFromScalar s decrement) = value s - value decrement := by
  have hreduce := value_reduceScalar s decrement.units
  have hunits := magnitude_of_nonneg h.units_nonneg
  simp only [subtractFromScalar, value, oneGig] at *
  omega

theorem value_addToScalar (s : Scalar) {increment : Scalar} (h : Normal increment) :
    value (addToScalar s increment) = value s + value increment := by
  have hincrease := value_increaseScalar s increment.units
  have hunits := magnitude_of_nonneg h.units_nonneg
  simp only [addToScalar, value, oneGig] at *
  omega

theorem normal_addToScalar {s increment : Scalar} (h : Normal s) (hincrement : Normal increment) :
    Normal (addToScalar s increment) := by
  have hunits := hincrement.units_nonneg
  have hincrease := normal_increaseScalar h (show -2 ^ 31 < increment.units by omega)
  exact ⟨hincrease.units_nonneg, hincrease.units_lt⟩

theorem normal_subtractFromScalar {s decrement : Scalar} (h : Normal s) (hdecrement : Normal decrement) :
    Normal (subtractFromScalar s decrement) := by
  have hunits := hdecrement.units_nonneg
  have hreduce := normal_reduceScalar h (show -2 ^ 31 < decrement.units by omega)
  exact ⟨hreduce.units_nonneg, hreduce.units_lt⟩

/-- The sign of a scalar in normal form is that of its gigs. -/
theorem scalarIsValid_iff {s : Scalar} (h : Normal s) : scalarIsValid s = true ↔ 0 ≤ value s := by
  constructor
  · intro hvalid
    exact value_nonneg hvalid h.units_nonneg
  · intro hvalue
    have hlt := h.units_lt
    simp only [value, oneGig] at *
    exact decide_eq_true (by omega)

theorem value_multiplyScalar (s : Scalar) (i : Int) : value (multiplyScalar s i) = value s * magnitude i := by
  simp only [multiplyScalar, value]
  omega

theorem normal_multiplyScalar {s : Scalar} {i : Int} (h : 0 ≤ value s * magnitude i) : Normal (multiplyScalar s i) := by
  have hmod := Int.mul_tdiv_add_tmod (value s * magnitude i) oneGig
  have hnonneg := Int.tmod_nonneg oneGig h
  have hlt := Int.tmod_lt_of_pos (value s * magnitude i) (show (0 : Int) < oneGig by decide)
  constructor
  · simp only [multiplyScalar]
    linarith
  · simp only [multiplyScalar]
    linarith

/-- A product of whole gigs is normal, whatever its sign. -/
theorem normal_multiplyScalar_of_dvd {s : Scalar} {i : Int} (h : oneGig ∣ value s * magnitude i) :
    Normal (multiplyScalar s i) := by
  have hunits : (multiplyScalar s i).units = 0 := by
    simp only [multiplyScalar]
    rw [Int.tdiv_mul_cancel h, sub_self]
  constructor
  · rw [hunits]
  · rw [hunits]
    decide

theorem magnitude_pos {i : Int} (h : i ≠ 0) (hi : -2 ^ 31 < i) : 0 < magnitude i := by
  rw [magnitude_eq_abs hi]
  exact abs_pos.mpr h

theorem tdiv_gigs_units_nonneg {v m : Int} (hv : 0 ≤ v) (hm : 0 < m) :
    v.tdiv (m * oneGig) * oneGig + (v - v.tdiv (m * oneGig) * oneGig * m).tdiv m = v.tdiv m := by
  have hsub : v - v.tdiv (m * oneGig) * oneGig * m = v + m * (-(v.tdiv (m * oneGig) * oneGig)) := by
    linarith
  have hrest : 0 ≤ v - v.tdiv (m * oneGig) * oneGig * m := by
    have hdiv := Int.mul_tdiv_add_tmod v (m * oneGig)
    have hmod := Int.tmod_nonneg (m * oneGig) hv
    linarith
  rw [Int.tdiv_eq_ediv_of_nonneg hrest, hsub, Int.add_mul_ediv_left _ _ hm.ne', Int.tdiv_eq_ediv_of_nonneg hv (b := m)]
  omega

theorem tdiv_gigs_units_pos (v : Int) {m : Int} (hm : 0 < m) :
    v.tdiv (m * oneGig) * oneGig + (v - v.tdiv (m * oneGig) * oneGig * m).tdiv m = v.tdiv m := by
  cases le_total 0 v with
  | inl hv => exact tdiv_gigs_units_nonneg hv hm
  | inr hv =>
    have hneg := tdiv_gigs_units_nonneg (show 0 ≤ -v by omega) hm
    have hsub : -v - -(v.tdiv (m * oneGig)) * oneGig * m = -(v - v.tdiv (m * oneGig) * oneGig * m) := by
      linarith
    rw [Int.neg_tdiv, Int.neg_tdiv, hsub, Int.neg_tdiv] at hneg
    linarith

/-- Gigs and units are divided one after the other, and nothing is lost. -/
theorem tdiv_gigs_units (v m : Int) :
    v.tdiv (m * oneGig) * oneGig + (v - v.tdiv (m * oneGig) * oneGig * m).tdiv m = v.tdiv m := by
  rcases lt_trichotomy m 0 with hm | rfl | hm
  · have hneg := tdiv_gigs_units_pos v (show 0 < -m by omega)
    have hsub : v - -(v.tdiv (m * oneGig)) * oneGig * -m = v - v.tdiv (m * oneGig) * oneGig * m := by
      linarith
    rw [Int.neg_mul, Int.tdiv_neg, Int.tdiv_neg, hsub, Int.tdiv_neg] at hneg
    linarith
  · simp
  · exact tdiv_gigs_units_pos v hm

theorem value_divideScalar (s : Scalar) {i : Int} (hi : i ≠ 0) : value (divideScalar s i) = (value s).tdiv (magnitude i) := by
  rw [divideScalar, if_neg hi]
  exact tdiv_gigs_units (value s) (magnitude i)

theorem normal_divideScalar {s : Scalar} (h : 0 ≤ value s) {i : Int} (hi : i ≠ 0) (hmin : -2 ^ 31 < i) :
    Normal (divideScalar s i) := by
  have hm := magnitude_pos hi hmin
  have hgigs : (divideScalar s i).gigs = value s / magnitude i / oneGig := by
    rw [divideScalar, if_neg hi, Int.ediv_ediv_of_nonneg hm.le]
    exact Int.tdiv_eq_ediv_of_nonneg h
  have hvalue := value_divideScalar s hi
  rw [value, hgigs, Int.tdiv_eq_ediv_of_nonneg h] at hvalue
  have hunits : (divideScalar s i).units = value s / magnitude i % oneGig := by
    have hmod := Int.ediv_mul_add_emod (value s / magnitude i) oneGig
    linarith
  constructor
  · rw [hunits]
    exact Int.emod_nonneg _ (by decide)
  · rw [hunits]
    exact Int.emod_lt_of_pos _ (by decide)

end Scalar
