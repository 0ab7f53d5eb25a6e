import CgrJni.Scalar

/-!
The Scalar operations step by step: every signed operation and every conversion
to `int` is checked, and one that leaves the range of `int` has no result. Where
there is one, it is what the closed forms say.
-/

namespace ScalarSteps

open Scalar (oneGig Normal value magnitude)

def InInt (i : Int) : Prop := -2 ^ 31 ≤ i ∧ i < 2 ^ 31

instance (i : Int) : Decidable (InInt i) := inferInstanceAs (Decidable (_ ∧ _))

/-- The result of an operation on signed integers. -/
def signed (i : Int) : Option Int := if InInt i then some i else none

/-- The conversion of a `double`: the fraction is dropped. -/
def toInt (x : ℚ) : Option Int := signed (if x < 0 then ⌈x⌉ else ⌊x⌋)

def absolute (i : Int) : Option Int := if i < 0 then signed (0 - i) else some i

/-- Loop: while there is a gig of units, it is counted in the gigs, upwards or downwards. -/
def countGigs (one : Int) (s : Scalar) : Option Scalar :=
  if oneGig ≤ s.units then
    if InInt (s.gigs + one) ∧ InInt (s.units - oneGig) then countGigs one ⟨s.gigs + one, s.units - oneGig⟩
    else none
  else some s
termination_by s.units.toNat
decreasing_by
  simp only [oneGig] at *
  omega

/-- Loop: while the units are too few, a gig is borrowed. -/
def borrowGigs (i : Int) (s : Scalar) : Option Scalar :=
  if s.units < i then
    if InInt (s.gigs - 1) ∧ InInt (s.units + oneGig) then borrowGigs i ⟨s.gigs - 1, s.units + oneGig⟩
    else none
  else some s
termination_by (i - s.units).toNat
decreasing_by
  simp only [oneGig] at *
  omega

def loadScalar (i : Int) : Option Scalar := do
  let i ← absolute i
  countGigs 1 ⟨0, i⟩

def increaseScalar (s : Scalar) (i : Int) : Option Scalar := do
  let i ← absolute i
  let whole ← countGigs 1 ⟨s.gigs, i⟩
  let units ← signed (s.units + whole.units)
  countGigs 1 ⟨whole.gigs, units⟩

def reduceScalar (s : Scalar) (i : Int) : Option Scalar := do
  let i ← absolute i
  let whole ← countGigs (-1) ⟨s.gigs, i⟩
  let t ← borrowGigs whole.units ⟨whole.gigs, s.units⟩
  let units ← signed (t.units - whole.units)
  return ⟨t.gigs, units⟩

/-- A number of gigs and units as a `double`. -/
def toDouble (gigs units : Int) : ℚ := gigs * oneGig + units

def multiplyScalar (s : Scalar) (i : Int) : Option Scalar := do
  let i ← absolute i
  let product := toDouble s.gigs s.units * i
  let gigs ← toInt (product / oneGig)
  let units ← toInt (product - toDouble gigs 0)
  return ⟨gigs, units⟩

def divideScalar (s : Scalar) (i : Int) : Option Scalar := do
  if i = 0 then return s
  let i ← absolute i
  let quotient := toDouble s.gigs s.units / i
  let gigs ← toInt (quotient / oneGig)
  let units ← toInt (quotient - toDouble gigs 0)
  return ⟨gigs, units⟩

def addToScalar (s increment : Scalar) : Option Scalar := do
  let t ← increaseScalar s increment.units
  let gigs ← signed (t.gigs + increment.gigs)
  return ⟨gigs, t.units⟩

def subtractFromScalar (s decrement : Scalar) : Option Scalar := do
  let t ← reduceScalar s decrement.units
  let gigs ← signed (t.gigs - decrement.gigs)
  return ⟨gigs, t.units⟩

/-- The gigs of a value are within the range of `int`. -/
def Fits (v : Int) : Prop := InInt (v / oneGig)

instance (v : Int) : Decidable (Fits v) := inferInstanceAs (Decidable (InInt _))

/-- The normal Scalar of a value. -/
def ofValue (v : Int) : Scalar := ⟨v / oneGig, v % oneGig⟩

/-- What an exact operation yields. -/
def exact (v : Int) : Option Scalar := if Fits v then some (ofValue v) else none

theorem normal_ofValue (v : Int) : Normal (ofValue v) :=
  ⟨Int.emod_nonneg v (by decide), Int.emod_lt_of_pos v (by decide)⟩

@[simp] theorem value_ofValue (v : Int) : value (ofValue v) = v := by
  simp only [value, ofValue, oneGig]
  omega

/-- A normal Scalar is determined by its value. -/
theorem eq_ofValue {s : Scalar} (h : Normal s) : s = ofValue (value s) := by
  obtain ⟨gigs, units⟩ := s
  have hnonneg := h.units_nonneg
  have hlt := h.units_lt
  simp only [ofValue, value, oneGig, Scalar.mk.injEq] at *
  omega

/-- The arguments that the operations are meant for: any `int` but the least. -/
structure Argument (i : Int) : Prop where
  inInt : InInt i
  ne_min : i ≠ -2 ^ 31

/-- A Scalar that the operations are meant for. -/
structure Proper (s : Scalar) : Prop extends Normal s where
  gigs_inInt : InInt s.gigs

theorem signed_of_inInt {i : Int} (h : InInt i) : signed i = some i := if_pos h

theorem signed_of_not {i : Int} (h : ¬ InInt i) : signed i = none := if_neg h

theorem Argument.gt_min {i : Int} (h : Argument i) : -2 ^ 31 < i := lt_of_le_of_ne h.inInt.1 h.ne_min.symm

theorem absolute_eq {i : Int} (h : Argument i) : absolute i = some |i| := by
  have hmin := h.ne_min
  obtain ⟨hlow, hhigh⟩ := h.inInt
  rw [absolute]
  split
  · rw [signed_of_inInt ⟨by omega, by omega⟩, abs_of_neg (by assumption), zero_sub]
  · rw [abs_of_nonneg (by omega)]

theorem abs_bounds {i : Int} (h : Argument i) : 0 ≤ |i| ∧ |i| < 2 ^ 31 := by
  have hmin := h.ne_min
  obtain ⟨hlow, hhigh⟩ := h.inInt
  exact ⟨abs_nonneg i, abs_lt.mpr ⟨by omega, hhigh⟩⟩

theorem countGigs_of_lt {one : Int} {s : Scalar} (h : s.units < oneGig) : countGigs one s = some s := by
  rw [countGigs, if_neg (by omega)]

/-- An `int` holds less than two gigs. -/
theorem countGigs_of_le {one : Int} {s : Scalar} (h : oneGig ≤ s.units) (hint : s.units < 2 ^ 31) :
    countGigs one s = if InInt (s.gigs + one) then some ⟨s.gigs + one, s.units - oneGig⟩ else none := by
  have hunits : InInt (s.units - oneGig) := by
    simp only [InInt, oneGig] at *
    omega
  have hlt : s.units - oneGig < oneGig := by
    simp only [oneGig] at *
    omega
  rw [countGigs, if_pos h]
  simp only [hunits, and_true]
  split
  · exact countGigs_of_lt hlt
  · rfl

theorem borrowGigs_of_le {i : Int} {s : Scalar} (h : i ≤ s.units) : borrowGigs i s = some s := by
  rw [borrowGigs, if_neg (by omega)]

theorem borrowGigs_of_lt {i : Int} {s : Scalar} (hs : Normal s) (h : s.units < i) (hi : i < oneGig) :
    borrowGigs i s = if InInt (s.gigs - 1) then some ⟨s.gigs - 1, s.units + oneGig⟩ else none := by
  have hnonneg := hs.units_nonneg
  have hunits : InInt (s.units + oneGig) := by
    simp only [InInt, oneGig] at *
    omega
  rw [borrowGigs, if_pos h]
  simp only [hunits, and_true]
  split
  · exact borrowGigs_of_le (by dsimp only; omega)
  · rfl

/-- What is exact, by its gigs and units. -/
theorem exact_eq {v gigs units : Int} (hv : v = gigs * oneGig + units) (hnonneg : 0 ≤ units) (hlt : units < oneGig) :
    exact v = if InInt gigs then some ⟨gigs, units⟩ else none := by
  have hdiv : v / oneGig = gigs := by
    simp only [oneGig] at *
    omega
  have hmod : v % oneGig = units := by
    simp only [oneGig] at *
    omega
  simp only [exact, Fits, ofValue, hdiv, hmod]

/-- Counting upwards is exact. -/
theorem countGigs_up {gigs units : Int} (hg : InInt gigs) (hnonneg : 0 ≤ units) (hlt : units < 2 ^ 31) :
    countGigs 1 ⟨gigs, units⟩ = exact (gigs * oneGig + units) := by
  by_cases hm : oneGig ≤ units
  · have hv : gigs * oneGig + units = (gigs + 1) * oneGig + (units - oneGig) := by
      simp only [oneGig]
      omega
    rw [countGigs_of_le hm hlt, exact_eq hv (by omega) (by simp only [oneGig]; omega)]
  · rw [countGigs_of_lt (not_le.mp hm), exact_eq rfl hnonneg (not_le.mp hm), if_pos hg]

theorem loadScalar_eq {i : Int} (h : Argument i) : loadScalar i = exact |i| := by
  obtain ⟨hnonneg, hlt⟩ := abs_bounds h
  rw [loadScalar, absolute_eq h, Option.bind_eq_bind, Option.bind_some,
    countGigs_up ⟨by omega, by omega⟩ hnonneg hlt, zero_mul, zero_add]

theorem increaseScalar_eq {s : Scalar} (hs : Proper s) {i : Int} (h : Argument i) :
    increaseScalar s i = exact (value s + |i|) := by
  obtain ⟨hnonneg, hlt⟩ := abs_bounds h
  have hu := hs.units_nonneg
  have hul := hs.units_lt
  obtain ⟨hlow, hhigh⟩ := hs.gigs_inInt
  rw [increaseScalar, absolute_eq h, Option.bind_eq_bind, Option.bind_some]
  generalize |i| = m at *
  by_cases hm : oneGig ≤ m
  · rw [countGigs_of_le hm hlt]
    by_cases hone : InInt (s.gigs + 1)
    · have hunits : InInt (s.units + (m - oneGig)) := by
        simp only [InInt, oneGig] at *
        omega
      rw [if_pos hone, Option.bind_eq_bind, Option.bind_some, signed_of_inInt hunits, Option.bind_some,
        countGigs_up hone (by omega) hunits.2]
      congr 1
      simp only [value, oneGig]
      omega
    · -- the first gig is one too many
      have hnot : ¬ Fits (value s + m) := by
        simp only [Fits, InInt, value, oneGig] at *
        omega
      rw [if_neg hone, exact, if_neg hnot]
      rfl
  · have hunits : InInt (s.units + m) := by
      simp only [InInt, oneGig] at *
      omega
    rw [countGigs_of_lt (not_le.mp hm), Option.bind_eq_bind, Option.bind_some, signed_of_inInt hunits,
      Option.bind_some, countGigs_up hs.gigs_inInt (by omega) hunits.2]
    congr 1
    simp only [value]
    omega

/-- The units that are taken off are less than a gig, so at most one gig is borrowed for them. -/
theorem borrow_exact {gigs units : Int} (hg : InInt gigs) (hu : 0 ≤ units) (hul : units < oneGig) {i : Int}
    (hnonneg : 0 ≤ i) (hi : i < oneGig) :
    ((borrowGigs i ⟨gigs, units⟩).bind fun t => (signed (t.units - i)).bind fun u => some (⟨t.gigs, u⟩ : Scalar)) =
      exact (gigs * oneGig + units - i) := by
  by_cases hlt : units < i
  · have hv : gigs * oneGig + units - i = (gigs - 1) * oneGig + (units + oneGig - i) := by
      simp only [oneGig]
      omega
    have hunits : InInt (units + oneGig - i) := by
      simp only [InInt, oneGig] at *
      omega
    rw [borrowGigs_of_lt ⟨hu, hul⟩ hlt hi, exact_eq hv (by omega) (by omega)]
    split
    · rw [Option.bind_some, signed_of_inInt hunits, Option.bind_some]
    · rfl
  · have hv : gigs * oneGig + units - i = gigs * oneGig + (units - i) := by omega
    have hunits : InInt (units - i) := by
      simp only [InInt, oneGig] at *
      omega
    rw [borrowGigs_of_le (not_lt.mp hlt), exact_eq hv (by omega) (by omega), if_pos hg, Option.bind_some,
      signed_of_inInt hunits, Option.bind_some]

theorem reduceScalar_eq {s : Scalar} (hs : Proper s) {i : Int} (h : Argument i) :
    reduceScalar s i = exact (value s - |i|) := by
  obtain ⟨hnonneg, hlt⟩ := abs_bounds h
  obtain ⟨hlow, hhigh⟩ := hs.gigs_inInt
  rw [reduceScalar, absolute_eq h, Option.bind_eq_bind, Option.bind_some]
  generalize |i| = m at *
  by_cases hm : oneGig ≤ m
  · rw [countGigs_of_le hm hlt]
    by_cases hone : InInt (s.gigs + -1)
    · have hrest : m - oneGig < oneGig := by
        simp only [oneGig]
        omega
      rw [if_pos hone, Option.bind_eq_bind, Option.bind_some]
      refine (borrow_exact hone hs.units_nonneg hs.units_lt (by omega) hrest).trans ?_
      congr 1
      simp only [value, oneGig]
      omega
    · -- the first gig is one too many
      have hu := hs.units_lt
      have hnot : ¬ Fits (value s - m) := by
        simp only [Fits, InInt, value, oneGig] at *
        omega
      rw [if_neg hone, exact, if_neg hnot]
      rfl
  · rw [countGigs_of_lt (not_le.mp hm), Option.bind_eq_bind, Option.bind_some]
    exact borrow_exact hs.gigs_inInt hs.units_nonneg hs.units_lt hnonneg (not_le.mp hm)

theorem argument_units {t : Scalar} (ht : Normal t) : Argument t.units ∧ |t.units| = t.units := by
  have hu := ht.units_nonneg
  have hul := ht.units_lt
  refine ⟨⟨?_, ?_⟩, abs_of_nonneg hu⟩
  · simp only [InInt, oneGig] at *
    omega
  · omega

/-- The gigs are added after the units, so the units alone must fit as well. -/
theorem addToScalar_eq {s t : Scalar} (hs : Proper s) (ht : Normal t) :
    addToScalar s t = if Fits (value s + t.units) then exact (value s + value t) else none := by
  obtain ⟨harg, habs⟩ := argument_units ht
  have hn := normal_ofValue (value s + t.units)
  have hv := value_ofValue (value s + t.units)
  rw [addToScalar, increaseScalar_eq hs harg, habs, exact]
  generalize ofValue (value s + t.units) = u at *
  by_cases hfits : Fits (value s + t.units)
  · have hsum : value s + value t = (u.gigs + t.gigs) * oneGig + u.units := by
      simp only [value] at *
      linarith
    rw [if_pos hfits, if_pos hfits, exact_eq hsum hn.units_nonneg hn.units_lt, Option.bind_eq_bind, Option.bind_some,
      signed]
    split
    · rfl
    · rfl
  · rw [if_neg hfits, if_neg hfits]
    rfl

theorem subtractFromScalar_eq {s t : Scalar} (hs : Proper s) (ht : Normal t) :
    subtractFromScalar s t = if Fits (value s - t.units) then exact (value s - value t) else none := by
  obtain ⟨harg, habs⟩ := argument_units ht
  have hn := normal_ofValue (value s - t.units)
  have hv := value_ofValue (value s - t.units)
  rw [subtractFromScalar, reduceScalar_eq hs harg, habs, exact]
  generalize ofValue (value s - t.units) = u at *
  by_cases hfits : Fits (value s - t.units)
  · have hdiff : value s - value t = (u.gigs - t.gigs) * oneGig + u.units := by
      simp only [value] at *
      linarith
    rw [if_pos hfits, if_pos hfits, exact_eq hdiff hn.units_nonneg hn.units_lt, Option.bind_eq_bind, Option.bind_some,
      signed]
    split
    · rfl
    · rfl
  · rw [if_neg hfits, if_neg hfits]
    rfl

theorem toDouble_eq (s : Scalar) : toDouble s.gigs s.units = (value s : ℚ) := by
  simp only [toDouble, value]
  push_cast
  rfl

theorem toInt_of_nonneg {x : ℚ} (h : 0 ≤ x) : toInt x = signed ⌊x⌋ := by
  rw [toInt, if_neg (not_lt.mpr h)]

/-- The whole gigs of a number that is not negative, and then the units of what they leave. -/
theorem split_exact {x : ℚ} (h : 0 ≤ x) :
    ((toInt (x / oneGig)).bind fun gigs => (toInt (x - toDouble gigs 0)).bind fun units =>
      some (⟨gigs, units⟩ : Scalar)) = exact ⌊x⌋ := by
  have hn := normal_ofValue ⌊x⌋
  have hgigs : ⌊x / oneGig⌋ = ⌊x⌋ / oneGig := Int.floor_div_cast_of_nonneg (by decide) x
  have hdouble : x - toDouble (⌊x⌋ / oneGig) 0 = x - ((⌊x⌋ / oneGig * oneGig : ℤ) : ℚ) := by
    simp only [toDouble]
    push_cast
    ring
  have hunits : ⌊x - toDouble (⌊x⌋ / oneGig) 0⌋ = ⌊x⌋ % oneGig := by
    rw [hdouble, Int.floor_sub_intCast, Int.emod_def, mul_comm]
  have hrest : 0 ≤ x - toDouble (⌊x⌋ / oneGig) 0 := by
    rw [← Int.floor_nonneg, hunits]
    exact hn.units_nonneg
  have hint : InInt (⌊x⌋ % oneGig) := by
    have hlow := hn.units_nonneg
    have hhigh := hn.units_lt
    simp only [ofValue, InInt, oneGig] at *
    omega
  rw [toInt_of_nonneg (div_nonneg h (by norm_num)), hgigs, exact]
  by_cases hfits : Fits ⌊x⌋
  · rw [signed_of_inInt hfits, Option.bind_some, toInt_of_nonneg hrest, hunits, signed_of_inInt hint,
      Option.bind_some, if_pos hfits]
    rfl
  · rw [signed_of_not hfits, if_neg hfits]
    rfl

theorem multiplyScalar_eq {s : Scalar} (hs : 0 ≤ value s) {i : Int} (h : Argument i) :
    multiplyScalar s i = exact (value s * |i|) := by
  have hproduct : toDouble s.gigs s.units * (|i| : ℤ) = ((value s * |i| : ℤ) : ℚ) := by
    rw [toDouble_eq]
    push_cast
    rfl
  have hnonneg : 0 ≤ value s * |i| := Int.mul_nonneg hs (abs_nonneg i)
  have hsplit := split_exact (x := ((value s * |i| : ℤ) : ℚ)) (by exact_mod_cast hnonneg)
  rw [multiplyScalar, absolute_eq h, Option.bind_eq_bind, Option.bind_some, hproduct]
  rw [Int.floor_intCast] at hsplit
  exact hsplit

/-- A quotient has no more gigs than what is divided. -/
theorem fits_quotient {s : Scalar} (hs : Proper s) (hvalue : 0 ≤ value s) {d : Int} (hd : 0 < d) :
    Fits (value s / d) := by
  have hle : value s / d ≤ value s := Int.ediv_le_self _ hvalue
  have hge : 0 ≤ value s / d := Int.ediv_nonneg hvalue hd.le
  have hhigh := hs.gigs_inInt.2
  have hul := hs.units_lt
  generalize value s / d = q at *
  simp only [Fits, InInt, value, oneGig] at *
  omega

theorem divideScalar_eq {s : Scalar} (hvalue : 0 ≤ value s) {i : Int} (h : Argument i) (hi : i ≠ 0) :
    divideScalar s i = exact (value s / |i|) := by
  have hpos : 0 < |i| := abs_pos.mpr hi
  have hquotient : toDouble s.gigs s.units / (|i| : ℤ) = ((value s : ℤ) : ℚ) / (|i| : ℤ) := by rw [toDouble_eq]
  have hfloor : ⌊((value s : ℤ) : ℚ) / (|i| : ℤ)⌋ = value s / |i| := by
    rw [Int.floor_div_cast_of_nonneg hpos.le, Int.floor_intCast]
  have hnonneg : (0 : ℚ) ≤ ((value s : ℤ) : ℚ) / (|i| : ℤ) :=
    div_nonneg (by exact_mod_cast hvalue) (by exact_mod_cast hpos.le)
  have hsplit := split_exact hnonneg
  rw [divideScalar, if_neg hi, absolute_eq h]
  simp only [Option.bind_eq_bind, Option.bind_some, hquotient]
  rw [hfloor] at hsplit
  exact hsplit

/-- Every step is defined, and what comes out is normal and has the value. -/
def Yields (r : Option Scalar) (v : Int) : Prop := ∃ n, r = some n ∧ Normal n ∧ value n = v

theorem yields_exact {v : Int} : Yields (exact v) v ↔ Fits v := by
  rw [exact]
  constructor
  · rintro ⟨n, hn, -, -⟩
    by_contra hno
    rw [if_neg hno] at hn
    cases hn
  · intro h
    exact ⟨ofValue v, if_pos h, normal_ofValue v, value_ofValue v⟩

theorem yields_if {p : Prop} [Decidable p] {v : Int} (h : Fits v) : Yields (if p then exact v else none) v ↔ p := by
  by_cases hp : p
  · rw [if_pos hp]
    exact iff_of_true (yields_exact.mpr h) hp
  · rw [if_neg hp]
    refine iff_of_false ?_ hp
    rintro ⟨n, hn, -⟩
    cases hn

theorem fits_of_lt {v : Int} (hnonneg : 0 ≤ v) (hlt : v < 2 ^ 61) : Fits v := by
  simp only [Fits, InInt, oneGig]
  omega

theorem fits_abs {i : Int} (h : Argument i) : Fits |i| := by
  have hlt := abs_bounds h
  exact fits_of_lt hlt.1 (by omega)

/-- The magnitude of the least `int` is not defined. -/
theorem absolute_min : absolute (-2 ^ 31) = none := by decide

theorem loadScalar_min : loadScalar (-2 ^ 31) = none := by
  rw [loadScalar, absolute_min]
  rfl

/-- What is exact and normal is the closed form, wherever there is a result. -/
theorem closed_of_exact {r : Option Scalar} {n m : Scalar} (hm : Normal m) (hr : r = exact (value m)) (h : r = some n) :
    n = m := by
  rw [hr, exact] at h
  split at h
  · rw [← Option.some.inj h, ← eq_ofValue hm]
  · cases h

section

variable {s t n : Scalar} {i : Int}

theorem loadScalar_closed (hi : Argument i) (h : loadScalar i = some n) : n = Scalar.loadScalar i := by
  refine closed_of_exact (Scalar.normal_loadScalar hi.gt_min) ?_ h
  rw [loadScalar_eq hi, Scalar.value_loadScalar, Scalar.magnitude_eq_abs hi.gt_min]

theorem increaseScalar_closed (hs : Proper s) (hi : Argument i) (h : increaseScalar s i = some n) :
    n = Scalar.increaseScalar s i := by
  refine closed_of_exact (Scalar.normal_increaseScalar hs.toNormal hi.gt_min) ?_ h
  rw [increaseScalar_eq hs hi, Scalar.value_increaseScalar, Scalar.magnitude_eq_abs hi.gt_min]

theorem reduceScalar_closed (hs : Proper s) (hi : Argument i) (h : reduceScalar s i = some n) :
    n = Scalar.reduceScalar s i := by
  refine closed_of_exact (Scalar.normal_reduceScalar hs.toNormal hi.gt_min) ?_ h
  rw [reduceScalar_eq hs hi, Scalar.value_reduceScalar, Scalar.magnitude_eq_abs hi.gt_min]

theorem addToScalar_closed (hs : Proper s) (ht : Normal t) (h : addToScalar s t = some n) :
    n = Scalar.addToScalar s t := by
  rw [addToScalar_eq hs ht] at h
  split at h
  · exact closed_of_exact (Scalar.normal_addToScalar hs.toNormal ht) (by rw [Scalar.value_addToScalar s ht]) h
  · cases h

theorem subtractFromScalar_closed (hs : Proper s) (ht : Normal t) (h : subtractFromScalar s t = some n) :
    n = Scalar.subtractFromScalar s t := by
  rw [subtractFromScalar_eq hs ht] at h
  split at h
  · exact closed_of_exact (Scalar.normal_subtractFromScalar hs.toNormal ht)
      (by rw [Scalar.value_subtractFromScalar s ht]) h
  · cases h

theorem multiplyScalar_closed (hs : 0 ≤ value s) (hi : Argument i) (h : multiplyScalar s i = some n) :
    n = Scalar.multiplyScalar s i := by
  refine closed_of_exact (Scalar.normal_multiplyScalar (Int.mul_nonneg hs (Scalar.magnitude_nonneg hi.gt_min))) ?_ h
  rw [multiplyScalar_eq hs hi, Scalar.value_multiplyScalar, Scalar.magnitude_eq_abs hi.gt_min]

theorem divideScalar_closed (hs : 0 ≤ value s) (hi : Argument i) (hne : i ≠ 0) (h : divideScalar s i = some n) :
    n = Scalar.divideScalar s i := by
  refine closed_of_exact (Scalar.normal_divideScalar hs hne hi.gt_min) ?_ h
  rw [divideScalar_eq hs hi hne, Scalar.value_divideScalar s hne, Scalar.magnitude_eq_abs hi.gt_min,
    Int.tdiv_eq_ediv_of_nonneg hs]

end

/-- What the operations do to scalars and integers in their domain. Adding and subtracting apply the
units first, and these alone must fit. -/
structure ExactOn (s t : Scalar) (i : Int) : Prop where
  load : Yields (loadScalar i) |i|
  increase : Fits (value s + |i|) → Yields (increaseScalar s i) (value s + |i|)
  reduce : Fits (value s - |i|) → Yields (reduceScalar s i) (value s - |i|)
  add : Fits (value s + value t) →
    (Yields (addToScalar s t) (value s + value t) ↔ Fits (value s + t.units))
  subtract : Fits (value s - value t) →
    (Yields (subtractFromScalar s t) (value s - value t) ↔ Fits (value s - t.units))
  multiply : 0 ≤ value s → value s * |i| < 2 ^ 53 → Yields (multiplyScalar s i) (value s * |i|)
  divide : 0 ≤ value s → i ≠ 0 → Yields (divideScalar s i) (value s / |i|)
  isValid : Scalar.scalarIsValid s = true ↔ 0 ≤ value s

theorem exactOn (s t : Scalar) (i : Int) (hs : Proper s) (ht : Proper t) (hi : Argument i) : ExactOn s t i where
  load := by
    rw [loadScalar_eq hi, yields_exact]
    exact fits_abs hi
  increase h := by rwa [increaseScalar_eq hs hi, yields_exact]
  reduce h := by rwa [reduceScalar_eq hs hi, yields_exact]
  add h := by rw [addToScalar_eq hs ht.toNormal, yields_if h]
  subtract h := by rw [subtractFromScalar_eq hs ht.toNormal, yields_if h]
  multiply hvalue hlt := by
    have hfits : Fits (value s * |i|) := fits_of_lt (Int.mul_nonneg hvalue (abs_nonneg i)) (by omega)
    rwa [multiplyScalar_eq hvalue hi, yields_exact]
  divide hvalue hne := by
    rw [divideScalar_eq hvalue hi hne, yields_exact]
    exact fits_quotient hs hvalue (abs_pos.mpr hne)
  isValid := Scalar.scalarIsValid_iff hs.toNormal

def largest : Scalar := ⟨2 ^ 31 - 1, 2 ^ 30 - 1⟩

def lessAGig : Scalar := ⟨-1, 1⟩

theorem exactOn_largest : (Proper largest ∧ Proper lessAGig ∧ Argument (-5)) ∧ ExactOn largest lessAGig (-5) :=
  have hlargest : Proper largest := ⟨⟨by decide, by decide⟩, by decide⟩
  have hless : Proper lessAGig := ⟨⟨by decide, by decide⟩, by decide⟩
  have harg : Argument (-5) := ⟨by decide, by decide⟩
  ⟨⟨hlargest, hless, harg⟩, exactOn largest lessAGig (-5) hlargest hless harg⟩

/-- The sum fits, but its gigs are out of range after the units and before the gigs are added. -/
theorem addToScalar_overflows : Proper largest ∧ Proper lessAGig ∧ Fits (value largest + value lessAGig) ∧
    ¬ Yields (addToScalar largest lessAGig) (value largest + value lessAGig) := by
  have hlargest : Proper largest := ⟨⟨by decide, by decide⟩, by decide⟩
  have hless : Proper lessAGig := ⟨⟨by decide, by decide⟩, by decide⟩
  refine ⟨hlargest, hless, by decide, ?_⟩
  rw [addToScalar_eq hlargest hless.toNormal, yields_if (by decide)]
  decide

end ScalarSteps
