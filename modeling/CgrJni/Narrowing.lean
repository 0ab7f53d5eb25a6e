import CgrJni.ScalarSteps
import CgrJni.Interface
import CgrJni.RouterQueues

/-!
Numbers that pass through a `signed int` on their way into a Scalar: the
duration and the rate of a contact, and the bytes enqueued at an outduct.
-/

namespace Narrowing

open IonDb Libcgr Forward ScalarSteps
open Scalar (toInt32 value Normal)

theorem inInt_toInt32 (n : Int) : InInt (toInt32 n) := by
  simp only [InInt, toInt32, Int.bmod]
  split
  · omega
  · omega

theorem toInt32_of_lt {n : Int} (h : 0 ≤ n) (hlt : n < 2 ^ 31) : toInt32 n = n := by
  simp only [toInt32, Int.bmod]
  split
  · omega
  · omega

theorem toInt32_eq_min {n : Int} : toInt32 n = -2 ^ 31 ↔ n % 2 ^ 32 = 2 ^ 31 := by
  simp only [toInt32, Int.bmod]
  split
  · omega
  · omega

theorem argument_toInt32 {n : Int} (h : n % 2 ^ 32 ≠ 2 ^ 31) : Argument (toInt32 n) :=
  ⟨inInt_toInt32 n, fun hmin => h (toInt32_eq_min.mp hmin)⟩

/-- The magnitude of a narrowed number is the number just if it was not narrowed. -/
theorem absolute_toInt32 {n : Int} (h : 0 ≤ n) : absolute (toInt32 n) = some n ↔ n < 2 ^ 31 := by
  constructor
  · intro habs
    by_cases hmin : n % 2 ^ 32 = 2 ^ 31
    · rw [toInt32_eq_min.mpr hmin, absolute_min] at habs
      cases habs
    · have harg := argument_toInt32 hmin
      rw [absolute_eq harg] at habs
      have hlt := (abs_bounds harg).2
      rwa [Option.some.inj habs] at hlt
  · intro hlt
    rw [toInt32_of_lt h hlt, absolute, if_neg (not_lt.mpr h)]

/-- A number is loaded as it is just if it was not narrowed. -/
theorem loadScalar_toInt32 {n : Int} (h : 0 ≤ n) : Yields (loadScalar (toInt32 n)) n ↔ n < 2 ^ 31 := by
  constructor
  · rintro ⟨s, hs, -, hv⟩
    have hmin : n % 2 ^ 32 ≠ 2 ^ 31 := by
      intro hmin
      rw [toInt32_eq_min.mpr hmin, loadScalar_min] at hs
      cases hs
    have harg := argument_toInt32 hmin
    rw [loadScalar_eq harg, exact, if_pos (fits_abs harg)] at hs
    rw [← Option.some.inj hs, value_ofValue] at hv
    exact hv ▸ (abs_bounds harg).2
  · intro hlt
    have harg : Argument (toInt32 n) := argument_toInt32 (by omega)
    have habs : |toInt32 n| = n := by rw [toInt32_of_lt h hlt, abs_of_nonneg h]
    have hfits := fits_abs harg
    rw [habs] at hfits
    rwa [loadScalar_eq harg, habs, yields_exact]

/-- The capacity of a contact as the projection of a route counts it, step by step. -/
def countedCapacity (contact : IonCXref) (currentTime : Int) : Option Scalar := do
  let startTime := later currentTime contact.fromTime
  let capacity ← loadScalar (toInt32 (contact.toTime - startTime))
  multiplyScalar capacity (toInt32 contact.xmitRate)

/-- Where it is defined, it is the capacity that the scan of the contacts goes on with. -/
theorem countedCapacity_closed {contact : IonCXref} {currentTime : Int} {capacity : Scalar}
    (h : countedCapacity contact currentTime = some capacity) (claims : Claims) :
    capacity = (allot currentTime contact claims).capacity := by
  obtain ⟨s, hs, hm⟩ := Option.bind_eq_some_iff.mp h
  have hsec : Argument (toInt32 (contact.toTime - later currentTime contact.fromTime)) := by
    refine ⟨inInt_toInt32 _, fun hmin => ?_⟩
    rw [hmin, loadScalar_min] at hs
    cases hs
  have hrate : Argument (toInt32 contact.xmitRate) := by
    refine ⟨inInt_toInt32 _, fun hmin => ?_⟩
    rw [hmin, multiplyScalar, absolute_min] at hm
    cases hm
  have hclosed := loadScalar_closed hsec hs
  have hvalue : 0 ≤ value s := by
    rw [hclosed, Scalar.value_loadScalar]
    exact Scalar.magnitude_nonneg hsec.gt_min
  rw [multiplyScalar_closed hvalue hrate hm, hclosed]
  rfl

/-- The projection counts the capacity that the search has, and divides by the rate itself. -/
structure SameCapacity (contact : IonCXref) (currentTime : Int) : Prop where
  capacity : ∃ s, countedCapacity contact currentTime = some s ∧ value s = contactCapacity contact
  divisor : absolute (toInt32 contact.xmitRate) = some (contact.xmitRate : Int)

theorem countedCapacity_eq {contact : IonCXref} {currentTime : Int} (hnow : currentTime ≤ contact.fromTime)
    (hrate : contact.xmitRate < 2 ^ 31) : countedCapacity contact currentTime =
      (loadScalar (toInt32 (contact.toTime - contact.fromTime))).bind fun s => multiplyScalar s contact.xmitRate := by
  have hstart : later currentTime contact.fromTime = contact.fromTime := if_neg (not_lt.mpr hnow)
  have hcast : toInt32 (contact.xmitRate : Int) = contact.xmitRate := toInt32_of_lt (by omega) (by omega)
  rw [countedCapacity, hstart, hcast]
  rfl

theorem sameCapacity_iff (contact : IonCXref) (currentTime : Int) (hnow : currentTime ≤ contact.fromTime)
    (hvolume : (contact.xmitRate : Int) * (contact.toTime - contact.fromTime) < 2 ^ 53) :
    SameCapacity contact currentTime ↔ contact.xmitRate < 2 ^ 31 ∧
      (contact.toTime - contact.fromTime < 2 ^ 31 ∨
        contact.xmitRate = 0 ∧ (contact.toTime - contact.fromTime) % 2 ^ 32 ≠ 2 ^ 31) := by
  have hinterval := contact.interval
  have hcapacity : (contactCapacity contact : Int) = (contact.toTime - contact.fromTime) * contact.xmitRate := by
    have hnat : ((contact.xmitRate * (contact.toTime - contact.fromTime).toNat : Nat) : Int) =
        (contact.xmitRate : Int) * (contact.toTime - contact.fromTime) := by
      rw [Int.natCast_mul, Int.toNat_of_nonneg (by omega)]
    rw [contactCapacity_of_lt (by omega), hnat, mul_comm]
  rw [mul_comm] at hvolume
  generalize hd : contact.toTime - contact.fromTime = duration at *
  have hpos : 0 < duration := by omega
  have hdivisor := absolute_toInt32 (n := contact.xmitRate) (by omega)
  constructor
  · rintro ⟨⟨s, hs, hv⟩, hdiv⟩
    have hrate : contact.xmitRate < 2 ^ 31 := by
      have := hdivisor.mp hdiv
      omega
    rw [countedCapacity_eq hnow hrate, hd, Option.bind_eq_some_iff] at hs
    obtain ⟨t, ht, hm⟩ := hs
    have hmin : duration % 2 ^ 32 ≠ 2 ^ 31 := by
      intro hmin
      rw [toInt32_eq_min.mpr hmin, loadScalar_min] at ht
      cases ht
    refine ⟨hrate, ?_⟩
    by_cases hzero : contact.xmitRate = 0
    · exact Or.inr ⟨hzero, hmin⟩
    · -- the products agree, and so do the durations
      left
      have harg := argument_toInt32 hmin
      have hlt := (abs_bounds harg).2
      rw [loadScalar_eq harg, exact, if_pos (fits_abs harg)] at ht
      have ht' : value t = |toInt32 duration| := by rw [← Option.some.inj ht, value_ofValue]
      have hargRate : Argument (contact.xmitRate : Int) := ⟨⟨by omega, by omega⟩, by omega⟩
      rw [multiplyScalar_eq (by rw [ht']; exact abs_nonneg _) hargRate, exact] at hm
      split at hm
      · rw [← Option.some.inj hm, value_ofValue, ht', hcapacity, Nat.abs_cast] at hv
        have heq : |toInt32 duration| = duration := mul_right_cancel₀ (by omega) hv
        omega
      · cases hm
  · rintro ⟨hrate, hduration⟩
    refine ⟨?_, hdivisor.mpr (by omega)⟩
    rw [countedCapacity_eq hnow hrate, hd]
    have hmin : duration % 2 ^ 32 ≠ 2 ^ 31 := by
      cases hduration with
      | inl hlt => omega
      | inr hzero => exact hzero.2
    have harg := argument_toInt32 hmin
    have hproduct : |toInt32 duration| * contact.xmitRate = duration * contact.xmitRate := by
      cases hduration with
      | inl hlt => rw [toInt32_of_lt hpos.le hlt, abs_of_pos hpos]
      | inr hzero => rw [hzero.1, Int.natCast_zero, mul_zero, mul_zero]
    have hargRate : Argument (contact.xmitRate : Int) := ⟨⟨by omega, by omega⟩, by omega⟩
    have hfits : Fits (duration * contact.xmitRate) :=
      fits_of_lt (Int.mul_nonneg hpos.le (by omega)) (by omega)
    refine ⟨ofValue (duration * contact.xmitRate), ?_, by rw [value_ofValue, hcapacity]⟩
    rw [loadScalar_eq harg, exact, if_pos (fits_abs harg), Option.bind_some,
      multiplyScalar_eq (by rw [value_ofValue]; exact abs_nonneg _) hargRate, value_ofValue, Nat.abs_cast, hproduct,
      exact, if_pos hfits]

theorem toNode_ne_zero : (2 : Nat) ≠ 0 := by decide

theorem start_ne_zero : (10 : Int) ≠ 0 := by decide

theorem start_lt_end : (10 : Int) < 20 := by decide

/-- The fastest rate that a contact can have. -/
def fastContact : IonCXref :=
  ⟨⟨1, 2, 10, 20, Nat.one_ne_zero, toNode_ne_zero, start_ne_zero, start_lt_end⟩, 2 ^ 32 - 1, 0, 0, 0, 0, 0, 0, 0, 0, 1, 1⟩

theorem sameCapacity_iff_fast :
    SameCapacity fastContact 5 ↔ fastContact.xmitRate < 2 ^ 31 ∧
      (fastContact.toTime - fastContact.fromTime < 2 ^ 31 ∨
        fastContact.xmitRate = 0 ∧ (fastContact.toTime - fastContact.fromTime) % 2 ^ 32 ≠ 2 ^ 31) :=
  sameCapacity_iff fastContact 5 (by decide) (by decide)

/-- As a signed integer the rate is -1: ten bytes are counted instead of ten times `2 ^ 32 - 1`. -/
theorem fastContact_undercounted : (5 : Int) ≤ fastContact.fromTime ∧
    (fastContact.xmitRate : Int) * (fastContact.toTime - fastContact.fromTime) < 2 ^ 53 ∧
    absolute (toInt32 fastContact.xmitRate) = some 1 ∧ contactCapacity fastContact = 42949672950 ∧
    ¬ SameCapacity fastContact 5 := by
  refine ⟨by decide, by decide, by decide, by decide, ?_⟩
  intro h
  have hdivisor := h.divisor
  revert hdivisor
  decide

/-- The bytes enqueued as a Java `long`, which is what the C side gets. -/
def getOutductTotalEnqueuedBytes (r : Router.ContactGraphRouter) (host : Nat) : Int :=
  (r.outducts host).totalEnqueuedBytes.bmod (2 ^ 64)

/-- The backlog of an outduct that `ion_outduct` fills in, step by step. -/
def stdBacklog (r : Router.ContactGraphRouter) (host : Nat) : Option Scalar :=
  loadScalar (toInt32 (getOutductTotalEnqueuedBytes r host))

def copyScalar (s : Scalar) : Scalar := ⟨s.gigs, s.units⟩

/-- The prior claims and the total backlog. -/
def computePriorClaims (duct : Forward.Outduct) : Scalar × Scalar :=
  let totalBacklog := copyScalar duct.stdBacklog
  (copyScalar totalBacklog, totalBacklog)

/-- The bytes of the messages in the queue for a host. -/
def queuedBytes (r : Router.ContactGraphRouter) (host : Nat) : Nat := ((r.outducts host).queue.map Router.Message.size).sum

/-- Both scalars that the projection starts from have the value of the bytes in the queue. -/
def TrueBacklog (r : Router.ContactGraphRouter) (host : Nat) : Prop :=
  ∃ s, stdBacklog r host = some s ∧
    let claims := computePriorClaims { Interface.ionOutduct r host with stdBacklog := s }
    value claims.1 = queuedBytes r host ∧ value claims.2 = queuedBytes r host

/-- The scan of a projection starts from these two scalars. -/
theorem projectArrival_computePriorClaims (s : IonState) (route : CgrRoute) (bundle : Bundle) (currentTime : Int)
    (duct : Forward.Outduct) : projectArrival s route bundle currentTime
      { duct with stdBacklog := (computePriorClaims duct).1 } = projectArrival s route bundle currentTime duct := rfl

theorem getOutductTotalEnqueuedBytes_eq {sim : Router.Simulator} {r : Router.ContactGraphRouter}
    (h : RouterQueues.Good sim r) {host : Nat} (hlt : queuedBytes r host < 2 ^ 61) :
    getOutductTotalEnqueuedBytes r host = queuedBytes r host := by
  have hbytes : (r.outducts host).totalEnqueuedBytes = (queuedBytes r host : Int) := h.bytes host
  rw [getOutductTotalEnqueuedBytes, hbytes, Int.bmod_def]
  split
  · omega
  · omega

/-- Where the steps are defined, the backlog is that of the outduct in closed form. -/
theorem stdBacklog_closed {sim : Router.Simulator} {r : Router.ContactGraphRouter} (h : RouterQueues.Good sim r)
    {host : Nat} (hlt : queuedBytes r host < 2 ^ 61) {s : Scalar} (hs : stdBacklog r host = some s) :
    s = (Interface.ionOutduct r host).stdBacklog := by
  have hbytes : (r.outducts host).totalEnqueuedBytes = (queuedBytes r host : Int) := h.bytes host
  have harg : Argument (toInt32 (getOutductTotalEnqueuedBytes r host)) := by
    refine ⟨inInt_toInt32 _, fun hmin => ?_⟩
    rw [stdBacklog, hmin, loadScalar_min] at hs
    cases hs
  rw [loadScalar_closed harg hs, getOutductTotalEnqueuedBytes_eq h hlt, ← hbytes]
  rfl

theorem trueBacklog_iff_of_good {sim : Router.Simulator} {r : Router.ContactGraphRouter}
    (h : RouterQueues.Good sim r) {host : Nat} (hlt : queuedBytes r host < 2 ^ 61) :
    TrueBacklog r host ↔ queuedBytes r host < 2 ^ 31 := by
  have hload := loadScalar_toInt32 (n := queuedBytes r host) (by omega)
  have hiff : TrueBacklog r host ↔ Yields (loadScalar (toInt32 (queuedBytes r host))) (queuedBytes r host) := by
    rw [TrueBacklog, stdBacklog, getOutductTotalEnqueuedBytes_eq h hlt]
    constructor
    · rintro ⟨s, hs, hv, -⟩
      have hmin : toInt32 (queuedBytes r host) ≠ -2 ^ 31 := by
        intro hmin
        rw [hmin, loadScalar_min] at hs
        cases hs
      have harg : Argument (toInt32 (queuedBytes r host)) := ⟨inInt_toInt32 _, hmin⟩
      have hnormal := Scalar.normal_loadScalar harg.gt_min
      rw [← loadScalar_closed harg hs] at hnormal
      exact ⟨s, hs, hnormal, hv⟩
    · rintro ⟨s, hs, -, hv⟩
      exact ⟨s, hs, hv, hv⟩
  rw [hiff, hload]
  omega

theorem good_of_run {sim : Router.Simulator} {outductRef forwardTimelimit : Router.Message → Int}
    {steps : List Router.Step} {r : Router.ContactGraphRouter}
    (hrun : Runs.run (Router.step sim) (Router.ContactGraphRouter.init outductRef forwardTimelimit) steps = some r) :
    RouterQueues.Good sim r :=
  Runs.run_invariant (fun _ _ _ h hs => RouterQueues.good_step h hs) steps _ r
    (RouterQueues.good_init outductRef forwardTimelimit) hrun

theorem trueBacklog_iff (sim : Router.Simulator) (outductRef forwardTimelimit : Router.Message → Int)
    (steps : List Router.Step) (r : Router.ContactGraphRouter)
    (hrun : Runs.run (Router.step sim) (Router.ContactGraphRouter.init outductRef forwardTimelimit) steps = some r)
    (host : Nat) (hlt : queuedBytes r host < 2 ^ 61) : TrueBacklog r host ↔ queuedBytes r host < 2 ^ 31 :=
  trueBacklog_iff_of_good (good_of_run hrun) hlt

def largeMessage (ref : Nat) (id : String) : Router.Message := ⟨ref, id, 2000000000, 1, 3⟩

/-- Two large messages are routed to the same neighbour. -/
def largeSteps : List Router.Step :=
  [.createNewMessage (largeMessage 1 "M1") (.enqueued 20 2), .createNewMessage (largeMessage 2 "M2") (.enqueued 20 2)]

theorem largeSteps_run : ∃ r, Runs.run (Router.step RouterQueues.threeHosts)
      (Router.ContactGraphRouter.init (fun _ => -2) (fun _ => 0)) largeSteps = some r ∧
    queuedBytes r 2 = 4000000000 := by
  have hbytes : (Runs.run (Router.step RouterQueues.threeHosts)
      (Router.ContactGraphRouter.init (fun _ => -2) (fun _ => 0)) largeSteps).map (fun r => queuedBytes r 2) =
        some 4000000000 := by decide +kernel
  exact Option.map_eq_some_iff.mp hbytes

theorem trueBacklog_iff_largeSteps : ∃ r, Runs.run (Router.step RouterQueues.threeHosts)
      (Router.ContactGraphRouter.init (fun _ => -2) (fun _ => 0)) largeSteps = some r ∧ queuedBytes r 2 < 2 ^ 61 ∧
    (TrueBacklog r 2 ↔ queuedBytes r 2 < 2 ^ 31) := by
  obtain ⟨r, hrun, hbytes⟩ := largeSteps_run
  exact ⟨r, hrun, by omega, trueBacklog_iff RouterQueues.threeHosts _ _ largeSteps r hrun 2 (by omega)⟩

theorem largeSteps_undercounted : ∃ r, Runs.run (Router.step RouterQueues.threeHosts)
      (Router.ContactGraphRouter.init (fun _ => -2) (fun _ => 0)) largeSteps = some r ∧
    queuedBytes r 2 = 4000000000 ∧ (Interface.ionOutduct r 2).stdBacklog = ⟨0, 294967296⟩ ∧ ¬ TrueBacklog r 2 := by
  obtain ⟨r, hrun, hbytes⟩ := largeSteps_run
  have hgood := good_of_run hrun
  have htotal : (r.outducts 2).totalEnqueuedBytes = (queuedBytes r 2 : Int) := hgood.bytes 2
  refine ⟨r, hrun, hbytes, ?_, ?_⟩
  · rw [Interface.ionOutduct, htotal, hbytes]
    decide
  · rw [trueBacklog_iff_of_good hgood (by omega)]
    omega

end Narrowing
