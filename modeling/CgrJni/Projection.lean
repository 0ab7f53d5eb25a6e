import CgrJni.Forward
import CgrJni.Journeys

/-!
The projection of a route for a bundle in closed form: what the contacts with the first
neighbor leave of the backlog, and when the last hop is reached.
-/

namespace Projection

open IonDb Libcgr Forward Scalar Journeys

/-- The rest of a contact, in seconds as the signed variable holds them, at its rate. -/
def countedCapacity (now : Int) (c : IonCXref) : Int :=
  magnitude (toInt32 (c.toTime - later now c.fromTime)) * magnitude (toInt32 c.xmitRate)

/-- Claims that are left when capacities have been deducted from them one by one, never below zero. -/
def unserved (claims : Int) (capacities : List Int) : Int :=
  capacities.foldl (fun left capacity => max 0 (left - capacity)) claims

@[simp] theorem unserved_nil (claims : Int) : unserved claims [] = claims := rfl

/-- Subtraction as the scan performs it. -/
def deduct (s decrement : Scalar) : Scalar :=
  if scalarIsValid (subtractFromScalar s decrement) then subtractFromScalar s decrement else loadScalar 0

variable {s : IonState} {route : CgrRoute} {now : Int} {claims : Claims} {left : Int} {c : IonCXref}

theorem deduct_spec {a b : Scalar} (ha : Normal a) (hb : Normal b) :
    Normal (deduct a b) ∧ value (deduct a b) = max 0 (value a - value b) := by
  have hnormal := normal_subtractFromScalar ha hb
  have hvalid := scalarIsValid_iff hnormal
  rw [value_subtractFromScalar a hb] at hvalid
  unfold deduct
  split
  · rename_i h
    have hle := hvalid.mp h
    rw [value_subtractFromScalar a hb]
    exact ⟨hnormal, (max_eq_right hle).symm⟩
  · rename_i h
    have hlt : ¬ 0 ≤ value a - value b := fun hle => h (hvalid.mpr hle)
    exact ⟨normal_loadScalar (by decide), (max_eq_left (not_le.mp hlt).le).symm⟩

/-- Both running values stand at what is left of the backlog. -/
structure Backlogged (claims : Claims) (left : Int) : Prop where
  prior_normal : Normal claims.priorClaims
  prior_value : value claims.priorClaims = left
  protect_normal : Normal claims.protect
  protect_value : value claims.protect = left

/-- The running values at a contact that has been looked at: its share, and what is beyond it. -/
structure Allotted (claims : Claims) (left capacity : Int) : Prop where
  prior_normal : Normal claims.priorClaims
  prior_value : value claims.priorClaims = left
  capacity_normal : Normal claims.capacity
  capacity_value : value claims.capacity = capacity
  allotment_normal : Normal claims.allotment
  allotment_value : value claims.allotment = min left capacity
  protect_normal : Normal claims.protect
  protect_value : value claims.protect = max 0 (left - capacity)

/-- A capacity is negative only where a count of `2 ^ 31` has no magnitude; then it is in whole gigs. -/
theorem normal_capacity (now : Int) (c : IonCXref) (claims : Claims) : Normal (allot now c claims).capacity := by
  obtain ⟨hseconds, -⟩ | hseconds := magnitude_toInt32_cases (c.toTime - later now c.fromTime)
  · obtain ⟨hrate, -⟩ | hrate := magnitude_toInt32_cases c.xmitRate
    · apply normal_multiplyScalar
      rw [value_loadScalar]
      exact Int.mul_nonneg hseconds hrate
    · apply normal_multiplyScalar_of_dvd
      rw [hrate]
      exact Dvd.dvd.mul_left (by decide) _
  · apply normal_multiplyScalar_of_dvd
    rw [value_loadScalar, hseconds]
    exact Dvd.dvd.mul_right (by decide) _

theorem allot_allotted (h : Backlogged claims left) (now : Int) (c : IonCXref) :
    Allotted (allot now c claims) left (countedCapacity now c) := by
  have hcap : value (allot now c claims).capacity = countedCapacity now c := by
    show value (multiplyScalar _ _) = _
    rw [value_multiplyScalar, value_loadScalar]
    rfl
  have hcapn := normal_capacity now c claims
  obtain ⟨hrestn, hrest⟩ := deduct_spec h.protect_normal hcapn
  have hspare := scalarIsValid_iff (normal_subtractFromScalar hcapn h.protect_normal)
  rw [value_subtractFromScalar _ h.protect_normal, hcap, h.protect_value] at hspare
  have hallot : (allot now c claims).allotment =
      if scalarIsValid (subtractFromScalar (allot now c claims).capacity claims.protect) then claims.protect
      else (allot now c claims).capacity := rfl
  rw [hcap, h.protect_value] at hrest
  refine ⟨h.prior_normal, h.prior_value, hcapn, hcap, ?_, ?_, hrestn, hrest⟩
  · rw [hallot]
    split
    · exact h.protect_normal
    · exact hcapn
  · rw [hallot]
    split
    · rename_i hvalid
      have hle := hspare.mp hvalid
      rw [h.protect_value]
      omega
    · rename_i hvalid
      have hlt : ¬ 0 ≤ countedCapacity now c - left := fun hle => hvalid (hspare.mpr hle)
      rw [hcap]
      omega

theorem servePriorClaims_backlogged {capacity : Int} (h : Allotted claims left capacity) :
    Backlogged (servePriorClaims claims) (max 0 (left - capacity)) := by
  obtain ⟨hn, hv⟩ := deduct_spec h.prior_normal h.capacity_normal
  rw [h.prior_value, h.capacity_value] at hv
  exact ⟨hn, hv, h.protect_normal, h.protect_value⟩

/-- A contact before the initial one: if it has not ended, the scan lets it serve its share. -/
def pass (now : Int) (claims : Claims) (c : IonCXref) : Claims :=
  if c.toTime < now then claims else servePriorClaims (allot now c claims)

/-- The capacities that the contacts have left. -/
def capacities (now : Int) (contacts : List IonCXref) : List Int :=
  (contacts.filter (fun c => now ≤ c.toTime)).map (countedCapacity now)

theorem capacities_cons_of_ended {rest : List IonCXref} (h : c.toTime < now) :
    capacities now (c :: rest) = capacities now rest := by
  rw [capacities, List.filter_cons_of_neg (by simpa using h)]
  rfl

theorem capacities_cons_of_open {rest : List IonCXref} (h : ¬ c.toTime < now) :
    capacities now (c :: rest) = countedCapacity now c :: capacities now rest := by
  rw [capacities, List.filter_cons_of_pos (by simpa using h)]
  rfl

/-- The contacts with a neighbor that start before some time, as the scan meets them: a start
before the epoch is not met. -/
def earlierContacts (s : IonState) (toNode : Nat) (fromTime : Int) : List IonCXref :=
  s.contactIndex.between (wildKey s.ownNodeNbr toNode) (toLex (toLex (s.ownNodeNbr, toNode), fromTime))

theorem key_lt_iff {c : IonCXref} {fromNode toNode : Nat} {fromTime : Int} :
    c.toSpan.key < (toLex (toLex (fromNode, toNode), fromTime) : Key) ↔
      c.fromNode < fromNode ∨ c.fromNode = fromNode ∧
        (c.toNode < toNode ∨ c.toNode = toNode ∧ c.fromTime < fromTime) := by
  simp only [Span.key, Span.pair, Prod.Lex.toLex_lt_toLex, EmbeddingLike.apply_eq_iff_eq, Prod.mk.injEq]
  omega

theorem mem_earlierContacts {toNode : Nat} {fromTime : Int} : c ∈ earlierContacts s toNode fromTime ↔
    c ∈ s.contactIndex ∧ c.fromNode = s.ownNodeNbr ∧ c.toNode = toNode ∧ 0 < c.fromTime ∧ c.fromTime < fromTime := by
  rw [earlierContacts, SortedIndex.mem_between, key_contact, wildKey_lt_key, key_lt_iff]
  constructor
  · rintro ⟨hc, hafter, hbefore⟩
    exact ⟨hc, by omega, by omega, by omega, by omega⟩
  · rintro ⟨hc, hfrom, hto, hpos, hlt⟩
    exact ⟨hc, by omega, by omega⟩

theorem scan_wildKey (s : IonState) (toNode : Nat) :
    s.contactIndex.scan (wildKey s.ownNodeNbr toNode) = s.contactIndex.above (wildKey s.ownNodeNbr toNode) :=
  SortedIndex.scan_of_absent (contacts_absent_wildKey s.contactIndex s.ownNodeNbr toNode)

/-- Earlier contacts are passed, whatever follows. -/
theorem scanContacts_earlier (contacts rest : List IonCXref) (claims : Claims)
    (h : ∀ c ∈ contacts, c.fromNode = s.ownNodeNbr ∧ c.toNode = route.toNodeNbr ∧ c.fromTime < route.fromTime) :
    scanContacts s route now (contacts ++ rest) claims =
      scanContacts s route now rest (contacts.foldl (pass now) claims) := by
  induction contacts generalizing claims with
  | nil => rfl
  | cons c contacts ih =>
    obtain ⟨hfrom, hto, hlt⟩ := h c List.mem_cons_self
    have hrest := fun claims => ih claims (fun d hd => h d (List.mem_cons_of_mem c hd))
    rw [List.cons_append, scanContacts, if_neg (by omega), List.foldl_cons, pass]
    by_cases hended : c.toTime < now
    · rw [if_pos hended, if_pos hended]
      exact hrest claims
    · rw [if_neg hended, if_neg hended]
      show (if route.fromTime ≤ c.fromTime then _ else _) = _
      rw [if_neg (by omega)]
      exact hrest _

/-- Whatever comes after the key of the initial contact ends the scan without a result. -/
theorem scanContacts_later {contacts : List IonCXref} (claims : Claims) (hne : contacts ≠ [])
    (h : ∀ c ∈ contacts, toLex (toLex (s.ownNodeNbr, route.toNodeNbr), route.fromTime) < c.toSpan.key) :
    scanContacts s route now contacts claims = none := by
  cases contacts with
  | nil => exact absurd rfl hne
  | cons c rest =>
    have hlt := h c List.mem_cons_self
    simp only [Span.key, Span.pair, Prod.Lex.toLex_lt_toLex, EmbeddingLike.apply_eq_iff_eq, Prod.mk.injEq] at hlt
    rw [scanContacts, if_pos (by omega)]

/-- The first hop of a route is a contact on record, and the route is characterized by it. -/
structure Leads (s : IonState) (route : CgrRoute) (c : IonCXref) (rest : List IonCXref) : Prop where
  hops : route.hops = c :: rest
  mem : c ∈ s.contactIndex
  fromNode : c.fromNode = s.ownNodeNbr
  toNode : route.toNodeNbr = c.toNode
  fromTime : route.fromTime = c.fromTime

/-- The values with which the scan begins. -/
def startClaims (outduct : Outduct) : Claims :=
  ⟨outduct.stdBacklog, outduct.stdBacklog, loadScalar 0, loadScalar 0⟩

/-- What is left of the backlog when the initial contact begins, as the scan counts. -/
def claimsLeft (s : IonState) (route : CgrRoute) (now : Int) (outduct : Outduct) : Int :=
  unserved (value outduct.stdBacklog) (capacities now (earlierContacts s route.toNodeNbr route.fromTime))

/-- A contact that does not end the scan is the initial one, or an earlier one with the same nodes. -/
theorem key_of_not_later (hafter : wildKey s.ownNodeNbr route.toNodeNbr < c.toSpan.key)
    (hstop : ¬ (s.ownNodeNbr < c.fromNode ∨ route.toNodeNbr < c.toNode ∨ route.fromTime < c.fromTime)) :
    c.toSpan.key < (toLex (toLex (s.ownNodeNbr, route.toNodeNbr), route.fromTime) : Key) ↔ c.fromTime < route.fromTime := by
  have hkey : wildKey s.ownNodeNbr route.toNodeNbr < c.toSpan.key := hafter
  rw [wildKey_lt_key] at hkey
  rw [key_lt_iff]
  omega

/-- However the scan ends, the contacts before the initial one have served their shares. -/
theorem scanContacts_prior {contacts : List IonCXref} {found : Claims}
    (hsorted : contacts.Pairwise (fun c d => c.toSpan.key < d.toSpan.key))
    (hafter : ∀ c ∈ contacts, wildKey s.ownNodeNbr route.toNodeNbr < c.toSpan.key) (h : Backlogged claims left)
    (hscan : scanContacts s route now contacts claims = some found) :
    Normal found.priorClaims ∧ value found.priorClaims = unserved left (capacities now
      (contacts.filter (fun c => c.toSpan.key < toLex (toLex (s.ownNodeNbr, route.toNodeNbr), route.fromTime)))) := by
  induction contacts generalizing claims left with
  | nil =>
    obtain rfl := Option.some.inj hscan
    exact ⟨h.prior_normal, h.prior_value⟩
  | cons c rest ih =>
    rw [scanContacts] at hscan
    split at hscan
    · cases hscan
    rename_i hstop
    have hearlier := key_of_not_later (hafter c List.mem_cons_self) hstop
    obtain ⟨hfirst, hsorted'⟩ := List.pairwise_cons.mp hsorted
    have hrest := fun claims left (h : Backlogged claims left) =>
      @ih claims left hsorted' (fun d hd => hafter d (List.mem_cons_of_mem c hd)) h
    by_cases hinitial : route.fromTime ≤ c.fromTime
    · -- whatever follows is later than the initial contact
      have hnone : rest.filter (fun d =>
          d.toSpan.key < toLex (toLex (s.ownNodeNbr, route.toNodeNbr), route.fromTime)) = [] := by
        rw [List.filter_eq_nil_iff]
        intro d hd hlt
        exact absurd (hearlier.mp ((hfirst d hd).trans (of_decide_eq_true hlt))) (not_lt.mpr hinitial)
      rw [List.filter_cons_of_neg (by simpa [hearlier] using hinitial), hnone]
      by_cases hended : c.toTime < now
      · rw [if_pos hended] at hscan
        have hfound := hrest claims left h hscan
        rwa [hnone] at hfound
      · simp only [if_neg hended, if_pos hinitial] at hscan
        obtain rfl := Option.some.inj hscan
        exact ⟨h.prior_normal, h.prior_value⟩
    · rw [List.filter_cons_of_pos (by simpa [hearlier] using hinitial)]
      by_cases hended : c.toTime < now
      · rw [if_pos hended] at hscan
        rw [capacities_cons_of_ended hended]
        exact hrest claims left h hscan
      · simp only [if_neg hended, if_neg hinitial] at hscan
        rw [capacities_cons_of_open hended]
        exact hrest _ _ (servePriorClaims_backlogged (allot_allotted h now c)) hscan

variable {rest : List IonCXref} {outduct : Outduct}

theorem startClaims_backlogged (h : Normal outduct.stdBacklog) :
    Backlogged (startClaims outduct) (value outduct.stdBacklog) := ⟨h, rfl, h, rfl⟩

theorem scanContacts_claimsLeft {found : Claims} (h : Normal outduct.stdBacklog)
    (hscan : scanContacts s route now (s.contactIndex.scan (wildKey s.ownNodeNbr route.toNodeNbr))
      (startClaims outduct) = some found) :
    Normal found.priorClaims ∧ value found.priorClaims = claimsLeft s route now outduct := by
  rw [scan_wildKey] at hscan
  have hprior := scanContacts_prior (SortedIndex.above_sorted _ _) (fun c hc => (SortedIndex.mem_above.mp hc).2)
    (startClaims_backlogged h) hscan
  have hearlier : (s.contactIndex.above (wildKey s.ownNodeNbr route.toNodeNbr)).filter (fun c =>
      c.toSpan.key < toLex (toLex (s.ownNodeNbr, route.toNodeNbr), route.fromTime)) =
        earlierContacts s route.toNodeNbr route.fromTime := by
    rw [SortedIndex.above, earlierContacts, SortedIndex.between, List.filter_filter]
    congr 1
    funext c
    rw [Bool.decide_and, Bool.and_comm]
  rwa [hearlier] at hprior

/-- The scan comes to the initial contact and allots it its share, unless it has ended. -/
theorem scanContacts_initial (h : Leads s route c rest) (hpos : 0 < c.fromTime) (hopen : now ≤ c.toTime)
    (claims : Claims) :
    scanContacts s route now (s.contactIndex.scan (wildKey s.ownNodeNbr route.toNodeNbr)) claims =
      some (allot now c ((earlierContacts s route.toNodeNbr route.fromTime).foldl (pass now) claims)) := by
  have hkey : (toLex (toLex (s.ownNodeNbr, route.toNodeNbr), route.fromTime) : Key) = c.toSpan.key := by
    rw [h.toNode, h.fromTime, ← h.fromNode]
    rfl
  have hwild : wildKey s.ownNodeNbr route.toNodeNbr < c.toSpan.key := by
    rw [wildKey_lt_key]
    have hfrom := h.fromNode
    have hto := h.toNode
    omega
  have hsplit := SortedIndex.above_of_mem h.mem hwild
  rw [key_contact, ← hkey] at hsplit
  have hearlier : ∀ d ∈ earlierContacts s route.toNodeNbr route.fromTime,
      d.fromNode = s.ownNodeNbr ∧ d.toNode = route.toNodeNbr ∧ d.fromTime < route.fromTime := by
    intro d hd
    obtain ⟨-, hfrom, hto, -, hlt⟩ := mem_earlierContacts.mp hd
    exact ⟨hfrom, hto, hlt⟩
  have hfrom := h.fromNode
  have hto := h.toNode
  have htime := h.fromTime
  rw [scan_wildKey, hsplit]
  show scanContacts s route now (earlierContacts s route.toNodeNbr route.fromTime ++ _) claims = _
  rw [scanContacts_earlier _ _ _ hearlier, scanContacts, if_neg (by omega), if_neg (by omega)]
  exact if_pos htime.le

theorem later_eq_max (a b : Int) : later a b = max b a := by
  unfold later
  split
  · omega
  · omega

/-- What a contact can still carry. -/
def remainingCapacity (now : Int) (c : IonCXref) : Int := c.xmitRate * (c.toTime - later now c.fromTime)

/-- The rest of a contact is counted as it is: an `int` holds its seconds and its rate. -/
structure Countable (now : Int) (c : IonCXref) : Prop where
  seconds : c.toTime - later now c.fromTime < 2 ^ 31
  rate : c.xmitRate < 2 ^ 31

theorem remaining_nonneg (hopen : now ≤ c.toTime) : 0 ≤ c.toTime - later now c.fromTime := by
  have hinterval := c.interval
  rw [later_eq_max]
  omega

theorem countedCapacity_eq (h : Countable now c) (hopen : now ≤ c.toTime) :
    countedCapacity now c = remainingCapacity now c := by
  have hrate := h.rate
  rw [countedCapacity, remainingCapacity, magnitude_toInt32 (remaining_nonneg hopen) h.seconds,
    magnitude_toInt32 (by omega) (by omega), mul_comm]

/-- Whole seconds for a volume at a rate; a rate of zero leaves the volume as it is. -/
def seconds (volume : Int) (xmitRate : Nat) : Int :=
  if toInt32 xmitRate = 0 then volume else volume.tdiv (magnitude (toInt32 xmitRate))

/-- The seconds as an `int` holds them. -/
def latency (volume : Int) (xmitRate : Nat) : Int := toInt32 (seconds volume xmitRate)

theorem radiationLatency_eq (volume : Scalar) (xmitRate : Nat) :
    radiationLatency volume xmitRate = latency (value volume) xmitRate := by
  unfold radiationLatency intValue latency seconds
  split
  · rename_i hzero
    rw [divideScalar, if_pos hzero]
  · rename_i hne
    rw [value_divideScalar volume hne]

theorem radiationLatency_load (eccc : Int) (xmitRate : Nat) :
    radiationLatency (loadScalar eccc) xmitRate = latency (magnitude eccc) xmitRate := by
  rw [radiationLatency_eq, value_loadScalar]

theorem latency_eq {volume : Int} {xmitRate : Nat} (h : 0 ≤ seconds volume xmitRate)
    (hlt : seconds volume xmitRate < 2 ^ 31) : latency volume xmitRate = seconds volume xmitRate :=
  toInt32_of_inInt (by omega) hlt

/-- At a rate that an `int` holds, the seconds are a quotient. -/
theorem seconds_of_rate {volume : Int} (h : 0 ≤ volume) {xmitRate : Nat} (hrate : xmitRate ≠ 0)
    (hlt : xmitRate < 2 ^ 31) : seconds volume xmitRate = volume / xmitRate := by
  have hcast : toInt32 (xmitRate : Int) = xmitRate := toInt32_of_inInt (by omega) (by omega)
  rw [seconds, hcast, if_neg (by omega), magnitude_of_nonneg (by omega), Int.tdiv_eq_ediv_of_nonneg h]

/-- The seconds for a volume that an `int` holds, whatever the rate. -/
theorem seconds_small {volume : Int} (h : 0 ≤ volume) (hlt : volume < 2 ^ 31) (xmitRate : Nat) :
    0 ≤ seconds volume xmitRate ∧ seconds volume xmitRate < 2 ^ 31 := by
  unfold seconds
  split
  · exact ⟨h, hlt⟩
  · obtain ⟨hrate, -⟩ | hrate := magnitude_toInt32_cases xmitRate
    · rw [Int.tdiv_eq_ediv_of_nonneg h]
      exact ⟨Int.ediv_nonneg h hrate, (Int.ediv_le_self _ h).trans_lt hlt⟩
    · rw [hrate, Int.tdiv_neg, Int.tdiv_eq_zero_of_lt h hlt]
      decide

theorem latency_small {volume : Int} (h : 0 ≤ volume) (hlt : volume < 2 ^ 31) (xmitRate : Nat) :
    latency volume xmitRate = seconds volume xmitRate := by
  obtain ⟨hseconds, hsecondslt⟩ := seconds_small h hlt xmitRate
  exact latency_eq hseconds hsecondslt

/-- The one-way light time of a hop, zero if no range applies. -/
def owltOf (s : IonState) (c : IonCXref) : Nat := (getApplicableRange s c).getD 0

/-- A hop is gone through while its contact is open and a range applies to it. -/
theorem hopArrival_cons {eccc t a : Int} : hopArrival s eccc t (c :: rest) = some a ↔
    t < c.toTime ∧ ∃ owlt, getApplicableRange s c = some owlt ∧
      (rest = [] ∧ a = t + owlt ∨ ∃ next rest', rest = next :: rest' ∧
        hopArrival s eccc (later (t + owlt) next.fromTime + radiationLatency (loadScalar eccc) next.xmitRate) rest =
          some a) := by
  rw [hopArrival]
  by_cases hended : c.toTime ≤ t
  · rw [if_pos hended]
    constructor
    · nofun
    · rintro ⟨hopen, -⟩
      omega
  · rw [if_neg hended]
    cases getApplicableRange s c with
    | none => simp
    | some owlt =>
      cases rest with
      | nil => simp [eq_comm, Int.not_le.mp hended]
      | cons next rest' => simp [Int.not_le.mp hended]

/-- What a projection consists of. -/
structure Projected (s : IonState) (route : CgrRoute) (c : IonCXref) (eccc now : Int) (claims : Claims)
    (est : Estimate) : Prop where
  overbooked : est.overbooked = deduct (increaseScalar claims.allotment eccc) claims.capacity
  protect : est.protect = claims.protect
  arrival : c.xmitRate = 0 ∧ est.arrivalTime = -1 ∧ est.eto = 0 ∨
    c.xmitRate ≠ 0 ∧
      est.eto = later now route.fromTime + radiationLatency (increaseScalar claims.priorClaims eccc) c.xmitRate ∧
      hopArrival s eccc est.eto route.hops = some est.arrivalTime

variable {bundle : Bundle} {est : Estimate}

theorem projectArrival_eq_some (hhops : route.hops = c :: rest) :
    projectArrival s route bundle now outduct = some est ↔
      ∃ claims, scanContacts s route now (s.contactIndex.scan (wildKey s.ownNodeNbr route.toNodeNbr))
          (startClaims outduct) = some claims ∧ Projected s route c (guessBundleSize bundle) now claims est := by
  rw [projectArrival, Option.bind_eq_some_iff]
  apply exists_congr
  intro claims
  apply and_congr_right
  intro _
  simp only [hhops, computeECCC]
  by_cases hrate : c.xmitRate = 0
  · rw [if_pos hrate]
    constructor
    · intro h
      obtain rfl := Option.some.inj h
      exact ⟨rfl, rfl, Or.inl ⟨hrate, rfl, rfl⟩⟩
    · intro h
      obtain ⟨overbooked, protect, ⟨-, harrival, heto⟩ | ⟨hne, -⟩⟩ := h
      · obtain ⟨arrivalTime, overbooked', protect', eto⟩ := est
        subst overbooked protect harrival heto
        rfl
      · exact absurd hrate hne
  · rw [if_neg hrate, Option.map_eq_some_iff]
    constructor
    · rintro ⟨a, ha, rfl⟩
      exact ⟨rfl, rfl, Or.inr ⟨hrate, rfl, by rw [hhops]; exact ha⟩⟩
    · intro h
      obtain ⟨overbooked, protect, ⟨hzero, -⟩ | ⟨-, heto, harrival⟩⟩ := h
      · exact absurd hzero hrate
      · obtain ⟨arrivalTime, overbooked', protect', eto⟩ := est
        subst overbooked protect heto
        rw [hhops] at harrival
        exact ⟨arrivalTime, harrival, rfl⟩

/-- A route is accepted with its projection, by the deadline. -/
theorem computeArrivalTime_ne_zero : computeArrivalTime s route bundle now outduct ≠ 0 ↔
    ∃ est, projectArrival s route bundle now outduct = some est ∧
      computeArrivalTime s route bundle now outduct = est.arrivalTime ∧
      est.arrivalTime ≠ 0 ∧ est.arrivalTime ≤ deadline bundle := by
  cases hproject : projectArrival s route bundle now outduct with
  | none => simp [computeArrivalTime, hproject]
  | some est =>
    simp only [computeArrivalTime, hproject, Option.some.injEq]
    split
    · rename_i hlate
      constructor
      · intro h
        exact absurd rfl h
      · rintro ⟨est', rfl, -, -, hle⟩
        omega
    · rename_i hlate
      constructor
      · intro h
        exact ⟨est, rfl, rfl, h, by omega⟩
      · rintro ⟨est', rfl, -, hne, -⟩
        exact hne

end Projection
