import CgrJni.Projection
import CgrJni.ScalarSteps

/-!
When a route is projected at all and how the projection depends on what is sent: routes
whose initial contact is gone, and more or less traffic on the same route.
-/

namespace ProjectedArrival

open IonDb Libcgr Forward Scalar Journeys Projection
open ScalarSteps (ofValue normal_ofValue value_ofValue)

variable {s : IonState} {route : CgrRoute} {now : Int} {claims : Claims}

/-- The initial contact of a route is not in the index. -/
def Missing (contactIndex : ContactIndex) (fromNode toNode : Nat) (fromTime : Int) : Prop :=
  ∀ c ∈ contactIndex, ¬ (c.fromNode = fromNode ∧ c.toNode = toNode ∧ c.fromTime = fromTime)

/-- The place in the order of the index from which on a contact ends the scan. -/
def initialKey (fromNode toNode : Nat) (fromTime : Int) : Key := toLex (toLex (fromNode, toNode), max fromTime 0)

/-- The contacts before the place of the initial contact, which the scan goes through. -/
def contactsBefore (s : IonState) (route : CgrRoute) : List IonCXref :=
  s.contactIndex.between (wildKey s.ownNodeNbr route.toNodeNbr)
    (initialKey s.ownNodeNbr route.toNodeNbr route.fromTime)

/-- Without the initial contact, the scan passes the contacts before its place and goes on. -/
theorem scanContacts_missing (h : Missing s.contactIndex s.ownNodeNbr route.toNodeNbr route.fromTime)
    (claims : Claims) :
    scanContacts s route now (s.contactIndex.scan (wildKey s.ownNodeNbr route.toNodeNbr)) claims =
      scanContacts s route now (s.contactIndex.above (initialKey s.ownNodeNbr route.toNodeNbr route.fromTime))
        ((contactsBefore s route).foldl (pass now) claims) := by
  have hle : wildKey s.ownNodeNbr route.toNodeNbr ≤ initialKey s.ownNodeNbr route.toNodeNbr route.fromTime := by
    simp only [wildKey, initialKey, Prod.Lex.toLex_le_toLex, lt_irrefl, false_or, true_and]
    exact le_max_right _ _
  have habs : ∀ c ∈ s.contactIndex, c.toSpan.key ≠ initialKey s.ownNodeNbr route.toNodeNbr route.fromTime := by
    intro c hc hkey
    have hne := c.fromTime_ne
    simp only [initialKey, Span.key, Span.pair, EmbeddingLike.apply_eq_iff_eq, Prod.mk.injEq] at hkey
    exact h c hc ⟨hkey.1.1, hkey.1.2, by omega⟩
  have hbefore : ∀ c ∈ contactsBefore s route,
      c.fromNode = s.ownNodeNbr ∧ c.toNode = route.toNodeNbr ∧ c.fromTime < route.fromTime := by
    intro c hc
    obtain ⟨-, hafter, hlt⟩ := SortedIndex.mem_between.mp hc
    rw [key_contact, wildKey_lt_key] at hafter
    rw [key_contact, initialKey, key_lt_iff] at hlt
    omega
  rw [scan_wildKey, SortedIndex.above_of_absent hle habs]
  exact scanContacts_earlier (contactsBefore s route) _ claims hbefore

/-- A later contact is what the scan takes for the sign that the initial contact is gone. -/
theorem scanContacts_missing_later (h : Missing s.contactIndex s.ownNodeNbr route.toNodeNbr route.fromTime)
    (claims : Claims)
    (hlater : ∃ c ∈ s.contactIndex, initialKey s.ownNodeNbr route.toNodeNbr route.fromTime < c.toSpan.key) :
    scanContacts s route now (s.contactIndex.scan (wildKey s.ownNodeNbr route.toNodeNbr)) claims = none := by
  obtain ⟨c, hc, hlt⟩ := hlater
  have hmem : c ∈ s.contactIndex.above (initialKey s.ownNodeNbr route.toNodeNbr route.fromTime) :=
    SortedIndex.mem_above.mpr ⟨hc, hlt⟩
  rw [scanContacts_missing h claims]
  apply scanContacts_later _ (List.ne_nil_of_mem hmem)
  intro d hd
  apply lt_of_le_of_lt _ (SortedIndex.mem_above.mp hd).2
  simp only [initialKey, Prod.Lex.toLex_le_toLex, lt_irrefl, false_or, true_and]
  exact le_max_left _ _

/-- At the end of the index, the scan goes on as if it had come to the initial contact. -/
theorem scanContacts_missing_last (h : Missing s.contactIndex s.ownNodeNbr route.toNodeNbr route.fromTime)
    (claims : Claims)
    (hlast : ¬ ∃ c ∈ s.contactIndex, initialKey s.ownNodeNbr route.toNodeNbr route.fromTime < c.toSpan.key) :
    scanContacts s route now (s.contactIndex.scan (wildKey s.ownNodeNbr route.toNodeNbr)) claims =
      some ((contactsBefore s route).foldl (pass now) claims) := by
  have hnil : s.contactIndex.above (initialKey s.ownNodeNbr route.toNodeNbr route.fromTime) = [] := by
    apply List.eq_nil_iff_forall_not_mem.mpr
    intro c hc
    exact hlast ⟨c, SortedIndex.mem_above.mp hc⟩
  rw [scanContacts_missing h claims, hnil]
  rfl

section Stale

/-- A time at which all contacts have ended, and a contact with this start may have begun. -/
def afterAll (contactIndex : ContactIndex) (fromTime : Int) : Int :=
  contactIndex.entries.foldr (fun c t => max (c.toTime + 1) t) (max fromTime 1)

theorem foldr_max_ge (contacts : List IonCXref) (t : Int) :
    t ≤ contacts.foldr (fun c t => max (c.toTime + 1) t) t ∧
      ∀ c ∈ contacts, c.toTime < contacts.foldr (fun c t => max (c.toTime + 1) t) t := by
  induction contacts with
  | nil => simp
  | cons c rest ih =>
    obtain ⟨hle, hrest⟩ := ih
    rw [List.foldr_cons]
    refine ⟨hle.trans (le_max_right _ _), ?_⟩
    intro d hd
    cases List.mem_cons.mp hd with
    | inl heq =>
      rw [heq]
      omega
    | inr hd => exact (hrest d hd).trans_le (le_max_right _ _)

/-- A contact that a route may still begin with, with these nodes and this start where a contact can
have them, and a thousand seconds to go; at a rate of zero if no bundle lasts so long. -/
def goneContact (fromNode toNode : Nat) (fromTime now : Int) : IonCXref where
  fromNode := max fromNode 1
  toNode := max toNode 1
  fromTime := max fromTime 1
  toTime := max (max fromTime 1) now + 1000
  fromNode_ne := by omega
  toNode_ne := by omega
  fromTime_ne := by omega
  interval := by omega
  xmitRate := if now < 2 ^ 32 then 1000 else 0
  prob := 0
  startXmit := 0
  stopXmit := 0
  startFire := 0
  stopFire := 0
  startRecv := 0
  stopRecv := 0
  purgeTime := 0
  contactElt := 0
  addr := 0

def staleRoute (fromNode toNode : Nat) (fromTime now : Int) : CgrRoute where
  toNodeNbr := toNode
  fromTime := fromTime
  toTime := max (max fromTime 1) now + 1000
  arrivalTime := max fromTime 1
  hops := [goneContact fromNode toNode fromTime now]
  maxCapacity := 1000000
  payloadClass := 0

/-- A database with these contacts and one range, over the time of the contact that is gone. -/
def staleState (contactIndex : ContactIndex) (fromNode toNode : Nat) (fromTime now : Int) : IonState :=
  { ionInitialize fromNode with
    contactIndex := contactIndex
    rangeIndex := ⟨[⟨(goneContact fromNode toNode fromTime now).toSpan, 0, 1, 1⟩], List.pairwise_singleton _ _⟩ }

/-- A bundle of a hundred bytes with the latest deadline there is. -/
def lastingBundle : Bundle where
  senderNodeNbr := 1
  returnToSender := true
  destination := 2
  cbhe := true
  expirationTime := 2 ^ 32 - 1 - epoch2000Sec
  payloadLength := 100
  doesNotFragment := true
  minimumLatency := false
  dictionaryLength := 0
  prePayloadLength := 0
  postPayloadLength := 0

def idleOutduct : Outduct := ⟨"o", false, 0, loadScalar 0⟩

theorem getApplicableRange_gone (contactIndex : ContactIndex) (fromNode toNode : Nat) (fromTime now : Int) :
    getApplicableRange (staleState contactIndex fromNode toNode fromTime now) (goneContact fromNode toNode fromTime now) =
      some 0 := by
  have hstart : 0 < (goneContact fromNode toNode fromTime now).fromTime := by
    show 0 < max fromTime 1
    omega
  have hopen := (goneContact fromNode toNode fromTime now).interval
  exact getApplicableRange_singleton (r := ⟨(goneContact fromNode toNode fromTime now).toSpan, 0, 1, 1⟩) rfl rfl rfl
    hstart le_rfl hopen.le

/-- Contacts that have ended are passed without effect. -/
theorem foldl_pass_ended (contacts : List IonCXref) (claims : Claims) (h : ∀ c ∈ contacts, c.toTime < now) :
    contacts.foldl (pass now) claims = claims := by
  induction contacts with
  | nil => rfl
  | cons c rest ih =>
    rw [List.foldl_cons, Projection.pass, if_pos (h c List.mem_cons_self)]
    exact ih (fun d hd => h d (List.mem_cons_of_mem c hd))

section

variable {contactIndex : ContactIndex} {fromNode toNode : Nat} {fromTime : Int}

/-- The backlog is empty, and no contact is left to serve any of it. -/
theorem scanContacts_stale (h : Missing contactIndex fromNode toNode fromTime)
    (hlast : ¬ ∃ c ∈ contactIndex, initialKey fromNode toNode fromTime < c.toSpan.key)
    (hended : ∀ c ∈ contactIndex, c.toTime < now) :
    scanContacts (staleState contactIndex fromNode toNode fromTime now) (staleRoute fromNode toNode fromTime now) now
      ((staleState contactIndex fromNode toNode fromTime now).contactIndex.scan (wildKey fromNode toNode))
      (startClaims idleOutduct) = some (startClaims idleOutduct) := by
  have hpassed := foldl_pass_ended
    (contactsBefore (staleState contactIndex fromNode toNode fromTime now) (staleRoute fromNode toNode fromTime now))
    (startClaims idleOutduct) (fun c hc => hended c (SortedIndex.mem_between.mp hc).1)
  have hscan := @scanContacts_missing_last (staleState contactIndex fromNode toNode fromTime now)
    (staleRoute fromNode toNode fromTime now) now h (startClaims idleOutduct) hlast
  rwa [hpassed] at hscan

/-- The route that is left is projected to arrive at once, or its projection fails on a rate of zero. -/
theorem projectArrival_stale (h : Missing contactIndex fromNode toNode fromTime)
    (hlast : ¬ ∃ c ∈ contactIndex, initialKey fromNode toNode fromTime < c.toSpan.key)
    (hended : ∀ c ∈ contactIndex, c.toTime < now) (hstart : max fromTime 1 ≤ now) :
    ∃ est, projectArrival (staleState contactIndex fromNode toNode fromTime now)
        (staleRoute fromNode toNode fromTime now) lastingBundle now idleOutduct = some est ∧
      (now < 2 ^ 32 ∧ est.arrivalTime = now ∨ est.arrivalTime = -1) := by
  have hscan := scanContacts_stale h hlast hended
  have hsize : guessBundleSize lastingBundle = 129 := by decide
  by_cases hsoon : now < 2 ^ 32
  · have hrate : (goneContact fromNode toNode fromTime now).xmitRate = 1000 := if_pos hsoon
    have hlatency : radiationLatency (increaseScalar (startClaims idleOutduct).priorClaims 129) 1000 = 0 := by
      decide
    refine ⟨⟨now, deduct (increaseScalar (startClaims idleOutduct).allotment 129) (startClaims idleOutduct).capacity,
      (startClaims idleOutduct).protect, now⟩, (projectArrival_eq_some rfl).mpr ⟨startClaims idleOutduct, hscan,
        by rw [hsize], rfl, Or.inr ?_⟩, Or.inl ⟨hsoon, rfl⟩⟩
    rw [hrate, hsize, hlatency, later_eq_max]
    refine ⟨by decide, ?_, ?_⟩
    · show now = max fromTime now + 0
      omega
    · show hopArrival _ _ now [goneContact fromNode toNode fromTime now] = some now
      have hlasts : (goneContact fromNode toNode fromTime now).toTime = max (max fromTime 1) now + 1000 := rfl
      exact hopArrival_cons.mpr ⟨by omega, 0, getApplicableRange_gone _ _ _ _ _, Or.inl ⟨rfl, by simp⟩⟩
  · have hrate : (goneContact fromNode toNode fromTime now).xmitRate = 0 := if_neg hsoon
    exact ⟨⟨-1, deduct (increaseScalar (startClaims idleOutduct).allotment 129) (startClaims idleOutduct).capacity,
      (startClaims idleOutduct).protect, 0⟩, (projectArrival_eq_some rfl).mpr ⟨startClaims idleOutduct, hscan,
        by rw [hsize], rfl, Or.inl ⟨hrate, rfl, rfl⟩⟩, Or.inr rfl⟩

/-- Where no contact comes after its place, a missing initial contact is not noticed. -/
theorem computeArrivalTime_stale (h : Missing contactIndex fromNode toNode fromTime)
    (hlast : ¬ ∃ c ∈ contactIndex, initialKey fromNode toNode fromTime < c.toSpan.key)
    (hended : ∀ c ∈ contactIndex, c.toTime < now) (hstart : max fromTime 1 ≤ now) :
    computeArrivalTime (staleState contactIndex fromNode toNode fromTime now) (staleRoute fromNode toNode fromTime now)
      lastingBundle now idleOutduct ≠ 0 := by
  obtain ⟨est, hproject, harrival⟩ := projectArrival_stale h hlast hended hstart
  have hdeadline : deadline lastingBundle = 2 ^ 32 - 1 := by decide
  apply computeArrivalTime_ne_zero.mpr
  refine ⟨est, hproject, ?_, by omega, by omega⟩
  rw [computeArrivalTime, hproject]
  exact if_neg (by omega)

end

end Stale

/-- Routes whose initial contact is gone are refused, all of them, exactly if some contact
comes after its place in the index. -/
theorem missing_refused_iff (contactIndex : ContactIndex) (fromNode toNode : Nat) (fromTime : Int)
    (hmissing : Missing contactIndex fromNode toNode fromTime) :
    (∀ (s : IonState) (route : CgrRoute) (bundle : Bundle) (now : Int) (outduct : Outduct),
      s.contactIndex = contactIndex → s.ownNodeNbr = fromNode → route.toNodeNbr = toNode →
      route.fromTime = fromTime → computeArrivalTime s route bundle now outduct = 0) ↔
    ∃ c ∈ contactIndex, initialKey fromNode toNode fromTime < c.toSpan.key := by
  constructor
  · intro h
    by_contra hlast
    obtain ⟨hstart, hended⟩ := foldr_max_ge contactIndex.entries (max fromTime 1)
    exact @computeArrivalTime_stale (afterAll contactIndex fromTime) _ _ _ _ hmissing hlast hended hstart
      (h _ (staleRoute fromNode toNode fromTime (afterAll contactIndex fromTime)) lastingBundle
        (afterAll contactIndex fromTime) idleOutduct rfl rfl rfl rfl)
  · intro hlater s route bundle now outduct hindex hown hto hfrom
    subst hindex hown hto hfrom
    have hscan : scanContacts s route now (s.contactIndex.scan (wildKey s.ownNodeNbr route.toNodeNbr))
        (startClaims outduct) = none := scanContacts_missing_later hmissing (startClaims outduct) hlater
    have hproject : projectArrival s route bundle now outduct = none := by
      rw [projectArrival]
      exact congrArg (fun claims => Option.bind claims _) hscan
    rw [computeArrivalTime, hproject]

/-- The contact of node 1 with node 2 that comes first; the one from 30 on has been removed. -/
def firstContactLeft : IonState :=
  (Rfx.rfxInsertRange (Rfx.rfxInsertContact (ionInitialize 1) 0 10 20 1 2 1000 1).1 0 5 2000 1 2 1).1

theorem missing_refused_iff_firstContact :
    (∀ (s : IonState) (route : CgrRoute) (bundle : Bundle) (now : Int) (outduct : Outduct),
      s.contactIndex = firstContactLeft.contactIndex → s.ownNodeNbr = 1 → route.toNodeNbr = 2 →
      route.fromTime = 30 → computeArrivalTime s route bundle now outduct = 0) ↔
    ∃ c ∈ firstContactLeft.contactIndex, initialKey 1 2 30 < c.toSpan.key :=
  missing_refused_iff firstContactLeft.contactIndex 1 2 30
    (show ∀ c ∈ firstContactLeft.contactIndex.entries, ¬ (c.fromNode = 1 ∧ c.toNode = 2 ∧ c.fromTime = 30) by decide)

theorem missing_not_refused : Missing firstContactLeft.contactIndex 1 2 30 ∧
    computeArrivalTime firstContactLeft (staleRoute 1 2 30 25) lastingBundle 25 idleOutduct = 31 := by
  constructor
  · show ∀ c ∈ firstContactLeft.contactIndex.entries, ¬ (c.fromNode = 1 ∧ c.toNode = 2 ∧ c.fromTime = 30)
    decide
  · decide +kernel

section Traffic

variable {bundle bundle' : Bundle} {outduct outduct' : Outduct} {c : IonCXref} {est : Estimate}

/-- With the second traffic the route is accepted as well, and neither the transmission nor the arrival is later. -/
structure NoLater (s : IonState) (route : CgrRoute) (now : Int) (bundle bundle' : Bundle) (outduct outduct' : Outduct) :
    Prop where
  accepted : computeArrivalTime s route bundle' now outduct' ≠ 0
  arrival : computeArrivalTime s route bundle' now outduct' ≤ computeArrivalTime s route bundle now outduct
  eto : ∃ est est', projectArrival s route bundle now outduct = some est ∧
    projectArrival s route bundle' now outduct' = some est' ∧ est'.eto ≤ est.eto

end Traffic

end ProjectedArrival
