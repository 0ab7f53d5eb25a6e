import CgrJni.Projection
import CgrJni.Reports

/-!
The lifetime of a message against the deadline that the expiration tests of
libcgr use for its bundle.
-/

namespace Lifetime

open Rfx (findNode contactEntry)
open IonDb Libcgr RouteLists Forward Projection RouteWalk Process Router RouterQueues Interface Reports Scalar

/-- No neighbor is selected for a route that arrives after the expiry, and no test for
expiration turns down a route that arrives by then. -/
structure Respected (expiry : Int) (forwarding : Forwarding Nat OneEnv) : Prop where
  selected : ∀ node ∈ forwarding.selected, node.arrivalTime ≤ expiry
  walk : ∀ route, forwarding.stoppedAt = some route → expiry < route.arrivalTime
  final : ∀ route est, (route, Verdict.expires est) ∈ forwarding.tried → expiry < est.arrivalTime

/-- What is known of the routes in the lists. -/
def Plausible (route : CgrRoute) : Prop := route.toTime ≤ maxTime ∧ 0 < route.arrivalTime

theorem plausible_of_onRecord (s : IonState) (route : CgrRoute) (h : OnRecord s route) : Plausible route :=
  ⟨h.toTime_le_max, h.arrivalTime_pos⟩

/-- What the two tests guarantee in a call, with the deadline that they use: no route is tried once time is up, or
at a deadline before all arrivals. -/
structure Tested (now deadline : Int) (forwarding : Forwarding Nat OneEnv) : Prop where
  selected : ∀ node ∈ forwarding.selected, now ≤ maxTime ∧ 0 < deadline
  walk : ∀ route, forwarding.stoppedAt = some route → now ≤ maxTime ∧ deadline < route.arrivalTime
  final : ∀ route est, (route, Verdict.expires est) ∈ forwarding.tried → now ≤ maxTime ∧ 0 < deadline

theorem cgrForward_tested {sim : Simulator} {p p' : IonProcess} {nodeNbr terminusNodeNbr : Nat}
    {bundle : Bundle} {now : Int} {r : ContactGraphRouter} {forwarding : Forwarding Nat OneEnv}
    (hbundle : bundle.minimumLatency = false) (hp : RoutesAll Plausible p)
    (hf : Process.cgrForward p nodeNbr (oneLookup sim) bundle terminusNodeNbr now (OneEnv.start r) =
      some (p', forwarding)) : Tested now (deadline bundle) forwarding := by
  obtain ⟨hsel, htried, hstop, -⟩ | ⟨s, excluded, routes, walked, hroutes, hw, hsel, htried, hstop, -⟩ :=
    cgrForward_walked plausible_of_onRecord hp hf
  · constructor
    · simp [hsel]
    · simp [hstop]
    · simp [htried]
  have hopen : ∀ tried ∈ walked.tried, now ≤ maxTime ∧ 0 < deadline bundle := by
    intro tried hin
    obtain ⟨⟨hmax, hpos⟩, hto, hdl⟩ := (walkRoutes_routes (plausible_of_onRecord s) hroutes hw).2 tried hin
    exact ⟨hto.trans hmax, hpos.trans_le hdl⟩
  constructor
  · intro node hnode
    rw [hsel] at hnode
    obtain ⟨route, est, hin, -⟩ := (walkRoutes_nodes hw).stands node (selectProximateNodes_mem hbundle hnode)
    exact hopen _ hin
  · intro route hroute
    rw [hstop] at hroute
    obtain ⟨⟨hmax, -⟩, hto, hdl⟩ := walkRoutes_stoppedAt (plausible_of_onRecord s) hroutes hw hroute
    exact ⟨hto.trans hmax, hdl⟩
  · intro route est hin
    rw [htried] at hin
    exact hopen _ hin

/-- With every router that keeps its queues in order, and in every state of the process, what
is routed for a message in the limbo respects its lifetime. -/
def LifetimeRespected (now ttl : Int) : Prop :=
  ∀ (sim : Simulator) (outductRef forwardTimelimit : Message → Int) (steps : List Router.Step)
    (r : ContactGraphRouter) (calls : List (Addressed OneEnv)) (p : IonProcess) (m : Message) (reference : Int)
    (terminusNodeNbr : Nat) (out : Forwarded),
    Runs.run (Router.step sim) (ContactGraphRouter.init outductRef forwardTimelimit) steps = some r →
    Runs.run (Process.step (oneLookup sim)) IonProcess.start calls = some p → m ∈ r.limbo.queue →
    cgrForwardONE sim p (OneEnv.start r) m ttl now reference terminusNodeNbr = some out →
    Respected (now + ttl) out.forwarding

/-- The first call for host 3 leaves a list with the one route, through host 2. -/
def relayPlan (rate onwardRate : Nat) : List (Addressed OneEnv) :=
  [⟨1, 0, .initializeNode⟩, ⟨1, 0, .edit (.insertContact 1 (2 ^ 33) 1 2 rate 1)⟩,
    ⟨1, 0, .edit (.insertContact 1 (2 ^ 33) 2 3 onwardRate 1)⟩, ⟨1, 0, .edit (.insertRange 1 (2 ^ 33) 1 2 0)⟩,
    ⟨1, 0, .edit (.insertRange 1 (2 ^ 33) 2 3 0)⟩,
    ⟨1, 0, .cgrForward (ionBundle (messageTo 1 "M1" 3) 0 0) 3
      (OneEnv.start (ContactGraphRouter.init (fun _ => 0) (fun _ => 0)))⟩]

/-- Host 1 reaches host 3 through host 2, and the route is in an up-to-date list. -/
structure Relayed (rate onwardRate : Nat) (p : IonProcess) (part : Partition) (vdb : CgrVdb) (route : CgrRoute)
    (c d : IonCXref) : Prop where
  partition : p.partitions 1 = some part
  cgrvdb : p.cgrvdb = some vdb
  current : part.ion.lastEditTime ≤ vdb.lastLoadTime
  own : part.ion.ownNodeNbr = 1
  node : findNode part.ion.nodes 3 = some ⟨3, []⟩
  routes : part.routingObject 3 = some [route]
  leads : Leads part.ion route c [d]
  toNodeNbr : route.toNodeNbr = 2
  fromTime : route.fromTime = 1
  toTime : route.toTime = maxTime
  arrivalTime : route.arrivalTime = 1
  maxCapacity : 2 ^ 30 ≤ route.maxCapacity
  contact : c.toTime = 2 ^ 33 ∧ c.xmitRate = rate
  onward : d.fromTime = 1 ∧ d.toTime = 2 ^ 33 ∧ d.xmitRate = onwardRate
  ranges : getApplicableRange part.ion c = some 0 ∧ getApplicableRange part.ion d = some 0

/-- The rates of the plans that are looked at. -/
def Chosen (rate onwardRate : Nat) : Prop := (rate, onwardRate) ∈ [(1000, 1000), (1, 1000), (1, 1)]

instance (rate onwardRate : Nat) : Decidable (Chosen rate onwardRate) :=
  inferInstanceAs (Decidable ((rate, onwardRate) ∈ [(1000, 1000), (1, 1000), (1, 1)]))

theorem Chosen.pos {rate onwardRate : Nat} (h : Chosen rate onwardRate) : rate ≠ 0 ∧ onwardRate ≠ 0 := by
  have hall : ∀ x ∈ [(1000, 1000), (1, 1000), (1, 1)], x.1 ≠ 0 ∧ x.2 ≠ 0 := by decide
  exact hall (rate, onwardRate) h

theorem relayPlan_relayed {rate onwardRate : Nat} (h : Chosen rate onwardRate) :
    ∃ p part vdb route c d,
      Runs.run (Process.step (oneLookup threeHosts)) IonProcess.start (relayPlan rate onwardRate) = some p ∧
      Relayed rate onwardRate p part vdb route c d := by
  have hsome : ∀ x ∈ [(1000, 1000), (1, 1000), (1, 1)],
      (Runs.run (Process.step (oneLookup threeHosts)) IonProcess.start (relayPlan x.1 x.2)).any (fun p =>
        (p.partitions 1).any (fun part => p.cgrvdb.any (fun vdb =>
          ((part.routingObject 3).bind List.head?).any (fun route => route.hops.head?.any (fun c =>
            route.hops.tail.head?.any (fun d =>
              decide (part.ion.lastEditTime ≤ vdb.lastLoadTime ∧ part.ion.ownNodeNbr = 1 ∧
                findNode part.ion.nodes 3 = some ⟨3, []⟩ ∧ part.routingObject 3 = some [route]) &&
              decide (route.hops = [c, d] ∧ c ∈ part.ion.contactIndex.entries ∧ c.fromNode = part.ion.ownNodeNbr ∧
                route.toNodeNbr = c.toNode ∧ route.fromTime = c.fromTime) &&
              decide (route.toNodeNbr = 2 ∧ route.fromTime = 1 ∧ route.toTime = maxTime ∧ route.arrivalTime = 1 ∧
                2 ^ 30 ≤ route.maxCapacity ∧ (c.toTime = 2 ^ 33 ∧ c.xmitRate = x.1) ∧
                (d.fromTime = 1 ∧ d.toTime = 2 ^ 33 ∧ d.xmitRate = x.2) ∧
                (getApplicableRange part.ion c = some 0 ∧ getApplicableRange part.ion d = some 0)))))))) = true := by
    decide +kernel
  obtain ⟨p, hrun, hp⟩ := (Option.any_eq_true _ _).mp (hsome (rate, onwardRate) h)
  obtain ⟨part, hpart, hp⟩ := (Option.any_eq_true _ _).mp hp
  obtain ⟨vdb, hvdb, hp⟩ := (Option.any_eq_true _ _).mp hp
  obtain ⟨route, -, hp⟩ := (Option.any_eq_true _ _).mp hp
  obtain ⟨c, -, hp⟩ := (Option.any_eq_true _ _).mp hp
  obtain ⟨d, -, hp⟩ := (Option.any_eq_true _ _).mp hp
  obtain ⟨hp, hroute⟩ := (Bool.and_eq_true_iff).mp hp
  obtain ⟨hpart', hleads⟩ := (Bool.and_eq_true_iff).mp hp
  obtain ⟨hcurrent, hown, hnode, hroutes⟩ := of_decide_eq_true hpart'
  obtain ⟨hhops, hmem, hfrom, hto, htime⟩ := of_decide_eq_true hleads
  obtain ⟨htoNode, hfromTime, htoTime, harrival, hcapacity, hcontact, honward, hranges⟩ := of_decide_eq_true hroute
  exact ⟨p, part, vdb, route, c, d, hrun, hpart, hvdb, hcurrent, hown, hnode, hroutes, ⟨hhops, hmem, hfrom, hto, htime⟩,
    htoNode, hfromTime, htoTime, harrival, hcapacity, hcontact, honward, hranges⟩

def messageOf (size : Nat) : Message := ⟨1, "M1", size, 1, 3⟩

/-- One message is on its way to host 2, and the next one waits in the limbo. -/
def backlogSteps (backlog size : Nat) : List Router.Step :=
  [.createNewMessage ⟨0, "M0", backlog, 1, 3⟩ (.enqueued 1 2), .createNewMessage (messageOf size) .stays]

theorem backlogSteps_run (backlog size : Nat) :
    ∃ r, Runs.run (Router.step threeHosts) (ContactGraphRouter.init (fun _ => 0) (fun _ => 0))
        (backlogSteps backlog size) = some r ∧
      messageOf size ∈ r.limbo.queue ∧ (r.outducts 2).totalEnqueuedBytes = backlog := by
  simp [backlogSteps, Router.step, createNewMessage, addToMessages, putMessageIntoLimbo, messageOf,
    ContactGraphRouter.init, updateOutductRef, updateMessageForfeitTime, Router.cgrForward, superAddToMessages,
    insertMessageIntoLimbo, noneId, insertBundleIntoOutduct, getHostFromNumber, threeHosts, limboId,
    insertMessageIntoOutduct, isMessageIntoLimbo, removeMessageFromLimbo, Outduct.removeMessage]

/-- The arrival over both contacts: the first one serves the backlog before the message. -/
def relayArrival (now : Int) (rate onwardRate backlog size : Nat) : Int :=
  max (now + latency (backlog + (size + 29)) rate) 1 + latency (size + 29) onwardRate

variable {rate onwardRate backlog size : Nat} {p : IonProcess} {part : Partition} {vdb : CgrVdb} {route : CgrRoute}
  {c d : IonCXref} {now ttl : Int}

/-- No transmission comes near to the end of the contacts. -/
theorem add_latency_lt (hmax : now ≤ maxTime) (volume : Int) (rate : Nat) : now + latency volume rate < 2 ^ 32 := by
  have hmax' : now ≤ 2 ^ 31 - 1 := hmax
  have hlatency := (toInt32_bounds (seconds volume rate)).2
  rw [latency]
  omega

theorem relayArrival_lt (hmax : now ≤ maxTime) (rate onwardRate backlog size : Nat) :
    relayArrival now rate onwardRate backlog size < 2 ^ 33 := by
  have hfirst := add_latency_lt hmax (backlog + (size + 29)) rate
  have hsecond := (toInt32_bounds (seconds (size + 29) onwardRate)).2
  rw [relayArrival, latency.eq_def (size + 29)]
  omega

theorem latency_slow {volume : Int} (h : 0 ≤ volume) : latency volume 1 = toInt32 volume := by
  rw [latency, seconds_of_rate h (by decide) (by decide), Nat.cast_one, Int.ediv_one]

theorem latency_fast : latency 129 1000 = 0 := by decide

theorem guessBundleSize_ionBundle (hsize : size ≤ 2 ^ 30) :
    guessBundleSize (ionBundle (messageOf size) ttl now) = size + 29 := by
  simp only [guessBundleSize, ionBundle, messageOf, nominalPrimaryBlksize]
  rw [toInt32_of_inInt (by omega) (by omega)]
  omega

theorem relayed_projected (h : Relayed rate onwardRate p part vdb route c d) (hrate : rate ≠ 0) (hnow : 0 < now)
    (hmax : now ≤ maxTime) (hsize : size ≤ 2 ^ 30) {outduct : Forward.Outduct}
    (hbacklog : outduct.stdBacklog = loadScalar backlog) :
    ∃ est, projectArrival part.ion route (ionBundle (messageOf size) ttl now) now outduct = some est ∧
      est.arrivalTime = relayArrival now rate onwardRate backlog size := by
  have hmax' : now ≤ 2 ^ 31 - 1 := hmax
  obtain ⟨hend, hcrate⟩ := h.contact
  obtain ⟨hdfrom, hdend, hdrate⟩ := h.onward
  have hcfrom : c.fromTime = 1 := h.leads.fromTime ▸ h.fromTime
  obtain ⟨claims, hscan⟩ : ∃ claims, scanContacts part.ion route now
      (part.ion.contactIndex.scan (wildKey part.ion.ownNodeNbr route.toNodeNbr)) (startClaims outduct) = some claims :=
    ⟨_, scanContacts_initial h.leads (by omega) (by omega) _⟩
  have hstd : Normal outduct.stdBacklog := hbacklog ▸ normal_loadScalar (by omega)
  have hprior := (scanContacts_claimsLeft hstd hscan).2
  -- no contact begins before the route does
  have hearlier : earlierContacts part.ion route.toNodeNbr route.fromTime = [] := by
    rw [List.eq_nil_iff_forall_not_mem, h.fromTime]
    intro e he
    obtain ⟨-, -, -, hpos, hlt⟩ := mem_earlierContacts.mp he
    omega
  rw [claimsLeft, hearlier] at hprior
  have hclaims : value outduct.stdBacklog = backlog := by
    rw [hbacklog, value_loadScalar, magnitude_of_nonneg (by omega)]
  have hlast : hopArrival part.ion (size + 29) (relayArrival now rate onwardRate backlog size) [d] =
      some (relayArrival now rate onwardRate backlog size) := by
    refine hopArrival_cons.mpr ⟨?_, 0, h.ranges.2, Or.inl ⟨rfl, by simp⟩⟩
    exact (relayArrival_lt hmax _ _ _ _).trans_eq hdend.symm
  have hhop : hopArrival part.ion (size + 29) (now + latency (backlog + (size + 29)) rate) [c, d] =
      some (relayArrival now rate onwardRate backlog size) := by
    refine hopArrival_cons.mpr ⟨?_, 0, h.ranges.1, Or.inr ⟨d, [], rfl, ?_⟩⟩
    · exact ((add_latency_lt hmax _ _).trans (by decide)).trans_eq hend.symm
    · rw [later_eq_max, radiationLatency_load, magnitude_of_nonneg (by omega), hdfrom, hdrate, Nat.cast_zero, add_zero,
        max_comm]
      exact hlast
  have hlatency : radiationLatency (increaseScalar claims.priorClaims (size + 29)) c.xmitRate =
      latency (backlog + (size + 29)) rate := by
    rw [radiationLatency_eq, value_increaseScalar, hprior, magnitude_of_nonneg (by omega), hclaims, hcrate]
    rfl
  refine ⟨⟨_, _, _, now + latency (backlog + (size + 29)) rate⟩, (projectArrival_eq_some h.leads.hops).mpr
    ⟨_, hscan, rfl, rfl, Or.inr ⟨by omega, ?_, ?_⟩⟩, rfl⟩
  · rw [guessBundleSize_ionBundle hsize, hlatency, h.fromTime, later_eq_max, max_eq_right (show 1 ≤ now from hnow)]
  · rw [guessBundleSize_ionBundle hsize, h.leads.hops]
    exact hhop

theorem relayArrival_pos (hsize : size ≤ 2 ^ 30) : 0 < relayArrival now rate onwardRate backlog size := by
  have hsecond := (seconds_small (show (0 : Int) ≤ size + 29 by omega) (by omega) onwardRate).1
  rw [← latency_small (by omega) (by omega)] at hsecond
  rw [relayArrival]
  omega

theorem relayed_verdict (h : Relayed rate onwardRate p part vdb route c d) (hrate : rate ≠ 0) (hnow : 0 < now)
    (hmax : now ≤ maxTime) (hsize : size ≤ 2 ^ 30) (hbacklog : backlog < 2 ^ 31) {r : ContactGraphRouter}
    (hr : (r.outducts 2).totalEnqueuedBytes = backlog) :
    ∃ est, est.arrivalTime = relayArrival now rate onwardRate backlog size ∧
      assessRoute part.ion route (ionBundle (messageOf size) ttl now) now (ionOutduct r 2) =
        if deadline (ionBundle (messageOf size) ttl now) < est.arrivalTime then .expires est else .accepted est := by
  have hduct : (ionOutduct r 2).stdBacklog = loadScalar backlog := by
    rw [ionOutduct, hr, toInt32_of_inInt (by omega) (by omega)]
  obtain ⟨est, hest, harr⟩ :=
    @relayed_projected rate onwardRate backlog size p part vdb route c d now ttl h hrate hnow hmax hsize _ hduct
  have hpos := @relayArrival_pos rate onwardRate backlog size now hsize
  have hshort : ¬ ((ionBundle (messageOf size) ttl now).doesNotFragment = true ∧
      (ionOutduct r 2).maxPayloadLen ≠ 0 ∧
      (ionOutduct r 2).maxPayloadLen < (ionBundle (messageOf size) ttl now).payloadLength) := by
    simp only [ionOutduct, ionBundle, messageOf]
    omega
  refine ⟨est, harr, ?_⟩
  rw [assessRoute, if_neg (show ¬ (ionOutduct r 2).blocked = true from Bool.false_ne_true), if_neg hshort]
  simp only [computeArrivalTime, hest]
  by_cases hdl : deadline (ionBundle (messageOf size) ttl now) < est.arrivalTime
  · rw [if_pos hdl, if_pos rfl, if_pos hdl, if_pos hdl]
  · rw [if_neg hdl, if_neg (by omega), if_neg hdl]

/-- The records of a call after the first look at host 2. -/
def afterLookup (r : ContactGraphRouter) : OneEnv :=
  ⟨r, [ionOutduct r 2], Function.update (fun _ => none) (getOutductName 2) (some 0), false⟩

theorem relayed_considered (h : Relayed rate onwardRate p part vdb route c d) (hsize : size ≤ 2 ^ 30)
    (r : ContactGraphRouter) :
    considerRoute part.ion (oneLookup threeHosts) (ionBundle (messageOf size) ttl now) [] now route
        ⟨[route], [], [], [], OneEnv.start r⟩ =
      ⟨[route], [],
        noteVerdict 0 route [] (assessRoute part.ion route (ionBundle (messageOf size) ttl now) now (ionOutduct r 2)),
        [(route, assessRoute part.ion route (ionBundle (messageOf size) ttl now) now (ionOutduct r 2))],
        afterLookup r⟩ := by
  have hcapacity : ¬ route.maxCapacity < (ionBundle (messageOf size) ttl now).payloadLength := by
    have hmaxCapacity := h.maxCapacity
    simp only [ionBundle, messageOf]
    omega
  have hhost : getHostFromNumber threeHosts (2 : Nat) = some 2 := rfl
  have hdirective : (oneLookup threeHosts).getDirective 2 (ionBundle (messageOf size) ttl now) (OneEnv.start r) =
      (some 0, afterLookup r) := by
    simp only [oneLookup, getONEDirective, hhost]
    rfl
  rw [considerRoute, h.toNodeNbr, h.own, if_neg (by omega), if_neg hcapacity, if_neg (by simp), tryRoute, h.toNodeNbr]
  simp only [hdirective]
  rfl

theorem relayed_forwarding (h : Relayed rate onwardRate p part vdb route c d) {bundle : Bundle}
    (hbundle : bundle.returnToSender = true) {r : ContactGraphRouter} {walked : Walked Nat OneEnv}
    (hw : walkRoutes part.ion (oneLookup threeHosts) bundle [] 3 now [route] (OneEnv.start r) = some walked) :
    ∃ p', Process.cgrForward p 1 (oneLookup threeHosts) bundle 3 now (OneEnv.start r) =
      some (p', Forwarding.of bundle ⟨walked, false, false⟩) := by
  have hrefresh : refresh p vdb part.ion.lastEditTime now = p := by
    have hcurrent := h.current
    rw [refresh, if_neg (by omega)]
  have hexcluded : excludedNodes bundle ⟨3, []⟩ = [] := by
    simp [excludedNodes, hbundle]
  unfold Process.cgrForward
  simp only [h.partition, h.cgrvdb]
  rw [if_neg (by decide), hrefresh, routeBundle, h.partition, Option.bind_some]
  simp only [h.node, h.routes, identifyProximateNodes, hexcluded, hw]
  exact ⟨_, rfl⟩

/-- The deadline is thirty years after the expiry, or has wrapped around. -/
theorem deadline_ionBundle (m : Message) (now ttl : Int) :
    deadline (ionBundle m ttl now) = (now + ttl + 946684800) % 2 ^ 32 := by
  simp only [deadline, ionBundle, epoch2000Sec]
  omega

/-- The outcome for the message behind a backlog: stopped at the deadline, or projected and judged. -/
theorem relayed_outcome (hrate : Chosen rate onwardRate) (hnow : 0 < now) (hmax : now ≤ maxTime) (hsize : size ≤ 2 ^ 30)
    (hbacklog : backlog < 2 ^ 31) (h : LifetimeRespected now ttl) :
    now + ttl < 1 ∧ (now + ttl + 946684800) % 2 ^ 32 < 1 ∨
    1 ≤ (now + ttl + 946684800) % 2 ^ 32 ∧ (relayArrival now rate onwardRate backlog size ≤ now + ttl ↔
      relayArrival now rate onwardRate backlog size ≤ (now + ttl + 946684800) % 2 ^ 32) := by
  obtain ⟨p, part, vdb, route, c, d, hprocess, hrelayed⟩ := relayPlan_relayed hrate
  obtain ⟨r, hrouter, hm, hr⟩ := backlogSteps_run backlog size
  have hgood : Good threeHosts r :=
    Runs.run_invariant (fun _ _ _ h hs => good_step h hs) _ _ r (good_init _ _) hrouter
  have hdeadline := deadline_ionBundle (messageOf size) now ttl
  have hrespected : ∀ walked, walked.env.exception = false →
      walkRoutes part.ion (oneLookup threeHosts) (ionBundle (messageOf size) ttl now) [] 3 now [route]
        (OneEnv.start r) = some walked →
      Respected (now + ttl) (Forwarding.of (ionBundle (messageOf size) ttl now) ⟨walked, false, false⟩) := by
    intro walked hexception hw
    obtain ⟨p', hf⟩ := relayed_forwarding hrelayed rfl hw
    obtain ⟨out, hout, hforwarding⟩ := @cgrForwardONE_returns threeHosts p p' r (messageOf size) ttl now 0 3 _
      hgood hm hexception hf
    rw [← hforwarding]
    exact h threeHosts _ _ _ r _ p _ 0 3 out hrouter hprocess hm hout
  have hopen : now ≤ route.toTime := hrelayed.toTime ▸ hmax
  rw [← hdeadline]
  by_cases hdl : deadline (ionBundle (messageOf size) ttl now) < 1
  · have hrespect := hrespected _ rfl (walkRoutes_past (OneEnv.start r) hopen (hrelayed.arrivalTime ▸ hdl))
    have hwalk := hrespect.walk _ rfl
    rw [hrelayed.arrivalTime] at hwalk
    exact Or.inl ⟨hwalk, hdl⟩
  · obtain ⟨est, harr, hverdict⟩ := @relayed_verdict rate onwardRate backlog size p part vdb route c d now ttl hrelayed
      hrate.pos.1 hnow hmax hsize hbacklog r hr
    have hw := @walkRoutes_single _ _ part.ion (oneLookup threeHosts) (ionBundle (messageOf size) ttl now) [] 3 now
      route (OneEnv.start r) hopen (hrelayed.arrivalTime ▸ Int.not_lt.mp hdl)
    rw [relayed_considered hrelayed hsize r, hverdict] at hw
    have hrespect := hrespected _ rfl hw
    refine Or.inr ⟨Int.not_lt.mp hdl, ?_⟩
    rw [← harr]
    by_cases hlate : deadline (ionBundle (messageOf size) ttl now) < est.arrivalTime
    · rw [if_pos hlate] at hrespect
      have hfinal := hrespect.final route est (List.mem_singleton_self _)
      exact ⟨fun hle => by omega, fun hle => by omega⟩
    · rw [if_neg hlate] at hrespect
      have hselected := hrespect.selected _ (List.mem_singleton_self _)
      exact ⟨fun _ => Int.not_lt.mp hlate, fun _ => hselected⟩

/-- Over fast contacts the message arrives at once. -/
theorem relayArrival_fast (hnow : 0 < now) : relayArrival now 1000 1000 0 100 = now := by
  have hvolume : ((0 : Nat) : Int) + ((100 : Nat) + 29) = 129 := by decide
  have hsize : ((100 : Nat) : Int) + 29 = 129 := by decide
  rw [relayArrival, hvolume, hsize, latency_fast]
  omega

/-- At one byte a second the seconds are the bytes, and those of the backlog overflow. -/
theorem relayArrival_slow (now : Int) (backlog : Nat) (hsize : size ≤ 2 ^ 30) :
    relayArrival now 1 1 backlog size = max (now + toInt32 (backlog + (size + 29))) 1 + (size + 29) := by
  rw [relayArrival, latency_slow (by omega), latency_slow (by omega), @toInt32_of_inInt (size + 29) (by omega) (by omega)]

/-- Seconds that overflow are made up for by the wait for the second contact. -/
theorem relayArrival_overflow (hmax : now ≤ maxTime) : relayArrival now 1 1000 (2 ^ 31 - 129) 100 = 1 := by
  have hvolume : ((2 ^ 31 - 129 : Nat) : Int) + ((100 : Nat) + 29) = 2 ^ 31 := by decide
  have hsize : ((100 : Nat) : Int) + 29 = 129 := by decide
  have hwrapped : toInt32 (2 ^ 31) = -2 ^ 31 := by decide
  have hmax' : now ≤ 2 ^ 31 - 1 := hmax
  rw [relayArrival, hvolume, hsize, latency_fast, latency_slow (by decide), hwrapped]
  omega

theorem toInt32_overflow {i : Int} (h : 2 ^ 31 ≤ i) (hlt : i < 2 ^ 32) : toInt32 i = i - 2 ^ 32 := by
  rw [toInt32, Int.bmod_def]
  omega

/-- The lifetime of a message is respected in every state exactly when no route can be tried any
more, or when the deadline is zero, which is before all arrivals, and the expiry is as well. -/
theorem lifetimeRespected_iff (now ttl : Int) (hnow : 0 < now) (httl : -2 ^ 31 ≤ ttl) (hint : ttl < 2 ^ 31) :
    LifetimeRespected now ttl ↔ maxTime < now ∨ now + ttl + 946684800 = 0 := by
  have hmaxTime : maxTime = 2 ^ 31 - 1 := rfl
  constructor
  · intro h
    by_contra hno
    have hmax : now ≤ maxTime := by omega
    have hfast := @relayed_outcome 1000 1000 0 100 now ttl (by decide) hnow hmax (by decide) (by decide) h
    rw [relayArrival_fast hnow] at hfast
    by_cases hneg : ttl < 0
    · -- the deadline is past although the message has expired long before
      have hearly := @relayed_outcome 1 1000 (2 ^ 31 - 129) 100 now ttl (by decide) hnow hmax (by decide) (by decide) h
      rw [relayArrival_overflow hmax] at hearly
      obtain ⟨eccc, heccc⟩ : ∃ eccc : Nat, (eccc : Int) = (2 ^ 31 + 1001 + ttl) / 2 := ⟨_, Int.toNat_of_nonneg (by omega)⟩
      have hbetween := @relayed_outcome 1 1 (2 ^ 31 - 1) (eccc - 29) now ttl (by decide) hnow hmax (by omega) (by decide) h
      rw [relayArrival_slow now _ (by omega), toInt32_overflow (by omega) (by omega)] at hbetween
      omega
    · have hbetween := @relayed_outcome 1 1 (ttl - 129).toNat 100 now ttl (by decide) hnow hmax (by decide) (by omega) h
      rw [relayArrival_slow now _ (by decide), toInt32_of_inInt (by omega) (by omega)] at hbetween
      omega
  · intro hcond sim outductRef forwardTimelimit steps r calls p m reference terminusNodeNbr out hrouter hprocess hm hout
    obtain ⟨⟨p', forwarding⟩, hf, hout⟩ := Option.bind_eq_some_iff.mp hout
    have htested := cgrForward_tested (show (ionBundle m ttl now).minimumLatency = false from rfl)
      (routesAll_run plausible_of_onRecord hprocess) hf
    have hforwarding : out.forwarding = forwarding := by
      dsimp only at hout
      split at hout
      · cases hout
      split at hout
      · exact Option.some.inj hout ▸ rfl
      · obtain ⟨x, -, rfl⟩ := Option.map_eq_some_iff.mp hout
        rfl
    have hdl := deadline_ionBundle m now ttl
    rw [hforwarding]
    refine ⟨fun node hnode => ?_, fun route hroute => ?_, fun route est hin => ?_⟩
    · have hnode := htested.selected node hnode
      omega
    · have hwalk := htested.walk route hroute
      omega
    · have hfinal := htested.final route est hin
      omega

/-- A message that lives for five minutes, and a contact that begins after a quarter of an hour. -/
theorem lifetimeRespected_iff_fiveMinutes : ¬ LifetimeRespected 1700000000 300 := by
  rw [lifetimeRespected_iff 1700000000 300 (by decide) (by decide) (by decide)]
  decide

def laterContact : List (Addressed OneEnv) :=
  [⟨1, 1700000000, .initializeNode⟩, ⟨1, 1700000000, .edit (.insertContact 1700000900 1700002000 1 2 1000 1)⟩,
    ⟨1, 1700000000, .edit (.insertRange 1700000900 1700002000 1 2 1)⟩]

/-- The message is enqueued for host 2, where it cannot arrive before it has expired. -/
theorem enqueued_beyond_lifetime :
    ∃ r p out, Runs.run (Router.step threeHosts) (ContactGraphRouter.init (fun _ => 0) (fun _ => 0))
        [.createNewMessage (messageTo 1 "M1" 2) .stays] = some r ∧
      Runs.run (Process.step (oneLookup threeHosts)) IonProcess.start laterContact = some p ∧
      messageTo 1 "M1" 2 ∈ r.limbo.queue ∧
      cgrForwardONE threeHosts p (OneEnv.start r) (messageTo 1 "M1" 2) 300 1700000000 1700000000 2 = some out ∧
      out.result = 2 ∧ ¬ Respected (1700000000 + 300) out.forwarding := by
  have hsome : (Runs.run (Router.step threeHosts) (ContactGraphRouter.init (fun _ => 0) (fun _ => 0))
      [.createNewMessage (messageTo 1 "M1" 2) .stays]).any (fun r =>
        decide (messageTo 1 "M1" 2 ∈ r.limbo.queue) &&
          (Runs.run (Process.step (oneLookup threeHosts)) IonProcess.start laterContact).any (fun p =>
            (cgrForwardONE threeHosts p (OneEnv.start r) (messageTo 1 "M1" 2) 300 1700000000 1700000000 2).any
              (fun out => out.result == 2 &&
                out.forwarding.selected.any (fun node => decide (1700000000 + 300 < node.arrivalTime))))) = true := by
    decide +kernel
  obtain ⟨r, hrouter, hr⟩ := (Option.any_eq_true _ _).mp hsome
  obtain ⟨hm, hr⟩ := (Bool.and_eq_true_iff).mp hr
  obtain ⟨p, hprocess, hp⟩ := (Option.any_eq_true _ _).mp hr
  obtain ⟨out, hout, hres⟩ := (Option.any_eq_true _ _).mp hp
  obtain ⟨hresult, hlate⟩ := (Bool.and_eq_true_iff).mp hres
  obtain ⟨node, hnode, hlate⟩ := List.any_eq_true.mp hlate
  refine ⟨r, p, out, hrouter, hprocess, of_decide_eq_true hm, hout, beq_iff_eq.mp hresult, fun hrespect => ?_⟩
  have hearly := hrespect.selected node hnode
  have hlater := of_decide_eq_true hlate
  omega

end Lifetime
