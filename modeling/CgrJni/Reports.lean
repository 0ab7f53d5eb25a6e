import CgrJni.Interface
import CgrJni.RouterQueues

/-!
A call of `cgrForwardONE` reports what it did: libcgr's selection, the directive
that stands for it and the queue operation agree on one neighbor and one time.
-/

namespace Reports

open IonDb Libcgr RouteLists Forward RouteWalk Process Router RouterQueues Interface Scalar

theorem atol_toString (n : Nat) : atol (toString n) = n := by
  have hlist : (toString n).toList = Nat.toDigits 10 n := by
    rw [Nat.toString_eq_ofList_toDigits, String.toList_ofList]
  have hdigit : ∀ c ∈ Nat.toDigits 10 n, c.isDigit = true := by
    intro c hc
    exact Nat.isDigit_of_mem_toDigits (by decide) (by decide) hc
  have htake : (Nat.toDigits 10 n).takeWhile Char.isDigit = Nat.toDigits 10 n :=
    List.takeWhile_eq_self_iff.mpr hdigit
  unfold atol
  rw [hlist]
  cases hdigits : Nat.toDigits 10 n with
  | nil => exact absurd hdigits Nat.toDigits_ne_nil
  | cons c rest =>
    rw [hdigits] at hdigit htake
    have hc := hdigit c List.mem_cons_self
    have hblank : c.isWhitespace = false := by
      cases hw : c.isWhitespace with
      | false => rfl
      | true =>
        exfalso
        simp only [Char.isWhitespace, Bool.or_eq_true, decide_eq_true_eq] at hw
        obtain (((rfl | rfl) | rfl) | rfl) := hw <;> revert hc <;> decide
    rw [List.dropWhile_cons_of_neg (by rw [hblank]; decide)]
    split
    · rename_i digits he
      rw [(List.cons.inj he).1] at hc
      exact absurd hc (by decide)
    · rename_i digits he
      rw [(List.cons.inj he).1] at hc
      exact absurd hc (by decide)
    · rw [htake, ← hdigits, Nat.ofDigitChars_ten_toDigits]

variable {sim : Simulator}

/-- The catalogue names the outducts that were converted. -/
def Catalogued (env : OneEnv) : Prop :=
  ∀ name elt, env.catalogue name = some elt → ∃ outduct, env.outductList[elt]? = some outduct ∧ outduct.name = name

/-- The list element is that of the outduct to a host. -/
def OutductTo (sim : Simulator) (env : OneEnv) (nodeNbr elt : Nat) : Prop :=
  nodeNbr ∈ sim.hosts ∧ ∃ outduct, env.outductList[elt]? = some outduct ∧ outduct.name = getOutductName nodeNbr

theorem getHostFromNumber_eq_some {n : Int} {host : Nat} (h : getHostFromNumber sim n = some host) :
    host ∈ sim.hosts ∧ (host : Int) = n := by
  have hn := List.find?_some h
  exact ⟨List.mem_of_find?_eq_some h, of_decide_eq_true hn⟩

/-- What a lookup does: an exception, a converted outduct, or one that is converted now. -/
theorem getONEDirective_cases {n : Nat} {env env' : OneEnv} {found : Option Nat}
    (h : getONEDirective sim n env = (found, env')) :
    (found = none ∧ env' = { env with exception := true }) ∨
    (n ∈ sim.hosts ∧
      ((∃ elt, env.catalogue (getOutductName n) = some elt ∧ found = some elt ∧ env' = env) ∨
        (found = some env.outductList.length ∧ env' = { env with
          outductList := env.outductList ++ [ionOutduct env.router n]
          catalogue := Function.update env.catalogue (getOutductName n) (some env.outductList.length) }))) := by
  unfold getONEDirective at h
  cases hhost : getHostFromNumber sim n with
  | none =>
    simp only [hhost] at h
    obtain ⟨rfl, rfl⟩ := Prod.mk.inj h
    exact Or.inl ⟨rfl, rfl⟩
  | some host =>
    simp only [hhost] at h
    obtain ⟨hmem, heq⟩ := getHostFromNumber_eq_some hhost
    obtain rfl := Int.natCast_inj.mp heq
    refine Or.inr ⟨hmem, ?_⟩
    cases helt : env.catalogue (getOutductName host) with
    | some elt =>
      simp only [helt] at h
      obtain ⟨rfl, rfl⟩ := Prod.mk.inj h
      exact Or.inl ⟨elt, rfl, rfl, rfl⟩
    | none =>
      simp only [helt] at h
      obtain ⟨rfl, rfl⟩ := Prod.mk.inj h
      exact Or.inr ⟨rfl, rfl⟩

theorem oneLookup_keeps (bundle : Bundle) (router : ContactGraphRouter) :
    LookupKeeps (oneLookup sim) bundle (fun env => env.router = router ∧ Catalogued env) (OutductTo sim) := by
  constructor
  · intro n env found env' hI h
    obtain ⟨-, rfl⟩ | ⟨-, ⟨elt, -, -, rfl⟩ | ⟨-, rfl⟩⟩ := getONEDirective_cases h
    · exact hI
    · exact hI
    · refine ⟨hI.1, fun name elt helt => ?_⟩
      dsimp only at helt ⊢
      by_cases hname : name = getOutductName n
      · rw [hname, Function.update_self, Option.some.injEq] at helt
        rw [← helt, List.getElem?_concat_length]
        exact ⟨_, rfl, hname.symm⟩
      · rw [Function.update_of_ne hname] at helt
        obtain ⟨outduct, ho, hn⟩ := hI.2 name elt helt
        exact ⟨outduct, by rw [List.getElem?_append_left (List.getElem?_eq_some_iff.mp ho).1, ho], hn⟩
  · intro n env d env' hI h
    obtain ⟨hnone, -⟩ | ⟨hmem, ⟨elt, helt, hfound, rfl⟩ | ⟨hfound, rfl⟩⟩ := getONEDirective_cases h
    · cases hnone
    · obtain rfl := Option.some.inj hfound
      exact ⟨hmem, hI.2 _ _ helt⟩
    · obtain rfl := Option.some.inj hfound
      exact ⟨hmem, _, List.getElem?_concat_length, rfl⟩
  · intro n env found env' hI h m d hd
    obtain ⟨-, rfl⟩ | ⟨-, ⟨elt, -, -, rfl⟩ | ⟨-, rfl⟩⟩ := getONEDirective_cases h
    · exact hd
    · exact hd
    · obtain ⟨hmem, outduct, ho, hn⟩ := hd
      refine ⟨hmem, outduct, ?_, hn⟩
      rw [List.getElem?_append_left (List.getElem?_eq_some_iff.mp ho).1, ho]

/-- The message has moved from the limbo to the outduct of a host. -/
structure EnqueuedTo (sim : Simulator) (m : Message) (host : Nat) (r r' : ContactGraphRouter) : Prop where
  host_mem : host ∈ sim.hosts
  arrived : m ∈ (r'.outducts host).queue
  once : (queued sim r').count m = 1
  left : m ∉ r'.limbo.queue
  outductRef : r'.outductRef m = host
  bytes : (r'.outducts host).totalEnqueuedBytes = (r.outducts host).totalEnqueuedBytes + m.size

theorem enqueuedTo_insert {r : ContactGraphRouter} {m : Message} {host : Nat} (h : Good sim r)
    (hm : m ∈ r.limbo.queue) (hhost : host ∈ sim.hosts) :
    EnqueuedTo sim m host r (insertMessageIntoOutduct sim r host m) := by
  have hmoved := moved_to_outduct h hm host
  obtain ⟨hknown, href⟩ := (h.limbo m).mp hm
  have hgood := h.moved hmoved (Or.inr (Or.inr ⟨host, hhost, rfl⟩)) (Or.inr ⟨hknown, h.limbo_held hm⟩)
  have hout : (insertMessageIntoOutduct sim r host m).outductRef m = host := by
    rw [hmoved.outductRef, Function.update_self]
  have hqueue : m ∈ ((insertMessageIntoOutduct sim r host m).outducts host).queue := by
    rw [hgood.outduct, hmoved.known]
    exact ⟨hknown, hout⟩
  refine ⟨hhost, hqueue, ?_, hgood.notMem_limbo hout (natCast_ne_limboId host), hout, ?_⟩
  · exact List.count_eq_one_of_mem hgood.queued_nodup (mem_queued.mpr (Or.inr ⟨host, hhost, hqueue⟩))
  · have hbefore := h.bytes host
    have hafter := hgood.bytes host
    have hnew := hmoved.outduct host
    rw [if_pos rfl, List.erase_of_not_mem (h.notMem_outduct href (natCast_ne_limboId host).symm)] at hnew
    unfold BytesCounted at hbefore hafter
    rw [hnew] at hafter
    simp only [List.map_append, List.map_cons, List.map_nil, List.sum_append, List.sum_cons, List.sum_nil] at hafter
    omega

/-- The one neighbor that is selected stands for a route that was accepted, and the enqueuing
of the bundle for it succeeds. -/
theorem bpEnqueONE_selected {r : ContactGraphRouter} {m : Message} {env : OneEnv} {reference : Int}
    {neighbor : ProximateNode Nat} (h : Good sim r) (hm : m ∈ r.limbo.queue)
    (hout : OutductTo sim env neighbor.neighborNodeNbr neighbor.directive) :
    ∃ r', bpEnqueONE sim reference m env (r, 0) neighbor = some (r', (neighbor.neighborNodeNbr : Int)) ∧
      EnqueuedTo sim m neighbor.neighborNodeNbr r r' ∧
      r'.forwardTimelimit m = neighbor.forfeitTime - reference := by
  obtain ⟨hhost, outduct, ho, hname⟩ := hout
  have hread : (Interface.readOutduct env neighbor.directive).name = toString neighbor.neighborNodeNbr := by
    rw [Interface.readOutduct, List.getD_eq_getElem?_getD, ho, Option.getD_some, hname, getOutductName]
  have hint : toInt32 neighbor.neighborNodeNbr = neighbor.neighborNodeNbr := by
    have hlt := sim.hosts_int _ hhost
    rw [toInt32, Int.bmod_def]
    omega
  have hgood := h.withForfeitTime m (neighbor.forfeitTime - reference)
  have henq := enqueuedTo_insert hgood hm hhost
  refine ⟨insertMessageIntoOutduct sim (updateMessageForfeitTime r m (neighbor.forfeitTime - reference))
    neighbor.neighborNodeNbr m, ?_, ⟨henq.host_mem, henq.arrived, henq.once, henq.left, henq.outductRef, henq.bytes⟩, ?_⟩
  · simp only [bpEnqueONE, hread, atol_toString, insertBundleIntoOutduct, getHostFromNumber_of_mem hhost,
      Option.map_some, hint]
  · have hprop : ∀ (x : ContactGraphRouter) (n : Nat),
        (insertMessageIntoOutduct sim x n m).forwardTimelimit = x.forwardTimelimit := by
      intro x n
      simp only [insertMessageIntoOutduct, updateOutductRef]
      split
      · unfold removeMessageFromLimbo
        split <;> rfl
      · rfl
    rw [hprop]
    exact Function.update_self ..

/-- After the choice of the neighbors the records of the call are in order, and every neighbor
has the directive of its own outduct. -/
theorem cgrForward_env {p p' : IonProcess} {nodeNbr terminusNodeNbr : Nat} {bundle : Bundle} {now : Int}
    {r : ContactGraphRouter} {forwarding : Forwarding Nat OneEnv} (hbundle : bundle.minimumLatency = false)
    (hf : Process.cgrForward p nodeNbr (oneLookup sim) bundle terminusNodeNbr now (OneEnv.start r) =
      some (p', forwarding)) :
    forwarding.env.router = r ∧ Catalogued forwarding.env ∧
      ∀ node ∈ forwarding.selected, OutductTo sim forwarding.env node.neighborNodeNbr node.directive := by
  have hclean : Catalogued (OneEnv.start r) := fun name elt helt => by cases helt
  have hall : RoutesAll (fun _ => True) p := fun _ _ _ _ _ _ _ _ => trivial
  obtain ⟨hsel, -, -, henv⟩ | ⟨s, excluded, routes, walked, -, hw, hsel, -, -, henv⟩ :=
    cgrForward_walked (fun _ _ _ => trivial) hall hf
  · rw [hsel, henv]
    exact ⟨rfl, hclean, fun node hnode => by cases hnode⟩
  · obtain ⟨⟨hr, hcat⟩, hnodes⟩ := walkRoutes_env (oneLookup_keeps bundle r) ⟨rfl, hclean⟩ hw
    rw [hsel, henv]
    exact ⟨hr, hcat, fun node hnode => hnodes node (selectProximateNodes_mem hbundle hnode)⟩

theorem wipeOutductList_clean {env : OneEnv} (h : Catalogued env) (hexception : env.exception = false) :
    wipeOutductList env = OneEnv.start env.router := by
  have hempty : (wipeOutductList env).catalogue = fun _ => none := by
    funext name
    simp only [wipeOutductList]
    cases helt : env.catalogue name with
    | none => rfl
    | some elt =>
      obtain ⟨outduct, ho, -⟩ := h name elt helt
      have hlt := (List.getElem?_eq_some_iff.mp ho).1
      rw [Option.filter_some, if_neg (by simpa using hlt)]
  calc wipeOutductList env
      = ⟨env.router, [], (wipeOutductList env).catalogue, env.exception⟩ := rfl
    _ = OneEnv.start env.router := by rw [hempty, hexception]; rfl

/-- A call leaves nothing in the catalogue, so that the next one starts as it did. -/
theorem cgrForwardONE_clean {p : IonProcess} {r : ContactGraphRouter} {m : Message} {ttl now reference : Int}
    {terminusNodeNbr : Nat} {out : Forwarded}
    (h : cgrForwardONE sim p (OneEnv.start r) m ttl now reference terminusNodeNbr = some out) :
    out.env = OneEnv.start out.env.router := by
  obtain ⟨⟨p', forwarding⟩, hf, h⟩ := Option.bind_eq_some_iff.mp h
  obtain ⟨-, hcat, -⟩ := cgrForward_env (show (ionBundle m ttl now).minimumLatency = false from rfl) hf
  dsimp only at h
  split at h
  · cases h
  rename_i hexception
  have hclean := wipeOutductList_clean hcat (Bool.eq_false_iff.mpr hexception)
  split at h
  · obtain rfl := Option.some.inj h
    rw [hclean]
    rfl
  · obtain ⟨x, -, rfl⟩ := Option.map_eq_some_iff.mp h
    rw [hclean]
    rfl

/-- When the neighbors have been chosen without an exception, the call returns. -/
theorem cgrForwardONE_returns {p p' : IonProcess} {r : ContactGraphRouter} {m : Message}
    {ttl now reference : Int} {terminusNodeNbr : Nat} {forwarding : Forwarding Nat OneEnv} (h : Good sim r)
    (hm : m ∈ r.limbo.queue) (hexception : forwarding.env.exception = false)
    (hf : Process.cgrForward p sim.host (oneLookup sim) (ionBundle m ttl now) terminusNodeNbr now
      (OneEnv.start r) = some (p', forwarding)) :
    ∃ out, cgrForwardONE sim p (OneEnv.start r) m ttl now reference terminusNodeNbr = some out ∧
      out.forwarding = forwarding := by
  have hbundle : (ionBundle m ttl now).minimumLatency = false := rfl
  obtain ⟨x, hrun⟩ : ∃ x, Runs.run (bpEnqueONE sim reference m forwarding.env) (r, 0) forwarding.selected = some x := by
    have hnothing : forwarding.selected = [] →
        ∃ x, Runs.run (bpEnqueONE sim reference m forwarding.env) (r, 0) forwarding.selected = some x := by
      intro hsel
      exact ⟨(r, 0), by rw [hsel, Runs.run_nil]⟩
    have hall : RoutesAll (fun _ => True) p := fun _ _ _ _ _ _ _ _ => trivial
    obtain ⟨hsel, -⟩ | ⟨s, excluded, routes, walked, -, -, hselected, -⟩ :=
      cgrForward_walked (fun _ _ _ => trivial) hall hf
    · exact hnothing hsel
    obtain ⟨-, hsel⟩ | ⟨selected, -, hsel, -⟩ := selectProximateNodes_spec hbundle walked.proximateNodes
    · exact hnothing (hselected.trans hsel)
    rw [hsel] at hselected
    have hout := (cgrForward_env hbundle hf).2.2 selected (by rw [hselected]; exact List.mem_singleton_self _)
    obtain ⟨r₁, hr₁, -, -⟩ := @bpEnqueONE_selected sim r m forwarding.env reference selected h hm hout
    exact ⟨_, by rw [hselected, Runs.run_cons, hr₁, Option.bind_some, Runs.run_nil]⟩
  rw [cgrForwardONE, hf, Option.bind_some]
  dsimp only
  rw [if_neg (by rw [hexception]; decide)]
  split
  · exact ⟨_, rfl, rfl⟩
  · have henv : (OneEnv.start r).router = r := rfl
    rw [henv, hrun]
    exact ⟨_, rfl, rfl⟩

/-- What `cgrForwardONE` has done for a message in the limbo when it returns: with a
positive number the message is in the outduct of that host, for the time of a route that starts
there; with zero nothing is changed. -/
theorem cgrForwardONE_reports (sim : Simulator) (outductRef forwardTimelimit : Message → Int)
    (steps : List Router.Step) (r : ContactGraphRouter)
    (hrouter : Runs.run (Router.step sim) (ContactGraphRouter.init outductRef forwardTimelimit) steps = some r)
    (calls : List (Addressed OneEnv)) (p : IonProcess)
    (hprocess : Runs.run (Process.step (oneLookup sim)) IonProcess.start calls = some p)
    (m : Message) (hm : m ∈ r.limbo.queue) (ttl now reference : Int) (terminusNodeNbr : Nat) (out : Forwarded)
    (h : cgrForwardONE sim p (OneEnv.start r) m ttl now reference terminusNodeNbr = some out) :
    (0 < out.result → ∃ host : Nat, out.result = host ∧ EnqueuedTo sim m host r out.env.router ∧
      ∃ route est, (route, Verdict.accepted est) ∈ out.forwarding.tried ∧ route.toNodeNbr = host ∧
        now ≤ route.toTime ∧ out.env.router.forwardTimelimit m = route.toTime - reference) ∧
    (out.result = 0 → out.env.router = r) := by
  have hgood : Good sim r :=
    Runs.run_invariant (fun _ _ _ h hs => good_step h hs) steps _ r (good_init outductRef forwardTimelimit) hrouter
  have hstart := routesAll_run (fun _ _ hr => OnRecord.toNodeNbr_ne hr) hprocess
  have hbundle : (ionBundle m ttl now).minimumLatency = false := rfl
  obtain ⟨⟨p', forwarding⟩, hf, h⟩ := Option.bind_eq_some_iff.mp h
  dsimp only at h
  split at h
  · cases h
  split at h
  · -- an error of libcgr is passed on
    obtain rfl := Option.some.inj h
    dsimp only
    exact ⟨fun hpos => by omega, fun hzero => by omega⟩
  obtain ⟨⟨r', result⟩, hrun, rfl⟩ := Option.map_eq_some_iff.mp h
  dsimp only
  have hnothing : forwarding.selected = [] → (0 < result → False) ∧ (result = 0 → r' = r) := by
    intro hsel
    rw [hsel, Runs.run_nil, Option.some.injEq, Prod.mk.injEq] at hrun
    obtain ⟨hr, hres⟩ := hrun
    exact ⟨fun hpos => by omega, fun _ => hr.symm⟩
  obtain ⟨hsel, -⟩ | ⟨s, excluded, routes, walked, hroutes, hw, hselected, htriedEq, -⟩ :=
    cgrForward_walked (fun _ _ hr => OnRecord.toNodeNbr_ne hr) hstart hf
  · exact ⟨fun hpos => ((hnothing hsel).1 hpos).elim, (hnothing hsel).2⟩
  obtain ⟨-, hsel⟩ | ⟨selected, hmem, hsel, -⟩ := selectProximateNodes_spec hbundle walked.proximateNodes
  · rw [hsel] at hselected
    exact ⟨fun hpos => ((hnothing hselected).1 hpos).elim, (hnothing hselected).2⟩
  rw [hsel] at hselected
  obtain ⟨route, est, htried, hto, hforfeit, -⟩ := (walkRoutes_nodes hw).stands selected hmem
  obtain ⟨hne, hopen, -⟩ :=
    (walkRoutes_routes (fun _ hr => OnRecord.toNodeNbr_ne hr) hroutes hw).2 _ htried
  have hout := (cgrForward_env hbundle hf).2.2 selected (by rw [hselected]; exact List.mem_singleton_self _)
  obtain ⟨r₁, hr₁, henq, hlimit⟩ := @bpEnqueONE_selected sim r m forwarding.env reference selected hgood hm hout
  have henv : (OneEnv.start r).router = r := rfl
  rw [hselected, Runs.run_cons, henv, hr₁, Option.bind_some, Runs.run_nil, Option.some.injEq,
    Prod.mk.injEq] at hrun
  obtain ⟨rfl, rfl⟩ := hrun
  refine ⟨fun _ => ⟨selected.neighborNodeNbr, rfl, henq, route, est, ?_, hto, hopen, ?_⟩, fun hzero => ?_⟩
  · rw [htriedEq]
    exact htried
  · rw [hlimit, hforfeit]
  · dsimp only at hto hne
    omega

def messageInLimbo : List Router.Step := [.createNewMessage (messageTo 1 "M1" 3) .stays]

def planOfHost : List (Addressed OneEnv) :=
  [⟨1, 1000, .initializeNode⟩, ⟨1, 1000, .edit (.insertContact 1000 2000 1 3 1000 1)⟩,
    ⟨1, 1000, .edit (.insertRange 1000 2000 1 3 1)⟩]

/-- A bundle for host 3 on a direct contact, ten seconds after the start of the simulation. -/
theorem cgrForwardONE_reports_contact :
    ∃ r p out, Runs.run (Router.step threeHosts) (ContactGraphRouter.init (fun _ => 0) (fun _ => 0)) messageInLimbo =
        some r ∧
      Runs.run (Process.step (oneLookup threeHosts)) IonProcess.start planOfHost = some p ∧
      cgrForwardONE threeHosts p (OneEnv.start r) (messageTo 1 "M1" 3) 500 1010 1000 3 = some out ∧
      out.result = 3 ∧ EnqueuedTo threeHosts (messageTo 1 "M1" 3) 3 r out.env.router ∧
      out.env.router.forwardTimelimit (messageTo 1 "M1" 3) = 1000 := by
  have hsome : (Runs.run (Router.step threeHosts) (ContactGraphRouter.init (fun _ => 0) (fun _ => 0))
      messageInLimbo).any (fun r =>
        decide (messageTo 1 "M1" 3 ∈ r.limbo.queue) &&
          (Runs.run (Process.step (oneLookup threeHosts)) IonProcess.start planOfHost).any (fun p =>
            (cgrForwardONE threeHosts p (OneEnv.start r) (messageTo 1 "M1" 3) 500 1010 1000 3).any (fun out =>
              out.result == 3 && out.env.router.forwardTimelimit (messageTo 1 "M1" 3) == 1000))) = true := by
    decide +kernel
  obtain ⟨r, hrouter, hr⟩ := (Option.any_eq_true _ _).mp hsome
  obtain ⟨hm, hr⟩ := (Bool.and_eq_true_iff).mp hr
  obtain ⟨p, hprocess, hp⟩ := (Option.any_eq_true _ _).mp hr
  obtain ⟨out, hout, hres⟩ := (Option.any_eq_true _ _).mp hp
  obtain ⟨hresult, hlimit⟩ := (Bool.and_eq_true_iff).mp hres
  have hthree : out.result = 3 := beq_iff_eq.mp hresult
  obtain ⟨host, hhost, henq, -⟩ := (cgrForwardONE_reports threeHosts _ _ messageInLimbo r hrouter planOfHost p
    hprocess (messageTo 1 "M1" 3) (of_decide_eq_true hm) 500 1010 1000 3 out hout).1 (by omega)
  obtain rfl : host = 3 := by omega
  exact ⟨r, p, out, hrouter, hprocess, hout, hthree, henq, beq_iff_eq.mp hlimit⟩

end Reports
