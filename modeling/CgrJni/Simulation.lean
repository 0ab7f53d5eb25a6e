import CgrJni.OverdueMessages
import CgrJni.Ionadmin
import CgrJni.SimpleRoutes
import CgrJni.WalkEnds
import CgrJni.Reports
import CgrJni.PlanText

/-!
A whole simulation: the routers of all hosts in one process with the library, where
each routing call of a router is the call of the library itself. What was shown for routers
under assumptions on the library is thereby shown without them.
-/

namespace Simulation

open IonDb Libcgr DijkstraCorrect RouteLists Forward RouteWalk Process Router RouterQueues OverdueMessages Interface Reports
  SimpleRoutes Ionadmin

/-- What is the same for the whole simulation: the hosts, the equality of message objects, the
superclass of the routers, the conversion of decimal fractions, and the time at which the
program was started. -/
structure Scenario where
  hosts : List Nat
  hosts_sorted : hosts.Pairwise (· < ·)
  hosts_int : ∀ host ∈ hosts, host < 2 ^ 31
  equals : Message → Message → Bool
  equals_self : ∀ m, equals m m = true
  id_of_equals : ∀ m m', equals m m' = true → m.id = m'.id
  superAddToMessages : (String → Option Message) → Message → String → Option Message
  superAddToMessages_eq : ∀ messages m, superAddToMessages messages m = Function.update messages m.id (some m)
  superRemoveFromMessages : (String → Option Message) → String → String → Option Message
  superRemoveFromMessages_eq : ∀ messages id, superRemoveFromMessages messages id = Function.update messages id none
  atof : Platform.CString → ℚ
  reference : Int

/-- The simulation as the router of one host sees it. -/
def Scenario.at (scn : Scenario) (host : Nat) : Simulator where
  hosts := scn.hosts
  hosts_sorted := scn.hosts_sorted
  hosts_int := scn.hosts_int
  host := host
  equals := scn.equals
  equals_self := scn.equals_self
  id_of_equals := scn.id_of_equals
  superAddToMessages := scn.superAddToMessages
  superAddToMessages_eq := scn.superAddToMessages_eq
  superRemoveFromMessages := scn.superRemoveFromMessages
  superRemoveFromMessages_eq := scn.superRemoveFromMessages_eq

/-- What the router of one host works on: the process of the library, and its own side of the interface. -/
structure Site where
  admin : AdminProcess
  env : OneEnv

def Site.router (x : Site) : ContactGraphRouter := x.env.router

def Site.withRouter (x : Site) (r : ContactGraphRouter) : Site := { x with env := { x.env with router := r } }

@[simp] theorem Site.withRouter_router (x : Site) (r : ContactGraphRouter) : (x.withRouter r).router = r := rfl

@[simp] theorem Site.withRouter_admin (x : Site) (r : ContactGraphRouter) : (x.withRouter r).admin = x.admin := rfl

section

variable (scn : Scenario) (host : Nat) (time : Int) (ttl : Message → Int)

/-- The library routes a message to its destination, at the time of the simulation. -/
def cgrForward (x : Site) (m : Message) : Option Site :=
  (cgrForwardONE (scn.at host) x.admin.nodes x.env m (ttl m) (scn.reference + time) scn.reference m.toHost).map
    (fun out => ⟨{ x.admin with nodes := out.process }, out.env⟩)

def tryRouteForMessageIntoLimbo (x : Site) : Option Site :=
  Runs.run (cgrForward scn host time ttl) x x.router.limbo.queue

def reroute (outduct : Nat) (x : Site) (m : Message) : Option Site :=
  (putMessageIntoLimbo (scn.at host) (removeMessageFromOutduct (scn.at host) x.router outduct m) m).bind (fun r =>
    cgrForward scn host time ttl (x.withRouter r) m)

def checkOutducts : List Nat → Site → Option Site
  | [], x => some x
  | outduct :: rest, x =>
    if (x.router.outducts outduct).queue.any (fun m => x.router.forwardTimelimit m = 0) then some x
    else
      (Runs.run (reroute scn host time ttl outduct) x
        ((x.router.outducts outduct).queue.filter (fun m => x.router.forwardTimelimit m < time))).bind
        (checkOutducts rest)

def checkExpiredRoutes (x : Site) : Option Site := checkOutducts scn host time ttl scn.hosts x

/-- Once the plan has changed, every update tries to route the messages in the limbo. What the update of the
superclass does is left out. -/
def update (planChanged : Bool) (x : Site) : Option Site :=
  (checkExpiredRoutes scn host time ttl x).bind (fun x =>
    if planChanged then tryRouteForMessageIntoLimbo scn host time ttl x else some x)

def addToMessages (x : Site) (m : Message) (newMessage : Bool) : Option Site :=
  if newMessage ∧ m.toHost = host then some x
  else
    (putMessageIntoLimbo (scn.at host) x.router m).bind (fun r =>
      cgrForward scn host time ttl (x.withRouter (Router.superAddToMessages (scn.at host) r m)) m)

/-- A message that comes with properties. It is taken for granted that it is not accepted if its id is held. -/
def take (x : Site) (m : Message) (outductRef forwardTimelimit : Int) (newMessage : Bool) : Option Site :=
  if (x.router.messages m.id).isSome then some x
  else
    addToMessages scn host time ttl
      (x.withRouter (updateOutductRef (updateMessageForfeitTime x.router m forwardTimelimit) m outductRef)) m newMessage

/-- What can happen at a host. -/
inductive Action
  | init
  | plan (call : Ionadmin.Call)
  | createNewMessage (m : Message)
  | receive (m : Message) (outductRef forwardTimelimit : Int)
  | update
  | removeFromMessages (id : String)
  | transferDone (id : String)

def act (x : Site) (planChanged : Bool) : Action → Option (Site × Bool)
  | .init => some (⟨{ x.admin with nodes := initializeNode x.admin.nodes host }, x.env⟩, planChanged)
  | .plan call =>
    (Ionadmin.step scn.atof x.admin ⟨host, scn.reference + time, call⟩).map (fun admin => (⟨admin, x.env⟩, true))
  | .createNewMessage m => (take scn host time ttl x m noneId 0 true).map (fun x => (x, planChanged))
  | .receive m outductRef forwardTimelimit =>
    (take scn host time ttl x m outductRef forwardTimelimit false).map (fun x => (x, planChanged))
  | .update => (update scn host time ttl planChanged x).map (fun x => (x, planChanged))
  | .removeFromMessages id =>
    (Router.removeFromMessages (scn.at host) x.router id).map (fun r => (x.withRouter r, planChanged))
  | .transferDone id =>
    (removeFromOutducts (scn.at host) x.router id).map (fun r => (x.withRouter r, planChanged))

end

structure State where
  time : Int
  admin : AdminProcess
  envs : Nat → OneEnv
  planChanged : Nat → Bool

/-- Time passes, or something happens at a host; `ttl` is what the simulator says then of the
remaining lifetime of each message. -/
inductive Event
  | wait (seconds : Nat)
  | act (host : Nat) (ttl : Message → Int) (action : Action)

def start (referenceTime : Int) (outductRef forwardTimelimit : Nat → Message → Int) : State where
  time := 0
  admin := ⟨IonProcess.start, referenceTime⟩
  envs host := OneEnv.start (ContactGraphRouter.init (outductRef host) (forwardTimelimit host))
  planChanged _ := false

def State.site (w : State) (host : Nat) : Site := ⟨w.admin, w.envs host⟩

/-- An action that ends in an exception has no next state. -/
def step (scn : Scenario) (w : State) : Event → Option State
  | .wait seconds => some { w with time := w.time + seconds }
  | .act host ttl action =>
    (act scn host w.time ttl (w.site host) (w.planChanged host) action).map (fun r =>
      { w with
        admin := r.1.admin
        envs := Function.update w.envs host r.1.env
        planChanged := Function.update w.planChanged host r.2 })

/-! The routes that the library keeps. -/

/-- A route that was found since the program was started: it ends later. -/
def Kept (reference : Int) (route : CgrRoute) : Prop := reference < route.toTime

theorem kept_of_searched {reference now : Int} {s : IonState} {terminusNodeNbr : Nat} {route : CgrRoute}
    (hnow : reference ≤ now) (h : Searched s now terminusNodeNbr route) : Kept reference route := by
  obtain ⟨payloadClass, notes, notes', hreset, hfound⟩ := h
  obtain ⟨hfilled, -⟩ := findNextBestRoute_filled hreset hfound
  exact hnow.trans_lt (WalkEnds.filledRoute_open hfilled)

section

variable {δ σ : Type} {lookup : CgrLookup δ σ} {P : CgrRoute → Prop}

/-- What holds of all routes that searches find stays true of the routes in the process, and is true
of the routes that a call tries. -/
theorem routesAll_cgrForward {p p' : IonProcess} {nodeNbr t : Nat} {bundle : Bundle} {now : Int} {env : σ}
    {forwarding : Forwarding δ σ} (hP : ∀ s t r, Searched s now t r → P r) (h : RoutesAll P p)
    (hf : Process.cgrForward p nodeNbr lookup bundle t now env = some (p', forwarding)) :
    RoutesAll P p' ∧ ∀ tried ∈ forwarding.tried, P tried.1 := by
  obtain ⟨old, vdb, -, -, hcases⟩ := cgrForward_cases hf
  have hrefresh := routesAll_refresh h vdb old.ion.lastEditTime now
  obtain ⟨rfl, rfl⟩ | ⟨rfl, rfl⟩ | ⟨part, terminusNode, identified, hpart, hid, rfl, rfl⟩ := hcases
  · exact ⟨h, by simp [Forwarding.without, Forwarding.tried]⟩
  · exact ⟨hrefresh, by simp [Forwarding.without, Forwarding.tried]⟩
  · obtain ⟨hroutes, htried⟩ := identifyProximateNodes_all (fun r hr => hP _ _ r hr)
      (fun routes hobj => hrefresh nodeNbr part hpart t routes hobj) hid
    refine ⟨routesAll_update hrefresh nodeNbr _ _ ?_, htried⟩
    intro other routes hr
    by_cases hother : other = t
    · rw [hother, setRoutes_self, Option.some.injEq] at hr
      exact hr ▸ hroutes
    · rw [setRoutes_of_ne part _ hother] at hr
      exact hrefresh nodeNbr part hpart other routes hr

/-- Commands add no routes. -/
theorem routesAll_executeCommand {p p' : AdminProcess} {nodeNbr : Nat} {now : Int} {command : Command}
    (h : RoutesAll P p.nodes) (hc : executeCommand p nodeNbr now command = some p') : RoutesAll P p'.nodes := by
  cases command with
  | nothing => exact Option.some.inj hc ▸ h
  | stop => exact Option.some.inj hc ▸ h
  | setReferenceTime time => exact Option.some.inj hc ▸ h
  | initializeNode ownNodeNbr =>
    obtain rfl := Option.some.inj hc
    simp only [ionInitializeAt]
    split
    · exact h
    · exact routesAll_update h nodeNbr _ _ (fun t routes hr => by cases hr)
  | showIndex =>
    obtain ⟨part, -, rfl⟩ := Option.map_eq_some_iff.mp hc
    exact h
  | edit e =>
    obtain ⟨nodes, hedit, rfl⟩ := Option.map_eq_some_iff.mp hc
    obtain ⟨part, ion, hpart, -, rfl⟩ := editNode_eq_some hedit
    exact routesAll_update h nodeNbr _ _ (h nodeNbr part hpart)

theorem routesAll_processLine {atof : Platform.CString → ℚ} {p p' : AdminProcess} {nodeNbr : Nat} {now result : Int}
    {line : Platform.CString} (h : RoutesAll P p.nodes)
    (hl : Ionadmin.processLine atof p nodeNbr now line = some (p', result)) : RoutesAll P p'.nodes := by
  obtain ⟨command, -, hl⟩ := Option.bind_eq_some_iff.mp hl
  obtain ⟨p₁, hc, hl⟩ := Option.bind_eq_some_iff.mp hl
  have hp : p' = p₁ := by
    cases command <;> simp_all
  exact hp ▸ routesAll_executeCommand h hc

theorem routesAll_processLines {atof : Platform.CString → ℚ} {nodeNbr : Nat} {now : Int} (lines : List Platform.CString)
    {p p' : AdminProcess} (h : RoutesAll P p.nodes)
    (hl : Ionadmin.processLines atof nodeNbr now lines p = some p') : RoutesAll P p'.nodes := by
  induction lines generalizing p with
  | nil => exact Option.some.inj hl ▸ h
  | cons line rest ih =>
    rw [Ionadmin.processLines] at hl
    split at hl
    · exact ih h hl
    · obtain ⟨⟨p₁, result⟩, hline, hl⟩ := Option.bind_eq_some_iff.mp hl
      have hp₁ := routesAll_processLine h hline
      dsimp only at hl
      split at hl
      · exact Option.some.inj hl ▸ hp₁
      · exact ih hp₁ hl

theorem routesAll_plan {atof : Platform.CString → ℚ} {p p' : AdminProcess} {a : Ionadmin.Addressed}
    (h : RoutesAll P p.nodes) (hs : Ionadmin.step atof p a = some p') : RoutesAll P p'.nodes := by
  obtain ⟨nodeNbr, time, call⟩ := a
  cases call with
  | readContactPlan cmdFile =>
    cases cmdFile with
    | none => exact Option.some.inj hs ▸ h
    | some file =>
      have hlines : Ionadmin.processLines atof nodeNbr time (Platform.readLines 256 file.length file)
        { p with referenceTime := time } = some p' := hs
      exact routesAll_processLines (p := { p with referenceTime := time }) _ h hlines
  | processLine line =>
    obtain ⟨⟨p₁, result⟩, hline, rfl⟩ := Option.map_eq_some_iff.mp hs
    exact routesAll_processLine h hline

end

/-! A routing call as an outcome for the router. -/

/-- The route of a neighbor that is selected has not ended, and ends after the program was started. -/
theorem selected_outlasts {sim : Simulator} {p p' : IonProcess} {nodeNbr terminusNodeNbr : Nat} {bundle : Bundle}
    {reference now : Int} {r : ContactGraphRouter} {forwarding : Forwarding Nat OneEnv}
    (hbundle : bundle.minimumLatency = false) (hnow : reference ≤ now) (hp : RoutesAll (Kept reference) p)
    (hf : Process.cgrForward p nodeNbr (oneLookup sim) bundle terminusNodeNbr now (OneEnv.start r) = some (p', forwarding)) :
    ∀ node ∈ forwarding.selected, now ≤ node.forfeitTime ∧ reference < node.forfeitTime := by
  have htried := (routesAll_cgrForward (fun _ _ _ hr => kept_of_searched hnow hr) hp hf).2
  have hall : RoutesAll (fun _ => True) p := fun _ _ _ _ _ _ _ _ => trivial
  obtain ⟨hsel, -⟩ | ⟨s, excluded, routes, walked, -, hw, hsel, hwalked, -, -⟩ :=
    cgrForward_walked (fun _ _ _ => trivial) hall hf
  · simp [hsel]
  intro node hnode
  rw [hsel] at hnode
  obtain ⟨route, est, hin, -, hforfeit, -⟩ := (walkRoutes_nodes hw).stands node (selectProximateNodes_mem hbundle hnode)
  have hopen : now ≤ route.toTime :=
    ((walkRoutes_routes (P := fun _ => True) (fun _ _ => trivial) (fun _ _ => trivial) hw).2 _ hin).2.1
  have hkept : Kept reference route := htried _ (hwalked ▸ hin)
  rw [hforfeit]
  exact ⟨hopen, hkept⟩

/-- What the library does for a router is one of the outcomes that the router allows for, with a
limit that is neither past nor zero. -/
theorem cgrForwardONE_outcome {sim : Simulator} {p : IonProcess} {r : ContactGraphRouter} {m : Message}
    {ttl time reference : Int} {terminusNodeNbr : Nat} {out : Forwarded} (htime : 0 ≤ time)
    (hp : RoutesAll (Kept reference) p)
    (h : cgrForwardONE sim p (OneEnv.start r) m ttl (reference + time) reference terminusNodeNbr = some out) :
    ∃ outcome, FoundAt sim (max time 1) outcome ∧ Router.cgrForward sim r m outcome = some out.env.router := by
  have hbundle : (ionBundle m ttl (reference + time)).minimumLatency = false := rfl
  obtain ⟨⟨p', forwarding⟩, hf, h⟩ := Option.bind_eq_some_iff.mp h
  have houtlasts := selected_outlasts hbundle (by omega) hp hf
  have henv := (cgrForward_env hbundle hf).1
  dsimp only at h
  split at h
  · cases h
  split at h
  · obtain rfl := Option.some.inj h
    exact ⟨.stays, trivial, by rw [Router.cgrForward, ← henv]; rfl⟩
  obtain ⟨⟨r', result⟩, hrun, rfl⟩ := Option.map_eq_some_iff.mp h
  have hstart : (OneEnv.start r).router = r := rfl
  have hall : RoutesAll (fun _ => True) p := fun _ _ _ _ _ _ _ _ => trivial
  have hcases : forwarding.selected = [] ∨ ∃ node, forwarding.selected = [node] := by
    obtain ⟨hsel, -⟩ | ⟨s, excluded, routes, walked, -, -, hsel, -⟩ := cgrForward_walked (fun _ _ _ => trivial) hall hf
    · exact Or.inl hsel
    · obtain ⟨-, hnone⟩ | ⟨node, -, hone, -⟩ := selectProximateNodes_spec hbundle walked.proximateNodes
      · exact Or.inl (hsel.trans hnone)
      · exact Or.inr ⟨node, hsel.trans hone⟩
  rcases hcases with hsel | ⟨node, hsel⟩
  · rw [hsel, Runs.run_nil, hstart, Option.some.injEq, Prod.mk.injEq] at hrun
    exact ⟨.stays, trivial, by rw [Router.cgrForward, hrun.1]⟩
  · obtain ⟨hlimit, hlate⟩ := houtlasts node (by rw [hsel]; exact List.mem_singleton_self node)
    simp only [hsel, Runs.run_cons, Runs.run_nil, hstart, Option.bind_eq_some_iff, Option.some.injEq] at hrun
    obtain ⟨x, henqueue, rfl⟩ := hrun
    obtain ⟨r₁, hinsert, heq⟩ := Option.map_eq_some_iff.mp henqueue
    obtain ⟨rfl, -⟩ := Prod.mk.inj heq
    obtain ⟨other, hget, hmoved⟩ := Option.map_eq_some_iff.mp hinsert
    obtain ⟨hother, hnumber⟩ := getHostFromNumber_eq_some hget
    refine ⟨.enqueued (node.forfeitTime - reference) _, ⟨?_, other, hother, hnumber.symm⟩, hinsert⟩
    omega

/-! The router of a host follows its model. -/

/-- Between two calls of the library nothing is left in the catalogue. -/
structure Sound (scn : Scenario) (x : Site) : Prop where
  clean : x.env = OneEnv.start x.router
  routes : RoutesAll (Kept scn.reference) x.admin.nodes

variable {scn : Scenario} {host : Nat} {time : Int} {ttl : Message → Int} {x x' y z : Site} {m : Message}

theorem Sound.withRouter (h : Sound scn x) (r : ContactGraphRouter) : Sound scn (x.withRouter r) where
  clean := by
    rw [Site.withRouter, h.clean]
    rfl
  routes := h.routes

theorem Sound.withAdmin (h : Sound scn x) {admin : AdminProcess}
    (hroutes : RoutesAll (Kept scn.reference) admin.nodes) : Sound scn ⟨admin, x.env⟩ := ⟨h.clean, hroutes⟩

/-- A step of a site is a step of its router, with outcomes that the step uses up. -/
def Follows (scn : Scenario) (host : Nat) (time : Int) (F : Rerouting → Option Rerouting) (x x' : Site) : Prop :=
  Sound scn x' ∧ ∃ outcomes, (∀ outcome ∈ outcomes, FoundAt (scn.at host) (max time 1) outcome) ∧
    ∀ rest, F ⟨x.router, outcomes ++ rest⟩ = some ⟨x'.router, rest⟩

theorem follows_refl (h : Sound scn x) : Follows scn host time some x x := ⟨h, [], by simp, fun _ => rfl⟩

theorem Follows.bind {F G : Rerouting → Option Rerouting} (h : Follows scn host time F x y)
    (h' : Follows scn host time G y z) : Follows scn host time (fun s => (F s).bind G) x z := by
  obtain ⟨-, first, hfirst, hF⟩ := h
  obtain ⟨hz, second, hsecond, hG⟩ := h'
  refine ⟨hz, first ++ second, ?_, ?_⟩
  · intro outcome ho
    cases List.mem_append.mp ho with
    | inl ho => exact hfirst outcome ho
    | inr ho => exact hsecond outcome ho
  · intro rest
    simp only [List.append_assoc, hF, Option.bind_some, hG]

/-- A loop follows its model if its body does. -/
theorem follows_run {f : Site → Message → Option Site} {F : Rerouting → Message → Option Rerouting}
    (hbody : ∀ x m x', Sound scn x → f x m = some x' → Follows scn host time (fun s => F s m) x x') (l : List Message)
    (hx : Sound scn x) (h : Runs.run f x l = some x') : Follows scn host time (fun s => Runs.run F s l) x x' := by
  induction l generalizing x with
  | nil =>
    obtain rfl := Option.some.inj h
    exact follows_refl hx
  | cons m rest ih =>
    rw [Runs.run_cons, Option.bind_eq_some_iff] at h
    obtain ⟨u, hu, hrest⟩ := h
    have hfirst := hbody x m u hx hu
    exact hfirst.bind (ih hfirst.1 hrest)

theorem cgrForward_outcome (htime : 0 ≤ time) (hx : Sound scn x) (h : cgrForward scn host time ttl x m = some x') :
    Sound scn x' ∧ ∃ outcome, FoundAt (scn.at host) (max time 1) outcome ∧
      Router.cgrForward (scn.at host) x.router m outcome = some x'.router := by
  obtain ⟨out, hout, rfl⟩ := Option.map_eq_some_iff.mp h
  rw [hx.clean] at hout
  refine ⟨⟨cgrForwardONE_clean hout, ?_⟩, cgrForwardONE_outcome htime hx.routes hout⟩
  obtain ⟨⟨p', forwarding⟩, hf, hrest⟩ := Option.bind_eq_some_iff.mp hout
  have hprocess : out.process = p' := by
    dsimp only at hrest
    split at hrest
    · cases hrest
    split at hrest
    · exact Option.some.inj hrest ▸ rfl
    · obtain ⟨-, -, rfl⟩ := Option.map_eq_some_iff.mp hrest
      rfl
  rw [hprocess]
  exact (routesAll_cgrForward (fun _ _ _ hr => kept_of_searched (by omega) hr) hx.routes hf).1

theorem cgrForward_follows (htime : 0 ≤ time) (hx : Sound scn x) (h : cgrForward scn host time ttl x m = some x') :
    Follows scn host time (fun s => s.cgrForward (scn.at host) m) x x' := by
  obtain ⟨hx', outcome, hfound, hrouter⟩ := cgrForward_outcome htime hx h
  refine ⟨hx', [outcome], ?_, ?_⟩
  · intro o ho
    rwa [List.mem_singleton.mp ho]
  · intro rest
    simp only [List.singleton_append, Rerouting.cgrForward, hrouter, Option.map_some]

theorem tryRoute_follows (htime : 0 ≤ time) (hx : Sound scn x)
    (h : tryRouteForMessageIntoLimbo scn host time ttl x = some x') :
    Follows scn host time (Router.tryRouteForMessageIntoLimbo (scn.at host)) x x' := by
  obtain ⟨hx', outcomes, hfound, hrun⟩ := follows_run (F := Rerouting.cgrForward (scn.at host))
    (fun _ _ _ hy hf => cgrForward_follows htime hy hf) _ hx h
  exact ⟨hx', outcomes, hfound, hrun⟩

theorem reroute_follows {outduct : Nat} (htime : 0 ≤ time) (hx : Sound scn x)
    (h : reroute scn host time ttl outduct x m = some x') :
    Follows scn host time (fun s => Router.reroute (scn.at host) outduct s m) x x' := by
  obtain ⟨r, hput, hf⟩ := Option.bind_eq_some_iff.mp h
  obtain ⟨hx', outcomes, hfound, hrun⟩ := cgrForward_follows htime (hx.withRouter r) hf
  refine ⟨hx', outcomes, hfound, ?_⟩
  intro rest
  simp only [Router.reroute, hput, Option.bind_some]
  exact hrun rest

theorem checkOutducts_follows (htime : 0 ≤ time) (outducts : List Nat) (hx : Sound scn x)
    (h : checkOutducts scn host time ttl outducts x = some x') :
    Follows scn host time (Router.checkOutducts (scn.at host) time outducts) x x' := by
  induction outducts generalizing x with
  | nil =>
    obtain rfl := Option.some.inj h
    exact follows_refl hx
  | cons outduct rest ih =>
    rw [checkOutducts] at h
    split at h
    · rename_i hunrouted
      obtain rfl := Option.some.inj h
      refine ⟨hx, [], by simp, ?_⟩
      intro outcomes
      rw [Router.checkOutducts, if_pos hunrouted]
      rfl
    · rename_i hrouted
      obtain ⟨u, hu, hrest⟩ := Option.bind_eq_some_iff.mp h
      have hfirst := follows_run (F := Router.reroute (scn.at host) outduct)
        (fun _ _ _ hy hf => reroute_follows htime hy hf) _ hx hu
      obtain ⟨hx', outcomes, hfound, hrun⟩ := hfirst.bind (ih hfirst.1 hrest)
      refine ⟨hx', outcomes, hfound, ?_⟩
      intro more
      rw [Router.checkOutducts, if_neg hrouted]
      exact hrun more

/-- The steps of a router that a time of the simulation allows. -/
def Timely (scn : Scenario) (host : Nat) (time : Int) : Router.Step → Prop
  | .createNewMessage _ outcome => FoundAt (scn.at host) (max time 1) outcome
  | .receive _ _ _ outcome => FoundAt (scn.at host) (max time 1) outcome
  | .cgrForward _ outcome => FoundAt (scn.at host) (max time 1) outcome
  | .checkExpiredRoutes now outcomes => now = time ∧ ∀ outcome ∈ outcomes, FoundAt (scn.at host) (max time 1) outcome
  | .tryRouteForMessageIntoLimbo outcomes => ∀ outcome ∈ outcomes, FoundAt (scn.at host) (max time 1) outcome
  | .removeFromMessages _ => True
  | .transferDone _ => True

/-- The site has done what its router does in some steps. -/
def Simulated (scn : Scenario) (host : Nat) (time : Int) (x x' : Site) : Prop :=
  Sound scn x' ∧ ∃ steps : List Router.Step, (∀ s ∈ steps, Timely scn host time s) ∧
    Runs.run (Router.step (scn.at host)) x.router steps = some x'.router

theorem simulated_same (hx : Sound scn x') (h : x'.router = x.router) : Simulated scn host time x x' :=
  ⟨hx, [], by simp, by rw [h, Runs.run_nil]⟩

theorem simulated_step {s : Router.Step} (hx : Sound scn x') (hs : Timely scn host time s)
    (h : Router.step (scn.at host) x.router s = some x'.router) : Simulated scn host time x x' := by
  refine ⟨hx, [s], ?_, by rw [Runs.run_cons, h, Option.bind_some, Runs.run_nil]⟩
  intro s' hs'
  rwa [List.mem_singleton.mp hs']

theorem Simulated.trans (h : Simulated scn host time x y) (h' : Simulated scn host time y z) :
    Simulated scn host time x z := by
  obtain ⟨-, steps, hsteps, hrun⟩ := h
  obtain ⟨hz, steps', hsteps', hrun'⟩ := h'
  refine ⟨hz, steps ++ steps', ?_, ?_⟩
  · intro s hs
    cases List.mem_append.mp hs with
    | inl hs => exact hsteps s hs
    | inr hs => exact hsteps' s hs
  · rw [Runs.run_append, hrun, Option.bind_some, hrun']

theorem checkExpiredRoutes_simulated (htime : 0 ≤ time) (hx : Sound scn x)
    (h : checkExpiredRoutes scn host time ttl x = some x') : Simulated scn host time x x' := by
  obtain ⟨hx', outcomes, hfound, hrun⟩ := checkOutducts_follows htime _ hx h
  apply simulated_step (s := .checkExpiredRoutes time outcomes) hx' ⟨rfl, hfound⟩
  have hall := hrun []
  rw [List.append_nil] at hall
  have hcheck : Router.checkExpiredRoutes (scn.at host) time ⟨x.router, outcomes⟩ = some ⟨x'.router, []⟩ := hall
  rw [Router.step, hcheck, Option.map_some]

theorem update_simulated {planChanged : Bool} (htime : 0 ≤ time) (hx : Sound scn x)
    (h : update scn host time ttl planChanged x = some x') :
    ∃ y, checkExpiredRoutes scn host time ttl x = some y ∧ Simulated scn host time x y ∧ Simulated scn host time y x' := by
  obtain ⟨y, hcheck, hrest⟩ := Option.bind_eq_some_iff.mp h
  have hfirst := checkExpiredRoutes_simulated htime hx hcheck
  refine ⟨y, hcheck, hfirst, ?_⟩
  split at hrest
  · obtain ⟨hx', outcomes, hfound, hrun⟩ := tryRoute_follows htime hfirst.1 hrest
    apply simulated_step (s := .tryRouteForMessageIntoLimbo outcomes) hx' hfound
    have hall := hrun []
    rw [List.append_nil] at hall
    rw [Router.step, hall, Option.map_some]
  · obtain rfl := Option.some.inj hrest
    exact simulated_same hfirst.1 rfl

theorem addToMessages_outcome {newMessage : Bool} (htime : 0 ≤ time) (hx : Sound scn x)
    (h : addToMessages scn host time ttl x m newMessage = some x') :
    Sound scn x' ∧ ∃ outcome, FoundAt (scn.at host) (max time 1) outcome ∧
      Router.addToMessages (scn.at host) x.router m newMessage outcome = some x'.router := by
  rw [addToMessages] at h
  split at h
  · rename_i hown
    obtain rfl := Option.some.inj h
    exact ⟨hx, .stays, trivial, if_pos hown⟩
  · rename_i hother
    obtain ⟨r, hput, hf⟩ := Option.bind_eq_some_iff.mp h
    obtain ⟨hx', outcome, hfound, hrouter⟩ := cgrForward_outcome htime (hx.withRouter _) hf
    refine ⟨hx', outcome, hfound, ?_⟩
    have hother' : ¬ (newMessage = true ∧ m.toHost = (scn.at host).host) := hother
    rw [Router.addToMessages, if_neg hother', hput, Option.bind_some]
    exact hrouter

theorem take_outcome {newMessage : Bool} {outductRef forwardTimelimit : Int} (htime : 0 ≤ time) (hx : Sound scn x)
    (h : take scn host time ttl x m outductRef forwardTimelimit newMessage = some x') :
    Sound scn x' ∧ ∃ outcome, FoundAt (scn.at host) (max time 1) outcome ∧
      (if (x.router.messages m.id).isSome then some x.router
        else Router.addToMessages (scn.at host)
          (updateOutductRef (updateMessageForfeitTime x.router m forwardTimelimit) m outductRef) m newMessage outcome) =
        some x'.router := by
  rw [take] at h
  split at h
  · rename_i hheld
    obtain rfl := Option.some.inj h
    exact ⟨hx, .stays, trivial, by rw [if_pos hheld]⟩
  · rename_i hnew
    obtain ⟨hx', outcome, hfound, hrouter⟩ := addToMessages_outcome htime (hx.withRouter _) h
    exact ⟨hx', outcome, hfound, by rw [if_neg hnew]; exact hrouter⟩

/-- Whatever happens at a host, its router does what the model of a router allows. -/
theorem act_simulated {planChanged planChanged' : Bool} {action : Action} (htime : 0 ≤ time) (hx : Sound scn x)
    (h : act scn host time ttl x planChanged action = some (x', planChanged')) : Simulated scn host time x x' := by
  cases action with
  | init =>
    obtain ⟨rfl, -⟩ := Prod.mk.inj (Option.some.inj h)
    refine simulated_same (hx.withAdmin ?_) rfl
    simp only [initializeNode]
    split
    · exact hx.routes
    · exact routesAll_update hx.routes host _ _ (fun t routes hr => by cases hr)
  | plan call =>
    obtain ⟨admin, hplan, heq⟩ := Option.map_eq_some_iff.mp h
    obtain ⟨rfl, -⟩ := Prod.mk.inj heq
    exact simulated_same (hx.withAdmin (routesAll_plan hx.routes hplan)) rfl
  | createNewMessage m =>
    obtain ⟨y, htake, heq⟩ := Option.map_eq_some_iff.mp h
    obtain ⟨rfl, -⟩ := Prod.mk.inj heq
    obtain ⟨hx', outcome, hfound, hrouter⟩ := take_outcome htime hx htake
    exact simulated_step (s := .createNewMessage m outcome) hx' hfound hrouter
  | receive m outductRef forwardTimelimit =>
    obtain ⟨y, htake, heq⟩ := Option.map_eq_some_iff.mp h
    obtain ⟨rfl, -⟩ := Prod.mk.inj heq
    obtain ⟨hx', outcome, hfound, hrouter⟩ := take_outcome htime hx htake
    exact simulated_step (s := .receive m outductRef forwardTimelimit outcome) hx' hfound hrouter
  | update =>
    obtain ⟨y, hupdate, heq⟩ := Option.map_eq_some_iff.mp h
    obtain ⟨rfl, -⟩ := Prod.mk.inj heq
    obtain ⟨z, -, hfirst, hsecond⟩ := update_simulated htime hx hupdate
    exact hfirst.trans hsecond
  | removeFromMessages id =>
    obtain ⟨r, hremove, heq⟩ := Option.map_eq_some_iff.mp h
    obtain ⟨rfl, -⟩ := Prod.mk.inj heq
    exact simulated_step (s := .removeFromMessages id) (hx.withRouter r) trivial hremove
  | transferDone id =>
    obtain ⟨r, hremove, heq⟩ := Option.map_eq_some_iff.mp h
    obtain ⟨rfl, -⟩ := Prod.mk.inj heq
    exact simulated_step (s := .transferDone id) (hx.withRouter r) trivial hremove

/-! What holds in the states of a simulation. -/

theorem foundAt_mono {sim : Simulator} {now later : Int} {outcome : Outcome} (hle : now ≤ later)
    (h : FoundAt sim later outcome) : FoundAt sim now outcome := by
  cases outcome with
  | stays => trivial
  | enqueued forfeitTime nodeNbr => exact ⟨hle.trans h.1, h.2⟩

theorem Timely.stepAt {s : Router.Step} (h : Timely scn host time s) : StepAt (scn.at host) time s := by
  have hle : time ≤ max time 1 := le_max_left time 1
  cases s with
  | createNewMessage m outcome => exact foundAt_mono hle h
  | receive m outductRef forwardTimelimit outcome => exact foundAt_mono hle h
  | cgrForward m outcome => exact foundAt_mono hle h
  | checkExpiredRoutes now outcomes => exact ⟨h.1, fun outcome ho => foundAt_mono hle (h.2 outcome ho)⟩
  | tryRouteForMessageIntoLimbo outcomes => exact fun outcome ho => foundAt_mono hle (h outcome ho)
  | removeFromMessages id => trivial
  | transferDone id => trivial

/-- The messages in the outducts have been routed: none has the limit zero of a message that was not. -/
def Routed (r : ContactGraphRouter) : Prop := ∀ host, ∀ m ∈ (r.outducts host).queue, 0 < r.forwardTimelimit m

theorem Routed.since {r r' : ContactGraphRouter} {now : Int} (h : Routed r) (hnow : 1 ≤ now) (hsince : RoutedSince now r r') :
    Routed r' := by
  intro host m hm
  rcases hsince host m hm with hlimit | ⟨hold, hsame⟩
  · omega
  · rw [hsame]
    exact h host m hold

theorem routed_step {r r' : ContactGraphRouter} {s : Router.Step} (htime : 0 ≤ time) (hgood : Good (scn.at host) r)
    (h : Routed r) (hs : Timely scn host time s) (hstep : Router.step (scn.at host) r s = some r') : Routed r' := by
  by_cases hpos : 1 ≤ time
  · exact h.since hpos (routedSince_step hgood hs.stepAt hstep)
  · obtain rfl : time = 0 := by omega
    -- at time zero the limits that are given are one at least, and the check does nothing
    cases s with
    | checkExpiredRoutes now outcomes =>
      obtain ⟨rfl, -⟩ := hs
      obtain ⟨x, hx, rfl⟩ := Option.map_eq_some_iff.mp hstep
      have hnone : ∀ host, ∀ m ∈ (r.outducts host).queue, 0 ≤ r.forwardTimelimit m := fun host m hm => (h host m hm).le
      have hzero := @checkOutducts_zero (scn.at host) (scn.at host).hosts ⟨r, outcomes⟩ hnone
      rw [Router.checkExpiredRoutes, hzero, Option.some.injEq] at hx
      exact hx ▸ h
    | createNewMessage m outcome =>
      exact h.since le_rfl (routedSince_step (s := .createNewMessage m outcome) hgood hs hstep)
    | receive m outductRef forwardTimelimit outcome =>
      exact h.since le_rfl (routedSince_step (s := .receive m outductRef forwardTimelimit outcome) hgood hs hstep)
    | cgrForward m outcome => exact h.since le_rfl (routedSince_step (s := .cgrForward m outcome) hgood hs hstep)
    | tryRouteForMessageIntoLimbo outcomes =>
      exact h.since le_rfl (routedSince_step (s := .tryRouteForMessageIntoLimbo outcomes) hgood hs hstep)
    | removeFromMessages id =>
      exact h.since le_rfl (routedSince_step (s := .removeFromMessages id) hgood hs hstep)
    | transferDone id => exact h.since le_rfl (routedSince_step (s := .transferDone id) hgood hs hstep)

/-- A router that has run, with all that is in its outducts routed. -/
structure RouterInv (scn : Scenario) (host : Nat) (time : Int) (r : ContactGraphRouter) : Prop where
  reachable : ReachableAt (scn.at host) time r
  routed : Routed r

theorem RouterInv.run {r r' : ContactGraphRouter} (steps : List Router.Step) (h : RouterInv scn host time r)
    (hsteps : ∀ s ∈ steps, Timely scn host time s) (hrun : Runs.run (Router.step (scn.at host)) r steps = some r') :
    RouterInv scn host time r' := by
  induction steps generalizing r with
  | nil => exact Option.some.inj hrun ▸ h
  | cons s rest ih =>
    rw [Runs.run_cons, Option.bind_eq_some_iff] at hrun
    obtain ⟨u, hu, hrest⟩ := hrun
    have hs := hsteps s List.mem_cons_self
    obtain ⟨htime, hgood, -⟩ := h.reachable.sound
    exact ih ⟨h.reachable.step hs.stepAt hu, routed_step htime hgood h.routed hs hu⟩
      (fun s hs => hsteps s (List.mem_cons_of_mem _ hs)) hrest

theorem Simulated.routerInv (h : Simulated scn host time x x') (hx : RouterInv scn host time x.router) :
    RouterInv scn host time x'.router := by
  obtain ⟨-, steps, hsteps, hrun⟩ := h
  exact hx.run steps hsteps hrun

structure Invariant (scn : Scenario) (w : State) : Prop where
  sound : ∀ host, Sound scn (w.site host)
  routers : ∀ host, RouterInv scn host w.time (w.envs host).router

theorem Invariant.time_nonneg {w : State} (h : Invariant scn w) : 0 ≤ w.time := (h.routers 0).reachable.sound.1

theorem invariant_start (referenceTime : Int) (outductRef forwardTimelimit : Nat → Message → Int) :
    Invariant scn (start referenceTime outductRef forwardTimelimit) where
  sound host := ⟨rfl, fun n part hpart => by cases hpart⟩
  routers host := ⟨ReachableAt.init (outductRef host) (forwardTimelimit host), fun _ m hm => by cases hm⟩

theorem Invariant.step {w w' : State} {e : Event} (h : Invariant scn w) (hs : step scn w e = some w') :
    Invariant scn w' := by
  cases e with
  | wait seconds =>
    obtain rfl := Option.some.inj hs
    have hlater : w.time ≤ w.time + seconds := by omega
    exact ⟨h.sound, fun host => ⟨(h.routers host).reachable.wait hlater, (h.routers host).routed⟩⟩
  | act host ttl action =>
    obtain ⟨⟨x', planChanged⟩, hact, rfl⟩ := Option.map_eq_some_iff.mp hs
    have hsimulated := act_simulated h.time_nonneg (h.sound host) hact
    have hx' := hsimulated.1
    constructor
    · intro other
      by_cases hother : other = host
      · refine ⟨?_, hx'.routes⟩
        simp only [State.site, Site.router, hother, Function.update_self]
        exact hx'.clean
      · refine ⟨?_, hx'.routes⟩
        simp only [State.site, Site.router, Function.update_of_ne hother]
        exact (h.sound other).clean
    · intro other
      by_cases hother : other = host
      · simp only [hother, Function.update_self]
        exact hsimulated.routerInv (h.routers host)
      · simp only [Function.update_of_ne hother]
        exact h.routers other

theorem invariant_run {referenceTime : Int} {outductRef forwardTimelimit : Nat → Message → Int} {events : List Event}
    {w : State} (hrun : Runs.run (step scn) (start referenceTime outductRef forwardTimelimit) events = some w) :
    Invariant scn w :=
  Runs.run_invariant (fun _ _ _ h hs => h.step hs) events _ w (invariant_start _ _ _) hrun

/-- In a whole simulation, whatever happens at the hosts and in whatever order, the router of each host is in
a state that the model of a router allows for: its queues are consistent, and every message in an
outduct has a limit that does not pass for that of a message which was not routed. -/
theorem routers_as_modelled (scn : Scenario) (referenceTime : Int) (outductRef forwardTimelimit : Nat → Message → Int)
    (events : List Event) (w : State)
    (hrun : Runs.run (step scn) (start referenceTime outductRef forwardTimelimit) events = some w) (host : Nat) :
    ReachableAt (scn.at host) w.time (w.envs host).router ∧ QueuesConsistent (scn.at host) (w.envs host).router ∧
      Routed (w.envs host).router := by
  obtain ⟨hreachable, hrouted⟩ := (invariant_run hrun).routers host
  exact ⟨hreachable, hreachable.sound.2.1.consistent, hrouted⟩

theorem queued_cgrForward {sim : Simulator} {r r' : ContactGraphRouter} {now : Int} {outcome : Outcome} (hgood : Good sim r)
    (hm : m ∈ r.limbo.queue) (hfound : FoundAt sim now outcome) (hf : Router.cgrForward sim r m outcome = some r')
    (a : Message) : a ∈ queued sim r' ↔ a ∈ queued sim r := by
  rcases cgrForward_cases hgood hm hfound with hstays | ⟨forfeitTime, r₁, -, hr₁, ⟨other, -, hmoved⟩, -⟩
  · rw [hstays] at hf
    rw [Option.some.inj hf]
  · rw [hr₁] at hf
    obtain rfl := Option.some.inj hf
    obtain ⟨hknown, href⟩ := (hgood.limbo m).mp hm
    rw [mem_queued_iff (good_cgrForward hgood hm hr₁), mem_queued_iff hgood, hmoved.known, hmoved.outductRef]
    by_cases ham : a = m
    · rw [ham, Function.update_self, href]
      simp [hknown, natCast_ne_noneId, noneId_ne_limboId.symm]
    · rw [Function.update_of_ne ham]

/-- Routing the messages in the limbo changes where they are, and nothing else. -/
theorem tryRoutes_queued {sim : Simulator} {now : Int} (queue : List Message) (s s' : Rerouting) (hgood : Good sim s.router)
    (hfound : ∀ outcome ∈ s.outcomes, FoundAt sim now outcome) (hnodup : queue.Nodup)
    (hqueue : ∀ m ∈ queue, m ∈ s.router.limbo.queue) (hrun : Runs.run (Rerouting.cgrForward sim) s queue = some s')
    (a : Message) : a ∈ queued sim s'.router ↔ a ∈ queued sim s.router := by
  induction queue generalizing s with
  | nil => rw [Option.some.inj hrun]
  | cons m rest ih =>
    rw [Runs.run_cons, Option.bind_eq_some_iff] at hrun
    obtain ⟨u, hu, hrest⟩ := hrun
    have hm := hqueue m List.mem_cons_self
    obtain ⟨hno, hnodup'⟩ := List.nodup_cons.mp hnodup
    obtain ⟨outcome, hf, hat, hfound'⟩ := rerouting_found hfound hu
    have hgood' := good_cgrForward hgood hm hf
    have hstay : ∀ b ∈ rest, b ∈ u.router.limbo.queue := by
      intro b hb
      have hne : b ≠ m := fun he => hno (he ▸ hb)
      obtain ⟨hknown, -, href⟩ := cgrForward_frame hgood hm hne hf
      rw [hgood'.limbo, hknown, href, ← hgood.limbo]
      exact hqueue b (List.mem_cons_of_mem _ hb)
    rw [ih u hgood' hfound' hnodup' hstay hrest]
    exact queued_cgrForward hgood hm hat hf a

/-- Nothing in the outducts of a router is overdue. -/
def InTime (scn : Scenario) (time : Int) (r : ContactGraphRouter) : Prop :=
  ∀ other ∈ scn.hosts, ∀ m ∈ (r.outducts other).queue, time ≤ r.forwardTimelimit m

theorem checkExpiredRoutes_inTime (hx : Sound scn x) (hinv : RouterInv scn host time x.router)
    (h : checkExpiredRoutes scn host time ttl x = some x') :
    InTime scn time x'.router ∧ ∀ a, a ∈ queued (scn.at host) x'.router ↔ a ∈ queued (scn.at host) x.router := by
  obtain ⟨htime, hgood, -⟩ := hinv.reachable.sound
  have hafter : RouterInv scn host time x'.router := (checkExpiredRoutes_simulated htime hx h).routerInv hinv
  obtain ⟨-, outcomes, hfound, hrun⟩ := checkOutducts_follows htime _ hx h
  have hall := hrun []
  rw [List.append_nil] at hall
  have hway : OnTheWay (scn.at host) time x.router ⟨x.router, outcomes⟩ :=
    onTheWay_start hgood (fun o ho => foundAt_mono (le_max_left time 1) (hfound o ho))
  obtain ⟨z, hz, honway, -⟩ := checkOutducts_ends scn.hosts ⟨x.router, outcomes⟩ hway
  obtain rfl : (⟨x'.router, []⟩ : Rerouting) = z := Option.some.inj (hall.symm.trans hz)
  refine ⟨?_, honway.queued⟩
  intro other hother m hm
  by_cases hpos : 0 < time
  · have hnone : NoneUnrouted (scn.at host) x.router := fun other _ m hm => (hinv.routed other m hm).ne'
    have hdone := checkOutducts_complete hpos scn.hosts (List.Subset.refl _) ⟨x.router, outcomes⟩ _ hway hnone hall other
      hother m hm
    exact not_lt.mp hdone
  · have hlimit := hafter.routed other m hm
    omega

theorem tryRoute_inTime (hx : Sound scn x) (hinv : RouterInv scn host time x.router) (hintime : InTime scn time x.router)
    (h : tryRouteForMessageIntoLimbo scn host time ttl x = some x') :
    InTime scn time x'.router ∧ ∀ a, a ∈ queued (scn.at host) x'.router ↔ a ∈ queued (scn.at host) x.router := by
  obtain ⟨htime, hgood, -⟩ := hinv.reachable.sound
  obtain ⟨-, outcomes, hfound, hrun⟩ := tryRoute_follows htime hx h
  have hall := hrun []
  rw [List.append_nil] at hall
  have hat : ∀ o ∈ outcomes, FoundAt (scn.at host) time o := fun o ho => foundAt_mono (le_max_left time 1) (hfound o ho)
  have hsince := routedSince_tryRoutes x.router.limbo.queue ⟨x.router, outcomes⟩ _ hgood hat hgood.limbo_nodup
    (fun m hm => hm) hall
  refine ⟨?_, tryRoutes_queued x.router.limbo.queue ⟨x.router, outcomes⟩ _ hgood hat hgood.limbo_nodup (fun m hm => hm) hall⟩
  intro other hother m hm
  rcases hsince other m hm with hlimit | ⟨hold, hsame⟩
  · exact hlimit
  · rw [hsame]
    exact hintime other hother m hold

/-- An update leaves nothing in the outducts that is overdue, and the same messages. -/
theorem update_inTime {planChanged : Bool} (hx : Sound scn x) (hinv : RouterInv scn host time x.router)
    (h : update scn host time ttl planChanged x = some x') :
    InTime scn time x'.router ∧ ∀ a, a ∈ queued (scn.at host) x'.router ↔ a ∈ queued (scn.at host) x.router := by
  obtain ⟨y, hcheck, hrest⟩ := Option.bind_eq_some_iff.mp h
  have hsimulated := checkExpiredRoutes_simulated hinv.reachable.sound.1 hx hcheck
  obtain ⟨hintime, hqueued⟩ := checkExpiredRoutes_inTime hx hinv hcheck
  split at hrest
  · obtain ⟨hlater, hsame⟩ := tryRoute_inTime hsimulated.1 (hsimulated.routerInv hinv) hintime hrest
    exact ⟨hlater, fun m => (hsame m).trans (hqueued m)⟩
  · obtain rfl := Option.some.inj hrest
    exact ⟨hintime, hqueued⟩

/-- In every state of a simulation, an update of a host leaves nothing in its outducts that is overdue, and
no message gets lost or comes in. -/
theorem update_in_time (scn : Scenario) (referenceTime : Int) (outductRef forwardTimelimit : Nat → Message → Int)
    (events : List Event) (w w' : State)
    (hrun : Runs.run (step scn) (start referenceTime outductRef forwardTimelimit) events = some w) (host : Nat)
    (ttl : Message → Int) (hupdate : step scn w (.act host ttl .update) = some w') :
    InTime scn w.time (w'.envs host).router ∧
      ∀ m, m ∈ queued (scn.at host) (w'.envs host).router ↔ m ∈ queued (scn.at host) (w.envs host).router := by
  have hinv := invariant_run hrun
  obtain ⟨⟨x', planChanged⟩, hact, rfl⟩ := Option.map_eq_some_iff.mp hupdate
  obtain ⟨z, hz, heq⟩ := Option.map_eq_some_iff.mp hact
  obtain ⟨rfl, -⟩ := Prod.mk.inj heq
  simp only [Function.update_self]
  exact update_inTime (hinv.sound host) (hinv.routers host) hz

/-- Three hosts; message objects are equal to themselves only. -/
def someScenario : Scenario where
  hosts := [1, 2, 3]
  hosts_sorted := threeHosts.hosts_sorted
  hosts_int := threeHosts.hosts_int
  equals := threeHosts.equals
  equals_self := threeHosts.equals_self
  id_of_equals := threeHosts.id_of_equals
  superAddToMessages := threeHosts.superAddToMessages
  superAddToMessages_eq := threeHosts.superAddToMessages_eq
  superRemoveFromMessages := threeHosts.superRemoveFromMessages
  superRemoveFromMessages_eq := threeHosts.superRemoveFromMessages_eq
  atof := fun _ => 1
  reference := 1000

def lineOf (line : ContactPlanCreator.PlanLine) : Action := .plan (.processLine (PlanText.lineText line))

/-- Host 1 has a plan with one contact to host 3, for which a message is created in time. -/
def oneContactEvents : List Event :=
  [.act 1 (fun _ => 500) .init, .act 1 (fun _ => 500) (.plan (.readContactPlan none)),
    .act 1 (fun _ => 500) (lineOf (.range 0 20 1 3 1)), .act 1 (fun _ => 500) (lineOf (.contact 0 20 1 3 100)),
    .wait 5, .act 1 (fun _ => 500) (.createNewMessage (messageTo 1 "M1" 3)), .wait 30]

theorem oneContactEvents_run :
    (Runs.run (step someScenario) (start 0 (fun _ _ => 0) (fun _ _ => 0)) oneContactEvents).any (fun w =>
      ((w.envs 1).router.outducts 3).queue == [messageTo 1 "M1" 3] &&
        (step someScenario w (.act 1 (fun _ => 500) .update)).isSome) = true := by
  decide +kernel

theorem routers_as_modelled_oneContact : ∃ w : State,
    Runs.run (step someScenario) (start 0 (fun _ _ => 0) (fun _ _ => 0)) oneContactEvents = some w ∧
      (ReachableAt (someScenario.at 1) w.time (w.envs 1).router ∧ QueuesConsistent (someScenario.at 1) (w.envs 1).router ∧
        Routed (w.envs 1).router) := by
  obtain ⟨w, hrun, -⟩ := (Option.any_eq_true _ _).mp oneContactEvents_run
  exact ⟨w, hrun, routers_as_modelled someScenario 0 (fun _ _ => 0) (fun _ _ => 0) oneContactEvents w hrun 1⟩

/-- The contact is over by now, and the message waits for it still; the update takes it back. -/
theorem update_in_time_oneContact : ∃ w w' : State,
    Runs.run (step someScenario) (start 0 (fun _ _ => 0) (fun _ _ => 0)) oneContactEvents = some w ∧
      ((w.envs 1).router.outducts 3).queue = [messageTo 1 "M1" 3] ∧
      (InTime someScenario w.time (w'.envs 1).router ∧
        ∀ m, m ∈ queued (someScenario.at 1) (w'.envs 1).router ↔ m ∈ queued (someScenario.at 1) (w.envs 1).router) := by
  obtain ⟨w, hrun, hw⟩ := (Option.any_eq_true _ _).mp oneContactEvents_run
  obtain ⟨hqueue, hupdate⟩ := Bool.and_eq_true_iff.mp hw
  obtain ⟨w', hw'⟩ := Option.isSome_iff_exists.mp hupdate
  exact ⟨w, w', hrun, beq_iff_eq.mp hqueue,
    update_in_time someScenario 0 (fun _ _ => 0) (fun _ _ => 0) oneContactEvents w w' hrun 1 (fun _ => 500) hw'⟩

end Simulation
