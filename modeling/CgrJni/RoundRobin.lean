import CgrJni.RouterQueues
import CgrJni.CyclicOrder

/-!
How the router shares its transmissions among the hosts it is connected to: the
outducts are offered in turn, and the turn goes on after the one that was served.
-/

namespace RoundRobin

open Router RouterQueues CyclicOrder

structure Connection where
  ref : Nat
  otherNode : Nat
  deriving DecidableEq

/-- The end of an update, as the simulator lets it go: whether transfers are possible at all, and
whether the transfer of a message over a connection would start. -/
structure Chance where
  canStartTransfer : Bool
  nrofMessages : Nat
  connections : List Connection
  startTransfer : Message → Connection → Bool

/-- The router with the host that the next round starts from. -/
structure Sender where
  router : ContactGraphRouter
  firstOutductIndex : Option Nat

def Sender.init (r : ContactGraphRouter) : Sender := ⟨r, none⟩

def getConnectionTo (connections : List Connection) (host : Nat) : Option Connection :=
  connections.find? (fun c => host = c.otherNode)

/-- The first message of an outduct, if its host is connected. -/
def offer (r : ContactGraphRouter) (connections : List Connection) (host : Nat) : Option (Message × Connection) :=
  (getConnectionTo connections host).bind (fun c => (r.outducts host).queue.head?.map (fun m => (m, c)))

/-- What the simulator does with the messages that are offered to it: it tries to start the transfer of each. -/
abbrev TryMessages := (Message → Connection → Bool) → List (Message × Connection) → Option (Message × Connection)

/-- The transfers are tried in turn until one starts, and that one is returned. -/
structure TriesInTurn (tryMessagesForConnected : TryMessages) : Prop where
  none_starts : ∀ startTransfer tuples, tryMessagesForConnected startTransfer tuples = none →
    ∀ t ∈ tuples, startTransfer t.1 t.2 = false
  first_starts : ∀ startTransfer tuples sent, tryMessagesForConnected startTransfer tuples = some sent →
    startTransfer sent.1 sent.2 = true ∧
      ∃ pre post, tuples = pre ++ sent :: post ∧ ∀ t ∈ pre, startTransfer t.1 t.2 = false

section

variable (sim : Simulator) (tryMessagesForConnected : TryMessages)

/-- What is offered, in turn; without any host there is an exception. -/
def getMessagesForConnected (x : Sender) (g : Chance) : Option (List (Message × Connection) × Sender) :=
  if g.nrofMessages = 0 ∨ g.connections = [] then some ([], x)
  else
    (x.firstOutductIndex.or sim.hosts.head?).map (fun first =>
      ((walk sim.hosts sim.hosts.length (some first)).filterMap (offer x.router g.connections),
        { x with firstOutductIndex := some first }))

/-- The end of `update`, with what is sent, if anything is. -/
def transmit (x : Sender) (g : Chance) : Option (Sender × Option (Message × Connection)) :=
  if g.canStartTransfer then
    (getMessagesForConnected sim x g).map (fun offered =>
      match tryMessagesForConnected g.startTransfer offered.1 with
      | none => (offered.2, none)
      | some sent => ({ offered.2 with firstOutductIndex := next sim.hosts sent.2.otherNode }, some sent))
  else some (x, none)

/-- The router does something, or an update ends. -/
inductive Turn
  | step (s : Router.Step)
  | transmit (g : Chance)

def turn (x : Sender) : Turn → Option Sender
  | .step s => (Router.step sim x.router s).map (fun r => { x with router := r })
  | .transmit g => (transmit sim tryMessagesForConnected x g).map Prod.fst

/-- The hosts that are served in a run, as far as it goes. -/
def served : Sender → List Turn → List Nat
  | _, [] => []
  | x, .step s :: rest =>
    match Router.step sim x.router s with
    | none => []
    | some r => served { x with router := r } rest
  | x, .transmit g :: rest =>
    match transmit sim tryMessagesForConnected x g with
    | none => []
    | some (y, none) => served y rest
    | some (y, some sent) => sent.2.otherNode :: served y rest

/-- The hosts whose turn it is before a host's. -/
def ahead (x : Sender) (host : Nat) : List Nat :=
  match x.firstOutductIndex.or sim.hosts.head? with
  | none => []
  | some first => before sim.hosts first host

end

variable {sim : Simulator} {tryMessagesForConnected : TryMessages} {x y : Sender} {g : Chance} {host other : Nat}
  {sent : Message × Connection}

theorem TriesInTurn.eq_find (h : TriesInTurn tryMessagesForConnected) (startTransfer : Message → Connection → Bool)
    (tuples : List (Message × Connection)) :
    tryMessagesForConnected startTransfer tuples = tuples.find? (fun t => startTransfer t.1 t.2) := by
  cases htried : tryMessagesForConnected startTransfer tuples with
  | none =>
    have hnone := h.none_starts startTransfer tuples htried
    exact (List.find?_eq_none.mpr (fun t ht => by simp [hnone t ht])).symm
  | some sent =>
    obtain ⟨hstarts, pre, post, hsplit, hpre⟩ := h.first_starts startTransfer tuples sent htried
    rw [eq_comm, List.find?_eq_some_iff_append]
    exact ⟨hstarts, pre, post, hsplit, fun t ht => by simp [hpre t ht]⟩

/-- The first message for a host would be accepted. -/
def Ready (r : ContactGraphRouter) (g : Chance) (host : Nat) : Prop :=
  g.nrofMessages ≠ 0 ∧ ∃ t, offer r g.connections host = some t ∧ g.startTransfer t.1 t.2 = true

instance (r : ContactGraphRouter) (g : Chance) (host : Nat) : Decidable (Ready r g host) :=
  decidable_of_iff (g.nrofMessages ≠ 0 ∧ (offer r g.connections host).any (fun t => g.startTransfer t.1 t.2) = true)
    (and_congr_right (fun _ => Option.any_eq_true _ _))

theorem offer_eq_some {r : ContactGraphRouter} {connections : List Connection} {t : Message × Connection}
    (h : offer r connections host = some t) :
    t.2 ∈ connections ∧ t.2.otherNode = host ∧ ∃ rest, (r.outducts host).queue = t.1 :: rest := by
  obtain ⟨c, hc, hm⟩ := Option.bind_eq_some_iff.mp h
  obtain ⟨m, hhead, rfl⟩ := Option.map_eq_some_iff.mp hm
  have hother := List.find?_some hc
  exact ⟨List.mem_of_find?_eq_some hc, (of_decide_eq_true hother).symm, List.head?_eq_some_iff.mp hhead⟩

/-- The next round starts from one of the hosts. -/
def Placed (sim : Simulator) (x : Sender) : Prop := ∀ first, x.firstOutductIndex = some first → first ∈ sim.hosts

theorem mem_of_first (hplaced : Placed sim x) {first : Nat}
    (h : x.firstOutductIndex.or sim.hosts.head? = some first) : first ∈ sim.hosts := by
  rcases Option.or_eq_some_iff.mp h with hindex | ⟨-, hhead⟩
  · exact hplaced first hindex
  · exact List.mem_of_mem_head? hhead

/-- What is offered are the first messages of the outducts whose hosts are connected, of each outduct once, from
where the round starts and around. -/
theorem getMessagesForConnected_eq (hplaced : Placed sim x) {offered : List (Message × Connection)}
    (h : getMessagesForConnected sim x g = some (offered, y)) :
    (g.nrofMessages = 0 ∨ g.connections = []) ∧ offered = [] ∧ y = x ∨
      g.nrofMessages ≠ 0 ∧ ∃ first ∈ sim.hosts, x.firstOutductIndex.or sim.hosts.head? = some first ∧
        y = { x with firstOutductIndex := some first } ∧
        offered = (startingAt sim.hosts first).filterMap (offer x.router g.connections) := by
  rw [getMessagesForConnected] at h
  split at h
  · rename_i hnone
    obtain ⟨rfl, rfl⟩ := Prod.mk.inj (Option.some.inj h)
    exact Or.inl ⟨hnone, rfl, rfl⟩
  · rename_i hsome
    obtain ⟨first, hfirst, heq⟩ := Option.map_eq_some_iff.mp h
    obtain ⟨rfl, rfl⟩ := Prod.mk.inj heq
    have hmem := mem_of_first hplaced hfirst
    refine Or.inr ⟨fun hzero => hsome (Or.inl hzero), first, hmem, hfirst, rfl, ?_⟩
    rw [walk_all sim.hosts_sorted hmem]

theorem not_ready_of_none {r : ContactGraphRouter} (h : g.nrofMessages = 0 ∨ g.connections = []) : ¬ Ready r g host := by
  rintro ⟨hcount, t, ht, -⟩
  rcases h with hzero | hnil
  · exact hcount hzero
  · have hconnected := (offer_eq_some ht).1
    rw [hnil] at hconnected
    cases hconnected

/-- Served is the first host, in turn, that is ready; without a transmission none is. -/
theorem transmit_cases (htry : TriesInTurn tryMessagesForConnected) (hplaced : Placed sim x)
    {result : Option (Message × Connection)} (h : transmit sim tryMessagesForConnected x g = some (y, result)) :
    y.router = x.router ∧
      (result = none ∧ Placed sim y ∧ ahead sim y = ahead sim x ∧
          (g.canStartTransfer = true → ∀ host ∈ sim.hosts, ¬ Ready x.router g host) ∨
        ∃ sent first pre post, result = some sent ∧ x.firstOutductIndex.or sim.hosts.head? = some first ∧
          first ∈ sim.hosts ∧ startingAt sim.hosts first = pre ++ sent.2.otherNode :: post ∧
          (∀ host ∈ pre, ¬ Ready x.router g host) ∧ y.firstOutductIndex = next sim.hosts sent.2.otherNode) := by
  rw [transmit] at h
  split at h
  · rename_i hcan
    obtain ⟨⟨offered, z⟩, hoffered, heq⟩ := Option.map_eq_some_iff.mp h
    dsimp only at heq
    rw [htry.eq_find] at heq
    rcases getMessagesForConnected_eq hplaced hoffered with ⟨hnone, rfl, rfl⟩ | ⟨hcount, first, hmem, hfirst, rfl, rfl⟩
    · obtain ⟨rfl, rfl⟩ := Prod.mk.inj heq
      exact ⟨rfl, Or.inl ⟨rfl, hplaced, rfl, fun _ _ _ => not_ready_of_none hnone⟩⟩
    · rw [List.find?_filterMap] at heq
      have hready : ∀ host, Ready x.router g host ↔
          (offer x.router g.connections host).any (fun t => g.startTransfer t.1 t.2) = true := by
        intro host
        rw [Option.any_eq_true, Ready, and_iff_right hcount]
      cases hfind : (startingAt sim.hosts first).find?
          (fun host => (offer x.router g.connections host).any (fun t => g.startTransfer t.1 t.2)) with
      | none =>
        rw [hfind] at heq
        obtain ⟨rfl, rfl⟩ := Prod.mk.inj heq
        refine ⟨rfl, Or.inl ⟨rfl, fun other hother => Option.some.inj hother ▸ hmem, ?_, ?_⟩⟩
        · funext host
          simp [ahead, hfirst]
        · intro _ host hhost
          rw [hready]
          exact List.find?_eq_none.mp hfind host ((mem_startingAt first host).mpr hhost)
      | some host =>
        obtain ⟨hany, pre, post, hsplit, hpre⟩ := List.find?_eq_some_iff_append.mp hfind
        obtain ⟨sent, hsent, -⟩ := (Option.any_eq_true _ _).mp hany
        rw [hfind, Option.bind_some, hsent] at heq
        obtain ⟨rfl, rfl⟩ := Prod.mk.inj heq
        obtain ⟨-, rfl, -⟩ := offer_eq_some hsent
        refine ⟨rfl, Or.inr ⟨sent, first, pre, post, rfl, hfirst, hmem, hsplit, ?_, rfl⟩⟩
        intro other hother
        rw [hready]
        simpa using hpre other hother
  · rename_i hcannot
    obtain ⟨rfl, rfl⟩ := Prod.mk.inj (Option.some.inj h)
    exact ⟨rfl, Or.inl ⟨rfl, hplaced, rfl, fun hcan => absurd hcan hcannot⟩⟩

/-- A transmission to a host whose turn is before that of another one, which is ready. -/
theorem transmit_ahead (htry : TriesInTurn tryMessagesForConnected) (hplaced : Placed sim x)
    (hhost : host ∈ sim.hosts) (h : transmit sim tryMessagesForConnected x g = some (y, some sent))
    (hready : Ready x.router g host) (hne : sent.2.otherNode ≠ host) :
    Placed sim y ∧ (sent.2.otherNode :: ahead sim y host).Sublist (ahead sim x host) := by
  obtain ⟨-, ⟨hnone, -⟩ | ⟨_, first, pre, post, hsent, hfirst, hmem, hsplit, hpre, hindex⟩⟩ :=
    transmit_cases htry hplaced h
  · cases hnone
  · obtain rfl := Option.some.inj hsent
    obtain ⟨d, hnext, hd, hsublist⟩ :=
      before_next sim.hosts_sorted hmem hhost hsplit (fun hbefore => hpre host hbefore hready) hne
    rw [hnext] at hindex
    refine ⟨fun other hother => Option.some.inj (hindex.symm.trans hother) ▸ hd, ?_⟩
    simpa [ahead, hindex, hfirst] using hsublist

theorem placed_turn (htry : TriesInTurn tryMessagesForConnected) (h : Placed sim x) {t : Turn}
    (ht : turn sim tryMessagesForConnected x t = some y) : Placed sim y := by
  cases t with
  | step s =>
    obtain ⟨r, -, rfl⟩ := Option.map_eq_some_iff.mp ht
    exact h
  | transmit g =>
    obtain ⟨⟨z, result⟩, hz, rfl⟩ := Option.map_eq_some_iff.mp ht
    obtain ⟨-, ⟨-, hplaced, -⟩ | ⟨sent, first, pre, post, -, -, hmem, hsplit, -, hindex⟩⟩ := transmit_cases htry h hz
    · exact hplaced
    · obtain ⟨d, hnext, hd, -⟩ := startingAt_next sim.hosts_sorted hmem hsplit
      intro other hother
      rw [hindex, hnext, Option.some.injEq] at hother
      exact hother ▸ hd

theorem placed_init (r : ContactGraphRouter) : Placed sim (Sender.init r) := by
  intro first h
  cases h

/-- While a host is ready whenever something can be sent. -/
def Waits (host : Nat) (x : Sender) : Turn → Prop
  | .step _ => True
  | .transmit g => g.canStartTransfer = true → Ready x.router g host

instance (host : Nat) (x : Sender) : ∀ t, Decidable (Waits host x t)
  | .step _ => isTrue trivial
  | .transmit g => inferInstanceAs (Decidable (g.canStartTransfer = true → Ready x.router g host))

/-- As long as a host waits and is not served, the others are served in turn. -/
theorem served_sublist (htry : TriesInTurn tryMessagesForConnected) (hhost : host ∈ sim.hosts)
    (turns : List Turn) (hplaced : Placed sim x)
    (hwaits : Runs.StepsMeet (turn sim tryMessagesForConnected) (Waits host) x turns)
    (hnot : host ∉ served sim tryMessagesForConnected x turns) :
    (served sim tryMessagesForConnected x turns).Sublist (ahead sim x host) := by
  induction turns generalizing x with
  | nil => exact List.nil_sublist _
  | cons t rest ih =>
    obtain ⟨hready, hrest⟩ := hwaits
    cases t with
    | step s =>
      rw [served] at hnot ⊢
      cases hs : Router.step sim x.router s with
      | none => exact List.nil_sublist _
      | some r =>
        have ht : turn sim tryMessagesForConnected x (.step s) = some { x with router := r } := by
          rw [turn, hs, Option.map_some]
        rw [hs] at hnot
        exact ih (placed_turn htry hplaced ht) (hrest _ ht) hnot
    | transmit g =>
      rw [served] at hnot ⊢
      cases hs : transmit sim tryMessagesForConnected x g with
      | none => exact List.nil_sublist _
      | some out =>
        obtain ⟨z, result⟩ := out
        have ht : turn sim tryMessagesForConnected x (.transmit g) = some z := by rw [turn, hs, Option.map_some]
        rw [hs] at hnot
        cases result with
        | none =>
          obtain ⟨-, ⟨-, -, hahead, -⟩ | ⟨_, _, _, _, hsent, -⟩⟩ := transmit_cases htry hplaced hs
          · rw [← hahead]
            exact ih (placed_turn htry hplaced ht) (hrest _ ht) hnot
          · cases hsent
        | some sent =>
          obtain ⟨hne, hnot⟩ := not_or.mp (List.mem_cons.not.mp hnot)
          have hcan : g.canStartTransfer = true := by
            by_contra hcannot
            simp [transmit, hcannot] at hs
          obtain ⟨hz, hsublist⟩ := transmit_ahead htry hplaced hhost hs (hready hcan) (fun heq => hne heq.symm)
          exact ((ih hz (hrest _ ht) hnot).cons_cons sent.2.otherNode).trans hsublist

/-- In whatever state the router is, a host with a message that could be sent at every update is served before
any other host is served twice: until then at most all others are served, each once, in the order in which it is
their turn. -/
theorem no_starvation (sim : Simulator) (tryMessagesForConnected : TryMessages)
    (htry : TriesInTurn tryMessagesForConnected) (outductRef forwardTimelimit : Message → Int)
    (earlier turns : List Turn) (x : Sender)
    (hrun : Runs.run (turn sim tryMessagesForConnected)
      (Sender.init (ContactGraphRouter.init outductRef forwardTimelimit)) earlier = some x)
    (host : Nat) (hhost : host ∈ sim.hosts)
    (hwaits : Runs.StepsMeet (turn sim tryMessagesForConnected) (Waits host) x turns)
    (hnot : host ∉ served sim tryMessagesForConnected x turns) :
    (served sim tryMessagesForConnected x turns).Sublist (ahead sim x host) ∧
      (served sim tryMessagesForConnected x turns).Nodup ∧
      (served sim tryMessagesForConnected x turns).length < sim.hosts.length := by
  have hplaced : Placed sim x :=
    Runs.run_invariant (fun _ _ _ h ht => placed_turn htry h ht) earlier _ x (placed_init _) hrun
  have hsublist := served_sublist htry hhost turns hplaced hwaits hnot
  have hahead : (ahead sim x host).Nodup ∧ (ahead sim x host).length < sim.hosts.length := by
    rw [ahead]
    cases hfirst : x.firstOutductIndex.or sim.hosts.head? with
    | none => exact ⟨List.nodup_nil, List.length_pos_of_mem hhost⟩
    | some first =>
      have hmem := mem_of_first hplaced hfirst
      exact ⟨nodup_before sim.hosts_sorted hmem, length_before sim.hosts_sorted hmem hhost⟩
  exact ⟨hsublist, hahead.1.sublist hsublist, hsublist.length_le.trans_lt hahead.2⟩

/-- Each transfer is tried, and the first that starts is returned. -/
def firstStarted : TryMessages := fun startTransfer tuples => tuples.find? (fun t => startTransfer t.1 t.2)

theorem firstStarted_triesInTurn : TriesInTurn firstStarted where
  none_starts _ _ h t ht := by simpa using List.find?_eq_none.mp h t ht
  first_starts startTransfer tuples sent h := by
    obtain ⟨hstarts, pre, post, hsplit, hpre⟩ := List.find?_eq_some_iff_append.mp h
    exact ⟨hstarts, pre, post, hsplit, fun t ht => by simpa using hpre t ht⟩

/-- All hosts are connected, and everything is accepted. -/
def allConnected : Chance := ⟨true, 2, [⟨7, 3⟩, ⟨8, 2⟩], fun _ _ => true⟩

/-- A message to each of two other hosts. -/
def twoMessages : List Turn :=
  [.step (.createNewMessage (messageTo 1 "M1" 3) (.enqueued 20 3)),
    .step (.createNewMessage (messageTo 2 "M2" 2) (.enqueued 20 2))]

theorem no_starvation_twoMessages : ∃ x,
    Runs.run (turn threeHosts firstStarted) (Sender.init (ContactGraphRouter.init (fun _ => 0) (fun _ => 0)))
        twoMessages = some x ∧
      served threeHosts firstStarted x [.transmit allConnected] = [2] ∧
      ((served threeHosts firstStarted x [.transmit allConnected]).Sublist (ahead threeHosts x 3) ∧
        (served threeHosts firstStarted x [.transmit allConnected]).Nodup ∧
        (served threeHosts firstStarted x [.transmit allConnected]).length < threeHosts.hosts.length) := by
  have hany : (Runs.run (turn threeHosts firstStarted)
      (Sender.init (ContactGraphRouter.init (fun _ => 0) (fun _ => 0))) twoMessages).any (fun x =>
      decide (Runs.StepsMeet (turn threeHosts firstStarted) (Waits 3) x [.transmit allConnected]) &&
        served threeHosts firstStarted x [.transmit allConnected] == [2]) = true := by
    decide +kernel
  obtain ⟨x, hrun, hx⟩ := (Option.any_eq_true _ _).mp hany
  obtain ⟨hwaits, hserved⟩ := Bool.and_eq_true_iff.mp hx
  have hserved := beq_iff_eq.mp hserved
  refine ⟨x, hrun, hserved, no_starvation threeHosts firstStarted firstStarted_triesInTurn (fun _ => 0)
    (fun _ => 0) twoMessages [.transmit allConnected] x hrun 3 (by decide) (of_decide_eq_true hwaits) ?_⟩
  rw [hserved]
  decide

end RoundRobin
