import CgrJni.Simulation

/-!
The network of all hosts, with the transfers between them: at the end of a transfer
the sender takes the message out of its queue and the receiver takes a replica in, unless
it is the destination. What has been created is queued somewhere until it is delivered.
-/

namespace Network

open Router RouterQueues OverdueMessages Simulation

/-- A replica is another object with the same contents. -/
def Replicates (m m' : Message) : Prop :=
  m.id = m'.id ∧ m.size = m'.size ∧ m.fromHost = m'.fromHost ∧ m.toHost = m'.toHost

instance (m m' : Message) : Decidable (Replicates m m') := inferInstanceAs (Decidable (_ ∧ _))

/-- The hosts, and a record of what was created, delivered and dropped. -/
structure State where
  sim : Simulation.State
  created : List Message
  delivered : List String
  dropped : List String

def State.router (w : State) (host : Nat) : ContactGraphRouter := (w.sim.envs host).router

/-- The buffer or the lifetime can make the simulator remove a message. -/
inductive Event
  | wait (seconds : Nat)
  | init (host : Nat)
  | plan (host : Nat) (call : Ionadmin.Call)
  | update (host : Nat) (ttl : Message → Int)
  | createNewMessage (host : Nat) (ttl : Message → Int) (m : Message)
  | transfer (sender receiver : Nat) (ttl : Message → Int) (m : Message) (outductRef forwardTimelimit : Int)
  | drop (host : Nat) (id : String)

def start (referenceTime : Int) (outductRef forwardTimelimit : Nat → Message → Int) : State :=
  ⟨Simulation.start referenceTime outductRef forwardTimelimit, [], [], []⟩

def noTtl : Message → Int := fun _ => 0

/-- A new message has an id that is used nowhere. No transfer begins to a host that holds the message or
receives it already. -/
def step (scn : Scenario) (w : State) : Event → Option State
  | .wait seconds => (Simulation.step scn w.sim (.wait seconds)).map (fun sim => { w with sim := sim })
  | .init host => (Simulation.step scn w.sim (.act host noTtl .init)).map (fun sim => { w with sim := sim })
  | .plan host call =>
    (Simulation.step scn w.sim (.act host noTtl (.plan call))).map (fun sim => { w with sim := sim })
  | .update host ttl => (Simulation.step scn w.sim (.act host ttl .update)).map (fun sim => { w with sim := sim })
  | .createNewMessage host ttl m =>
    if (∃ c ∈ w.created, c.id = m.id) ∨ ((w.router host).messages m.id).isSome then none
    else
      (Simulation.step scn w.sim (.act host ttl (.createNewMessage m))).map (fun sim =>
        { w with
          sim := sim
          created := m :: w.created
          delivered := if m.toHost = host then m.id :: w.delivered else w.delivered })
  | .transfer sender receiver ttl m outductRef forwardTimelimit =>
    if sender ≠ receiver ∧ (∃ c ∈ w.created, Replicates c m) ∧ ((w.router receiver).messages m.id).isNone then
      (Simulation.step scn w.sim (.act sender ttl (.transferDone m.id))).bind (fun sim =>
        if m.toHost = receiver then some { w with sim := sim, delivered := m.id :: w.delivered }
        else
          (Simulation.step scn sim (.act receiver ttl (.receive m outductRef forwardTimelimit))).map
            (fun sim => { w with sim := sim }))
    else none
  | .drop host id =>
    (Simulation.step scn w.sim (.act host noTtl (.removeFromMessages id))).map (fun sim =>
      { w with sim := sim, dropped := id :: w.dropped })

/-! What the actions of a host do to its queues. -/

section

variable {sim : Simulator} {r r' : ContactGraphRouter} {m a : Message} {now : Int}

/-- A message whose id is not held is queued, beside those that are. -/
theorem addToMessages_queued {outductRef forwardTimelimit : Int} {newMessage : Bool} {outcome : Outcome}
    (hgood : Good sim r) (hnew : r.messages m.id = none) (hother : ¬ (newMessage = true ∧ m.toHost = sim.host))
    (hfound : FoundAt sim now outcome)
    (ha : addToMessages sim (updateOutductRef (updateMessageForfeitTime r m forwardTimelimit) m outductRef) m
      newMessage outcome = some r') : a ∈ queued sim r' ↔ a = m ∨ a ∈ queued sim r := by
  have hf := addToMessages_eq hgood hnew hother ha
  have hin := hgood.takeInLimbo hnew forwardTimelimit
  rw [queued_cgrForward hin (List.mem_append_right _ (List.mem_singleton.mpr rfl)) hfound hf, mem_queued, mem_queued]
  simp only [insertMessageIntoLimbo, superAddToMessages, updateOutductRef, updateMessageForfeitTime, List.mem_append,
    List.mem_singleton]
  tauto

theorem removeMessageFromOutduct_frame (sim : Simulator) (r : ContactGraphRouter) (host : Nat) (hne : a ≠ m) :
    (removeMessageFromOutduct sim r host m).known = r.known ∧
      (removeMessageFromOutduct sim r host m).outductRef a = r.outductRef a := by
  rw [removeMessageFromOutduct]
  split
  · exact ⟨rfl, rfl⟩
  · exact ⟨rfl, Function.update_of_ne hne ..⟩

theorem removeFromOutducts_frame {id : String} (hr : removeFromOutducts sim r id = some r')
    (ha : r.messages id ≠ some a) : r'.known = r.known ∧ r'.outductRef a = r.outductRef a := by
  rw [removeFromOutducts] at hr
  split at hr
  · exact Option.some.inj hr ▸ ⟨rfl, rfl⟩
  · rename_i removed hheld
    have hne : a ≠ removed := fun he => ha (hheld.trans (congrArg some he.symm))
    split at hr
    · obtain rfl := Option.some.inj hr
      split
      · exact ⟨rfl, rfl⟩
      · exact ⟨rfl, Function.update_of_ne hne ..⟩
    · split at hr
      · exact Option.some.inj hr ▸ ⟨rfl, rfl⟩
      · obtain ⟨host, -, rfl⟩ := Option.map_eq_some_iff.mp hr
        exact removeMessageFromOutduct_frame sim r host hne

/-- Only the message that is held under an id can leave its queue. -/
theorem removeFromOutducts_queued {id : String} (hgood : Good sim r) (hr : removeFromOutducts sim r id = some r')
    (hm : a ∈ queued sim r) (hid : a.id ≠ id) : a ∈ queued sim r' := by
  obtain ⟨u, hu, hgood', -⟩ := good_removeFromOutducts hgood id
  obtain rfl : r' = u := Option.some.inj (hr.symm.trans hu)
  have hheld : r.messages id ≠ some a := fun hheld => hid (hgood.held id a hheld).1
  obtain ⟨hknown, href⟩ := removeFromOutducts_frame hr hheld
  rw [mem_queued_iff hgood', hknown, href]
  exact (mem_queued_iff hgood).mp hm

theorem removeFromMessages_queued {id : String} (hgood : Good sim r) (hr : removeFromMessages sim r id = some r')
    (hm : a ∈ queued sim r) (hid : a.id ≠ id) : a ∈ queued sim r' := by
  obtain ⟨u, hu, rfl⟩ := Option.map_eq_some_iff.mp hr
  have hqueued : a ∈ queued sim u := removeFromOutducts_queued hgood hu hm hid
  exact hqueued

end

section

variable {scn : Scenario} {host : Nat} {time : Int} {ttl : Message → Int} {x x' : Site} {m a : Message}

/-- Taking a message in leaves the others queued, and queues one whose id is not held. -/
theorem take_queued {newMessage : Bool} {outductRef forwardTimelimit : Int} (hx : Sound scn x)
    (hinv : RouterInv scn host time x.router)
    (h : take scn host time ttl x m outductRef forwardTimelimit newMessage = some x') :
    (∀ a ∈ queued (scn.at host) x.router, a ∈ queued (scn.at host) x'.router) ∧
      (x.router.messages m.id = none → ¬ (newMessage = true ∧ m.toHost = host) → m ∈ queued (scn.at host) x'.router) := by
  obtain ⟨htime, hgood, -⟩ := hinv.reachable.sound
  obtain ⟨-, outcome, hfound, hrouter⟩ := take_outcome htime hx h
  split at hrouter
  · rename_i hheld
    rw [← Option.some.inj hrouter]
    exact ⟨fun a ha => ha, fun hnew => by rw [hnew] at hheld; cases hheld⟩
  · rename_i hnew
    rw [Bool.not_eq_true, Option.isSome_eq_false_iff, Option.isNone_iff_eq_none] at hnew
    by_cases hown : newMessage = true ∧ m.toHost = (scn.at host).host
    · rw [Router.addToMessages, if_pos hown] at hrouter
      rw [← Option.some.inj hrouter]
      exact ⟨fun a ha => ha, fun _ hother => absurd hown hother⟩
    · have hqueued := fun a => @addToMessages_queued _ _ _ _ a _ _ _ _ _ hgood hnew hown hfound hrouter
      exact ⟨fun a ha => (hqueued a).mpr (Or.inr ha), fun _ _ => (hqueued m).mpr (Or.inl rfl)⟩

/-- What is queued and not taken out stays queued. -/
theorem act_queued {planChanged planChanged' : Bool} {action : Action} (hx : Sound scn x)
    (hinv : RouterInv scn host time x.router) (h : act scn host time ttl x planChanged action = some (x', planChanged'))
    (hm : a ∈ queued (scn.at host) x.router) (htransfer : action ≠ .transferDone a.id)
    (hremove : action ≠ .removeFromMessages a.id) : a ∈ queued (scn.at host) x'.router := by
  obtain ⟨htime, hgood, -⟩ := hinv.reachable.sound
  cases action with
  | init =>
    obtain ⟨rfl, -⟩ := Prod.mk.inj (Option.some.inj h)
    exact hm
  | plan call =>
    obtain ⟨admin, -, heq⟩ := Option.map_eq_some_iff.mp h
    obtain ⟨rfl, -⟩ := Prod.mk.inj heq
    exact hm
  | createNewMessage m =>
    obtain ⟨y, htake, heq⟩ := Option.map_eq_some_iff.mp h
    obtain ⟨rfl, -⟩ := Prod.mk.inj heq
    exact (take_queued hx hinv htake).1 a hm
  | receive m outductRef forwardTimelimit =>
    obtain ⟨y, htake, heq⟩ := Option.map_eq_some_iff.mp h
    obtain ⟨rfl, -⟩ := Prod.mk.inj heq
    exact (take_queued hx hinv htake).1 a hm
  | update =>
    obtain ⟨y, hupdate, heq⟩ := Option.map_eq_some_iff.mp h
    obtain ⟨rfl, -⟩ := Prod.mk.inj heq
    exact ((update_inTime hx hinv hupdate).2 a).mpr hm
  | removeFromMessages id =>
    obtain ⟨r, hr, heq⟩ := Option.map_eq_some_iff.mp h
    obtain ⟨rfl, -⟩ := Prod.mk.inj heq
    exact removeFromMessages_queued hgood hr hm (fun hid => hremove (by rw [hid]))
  | transferDone id =>
    obtain ⟨r, hr, heq⟩ := Option.map_eq_some_iff.mp h
    obtain ⟨rfl, -⟩ := Prod.mk.inj heq
    exact removeFromOutducts_queued hgood hr hm (fun hid => htransfer (by rw [hid]))

/-- An event that takes no message with the id out of a queue of the host. -/
def Leaves (host : Nat) (id : String) (e : Simulation.Event) : Prop :=
  ∀ ttl, e ≠ .act host ttl (.transferDone id) ∧ e ≠ .act host ttl (.removeFromMessages id)

theorem step_queued {w w' : Simulation.State} {e : Simulation.Event} (hinv : Invariant scn w)
    (hs : Simulation.step scn w e = some w') (hm : a ∈ queued (scn.at host) (w.envs host).router)
    (hleaves : Leaves host a.id e) : a ∈ queued (scn.at host) (w'.envs host).router := by
  cases e with
  | wait seconds =>
    obtain rfl := Option.some.inj hs
    exact hm
  | act other ttl action =>
    obtain ⟨⟨x', planChanged⟩, hact, rfl⟩ := Option.map_eq_some_iff.mp hs
    by_cases hother : host = other
    · subst hother
      simp only [Function.update_self]
      obtain ⟨htransfer, hremove⟩ := hleaves ttl
      exact act_queued (hinv.sound host) (hinv.routers host) hact hm (fun he => htransfer (by rw [he]))
        (fun he => hremove (by rw [he]))
    · simp only [Function.update_of_ne hother]
      exact hm

/-- A message that a host takes in is queued there, unless it was created for the host itself. -/
theorem create_queued {w w' : Simulation.State} (hinv : Invariant scn w)
    (hs : Simulation.step scn w (.act host ttl (.createNewMessage m)) = some w')
    (hnew : (w.envs host).router.messages m.id = none) (hother : m.toHost ≠ host) :
    m ∈ queued (scn.at host) (w'.envs host).router := by
  obtain ⟨⟨x', planChanged⟩, hact, rfl⟩ := Option.map_eq_some_iff.mp hs
  obtain ⟨y, htake, heq⟩ := Option.map_eq_some_iff.mp hact
  obtain ⟨rfl, -⟩ := Prod.mk.inj heq
  simp only [Function.update_self]
  exact (take_queued (hinv.sound host) (hinv.routers host) htake).2 hnew (fun hown => hother hown.2)

theorem receive_queued {w w' : Simulation.State} {outductRef forwardTimelimit : Int} (hinv : Invariant scn w)
    (hs : Simulation.step scn w (.act host ttl (.receive m outductRef forwardTimelimit)) = some w')
    (hnew : (w.envs host).router.messages m.id = none) : m ∈ queued (scn.at host) (w'.envs host).router := by
  obtain ⟨⟨x', planChanged⟩, hact, rfl⟩ := Option.map_eq_some_iff.mp hs
  obtain ⟨y, htake, heq⟩ := Option.map_eq_some_iff.mp hact
  obtain ⟨rfl, -⟩ := Prod.mk.inj heq
  simp only [Function.update_self]
  exact (take_queued (hinv.sound host) (hinv.routers host) htake).2 hnew (fun hown => absurd hown.1 (by decide))

/-- What happens at a host leaves the others as they are. -/
theorem step_other {w w' : Simulation.State} {other : Nat} {action : Action}
    (hs : Simulation.step scn w (.act other ttl action) = some w') (hne : host ≠ other) : w'.envs host = w.envs host := by
  obtain ⟨⟨x', planChanged⟩, hact, rfl⟩ := Option.map_eq_some_iff.mp hs
  exact Function.update_of_ne hne ..

end

/-! Where the messages are. -/

/-- A message was delivered or dropped, or some host has a replica of it in a queue. -/
def Accounted (scn : Scenario) (w : State) (c : Message) : Prop :=
  c.id ∈ w.delivered ∨ c.id ∈ w.dropped ∨ ∃ host, ∃ m ∈ queued (scn.at host) (w.router host), Replicates c m

structure Inv (scn : Scenario) (w : State) : Prop where
  sim : Invariant scn w.sim
  distinct : (w.created.map Message.id).Nodup
  accounted : ∀ c ∈ w.created, Accounted scn w c

variable {scn : Scenario} {w w' : State} {c m : Message}

theorem Inv.eq_of_id (h : Inv scn w) {c' : Message} (hc : c ∈ w.created) (hc' : c' ∈ w.created) (hid : c.id = c'.id) :
    c = c' := List.inj_on_of_nodup_map h.distinct hc hc' hid

/-- What stays queued stays accounted for. -/
theorem Accounted.mono (h : Accounted scn w c) (hdelivered : w.delivered ⊆ w'.delivered) (hdropped : w.dropped ⊆ w'.dropped)
    (hqueued : ∀ host, ∀ m ∈ queued (scn.at host) (w.router host), m.id = c.id → m ∈ queued (scn.at host) (w'.router host)) :
    Accounted scn w' c := by
  rcases h with hd | hd | ⟨host, m, hm, hreplicates⟩
  · exact Or.inl (hdelivered hd)
  · exact Or.inr (Or.inl (hdropped hd))
  · exact Or.inr (Or.inr ⟨host, m, hqueued host m hm hreplicates.1.symm, hreplicates⟩)

/-- Events of the simulation that take nothing out of the queues. -/
theorem Inv.quiet (h : Inv scn w) {e : Simulation.Event} {sim : Simulation.State}
    (hs : Simulation.step scn w.sim e = some sim)
    (hleaves : ∀ host id, Leaves host id e) : Inv scn { w with sim := sim } where
  sim := h.sim.step hs
  distinct := h.distinct
  accounted c hc := (h.accounted c hc).mono (List.Subset.refl _) (List.Subset.refl _)
    (fun host m hm _ => step_queued h.sim hs hm (hleaves host m.id))

theorem Inv.create {host : Nat} {ttl : Message → Int} (h : Inv scn w)
    (hs : step scn w (.createNewMessage host ttl m) = some w') : Inv scn w' := by
  rw [step] at hs
  split at hs
  · cases hs
  rename_i hfresh
  obtain ⟨hnone, hheld⟩ := not_or.mp hfresh
  obtain ⟨sim, hsim, rfl⟩ := Option.map_eq_some_iff.mp hs
  have hdistinct : ((m :: w.created).map Message.id).Nodup := by
    rw [List.map_cons, List.nodup_cons]
    exact ⟨fun hin => hnone (List.exists_of_mem_map hin), h.distinct⟩
  refine ⟨h.sim.step hsim, hdistinct, ?_⟩
  intro c hc
  cases List.mem_cons.mp hc with
  | inl heq =>
    subst heq
    by_cases hown : c.toHost = host
    · exact Or.inl (by simp [hown])
    · rw [Bool.not_eq_true, Option.isSome_eq_false_iff, Option.isNone_iff_eq_none] at hheld
      exact Or.inr (Or.inr ⟨host, c, create_queued h.sim hsim hheld hown, rfl, rfl, rfl, rfl⟩)
  | inr hc =>
    refine (h.accounted c hc).mono ?_ (List.Subset.refl _) ?_
    · dsimp only
      split
      · exact List.subset_cons_self _ _
      · exact List.Subset.refl _
    · exact fun host m hm _ => step_queued h.sim hsim hm (fun ttl => ⟨by simp, by simp⟩)

/-- The sender's replica goes, and the receiver's comes, or the message is delivered. -/
theorem Inv.transfer {sender receiver : Nat} {ttl : Message → Int} {outductRef forwardTimelimit : Int} (h : Inv scn w)
    (hs : step scn w (.transfer sender receiver ttl m outductRef forwardTimelimit) = some w') : Inv scn w' := by
  rw [step] at hs
  split at hs
  swap
  · cases hs
  rename_i hguard
  obtain ⟨hne, ⟨c₀, hc₀, hreplicates⟩, hnew⟩ := hguard
  obtain ⟨sim, hsim, hs⟩ := Option.bind_eq_some_iff.mp hs
  have hinv := h.sim.step hsim
  have hsent : ∀ c ∈ w.created, c.id ≠ m.id → ∀ host, ∀ a ∈ queued (scn.at host) (w.router host), a.id = c.id →
      a ∈ queued (scn.at host) (sim.envs host).router := by
    intro c _ hcm host a ha hac
    have hid : m.id ≠ a.id := fun he => hcm (hac.symm.trans he.symm)
    exact step_queued h.sim hsim ha (fun ttl' => ⟨by simp [hid], by simp⟩)
  split at hs
  · obtain rfl := Option.some.inj hs
    refine ⟨hinv, h.distinct, ?_⟩
    intro c hc
    by_cases hid : c.id = m.id
    · exact Or.inl (by simp [hid])
    · exact (h.accounted c hc).mono (List.subset_cons_self _ _) (List.Subset.refl _) (hsent c hc hid)
  · obtain ⟨sim', hsim', rfl⟩ := Option.map_eq_some_iff.mp hs
    refine ⟨hinv.step hsim', h.distinct, ?_⟩
    intro c hc
    by_cases hid : c.id = m.id
    · obtain rfl := h.eq_of_id hc hc₀ (hid.trans hreplicates.1.symm)
      have hheld : (sim.envs receiver).router.messages m.id = none := by
        rw [step_other hsim (Ne.symm hne)]
        exact Option.isNone_iff_eq_none.mp hnew
      exact Or.inr (Or.inr ⟨receiver, m, receive_queued hinv hsim' hheld, hreplicates⟩)
    · refine (h.accounted c hc).mono (List.Subset.refl _) (List.Subset.refl _) ?_
      intro host a ha hac
      exact step_queued hinv hsim' (hsent c hc hid host a ha hac) (fun ttl' => ⟨by simp, by simp⟩)

theorem Inv.drop {host : Nat} {id : String} (h : Inv scn w) (hs : step scn w (.drop host id) = some w') : Inv scn w' := by
  rw [step] at hs
  obtain ⟨sim, hsim, rfl⟩ := Option.map_eq_some_iff.mp hs
  refine ⟨h.sim.step hsim, h.distinct, ?_⟩
  intro c hc
  by_cases hid : c.id = id
  · exact Or.inr (Or.inl (by simp [hid]))
  · refine (h.accounted c hc).mono (List.Subset.refl _) (List.subset_cons_self _ _) ?_
    intro other a ha hac
    have hne : id ≠ a.id := fun he => hid (hac.symm.trans he.symm)
    exact step_queued h.sim hsim ha (fun ttl' => ⟨by simp, by simp [hne]⟩)

theorem Inv.step {e : Event} (h : Inv scn w) (hs : step scn w e = some w') : Inv scn w' := by
  cases e with
  | wait seconds =>
    rw [Network.step] at hs
    obtain ⟨sim, hsim, rfl⟩ := Option.map_eq_some_iff.mp hs
    exact h.quiet hsim (fun host id ttl => ⟨by simp, by simp⟩)
  | init host =>
    rw [Network.step] at hs
    obtain ⟨sim, hsim, rfl⟩ := Option.map_eq_some_iff.mp hs
    exact h.quiet hsim (fun host id ttl => ⟨by simp, by simp⟩)
  | plan host call =>
    rw [Network.step] at hs
    obtain ⟨sim, hsim, rfl⟩ := Option.map_eq_some_iff.mp hs
    exact h.quiet hsim (fun host id ttl => ⟨by simp, by simp⟩)
  | update host ttl =>
    rw [Network.step] at hs
    obtain ⟨sim, hsim, rfl⟩ := Option.map_eq_some_iff.mp hs
    exact h.quiet hsim (fun host id ttl => ⟨by simp, by simp⟩)
  | createNewMessage host ttl m => exact h.create hs
  | transfer sender receiver ttl m outductRef forwardTimelimit => exact h.transfer hs
  | drop host id => exact h.drop hs

theorem inv_start (referenceTime : Int) (outductRef forwardTimelimit : Nat → Message → Int) :
    Inv scn (start referenceTime outductRef forwardTimelimit) :=
  ⟨invariant_start referenceTime outductRef forwardTimelimit, List.nodup_nil, fun c hc => by cases hc⟩

/-- No message is lost: whatever happens in the network, a message that was created has been delivered or
dropped by the simulator, or some host has a replica of it in its limbo or in one of its outducts. -/
theorem no_message_lost (scn : Scenario) (referenceTime : Int) (outductRef forwardTimelimit : Nat → Message → Int)
    (events : List Event) (w : State)
    (hrun : Runs.run (step scn) (start referenceTime outductRef forwardTimelimit) events = some w) (c : Message)
    (hc : c ∈ w.created) : c.id ∈ w.delivered ∨ c.id ∈ w.dropped ∨
      ∃ host, ∃ m ∈ queued (scn.at host) (w.router host), Replicates c m := by
  have hinv : Inv scn w :=
    Runs.run_invariant (fun _ _ _ h hs => h.step hs) events _ w (inv_start referenceTime outductRef forwardTimelimit) hrun
  exact hinv.accounted c hc

/-- Host 1 has a plan with a contact to host 3; of two messages one is delivered there, and the
other one is taken by host 2, which has no plan. -/
def twoTransfers : List Event :=
  [.init 1, .init 2, .plan 1 (.readContactPlan none), .plan 1 (.processLine (PlanText.lineText (.range 0 20 1 3 1))),
    .plan 1 (.processLine (PlanText.lineText (.contact 0 20 1 3 100))),
    .createNewMessage 1 (fun _ => 500) (messageTo 1 "M1" 3), .createNewMessage 1 (fun _ => 500) (messageTo 2 "M2" 3),
    .wait 5, .transfer 1 3 (fun _ => 500) (messageTo 3 "M1" 3) 3 20, .update 1 (fun _ => 500),
    .transfer 1 2 (fun _ => 500) (messageTo 4 "M2" 3) 3 20]

theorem no_message_lost_twoTransfers : ∃ w : State,
    Runs.run (step someScenario) (start 0 (fun _ _ => 0) (fun _ _ => 0)) twoTransfers = some w ∧
      w.delivered = ["M1"] ∧ messageTo 2 "M2" 3 ∈ w.created ∧
      ("M2" ∈ w.delivered ∨ "M2" ∈ w.dropped ∨
        ∃ host, ∃ m ∈ queued (someScenario.at host) (w.router host), Replicates (messageTo 2 "M2" 3) m) := by
  have hany : (Runs.run (step someScenario) (start 0 (fun _ _ => 0) (fun _ _ => 0)) twoTransfers).any (fun w =>
      w.delivered == ["M1"] && decide (messageTo 2 "M2" 3 ∈ w.created)) = true := by
    decide +kernel
  obtain ⟨w, hrun, hw⟩ := (Option.any_eq_true _ _).mp hany
  obtain ⟨hdelivered, hcreated⟩ := Bool.and_eq_true_iff.mp hw
  exact ⟨w, hrun, beq_iff_eq.mp hdelivered, of_decide_eq_true hcreated,
    no_message_lost someScenario 0 (fun _ _ => 0) (fun _ _ => 0) twoTransfers w hrun (messageTo 2 "M2" 3)
      (of_decide_eq_true hcreated)⟩

end Network
