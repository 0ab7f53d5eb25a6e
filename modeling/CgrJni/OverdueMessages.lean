import CgrJni.RouterQueues

/-!
Messages whose route has expired. The search for them ends at the first message
with the limit zero, which stands for a message that was not routed yet; the
limits that are computed are those of routes found at the time of the call.
-/

namespace OverdueMessages

open Router RouterQueues

variable (sim : Simulator)

/-- A route that is found leads to a host and does not expire before the time of the call. -/
def FoundAt (now : Int) : Outcome → Prop
  | .stays => True
  | .enqueued forfeitTime nodeNbr => now ≤ forfeitTime ∧ ∃ host ∈ sim.hosts, nodeNbr = (host : Int)

def StepAt (now : Int) : Step → Prop
  | .createNewMessage _ outcome => FoundAt sim now outcome
  | .receive _ _ _ outcome => FoundAt sim now outcome
  | .cgrForward _ outcome => FoundAt sim now outcome
  | .checkExpiredRoutes time outcomes => time = now ∧ ∀ outcome ∈ outcomes, FoundAt sim now outcome
  | .tryRouteForMessageIntoLimbo outcomes => ∀ outcome ∈ outcomes, FoundAt sim now outcome
  | .removeFromMessages _ => True
  | .transferDone _ => True

/-- A router that has run up to a time of the simulation. -/
inductive ReachableAt : Int → ContactGraphRouter → Prop
  | init (outductRef forwardTimelimit : Message → Int) :
    ReachableAt 0 (ContactGraphRouter.init outductRef forwardTimelimit)
  | step {now : Int} {r r' : ContactGraphRouter} {s : Step} :
    ReachableAt now r → StepAt sim now s → Router.step sim r s = some r' → ReachableAt now r'
  | wait {now later : Int} {r : ContactGraphRouter} : ReachableAt now r → now ≤ later → ReachableAt later r

/-- The messages of an outduct whose limit has not passed. -/
def inTime (now : Int) (r : ContactGraphRouter) (host : Nat) : List Message :=
  (r.outducts host).queue.filter (fun m => now ≤ r.forwardTimelimit m)

/-- Nothing in an outduct is overdue, what was not overdue is where it was, and no message
has come or gone. -/
structure Rechecked (now : Int) (r r' : ContactGraphRouter) : Prop where
  in_time : ∀ host ∈ sim.hosts, ∀ m ∈ (r'.outducts host).queue, ¬ r'.forwardTimelimit m < now
  limbo : r.limbo.queue.Sublist r'.limbo.queue
  outduct : ∀ host ∈ sim.hosts, (inTime now r host).Sublist (r'.outducts host).queue
  queued : ∀ m, m ∈ queued sim r' ↔ m ∈ queued sim r

/-- No message of an outduct passes for one that was not routed yet. -/
def NoneUnrouted (r : ContactGraphRouter) : Prop :=
  ∀ host ∈ sim.hosts, ∀ m ∈ (r.outducts host).queue, r.forwardTimelimit m ≠ 0

variable {sim} {now : Int} {r r' r'' : ContactGraphRouter} {m : Message}

/-- Every message of an outduct was there with the same limit, or has been routed since. -/
def RoutedSince (now : Int) (r r' : ContactGraphRouter) : Prop :=
  ∀ host, ∀ m ∈ (r'.outducts host).queue, now ≤ r'.forwardTimelimit m ∨
    m ∈ (r.outducts host).queue ∧ r'.forwardTimelimit m = r.forwardTimelimit m

theorem RoutedSince.refl (now : Int) (r : ContactGraphRouter) : RoutedSince now r r :=
  fun _ _ hm => Or.inr ⟨hm, rfl⟩

theorem RoutedSince.trans (h : RoutedSince now r r') (h' : RoutedSince now r' r'') :
    RoutedSince now r r'' := by
  intro host m hm
  rcases h' host m hm with hlimit | ⟨hm', hlimit⟩
  · exact Or.inl hlimit
  · rcases h host m hm' with hlate | ⟨hold, hsame⟩
    · rw [hlimit]
      exact Or.inl hlate
    · exact Or.inr ⟨hold, hlimit.trans hsame⟩

/-- A message that is overdue afterwards was so before, in the same queue. -/
theorem RoutedSince.overdue (h : RoutedSince now r r') {host : Nat} (hm : m ∈ (r'.outducts host).queue)
    (hlate : r'.forwardTimelimit m < now) :
    m ∈ (r.outducts host).queue ∧ r'.forwardTimelimit m = r.forwardTimelimit m := by
  rcases h host m hm with hlimit | hold
  · omega
  · exact hold

theorem RoutedSince.nonneg (h : RoutedSince now r r') (hnow : 0 ≤ now)
    (hr : ∀ host, ∀ m ∈ (r.outducts host).queue, 0 ≤ r.forwardTimelimit m) :
    ∀ host, ∀ m ∈ (r'.outducts host).queue, 0 ≤ r'.forwardTimelimit m := by
  intro host m hm
  rcases h host m hm with hlimit | ⟨hold, hsame⟩
  · omega
  · rw [hsame]
    exact hr host m hold

/-- A move to a place that is no outduct, or of a message with a late enough limit. -/
theorem RoutedSince.of_moved {n : Int} (hgood : Good sim r) (hmoved : Moved m n r r')
    (hlimits : ∀ a ≠ m, r'.forwardTimelimit a = r.forwardTimelimit a)
    (hlimit : ∀ host : Nat, n = (host : Int) → now ≤ r'.forwardTimelimit m) : RoutedSince now r r' := by
  intro host a ha
  rw [hmoved.outduct, mem_erase_append (hgood.outduct_nodup host)] at ha
  rcases ha with ⟨hne, ha⟩ | ⟨rfl, hn⟩
  · exact Or.inr ⟨ha, hlimits a hne⟩
  · exact Or.inl (hlimit host hn)

theorem found_host {forfeitTime nodeNbr : Int} (h : FoundAt sim now (.enqueued forfeitTime nodeNbr)) :
    now ≤ forfeitTime ∧ ∃ host ∈ sim.hosts, nodeNbr = (host : Int) ∧
      getHostFromNumber sim nodeNbr = some host := by
  obtain ⟨hlimit, host, hhost, rfl⟩ := h
  exact ⟨hlimit, host, hhost, rfl, getHostFromNumber_of_mem hhost⟩

/-- What a call of `cgrForward` for a message in the limbo can do. -/
theorem cgrForward_cases {outcome : Outcome} (hgood : Good sim r) (hm : m ∈ r.limbo.queue)
    (hfound : FoundAt sim now outcome) :
    cgrForward sim r m outcome = some r ∨
    ∃ forfeitTime r', now ≤ forfeitTime ∧ cgrForward sim r m outcome = some r' ∧
      (∃ host ∈ sim.hosts, Moved m host r r') ∧
      r'.forwardTimelimit = Function.update r.forwardTimelimit m forfeitTime := by
  cases outcome with
  | stays => exact Or.inl rfl
  | enqueued forfeitTime nodeNbr =>
    obtain ⟨hlimit, host, hhost, -, hget⟩ := found_host hfound
    have hmoved := moved_to_outduct (hgood.withForfeitTime m forfeitTime) hm host
    refine Or.inr ⟨forfeitTime, insertMessageIntoOutduct sim (updateMessageForfeitTime r m forfeitTime) host m,
      hlimit, ?_, ⟨host, hhost, hmoved.messages, hmoved.known, hmoved.outductRef, hmoved.limbo, hmoved.outduct,
        hmoved.bytes⟩, ?_⟩
    · rw [cgrForward, insertBundleIntoOutduct, hget, Option.map_some]
    · unfold insertMessageIntoOutduct removeMessageFromLimbo
      dsimp only
      split
      · split <;> rfl
      · rfl

theorem routedSince_cgrForward {outcome : Outcome} (hgood : Good sim r) (hm : m ∈ r.limbo.queue)
    (hfound : FoundAt sim now outcome) (hf : cgrForward sim r m outcome = some r') :
    RoutedSince now r r' := by
  rcases cgrForward_cases hgood hm hfound with hstays | ⟨forfeitTime, r₁, hlimit, hr₁, ⟨host, -, hmoved⟩, hlimits⟩
  · rw [hstays] at hf
    exact Option.some.inj hf ▸ RoutedSince.refl now r
  · rw [hr₁] at hf
    obtain rfl := Option.some.inj hf
    refine RoutedSince.of_moved hgood hmoved (fun a hne => ?_) (fun _ _ => ?_) <;> rw [hlimits]
    · exact Function.update_of_ne hne _ _
    · rw [Function.update_self]
      exact hlimit

/-- What rerouting a message does; `K` stands for any part of a queue without it. -/
structure Rerouted (sim : Simulator) (now : Int) (m : Message) (r r' : ContactGraphRouter) : Prop where
  good : Good sim r'
  since : RoutedSince now r r'
  known : r'.known = r.known
  outductRef : ∀ a ≠ m, r'.outductRef a = r.outductRef a
  queued : r'.outductRef m ≠ noneId
  limits : ∀ a ≠ m, r'.forwardTimelimit a = r.forwardTimelimit a
  limit : ∀ host, m ∈ (r'.outducts host).queue → now ≤ r'.forwardTimelimit m
  limbo : ∀ K : List Message, m ∉ K → K.Sublist r.limbo.queue → K.Sublist r'.limbo.queue
  outduct : ∀ host, ∀ K : List Message, m ∉ K → K.Sublist (r.outducts host).queue →
    K.Sublist (r'.outducts host).queue

theorem sublist_erase_append {K l t : List Message} (hK : m ∉ K) (h : K.Sublist l) :
    K.Sublist (l.erase m ++ t) := by
  have herase := h.erase m
  rw [List.erase_of_not_mem hK] at herase
  exact herase.trans (List.sublist_append_left _ _)

/-- A message of an outduct goes to the end of the limbo. -/
theorem rerouted_to_limbo (now : Int) {host : Nat} (hgood : Good sim r) (hm : m ∈ (r.outducts host).queue) :
    ∃ r₂, putMessageIntoLimbo sim (removeMessageFromOutduct sim r host m) m = some r₂ ∧
      m ∈ r₂.limbo.queue ∧ Rerouted sim now m r r₂ := by
  rw [removeMessageFromOutduct_of_mem (hgood.sole (Or.inl (hgood.outduct_held hm))) hm]
  have hout := moved_from_outduct hgood hm
  have hgood₁ := hgood.moved hout (Or.inr (Or.inl rfl)) (Or.inl rfl)
  have hsame : ∀ o, (updateOutductRef { r with outducts := o } m noneId).forwardTimelimit =
    r.forwardTimelimit := fun _ => rfl
  have hlimits := hsame (Function.update r.outducts host
    ⟨(r.outducts host).queue.erase m, (r.outducts host).totalEnqueuedBytes - m.size⟩)
  generalize updateOutductRef _ m noneId = r₁ at hout hgood₁ hlimits ⊢
  have hnone : r₁.outductRef m = noneId := by rw [hout.outductRef, Function.update_self]
  have hin := moved_to_limbo hgood₁ hnone
  have hgood₂ : Good sim (insertMessageIntoLimbo r₁ m) := by
    apply hgood₁.moved hin (Or.inl rfl)
    rw [hout.known, hout.messages]
    exact Or.inr ⟨((hgood.outduct host m).mp hm).1, hgood.outduct_held hm⟩
  have href : (insertMessageIntoLimbo r₁ m).outductRef m = limboId := by rw [hin.outductRef, Function.update_self]
  refine ⟨insertMessageIntoLimbo r₁ m, ?_, ?_, ?_⟩
  · rw [putMessageIntoLimbo, hnone, if_neg (by decide)]
  · rw [hin.limbo, if_pos rfl]
    exact List.mem_append_right _ (List.mem_singleton.mpr rfl)
  · constructor
    · exact hgood₂
    · have hsince : RoutedSince now r r₁ := RoutedSince.of_moved hgood hout (fun a _ => by rw [hlimits])
        (fun other hn => absurd hn.symm (natCast_ne_noneId other))
      exact hsince.trans (RoutedSince.of_moved hgood₁ hin (fun _ _ => rfl)
        (fun other hn => absurd hn.symm (natCast_ne_limboId other)))
    · exact hin.known.trans hout.known
    · intro a hne
      rw [hin.outductRef, Function.update_of_ne hne, hout.outductRef, Function.update_of_ne hne]
    · rw [href]
      exact noneId_ne_limboId.symm
    · intro a _
      exact congrFun hlimits a
    · intro other hother
      exact absurd hother (hgood₂.notMem_outduct href (natCast_ne_limboId other).symm)
    · intro K hK hsub
      rw [hin.limbo, hout.limbo]
      exact sublist_erase_append hK (sublist_erase_append hK hsub)
    · intro other K hK hsub
      rw [hin.outduct, hout.outduct]
      exact sublist_erase_append hK (sublist_erase_append hK hsub)

/-- From the limbo the message goes on to an outduct. -/
theorem Rerouted.enqueued {host : Nat} (h : Rerouted sim now m r r') (hhost : host ∈ sim.hosts)
    (hm : m ∈ r'.limbo.queue) (hmoved : Moved m host r' r'')
    (hlimits : ∀ a ≠ m, r''.forwardTimelimit a = r'.forwardTimelimit a)
    (hlimit : now ≤ r''.forwardTimelimit m) : Rerouted sim now m r r'' where
  good := h.good.moved hmoved (Or.inr (Or.inr ⟨host, hhost, rfl⟩))
    (Or.inr ⟨((h.good.limbo m).mp hm).1, h.good.limbo_held hm⟩)
  since := h.since.trans (RoutedSince.of_moved h.good hmoved hlimits (fun _ _ => hlimit))
  known := hmoved.known.trans h.known
  outductRef a hne := by
    rw [hmoved.outductRef, Function.update_of_ne hne]
    exact h.outductRef a hne
  queued := by
    rw [hmoved.outductRef, Function.update_self]
    exact natCast_ne_noneId host
  limits a hne := (hlimits a hne).trans (h.limits a hne)
  limit _ _ := hlimit
  limbo K hK hsub := by
    rw [hmoved.limbo]
    exact sublist_erase_append hK (h.limbo K hK hsub)
  outduct other K hK hsub := by
    rw [hmoved.outduct]
    exact sublist_erase_append hK (h.outduct other K hK hsub)

theorem reroute_rerouted {x : Rerouting} {host : Nat} (hgood : Good sim x.router)
    (hfound : ∀ outcome ∈ x.outcomes, FoundAt sim now outcome) (hm : m ∈ (x.router.outducts host).queue) :
    ∃ x', reroute sim host x m = some x' ∧ (∀ outcome ∈ x'.outcomes, FoundAt sim now outcome) ∧
      Rerouted sim now m x.router x'.router := by
  obtain ⟨r₂, hput, hlimbo, hr₂⟩ := rerouted_to_limbo now hgood hm
  rw [reroute, hput, Option.bind_some, Rerouting.cgrForward]
  cases hout : x.outcomes with
  | nil => exact ⟨⟨r₂, []⟩, rfl, fun outcome ho => absurd ho List.not_mem_nil, hr₂⟩
  | cons outcome rest =>
    rw [hout] at hfound
    have hrest : ∀ outcome ∈ rest, FoundAt sim now outcome := fun o ho => hfound o (List.mem_cons_of_mem _ ho)
    dsimp only
    rcases cgrForward_cases hr₂.good hlimbo (hfound outcome List.mem_cons_self) with
      hf | ⟨forfeitTime, r₃, hlimit, hf, ⟨other, hother, hmoved⟩, hlimits⟩ <;> rw [hf, Option.map_some]
    · exact ⟨⟨r₂, rest⟩, rfl, hrest, hr₂⟩
    · refine ⟨⟨r₃, rest⟩, rfl, hrest, hr₂.enqueued hother hlimbo hmoved (fun a hne => ?_) ?_⟩ <;> rw [hlimits]
      · exact Function.update_of_ne hne _ _
      · rw [Function.update_self]
        exact hlimit

/-- A router on the way from `r`: what was not overdue in `r` is where it was and in time
still, and no message has come or gone. -/
structure OnTheWay (sim : Simulator) (now : Int) (r : ContactGraphRouter) (x : Rerouting) : Prop where
  good : Good sim x.router
  found : ∀ outcome ∈ x.outcomes, FoundAt sim now outcome
  since : RoutedSince now r x.router
  limbo : r.limbo.queue.Sublist x.router.limbo.queue
  outduct : ∀ host, (inTime now r host).Sublist (x.router.outducts host).queue
  limits : ∀ host, ∀ m ∈ inTime now r host, now ≤ x.router.forwardTimelimit m
  queued : ∀ m, m ∈ RouterQueues.queued sim x.router ↔ m ∈ RouterQueues.queued sim r

theorem onTheWay_start {outcomes : List Outcome} (hgood : Good sim r)
    (hfound : ∀ outcome ∈ outcomes, FoundAt sim now outcome) : OnTheWay sim now r ⟨r, outcomes⟩ where
  good := hgood
  found := hfound
  since := RoutedSince.refl now r
  limbo := List.Sublist.refl _
  outduct _ := List.filter_sublist
  limits _ _ hm := of_decide_eq_true (List.mem_filter.mp hm).2
  queued _ := Iff.rfl

theorem mem_queued_iff (h : Good sim r) : m ∈ queued sim r ↔ m ∈ r.known ∧ r.outductRef m ≠ noneId := by
  constructor
  · intro hm
    have hknown := h.consistent.known m hm
    exact ⟨hknown, fun hnone => (h.consistent.nowhere m hknown).mp hnone hm⟩
  · rintro ⟨hknown, hne⟩
    by_contra hm
    exact hne ((h.consistent.nowhere m hknown).mpr hm)

/-- Rerouting an overdue message is a step on the way. -/
theorem OnTheWay.step {x x' : Rerouting} {host : Nat} (h : OnTheWay sim now r x)
    (hm : m ∈ (x.router.outducts host).queue) (hlate : x.router.forwardTimelimit m < now)
    (hfound : ∀ outcome ∈ x'.outcomes, FoundAt sim now outcome)
    (hr : Rerouted sim now m x.router x'.router) : OnTheWay sim now r x' := by
  have hnotin : ∀ other, m ∉ inTime now r other := by
    intro other hin
    have hlimit := h.limits other m hin
    omega
  obtain ⟨hknown, href⟩ := (h.good.outduct host m).mp hm
  have hlimbo : m ∉ r.limbo.queue := fun hl =>
    h.good.notMem_limbo href (natCast_ne_limboId host) (h.limbo.subset hl)
  refine ⟨hr.good, hfound, h.since.trans hr.since, hr.limbo _ hlimbo h.limbo,
    fun other => hr.outduct other _ (hnotin other) (h.outduct other), fun other a ha => ?_, fun a => ?_⟩
  · have hne : a ≠ m := fun he => hnotin other (he ▸ ha)
    rw [hr.limits a hne]
    exact h.limits other a ha
  · rw [← h.queued, mem_queued_iff hr.good, mem_queued_iff h.good, hr.known]
    by_cases hne : a = m
    · rw [hne, href]
      simp [hknown, hr.queued, natCast_ne_noneId]
    · rw [hr.outductRef a hne]

/-- Messages of an outduct other than the one rerouted stay in it. -/
theorem Rerouted.stays {a : Message} {host : Nat} (h : Rerouted sim now m r r') (hgood : Good sim r)
    (hne : a ≠ m) (ha : a ∈ (r.outducts host).queue) : a ∈ (r'.outducts host).queue := by
  rw [h.good.outduct, h.known, h.outductRef a hne, ← hgood.outduct]
  exact ha

/-- All messages of an outduct that are overdue are rerouted, and nothing else is. -/
theorem rerouteAll {host : Nat} (expired : List Message) (x : Rerouting) (h : OnTheWay sim now r x)
    (hnodup : expired.Nodup)
    (hexpired : ∀ m ∈ expired, m ∈ (x.router.outducts host).queue ∧ x.router.forwardTimelimit m < now) :
    ∃ y, Runs.run (reroute sim host) x expired = some y ∧ OnTheWay sim now r y ∧
      RoutedSince now x.router y.router ∧
      (∀ m ∈ expired, ∀ other, m ∈ (y.router.outducts other).queue → now ≤ y.router.forwardTimelimit m) ∧
      ∀ a ∉ expired, y.router.forwardTimelimit a = x.router.forwardTimelimit a ∧
        ∀ other, a ∈ (x.router.outducts other).queue → a ∈ (y.router.outducts other).queue := by
  induction expired generalizing x with
  | nil => exact ⟨x, rfl, h, RoutedSince.refl now _, fun m hm => absurd hm List.not_mem_nil, fun a _ => ⟨rfl, fun _ ha => ha⟩⟩
  | cons m rest ih =>
    obtain ⟨hm, hlate⟩ := hexpired m List.mem_cons_self
    obtain ⟨hno, hnodup'⟩ := List.nodup_cons.mp hnodup
    obtain ⟨x', hx', hfound, hr⟩ := reroute_rerouted h.good h.found hm
    have hrest : ∀ a ∈ rest, a ∈ (x'.router.outducts host).queue ∧ x'.router.forwardTimelimit a < now := by
      intro a ha
      have hne : a ≠ m := fun he => hno (he ▸ ha)
      obtain ⟨hq, hl⟩ := hexpired a (List.mem_cons_of_mem _ ha)
      exact ⟨hr.stays h.good hne hq, by rw [hr.limits a hne]; exact hl⟩
    obtain ⟨y, hy, hway, hsince, hdone, hsame⟩ := ih x' (h.step hm hlate hfound hr) hnodup' hrest
    refine ⟨y, ?_, hway, hr.since.trans hsince, ?_, ?_⟩
    · rw [Runs.run_cons, hx', Option.bind_some]
      exact hy
    · intro a ha other hq
      cases List.mem_cons.mp ha with
      | inl he =>
        rcases hsince other a hq with hlimit | ⟨hq', hl⟩
        · exact hlimit
        · rw [hl, he]
          exact hr.limit other (he ▸ hq')
      | inr ha => exact hdone a ha other hq
    · intro a ha
      rw [List.mem_cons, not_or] at ha
      obtain ⟨hne, ha'⟩ := ha
      obtain ⟨hl, hq⟩ := hsame a ha'
      exact ⟨hl.trans (hr.limits a hne), fun other hin => hq other (hr.stays h.good hne hin)⟩

def overdue (now : Int) (r : ContactGraphRouter) (host : Nat) : List Message :=
  (r.outducts host).queue.filter (fun m => r.forwardTimelimit m < now)

/-- The pass over one outduct. -/
theorem rerouteOverdue {x : Rerouting} (h : OnTheWay sim now r x) (host : Nat) :
    ∃ y, Runs.run (reroute sim host) x (overdue now x.router host) = some y ∧ OnTheWay sim now r y ∧
      RoutedSince now x.router y.router ∧
      (∀ m ∈ (y.router.outducts host).queue, now ≤ y.router.forwardTimelimit m) ∧
      ∀ a ∉ overdue now x.router host, y.router.forwardTimelimit a = x.router.forwardTimelimit a ∧
        ∀ other, a ∈ (x.router.outducts other).queue → a ∈ (y.router.outducts other).queue := by
  obtain ⟨y, hy, hway, hsince, hdone, hsame⟩ := rerouteAll (overdue now x.router host) x h
    ((h.good.outduct_nodup host).filter _)
    (fun m hm => ⟨(List.mem_filter.mp hm).1, of_decide_eq_true (List.mem_filter.mp hm).2⟩)
  refine ⟨y, hy, hway, hsince, fun m hm => ?_, hsame⟩
  rcases hsince host m hm with hlimit | ⟨hold, hl⟩
  · exact hlimit
  · by_contra hlate
    have hin : m ∈ overdue now x.router host := by
      rw [overdue, List.mem_filter, decide_eq_true_eq]
      refine ⟨hold, ?_⟩
      omega
    exact hlate (hdone m hin host hm)

theorem checkOutducts_cons (sim : Simulator) (now : Int) (x : Rerouting) (host : Nat) (rest : List Nat) :
    ((∃ m ∈ (x.router.outducts host).queue, x.router.forwardTimelimit m = 0) ∧
      checkOutducts sim now (host :: rest) x = some x) ∨
    ((∀ m ∈ (x.router.outducts host).queue, x.router.forwardTimelimit m ≠ 0) ∧
      checkOutducts sim now (host :: rest) x =
        (Runs.run (reroute sim host) x (overdue now x.router host)).bind (checkOutducts sim now rest)) := by
  rw [checkOutducts]
  split
  · rename_i hany
    obtain ⟨m, hm, hzero⟩ := List.any_eq_true.mp hany
    exact Or.inl ⟨⟨m, hm, of_decide_eq_true hzero⟩, rfl⟩
  · rename_i hany
    refine Or.inr ⟨fun m hm hzero => ?_, rfl⟩
    exact hany (List.any_eq_true.mpr ⟨m, hm, decide_eq_true hzero⟩)

/-- The search comes to an end without an exception, wherever it stops. -/
theorem checkOutducts_ends (hosts : List Nat) (x : Rerouting) (h : OnTheWay sim now r x) :
    ∃ y, checkOutducts sim now hosts x = some y ∧ OnTheWay sim now r y ∧ RoutedSince now x.router y.router := by
  induction hosts generalizing x with
  | nil => exact ⟨x, rfl, h, RoutedSince.refl now _⟩
  | cons host rest ih =>
    rcases checkOutducts_cons sim now x host rest with ⟨-, hstop⟩ | ⟨-, hgo⟩
    · exact ⟨x, hstop, h, RoutedSince.refl now _⟩
    · obtain ⟨y, hy, hway, hsince, -⟩ := rerouteOverdue h host
      obtain ⟨z, hz, hway', hsince'⟩ := ih y hway
      rw [hgo, hy, Option.bind_some]
      exact ⟨z, hz, hway', hsince.trans hsince'⟩

theorem NoneUnrouted.since (h : NoneUnrouted sim r) (hnow : 0 < now) (hsince : RoutedSince now r r') :
    NoneUnrouted sim r' := by
  intro host hhost m hm
  rcases hsince host m hm with hlimit | ⟨hold, hl⟩
  · omega
  · rw [hl]
    exact h host hhost m hold

/-- Where no message passes for one that was not routed yet, no outduct is left out. -/
theorem checkOutducts_complete (hnow : 0 < now) (hosts : List Nat) (hhosts : hosts ⊆ sim.hosts) (x y : Rerouting)
    (h : OnTheWay sim now r x) (hrouted : NoneUnrouted sim x.router)
    (hy : checkOutducts sim now hosts x = some y) :
    ∀ host ∈ hosts, ∀ m ∈ (y.router.outducts host).queue, ¬ y.router.forwardTimelimit m < now := by
  induction hosts generalizing x with
  | nil => exact fun host hhost => absurd hhost List.not_mem_nil
  | cons host rest ih =>
    obtain ⟨hhost, hrest⟩ := List.cons_subset.mp hhosts
    rcases checkOutducts_cons sim now x host rest with ⟨⟨m, hm, hzero⟩, -⟩ | ⟨-, hgo⟩
    · exact absurd hzero (hrouted host hhost m hm)
    · obtain ⟨u, hu, hway, hsince, hdone, -⟩ := rerouteOverdue h host
      rw [hgo, hu, Option.bind_some] at hy
      intro other hother m hm hlate
      cases List.mem_cons.mp hother with
      | inl he =>
        obtain ⟨z, hz, -, hsince'⟩ := checkOutducts_ends rest u hway
        rw [hy] at hz
        obtain rfl := Option.some.inj hz
        obtain ⟨hold, hl⟩ := hsince'.overdue hm hlate
        have hlimit := hdone m (he ▸ hold)
        omega
      | inr hother => exact ih hrest u hway (hrouted.since hnow hsince) hy other hother m hm hlate

/-- A message that passes for one that was not routed yet stays where it is. -/
theorem checkOutducts_unrouted (hosts : List Nat) (x y : Rerouting) (h : OnTheWay sim now r x) {host : Nat}
    (hhost : host ∈ hosts) (hm : m ∈ (x.router.outducts host).queue) (hzero : x.router.forwardTimelimit m = 0)
    (hy : checkOutducts sim now hosts x = some y) :
    m ∈ (y.router.outducts host).queue ∧ y.router.forwardTimelimit m = 0 := by
  induction hosts generalizing x with
  | nil => exact absurd hhost List.not_mem_nil
  | cons first rest ih =>
    rcases checkOutducts_cons sim now x first rest with ⟨-, hstop⟩ | ⟨hrouted, hgo⟩
    · rw [hstop] at hy
      exact Option.some.inj hy ▸ ⟨hm, hzero⟩
    · have hne : host ≠ first := fun he => hrouted m (he ▸ hm) hzero
      have hnot : m ∉ overdue now x.router first :=
        fun hin => hrouted m (List.mem_filter.mp hin).1 hzero
      obtain ⟨u, hu, hway, -, -, hsame⟩ := rerouteOverdue h first
      obtain ⟨hl, hq⟩ := hsame m hnot
      rw [hgo, hu, Option.bind_some] at hy
      exact ih u hway ((List.mem_cons.mp hhost).resolve_left hne) (hq host hm) (hl.trans hzero) hy

theorem rerouting_found {x x' : Rerouting} (hfound : ∀ outcome ∈ x.outcomes, FoundAt sim now outcome)
    (hf : x.cgrForward sim m = some x') : ∃ outcome, cgrForward sim x.router m outcome = some x'.router ∧
      FoundAt sim now outcome ∧ ∀ outcome ∈ x'.outcomes, FoundAt sim now outcome := by
  unfold Rerouting.cgrForward at hf
  split at hf
  · obtain rfl := Option.some.inj hf
    exact ⟨.stays, rfl, trivial, hfound⟩
  · rename_i outcome rest hout
    obtain ⟨r, hr, rfl⟩ := Option.map_eq_some_iff.mp hf
    rw [hout] at hfound
    exact ⟨outcome, hr, hfound outcome List.mem_cons_self, fun o ho => hfound o (List.mem_cons_of_mem _ ho)⟩

/-- Outducts that have gained nothing, with limits that are as they were for what is in them. -/
theorem RoutedSince.of_subset (hqueues : ∀ host, (r'.outducts host).queue ⊆ (r.outducts host).queue)
    (hlimits : ∀ host, ∀ m ∈ (r.outducts host).queue, r'.forwardTimelimit m = r.forwardTimelimit m) :
    RoutedSince now r r' :=
  fun host m hm => Or.inr ⟨hqueues host hm, hlimits host m (hqueues host hm)⟩

theorem routedSince_addToMessages {outductRef forwardTimelimit : Int} {newMessage : Bool} {outcome : Outcome}
    (hgood : Good sim r) (hnew : r.messages m.id = none) (hfound : FoundAt sim now outcome)
    (ha : addToMessages sim (updateOutductRef (updateMessageForfeitTime r m forwardTimelimit) m outductRef) m
      newMessage outcome = some r') : RoutedSince now r r' := by
  have hlimits : ∀ host, ∀ a ∈ (r.outducts host).queue,
      Function.update r.forwardTimelimit m forwardTimelimit a = r.forwardTimelimit a := by
    intro host a ha
    have hne : a ≠ m := fun he => hgood.new_notMem_outduct hnew (he ▸ ha)
    exact Function.update_of_ne hne _ _
  rcases addToMessages_cases hgood hnew ha with ⟨-, rfl⟩ | ⟨r₂, hgood₂, hm, houtducts, hlimit, hf⟩
  · exact RoutedSince.of_subset (fun host => List.Subset.refl _) hlimits
  · refine RoutedSince.trans (RoutedSince.of_subset ?_ ?_) (routedSince_cgrForward hgood₂ hm hfound hf)
    · rw [houtducts]
      exact fun host => List.Subset.refl _
    · rw [hlimit]
      exact hlimits

theorem routedSince_tryRoutes (queue : List Message) (x x' : Rerouting) (hgood : Good sim x.router)
    (hfound : ∀ outcome ∈ x.outcomes, FoundAt sim now outcome) (hnodup : queue.Nodup)
    (hqueue : ∀ m ∈ queue, m ∈ x.router.limbo.queue)
    (hrun : Runs.run (Rerouting.cgrForward sim) x queue = some x') : RoutedSince now x.router x'.router := by
  induction queue generalizing x with
  | nil => exact Option.some.inj hrun ▸ RoutedSince.refl now _
  | cons m rest ih =>
    rw [Runs.run_cons, Option.bind_eq_some_iff] at hrun
    obtain ⟨y, hy, hrest⟩ := hrun
    have hm := hqueue m List.mem_cons_self
    obtain ⟨hno, hnodup'⟩ := List.nodup_cons.mp hnodup
    obtain ⟨outcome, hf, hat, hfound'⟩ := rerouting_found hfound hy
    have hgood' := good_cgrForward hgood hm hf
    refine (routedSince_cgrForward hgood hm hat hf).trans (ih y hgood' hfound' hnodup' (fun a ha => ?_) hrest)
    have hne : a ≠ m := fun he => hno (he ▸ ha)
    obtain ⟨hknown, -, href⟩ := cgrForward_frame hgood hm hne hf
    rw [hgood'.limbo, hknown, href, ← hgood.limbo]
    exact hqueue a (List.mem_cons_of_mem _ ha)

theorem removeMessageFromOutduct_subset (r : ContactGraphRouter) (host : Nat) (m : Message) (other : Nat) :
    ((removeMessageFromOutduct sim r host m).outducts other).queue ⊆ (r.outducts other).queue := by
  unfold removeMessageFromOutduct Outduct.removeMessage
  split
  · exact List.Subset.refl _
  · rename_i o ho
    split at ho
    · obtain rfl := Option.some.inj ho
      simp only [updateOutductRef]
      by_cases he : other = host
      · rw [he, Function.update_self]
        exact List.eraseP_subset
      · rw [Function.update_of_ne he]
        exact List.Subset.refl _
    · cases ho

theorem routedSince_removeFromOutducts (id : String) (hr : removeFromOutducts sim r id = some r') :
    RoutedSince now r r' := by
  unfold removeFromOutducts at hr
  split at hr
  · exact Option.some.inj hr ▸ RoutedSince.refl now r
  · split at hr
    · rw [← Option.some.inj hr]
      split
      · exact RoutedSince.refl now r
      · exact RoutedSince.of_subset (fun _ => List.Subset.refl _) (fun _ _ _ => rfl)
    · split at hr
      · exact Option.some.inj hr ▸ RoutedSince.refl now r
      · obtain ⟨host, -, rfl⟩ := Option.map_eq_some_iff.mp hr
        refine RoutedSince.of_subset (removeMessageFromOutduct_subset r host _) (fun _ _ _ => ?_)
        unfold removeMessageFromOutduct
        split <;> rfl

theorem routedSince_step {s : Step} (hgood : Good sim r) (hat : StepAt sim now s) (hs : step sim r s = some r') :
    RoutedSince now r r' := by
  cases s with
  | createNewMessage m outcome =>
    rw [step] at hs
    split at hs
    · exact Option.some.inj hs ▸ RoutedSince.refl now r
    · rename_i hheld
      exact routedSince_addToMessages hgood (Option.not_isSome_iff_eq_none.mp hheld) hat hs
  | receive m outductRef forwardTimelimit outcome =>
    rw [step] at hs
    split at hs
    · exact Option.some.inj hs ▸ RoutedSince.refl now r
    · rename_i hheld
      exact routedSince_addToMessages hgood (Option.not_isSome_iff_eq_none.mp hheld) hat hs
  | cgrForward m outcome =>
    rw [step] at hs
    split at hs
    · rename_i hm
      exact routedSince_cgrForward hgood hm hat hs
    · cases hs
  | checkExpiredRoutes time outcomes =>
    obtain ⟨rfl, hfound⟩ := hat
    obtain ⟨x', hx, rfl⟩ := Option.map_eq_some_iff.mp hs
    obtain ⟨y, hy, -, hsince⟩ := checkOutducts_ends sim.hosts ⟨r, outcomes⟩ (onTheWay_start hgood hfound)
    rw [checkExpiredRoutes, hy] at hx
    exact Option.some.inj hx ▸ hsince
  | tryRouteForMessageIntoLimbo outcomes =>
    obtain ⟨x', hx, rfl⟩ := Option.map_eq_some_iff.mp hs
    exact routedSince_tryRoutes r.limbo.queue ⟨r, outcomes⟩ x' hgood hat hgood.limbo_nodup (fun m hm => hm) hx
  | removeFromMessages id =>
    obtain ⟨r₁, hr₁, rfl⟩ := Option.map_eq_some_iff.mp hs
    have hsince : RoutedSince now r r₁ := routedSince_removeFromOutducts id hr₁
    exact hsince
  | transferDone id => exact routedSince_removeFromOutducts id hs

/-- In a router that has run, no limit of a queued message is negative. -/
theorem ReachableAt.sound (h : ReachableAt sim now r) :
    0 ≤ now ∧ Good sim r ∧ ∀ host, ∀ m ∈ (r.outducts host).queue, 0 ≤ r.forwardTimelimit m := by
  induction h with
  | init outductRef forwardTimelimit =>
    exact ⟨le_refl 0, good_init outductRef forwardTimelimit, fun host m hm => absurd hm List.not_mem_nil⟩
  | step _ hat hs ih =>
    obtain ⟨hnow, hgood, hlimits⟩ := ih
    exact ⟨hnow, good_step hgood hs, (routedSince_step hgood hat hs).nonneg hnow hlimits⟩
  | wait _ hlater ih => exact ⟨ih.1.trans hlater, ih.2⟩

/-- At time zero nothing is overdue, and nothing is done. -/
theorem checkOutducts_zero (hosts : List Nat) (x : Rerouting)
    (hlimits : ∀ host, ∀ m ∈ (x.router.outducts host).queue, 0 ≤ x.router.forwardTimelimit m) :
    checkOutducts sim 0 hosts x = some x := by
  induction hosts with
  | nil => rfl
  | cons host rest ih =>
    rcases checkOutducts_cons sim 0 x host rest with ⟨-, hstop⟩ | ⟨-, hgo⟩
    · exact hstop
    · have hnone : overdue 0 x.router host = [] := by
        rw [overdue, List.filter_eq_nil_iff]
        intro m hm
        rw [decide_eq_true_eq, not_lt]
        exact hlimits host m hm
      rw [hgo, hnone, Runs.run_nil, Option.bind_some]
      exact ih

theorem OnTheWay.rechecked {x : Rerouting} (h : OnTheWay sim now r x)
    (hdone : ∀ host ∈ sim.hosts, ∀ m ∈ (x.router.outducts host).queue, ¬ x.router.forwardTimelimit m < now) :
    Rechecked sim now r x.router :=
  ⟨hdone, h.limbo, fun host _ => h.outduct host, h.queued⟩

/-- The check leaves no message overdue at time zero, and later where no message of an outduct
passes for one that was not routed yet. -/
theorem checkExpiredRoutes_iff (h : ReachableAt sim now r) {outcomes : List Outcome}
    (hfound : ∀ outcome ∈ outcomes, FoundAt sim now outcome) :
    (∃ x, checkExpiredRoutes sim now ⟨r, outcomes⟩ = some x ∧ Rechecked sim now r x.router) ↔
      now = 0 ∨ NoneUnrouted sim r := by
  obtain ⟨hnow, hgood, hlimits⟩ := h.sound
  have hstart := onTheWay_start hgood hfound
  rw [checkExpiredRoutes]
  constructor
  · rintro ⟨x, hx, hrechecked⟩
    by_cases hzero : now = 0
    · exact Or.inl hzero
    · refine Or.inr (fun host hhost m hm hunrouted => ?_)
      obtain ⟨hm', hl⟩ := checkOutducts_unrouted sim.hosts ⟨r, outcomes⟩ x hstart hhost hm hunrouted hx
      have hlate := hrechecked.in_time host hhost m hm'
      omega
  · intro hwhen
    by_cases hzero : now = 0
    · subst hzero
      exact ⟨_, checkOutducts_zero sim.hosts ⟨r, outcomes⟩ hlimits,
        hstart.rechecked (fun host _ m hm => not_lt.mpr (hlimits host m hm))⟩
    · obtain ⟨x, hx, hway, -⟩ := checkOutducts_ends sim.hosts ⟨r, outcomes⟩ hstart
      exact ⟨x, hx, hway.rechecked (checkOutducts_complete (by omega) sim.hosts (List.Subset.refl _) _ x hstart
        (hwhen.resolve_left hzero) hx)⟩

/-- Several steps at one time. -/
theorem ReachableAt.run (steps : List Step) (h : ReachableAt sim now r) (hat : ∀ s ∈ steps, StepAt sim now s)
    (hrun : Runs.run (Router.step sim) r steps = some r') : ReachableAt sim now r' := by
  induction steps generalizing r with
  | nil => exact Option.some.inj hrun ▸ h
  | cons s rest ih =>
    rw [Runs.run_cons, Option.bind_eq_some_iff] at hrun
    obtain ⟨u, hu, hrest⟩ := hrun
    exact ih (h.step (hat s List.mem_cons_self) hu) (fun s hs => hat s (List.mem_cons_of_mem _ hs)) hrest

def first : Message := messageTo 1 "M1" 2
def second : Message := messageTo 2 "M2" 3

/-- Two messages are routed at time zero, the first over a route that expires at a time given. -/
def routeTwo (forfeitTime : Int) : List Step :=
  [.createNewMessage first (.enqueued forfeitTime 2), .createNewMessage second (.enqueued 5 3)]

def idle : ContactGraphRouter := ContactGraphRouter.init (fun _ => noneId) (fun _ => 0)

theorem routeTwo_reachable {forfeitTime : Int} (h : 0 ≤ forfeitTime)
    (hrun : Runs.run (step threeHosts) idle (routeTwo forfeitTime) = some r) : ReachableAt threeHosts 10 r := by
  refine ((ReachableAt.init _ _).run (routeTwo forfeitTime) ?_ hrun).wait (by decide)
  intro s hs
  simp only [routeTwo, List.mem_cons, List.not_mem_nil, or_false] at hs
  rcases hs with rfl | rfl
  · exact ⟨h, 2, by decide, rfl⟩
  · exact ⟨by decide, 3, by decide, rfl⟩

theorem checkExpiredRoutes_iff_routeTwo : ∃ r, Runs.run (step threeHosts) idle (routeTwo 3) = some r ∧
    ((∃ x, checkExpiredRoutes threeHosts 10 ⟨r, [.enqueued 50 3, .stays]⟩ = some x ∧
      Rechecked threeHosts 10 r x.router) ↔ (10 : Int) = 0 ∨ NoneUnrouted threeHosts r) := by
  have hsome : (Runs.run (step threeHosts) idle (routeTwo 3)).isSome := by decide +kernel
  obtain ⟨r, hrun⟩ := Option.isSome_iff_exists.mp hsome
  refine ⟨r, hrun, checkExpiredRoutes_iff (routeTwo_reachable (by decide) hrun) ?_⟩
  intro outcome ho
  simp only [List.mem_cons, List.not_mem_nil, or_false] at ho
  rcases ho with rfl | rfl
  · exact ⟨by decide, 3, by decide, rfl⟩
  · trivial

/-- A limit of zero in one outduct keeps the message of another from being found overdue. -/
theorem checkExpiredRoutes_leavesOverdue : ¬ ∀ (sim : Simulator) (now : Int) (r : ContactGraphRouter)
    (outcomes : List Outcome), ReachableAt sim now r → (∀ outcome ∈ outcomes, FoundAt sim now outcome) →
    ∃ x, checkExpiredRoutes sim now ⟨r, outcomes⟩ = some x ∧ Rechecked sim now r x.router := by
  intro hall
  have hsome : (Runs.run (step threeHosts) idle (routeTwo 0)).isSome := by decide +kernel
  have hlate : ∀ r ∈ Runs.run (step threeHosts) idle (routeTwo 0),
      ∀ x ∈ checkExpiredRoutes threeHosts 10 ⟨r, []⟩,
        second ∈ (x.router.outducts 3).queue ∧ x.router.forwardTimelimit second < 10 := by
    decide +kernel
  obtain ⟨r, hrun⟩ := Option.isSome_iff_exists.mp hsome
  obtain ⟨x, hx, hrechecked⟩ := hall threeHosts 10 r [] (routeTwo_reachable (le_refl 0) hrun)
    (fun outcome ho => absurd ho List.not_mem_nil)
  obtain ⟨hin, hover⟩ := hlate r hrun x hx
  exact hrechecked.in_time 3 (by decide) second hin hover

end OverdueMessages
