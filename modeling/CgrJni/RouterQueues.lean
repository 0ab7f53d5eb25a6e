import CgrJni.Router

/-!
The queues of the router stay consistent: every step moves messages from one
place to another, and the property of a message names its place.
-/

namespace RouterQueues

open Router

variable {sim : Simulator}

def BytesCounted (o : Outduct) : Prop := o.totalEnqueuedBytes = ((o.queue.map Message.size).sum : Nat)

/-- Places that a message can be at, as its property names them. -/
def IsPlace (sim : Simulator) (n : Int) : Prop := n = limboId ∨ n = noneId ∨ ∃ host ∈ sim.hosts, n = (host : Int)

/-- The queues hold the known messages whose property names them, each once, and these
messages are held by the router. -/
structure Good (sim : Simulator) (r : ContactGraphRouter) : Prop where
  held : ∀ id m, r.messages id = some m → m.id = id ∧ m ∈ r.known
  place : ∀ m ∈ r.known, IsPlace sim (r.outductRef m) ∧ (r.outductRef m = noneId ∨ r.messages m.id = some m)
  limbo : ∀ m, m ∈ r.limbo.queue ↔ m ∈ r.known ∧ r.outductRef m = limboId
  outduct : ∀ (host : Nat) m, m ∈ (r.outducts host).queue ↔ m ∈ r.known ∧ r.outductRef m = host
  limbo_nodup : r.limbo.queue.Nodup
  outduct_nodup : ∀ host, (r.outducts host).queue.Nodup
  bytes : ∀ host, BytesCounted (r.outducts host)

/-- A message goes from wherever it is to the place `n`, and nothing else changes its place. -/
structure Moved (m : Message) (n : Int) (r r' : ContactGraphRouter) : Prop where
  messages : r'.messages = r.messages
  known : r'.known = r.known
  outductRef : r'.outductRef = Function.update r.outductRef m n
  limbo : r'.limbo.queue = r.limbo.queue.erase m ++ if n = limboId then [m] else []
  outduct : ∀ host : Nat, (r'.outducts host).queue = (r.outducts host).queue.erase m ++ if n = (host : Int) then [m] else []
  bytes : ∀ host, BytesCounted (r.outducts host) → BytesCounted (r'.outducts host)

theorem noneId_ne_limboId : noneId ≠ limboId := by decide

theorem natCast_ne_limboId (host : Nat) : (host : Int) ≠ limboId := by
  unfold limboId
  omega

theorem natCast_ne_noneId (host : Nat) : (host : Int) ≠ noneId := by
  unfold noneId
  omega

theorem mem_erase_append {l : List Message} {m a : Message} {c : Prop} [Decidable c] (hl : l.Nodup) :
    a ∈ l.erase m ++ (if c then [m] else []) ↔ (a ≠ m ∧ a ∈ l) ∨ (a = m ∧ c) := by
  rw [List.mem_append, hl.mem_erase_iff]
  apply or_congr_right
  by_cases hc : c
  · simp [hc]
  · simp [hc]

theorem nodup_erase_append {l : List Message} {m : Message} {c : Prop} [Decidable c] (hl : l.Nodup) :
    (l.erase m ++ (if c then [m] else [])).Nodup := by
  by_cases hc : c
  · rw [if_pos hc, List.nodup_append]
    refine ⟨hl.erase m, List.nodup_singleton m, fun a ha b hb => ?_⟩
    rw [List.mem_singleton.mp hb]
    exact (hl.mem_erase_iff.mp ha).1
  · rw [if_neg hc, List.append_nil]
    exact hl.erase m

theorem getHostFromNumber_of_mem {host : Nat} (h : host ∈ sim.hosts) : getHostFromNumber sim host = some host := by
  cases hfind : getHostFromNumber sim host with
  | none =>
    have hno := List.find?_eq_none.mp hfind host h
    simp at hno
  | some other =>
    have hother := List.find?_some hfind
    rw [decide_eq_true_eq, Int.natCast_inj] at hother
    rw [hother]

/-- The queues are as consistent after a message has gone to a place as they were before. -/
theorem Good.moved {r r' : ContactGraphRouter} {m : Message} {n : Int} (h : Good sim r) (hm : Moved m n r r')
    (hplace : IsPlace sim n) (hheld : n = noneId ∨ m ∈ r.known ∧ r.messages m.id = some m) : Good sim r' where
  held id a ha := by
    rw [hm.messages] at ha
    rw [hm.known]
    exact h.held id a ha
  place a ha := by
    rw [hm.known] at ha
    rw [hm.messages, hm.outductRef]
    by_cases ham : a = m
    · rw [ham, Function.update_self]
      exact ⟨hplace, hheld.imp_right And.right⟩
    · rw [Function.update_of_ne ham]
      exact h.place a ha
  limbo a := by
    rw [hm.limbo, mem_erase_append h.limbo_nodup, hm.known, hm.outductRef, h.limbo]
    by_cases ham : a = m
    · cases hheld with
      | inl hnone => simp [ham, hnone, noneId_ne_limboId]
      | inr hheld => simp [ham, hheld.1]
    · simp [ham]
  outduct host a := by
    rw [hm.outduct, mem_erase_append (h.outduct_nodup host), hm.known, hm.outductRef, h.outduct]
    by_cases ham : a = m
    · cases hheld with
      | inl hnone => simp [ham, hnone, (natCast_ne_noneId host).symm]
      | inr hheld => simp [ham, hheld.1]
    · simp [ham]
  limbo_nodup := by
    rw [hm.limbo]
    exact nodup_erase_append h.limbo_nodup
  outduct_nodup host := by
    rw [hm.outduct]
    exact nodup_erase_append (h.outduct_nodup host)
  bytes host := hm.bytes host (h.bytes host)

theorem Good.limbo_held {r : ContactGraphRouter} (h : Good sim r) {m : Message} (hm : m ∈ r.limbo.queue) :
    r.messages m.id = some m := by
  obtain ⟨hknown, href⟩ := (h.limbo m).mp hm
  cases (h.place m hknown).2 with
  | inl hnone =>
    rw [href] at hnone
    exact absurd hnone.symm noneId_ne_limboId
  | inr hheld => exact hheld

theorem Good.outduct_held {r : ContactGraphRouter} (h : Good sim r) {host : Nat} {m : Message}
    (hm : m ∈ (r.outducts host).queue) : r.messages m.id = some m := by
  obtain ⟨hknown, href⟩ := (h.outduct host m).mp hm
  cases (h.place m hknown).2 with
  | inl hnone =>
    rw [href] at hnone
    exact absurd hnone (natCast_ne_noneId host)
  | inr hheld => exact hheld

/-- Among messages that are held, only the message itself is equal to a message. -/
theorem eq_of_equals {r : ContactGraphRouter} {a m : Message} (ha : r.messages a.id = some a)
    (hm : r.messages m.id = some m ∨ r.messages m.id = none) (he : sim.equals a m = true) : a = m := by
  rw [sim.id_of_equals a m he] at ha
  cases hm with
  | inl hm => exact Option.some.inj (ha.symm.trans hm)
  | inr hm =>
    rw [hm] at ha
    cases ha

theorem eraseP_eq_erase {l : List Message} {p : Message → Bool} {m : Message}
    (hp : ∀ a ∈ l, (p a = true ↔ a = m)) : l.eraseP p = l.erase m := by
  induction l with
  | nil => rfl
  | cons a rest ih =>
    have ha := hp a List.mem_cons_self
    have hrest := ih (fun b hb => hp b (List.mem_cons_of_mem _ hb))
    by_cases ham : a = m
    · rw [List.eraseP_cons_of_pos (ha.mpr ham), ham, List.erase_cons_head]
    · rw [List.eraseP_cons_of_neg (fun hpa => ham (ha.mp hpa)), hrest, List.erase_cons_tail (by simpa using ham)]

theorem removeMessage_of_mem {o : Outduct} {m : Message} (heq : ∀ a ∈ o.queue, sim.equals a m = true → a = m)
    (hm : m ∈ o.queue) : o.removeMessage sim m = some ⟨o.queue.erase m, o.totalEnqueuedBytes - m.size⟩ := by
  have hany : o.queue.any (fun m1 => sim.equals m1 m) = true := List.any_eq_true.mpr ⟨m, hm, sim.equals_self m⟩
  have herase : o.queue.eraseP (fun m1 => sim.equals m1 m) = o.queue.erase m := by
    apply eraseP_eq_erase
    intro a ha
    exact ⟨heq a ha, fun ham => ham ▸ sim.equals_self m⟩
  rw [Outduct.removeMessage, if_pos hany, herase]

theorem removeMessage_of_notMem {o : Outduct} {m : Message} (heq : ∀ a ∈ o.queue, sim.equals a m = true → a = m)
    (hm : m ∉ o.queue) : o.removeMessage sim m = none := by
  have hany : ¬ o.queue.any (fun m1 => sim.equals m1 m) = true := by
    intro hany
    obtain ⟨a, ha, he⟩ := List.any_eq_true.mp hany
    exact hm (heq a ha he ▸ ha)
  rw [Outduct.removeMessage, if_neg hany]

theorem bytesCounted_erase {o : Outduct} {m : Message} (hm : m ∈ o.queue) (h : BytesCounted o) :
    BytesCounted ⟨o.queue.erase m, o.totalEnqueuedBytes - m.size⟩ := by
  have hsum := ((List.perm_cons_erase hm).map Message.size).sum_eq
  rw [List.map_cons, List.sum_cons] at hsum
  unfold BytesCounted at h ⊢
  dsimp only
  omega

theorem bytesCounted_append {o : Outduct} {m : Message} (h : BytesCounted o) :
    BytesCounted ⟨o.queue ++ [m], o.totalEnqueuedBytes + m.size⟩ := by
  unfold BytesCounted at h ⊢
  simp only [List.map_append, List.map_cons, List.map_nil, List.sum_append, List.sum_cons, List.sum_nil]
  omega

/-- What a message that is looked for can be taken for: only itself. -/
def Sole (sim : Simulator) (r : ContactGraphRouter) (m : Message) : Prop :=
  (∀ a ∈ r.limbo.queue, sim.equals a m = true → a = m) ∧
    ∀ host, ∀ a ∈ (r.outducts host).queue, sim.equals a m = true → a = m

theorem Good.sole {r : ContactGraphRouter} (h : Good sim r) {m : Message}
    (hm : r.messages m.id = some m ∨ r.messages m.id = none) : Sole sim r m :=
  ⟨fun _ ha he => eq_of_equals (h.limbo_held ha) hm he, fun _ _ ha he => eq_of_equals (h.outduct_held ha) hm he⟩

/-- A message is in one queue at most, the one that its property names. -/
theorem Good.notMem_limbo {r : ContactGraphRouter} (h : Good sim r) {m : Message} {n : Int}
    (href : r.outductRef m = n) (hn : n ≠ limboId) : m ∉ r.limbo.queue := by
  intro hm
  exact hn (href ▸ ((h.limbo m).mp hm).2)

theorem Good.notMem_outduct {r : ContactGraphRouter} (h : Good sim r) {m : Message} {n : Int} {host : Nat}
    (href : r.outductRef m = n) (hn : n ≠ (host : Int)) : m ∉ (r.outducts host).queue := by
  intro hm
  exact hn (href ▸ ((h.outduct host m).mp hm).2)

theorem moved_from_limbo {r : ContactGraphRouter} {m : Message} (h : Good sim r) (hm : m ∈ r.limbo.queue) :
    Moved m noneId r (updateOutductRef
      { r with limbo := ⟨r.limbo.queue.erase m, r.limbo.totalEnqueuedBytes - m.size⟩ } m noneId) where
  messages := rfl
  known := rfl
  outductRef := rfl
  limbo := by
    rw [if_neg noneId_ne_limboId, List.append_nil]
    rfl
  outduct host := by
    have href := ((h.limbo m).mp hm).2
    rw [if_neg (natCast_ne_noneId host).symm, List.append_nil,
      List.erase_of_not_mem (h.notMem_outduct href (natCast_ne_limboId host).symm)]
    rfl
  bytes host hb := hb

theorem moved_from_outduct {r : ContactGraphRouter} {m : Message} {host : Nat} (h : Good sim r)
    (hm : m ∈ (r.outducts host).queue) :
    Moved m noneId r (updateOutductRef
      { r with
        outducts := Function.update r.outducts host
          ⟨(r.outducts host).queue.erase m, (r.outducts host).totalEnqueuedBytes - m.size⟩ } m noneId) := by
  have href := ((h.outduct host m).mp hm).2
  refine ⟨rfl, rfl, rfl, ?_, fun other => ?_, fun other hb => ?_⟩
  · rw [if_neg noneId_ne_limboId, List.append_nil,
      List.erase_of_not_mem (h.notMem_limbo href (natCast_ne_limboId host))]
    rfl
  · rw [if_neg (natCast_ne_noneId other).symm, List.append_nil]
    simp only [updateOutductRef]
    by_cases ho : other = host
    · rw [ho, Function.update_self]
    · have hne : (host : Int) ≠ (other : Int) := by omega
      rw [Function.update_of_ne ho, List.erase_of_not_mem (h.notMem_outduct href hne)]
  · simp only [updateOutductRef]
    by_cases ho : other = host
    · rw [ho, Function.update_self]
      exact bytesCounted_erase hm (ho ▸ hb)
    · rw [Function.update_of_ne ho]
      exact hb

theorem moved_to_limbo {r : ContactGraphRouter} {m : Message} (h : Good sim r) (href : r.outductRef m = noneId) :
    Moved m limboId r (insertMessageIntoLimbo r m) where
  messages := rfl
  known := rfl
  outductRef := rfl
  limbo := by
    rw [if_pos rfl, List.erase_of_not_mem (h.notMem_limbo href noneId_ne_limboId)]
    rfl
  outduct host := by
    rw [if_neg (natCast_ne_limboId host).symm, List.append_nil,
      List.erase_of_not_mem (h.notMem_outduct href (natCast_ne_noneId host).symm)]
    rfl
  bytes host hb := hb

/-- A message in the limbo goes to the queue of the host. -/
theorem moved_to_outduct {r : ContactGraphRouter} {m : Message} (h : Good sim r) (hm : m ∈ r.limbo.queue)
    (host : Nat) : Moved m host r (insertMessageIntoOutduct sim r host m) := by
  have hlimbo : isMessageIntoLimbo r m = true := List.any_eq_true.mpr ⟨m, hm, beq_self_eq_true m.id⟩
  have hheld := h.limbo_held hm
  have href := ((h.limbo m).mp hm).2
  have hremove := removeMessage_of_mem (h.sole (Or.inl hheld)).1 hm
  have he : insertMessageIntoOutduct sim r host m =
      { r with
        limbo := ⟨r.limbo.queue.erase m, r.limbo.totalEnqueuedBytes - m.size⟩
        outducts := Function.update r.outducts host
          ⟨(r.outducts host).queue ++ [m], (r.outducts host).totalEnqueuedBytes + m.size⟩
        outductRef := Function.update r.outductRef m host } := by
    have hlimbo' : ∀ outducts, isMessageIntoLimbo { r with outducts := outducts } m = true := fun _ => hlimbo
    simp only [insertMessageIntoOutduct, hlimbo', if_true, removeMessageFromLimbo, hremove, updateOutductRef,
      Function.update_self, Function.update_idem]
  rw [he]
  refine ⟨rfl, rfl, rfl, ?_, fun other => ?_, fun other hb => ?_⟩
  · rw [if_neg (natCast_ne_limboId host), List.append_nil]
  · dsimp only
    by_cases ho : other = host
    · rw [ho, Function.update_self, if_pos rfl,
        List.erase_of_not_mem (h.notMem_outduct href (natCast_ne_limboId host).symm)]
    · have hne : ¬ (host : Int) = (other : Int) := by omega
      rw [Function.update_of_ne ho, if_neg hne, List.append_nil,
        List.erase_of_not_mem (h.notMem_outduct href (natCast_ne_limboId other).symm)]
  · dsimp only
    by_cases ho : other = host
    · rw [ho, Function.update_self]
      exact bytesCounted_append (ho ▸ hb)
    · rw [Function.update_of_ne ho]
      exact hb

theorem Good.withForfeitTime {r : ContactGraphRouter} (h : Good sim r) (m : Message) (forfeitTime : Int) :
    Good sim (updateMessageForfeitTime r m forfeitTime) :=
  ⟨h.held, h.place, h.limbo, h.outduct, h.limbo_nodup, h.outduct_nodup, h.bytes⟩

/-- A call of the native `cgrForward` for a message in the limbo, if it ends without an exception. -/
theorem good_cgrForward {r r' : ContactGraphRouter} {m : Message} {outcome : Outcome} (h : Good sim r)
    (hm : m ∈ r.limbo.queue) (hf : cgrForward sim r m outcome = some r') : Good sim r' := by
  cases outcome with
  | stays => exact Option.some.inj hf ▸ h
  | enqueued forfeitTime nodeNbr =>
    obtain ⟨host, hhost, rfl⟩ := Option.map_eq_some_iff.mp hf
    have hmem := List.mem_of_find?_eq_some hhost
    have hgood := h.withForfeitTime m forfeitTime
    exact hgood.moved (moved_to_outduct hgood hm host) (Or.inr (Or.inr ⟨host, hmem, rfl⟩))
      (Or.inr ⟨((h.limbo m).mp hm).1, h.limbo_held hm⟩)

/-- Only the message that is routed changes its place. -/
theorem cgrForward_frame {r r' : ContactGraphRouter} {m a : Message} {outcome : Outcome} (h : Good sim r)
    (hm : m ∈ r.limbo.queue) (hne : a ≠ m) (hf : cgrForward sim r m outcome = some r') :
    r'.known = r.known ∧ r'.messages = r.messages ∧ r'.outductRef a = r.outductRef a := by
  cases outcome with
  | stays => exact Option.some.inj hf ▸ ⟨rfl, rfl, rfl⟩
  | enqueued forfeitTime nodeNbr =>
    obtain ⟨host, hhost, rfl⟩ := Option.map_eq_some_iff.mp hf
    have hgood := h.withForfeitTime m forfeitTime
    have hmoved := moved_to_outduct hgood hm host
    refine ⟨hmoved.known, hmoved.messages, ?_⟩
    rw [hmoved.outductRef, Function.update_of_ne hne]
    rfl

theorem removeMessageFromOutduct_of_notMem {r : ContactGraphRouter} {m : Message} (hs : Sole sim r m) {host : Nat}
    (hm : m ∉ (r.outducts host).queue) : removeMessageFromOutduct sim r host m = r := by
  rw [removeMessageFromOutduct, removeMessage_of_notMem (hs.2 host) hm]

theorem removeMessageFromOutduct_of_mem {r : ContactGraphRouter} {m : Message} (hs : Sole sim r m) {host : Nat}
    (hm : m ∈ (r.outducts host).queue) :
    removeMessageFromOutduct sim r host m = updateOutductRef
      { r with
        outducts := Function.update r.outducts host
          ⟨(r.outducts host).queue.erase m, (r.outducts host).totalEnqueuedBytes - m.size⟩ } m noneId := by
  rw [removeMessageFromOutduct, removeMessage_of_mem (hs.2 host) hm]

/-- A message that is in no queue goes to the limbo whatever its property says, or not at all. -/
theorem putMessageIntoLimbo_of_notMem {r r' : ContactGraphRouter} {m : Message} (hs : Sole sim r m)
    (hm : ∀ host, m ∉ (r.outducts host).queue) (hp : putMessageIntoLimbo sim r m = some r') :
    r' = insertMessageIntoLimbo r m := by
  unfold putMessageIntoLimbo at hp
  split at hp
  · obtain ⟨host, -, rfl⟩ := Option.map_eq_some_iff.mp hp
    rw [removeMessageFromOutduct_of_notMem hs (hm host)]
  · exact (Option.some.inj hp).symm

/-- A message whose id is not held is in no queue. -/
theorem Good.new_notMem_limbo {r : ContactGraphRouter} {m : Message} (h : Good sim r)
    (hnew : r.messages m.id = none) : m ∉ r.limbo.queue := by
  intro hm
  rw [h.limbo_held hm] at hnew
  cases hnew

theorem Good.new_notMem_outduct {r : ContactGraphRouter} {m : Message} {host : Nat} (h : Good sim r)
    (hnew : r.messages m.id = none) : m ∉ (r.outducts host).queue := by
  intro hm
  rw [h.outduct_held hm] at hnew
  cases hnew

/-- A message that has just been taken in and is nowhere yet. -/
theorem Good.takeIn {r : ContactGraphRouter} {m : Message} (h : Good sim r) (hnew : r.messages m.id = none)
    (forwardTimelimit : Int) :
    Good sim (superAddToMessages sim
      (updateOutductRef (updateMessageForfeitTime r m forwardTimelimit) m noneId) m) := by
  have hlimbo := h.new_notMem_limbo hnew
  have houtduct : ∀ host, m ∉ (r.outducts host).queue := fun _ => h.new_notMem_outduct hnew
  refine ⟨fun id a ha => ?_, fun a ha => ?_, fun a => ?_, fun host a => ?_, h.limbo_nodup, h.outduct_nodup, h.bytes⟩
  · simp only [superAddToMessages, sim.superAddToMessages_eq] at ha ⊢
    by_cases hid : id = m.id
    · rw [hid, Function.update_self, Option.some.injEq] at ha
      exact ⟨by rw [← ha, hid], by rw [← ha]; exact List.mem_cons_self⟩
    · rw [Function.update_of_ne hid] at ha
      obtain ⟨hai, hak⟩ := h.held id a ha
      exact ⟨hai, List.mem_cons_of_mem _ hak⟩
  · simp only [superAddToMessages, sim.superAddToMessages_eq, updateOutductRef, updateMessageForfeitTime] at ha ⊢
    by_cases ham : a = m
    · rw [ham, Function.update_self]
      exact ⟨Or.inr (Or.inl rfl), Or.inl rfl⟩
    · have hak : a ∈ r.known := (List.mem_cons.mp ha).resolve_left ham
      rw [Function.update_of_ne ham]
      obtain ⟨hplace, hheld⟩ := h.place a hak
      refine ⟨hplace, hheld.imp_right (fun hheld => ?_)⟩
      have hid : a.id ≠ m.id := by
        intro hid
        rw [hid, hnew] at hheld
        cases hheld
      rw [Function.update_of_ne hid]
      exact hheld
  · simp only [superAddToMessages, updateOutductRef, updateMessageForfeitTime]
    rw [h.limbo, List.mem_cons]
    by_cases ham : a = m
    · have hno : ¬ (m ∈ r.known ∧ r.outductRef m = limboId) := fun hm => hlimbo ((h.limbo m).mpr hm)
      rw [ham, Function.update_self]
      simp [hno, noneId_ne_limboId]
    · simp [ham]
  · simp only [superAddToMessages, updateOutductRef, updateMessageForfeitTime]
    rw [h.outduct, List.mem_cons]
    by_cases ham : a = m
    · have hno : ¬ (m ∈ r.known ∧ r.outductRef m = host) := fun hm => houtduct host ((h.outduct host m).mpr hm)
      rw [ham, Function.update_self]
      simp [hno, (natCast_ne_noneId host).symm]
    · simp [ham]

/-- A message whose id is not held and that is not for this host itself is routed from the limbo, with nothing
else changed. -/
theorem addToMessages_eq {r r' : ContactGraphRouter} {m : Message} {outductRef forwardTimelimit : Int}
    {newMessage : Bool} {outcome : Outcome} (h : Good sim r) (hnew : r.messages m.id = none)
    (hother : ¬ (newMessage = true ∧ m.toHost = sim.host))
    (ha : addToMessages sim (updateOutductRef (updateMessageForfeitTime r m forwardTimelimit) m outductRef) m
      newMessage outcome = some r') :
    cgrForward sim (insertMessageIntoLimbo (superAddToMessages sim
      (updateOutductRef (updateMessageForfeitTime r m forwardTimelimit) m noneId) m) m) m outcome = some r' := by
  rw [addToMessages, if_neg hother] at ha
  obtain ⟨r₁, hput, hf⟩ := Option.bind_eq_some_iff.mp ha
  have hs' : Sole sim (updateOutductRef (updateMessageForfeitTime r m forwardTimelimit) m outductRef) m :=
    h.sole (Or.inr hnew)
  have hr₁ := putMessageIntoLimbo_of_notMem hs' (fun _ => h.new_notMem_outduct hnew) hput
  have hr₂ : superAddToMessages sim r₁ m = insertMessageIntoLimbo (superAddToMessages sim
      (updateOutductRef (updateMessageForfeitTime r m forwardTimelimit) m noneId) m) m := by
    rw [hr₁]
    simp only [superAddToMessages, insertMessageIntoLimbo, updateOutductRef, updateMessageForfeitTime,
      Function.update_idem]
  rw [hr₂] at hf
  exact hf

/-- The message that has been taken in is in the limbo. -/
theorem Good.takeInLimbo {r : ContactGraphRouter} {m : Message} (h : Good sim r) (hnew : r.messages m.id = none)
    (forwardTimelimit : Int) :
    Good sim (insertMessageIntoLimbo (superAddToMessages sim
      (updateOutductRef (updateMessageForfeitTime r m forwardTimelimit) m noneId) m) m) := by
  have hin := h.takeIn hnew forwardTimelimit
  have hmoved := moved_to_limbo (m := m) hin (Function.update_self ..)
  have hheld : (superAddToMessages sim (updateOutductRef (updateMessageForfeitTime r m forwardTimelimit) m noneId)
      m).messages m.id = some m := by
    simp only [superAddToMessages, sim.superAddToMessages_eq, Function.update_self]
  exact hin.moved hmoved (Or.inl rfl) (Or.inr ⟨List.mem_cons_self, hheld⟩)

/-- A message whose id is not held is for this host itself, or goes to the limbo and is routed from there. -/
theorem addToMessages_cases {r r' : ContactGraphRouter} {m : Message} {outductRef forwardTimelimit : Int}
    {newMessage : Bool} {outcome : Outcome} (h : Good sim r) (hnew : r.messages m.id = none)
    (ha : addToMessages sim (updateOutductRef (updateMessageForfeitTime r m forwardTimelimit) m outductRef) m
      newMessage outcome = some r') :
    (newMessage = true ∧ r' = updateOutductRef (updateMessageForfeitTime r m forwardTimelimit) m outductRef) ∨
    ∃ r₂, Good sim r₂ ∧ m ∈ r₂.limbo.queue ∧ r₂.outducts = r.outducts ∧
      r₂.forwardTimelimit = Function.update r.forwardTimelimit m forwardTimelimit ∧
      cgrForward sim r₂ m outcome = some r' := by
  by_cases hown : newMessage = true ∧ m.toHost = sim.host
  · rw [addToMessages, if_pos hown] at ha
    exact Or.inl ⟨hown.1, (Option.some.inj ha).symm⟩
  · have hf := addToMessages_eq h hnew hown ha
    exact Or.inr ⟨_, h.takeInLimbo hnew forwardTimelimit, List.mem_append_right _ (List.mem_singleton.mpr rfl), rfl, rfl, hf⟩

/-- A message whose id is not held is taken in, whatever properties it comes with. -/
theorem good_addToMessages {r r' : ContactGraphRouter} {m : Message} {outductRef forwardTimelimit : Int}
    {newMessage : Bool} {outcome : Outcome} (h : Good sim r) (hnew : r.messages m.id = none)
    (hcreated : newMessage = true → outductRef = noneId)
    (ha : addToMessages sim (updateOutductRef (updateMessageForfeitTime r m forwardTimelimit) m outductRef) m
      newMessage outcome = some r') : Good sim r' := by
  rcases addToMessages_cases h hnew ha with ⟨hown, rfl⟩ | ⟨r₂, hgood, hm, -, -, hf⟩
  · -- a message created for this host itself is not kept
    rw [hcreated hown]
    have hmoved : Moved m noneId r (updateOutductRef (updateMessageForfeitTime r m forwardTimelimit) m noneId) := by
      refine ⟨rfl, rfl, rfl, ?_, fun host => ?_, fun host hb => hb⟩
      · rw [if_neg noneId_ne_limboId, List.append_nil, List.erase_of_not_mem (h.new_notMem_limbo hnew)]
        rfl
      · rw [if_neg (natCast_ne_noneId host).symm, List.append_nil,
          List.erase_of_not_mem (h.new_notMem_outduct hnew)]
        rfl
    exact h.moved hmoved (Or.inr (Or.inl rfl)) (Or.inl rfl)
  · exact good_cgrForward hgood hm hf

/-- The message with an id leaves its queue, and no exception is thrown. -/
theorem good_removeFromOutducts {r : ContactGraphRouter} (h : Good sim r) (id : String) :
    ∃ r', removeFromOutducts sim r id = some r' ∧ Good sim r' ∧ r'.messages = r.messages ∧
      ∀ m, r.messages id = some m → r'.outductRef m = noneId := by
  unfold removeFromOutducts
  cases hheld : r.messages id with
  | none => exact ⟨r, rfl, h, rfl, fun m hm => by cases hm⟩
  | some removed =>
    obtain ⟨hid, hknown⟩ := h.held id removed hheld
    have hself : r.messages removed.id = some removed := hid ▸ hheld
    have hs := h.sole (Or.inl hself)
    have hnone : ∀ m, some removed = some m → Function.update r.outductRef removed noneId m = noneId := by
      intro m hm
      rw [← Option.some.inj hm, Function.update_self]
    dsimp only
    obtain hlimbo | href | ⟨host, hhost, href⟩ := (h.place removed hknown).1
    · have hm := (h.limbo removed).mpr ⟨hknown, hlimbo⟩
      rw [if_pos hlimbo, removeMessage_of_mem hs.1 hm]
      exact ⟨_, rfl, h.moved (moved_from_limbo h hm) (Or.inr (Or.inl rfl)) (Or.inl rfl), rfl, hnone⟩
    · have hne : ¬ r.outductRef removed = limboId := fun hl => noneId_ne_limboId (href.symm.trans hl)
      rw [if_neg hne, if_pos href]
      exact ⟨r, rfl, h, rfl, fun m hm => Option.some.inj hm ▸ href⟩
    · have hne : ¬ r.outductRef removed = limboId := fun hl => natCast_ne_limboId host (href.symm.trans hl)
      have hne' : ¬ r.outductRef removed = noneId := fun hl => natCast_ne_noneId host (href.symm.trans hl)
      have hfound : getHostFromNumber sim (r.outductRef removed) = some host := by
        rw [href]
        exact getHostFromNumber_of_mem hhost
      have hm := (h.outduct host removed).mpr ⟨hknown, href⟩
      rw [if_neg hne, if_neg hne', hfound, Option.map_some, removeMessageFromOutduct_of_mem hs hm]
      exact ⟨_, rfl, h.moved (moved_from_outduct h hm) (Or.inr (Or.inl rfl)) (Or.inl rfl), rfl, hnone⟩

theorem good_removeFromMessages {r : ContactGraphRouter} (h : Good sim r) (id : String) :
    ∃ r', removeFromMessages sim r id = some r' ∧ Good sim r' := by
  obtain ⟨r₁, hr₁, hgood, hmessages, hnone⟩ := good_removeFromOutducts h id
  refine ⟨{ r₁ with messages := sim.superRemoveFromMessages r₁.messages id }, by rw [removeFromMessages, hr₁, Option.map_some],
    fun i a ha => ?_, fun a ha => ?_, hgood.limbo, hgood.outduct, hgood.limbo_nodup, hgood.outduct_nodup, hgood.bytes⟩
  · dsimp only at ha
    rw [sim.superRemoveFromMessages_eq] at ha
    by_cases hi : i = id
    · rw [hi, Function.update_self] at ha
      cases ha
    · rw [Function.update_of_ne hi] at ha
      exact hgood.held i a ha
  · obtain ⟨hplace, hheld⟩ := hgood.place a ha
    refine ⟨hplace, ?_⟩
    cases hheld with
    | inl href => exact Or.inl href
    | inr hheld =>
      dsimp only
      rw [sim.superRemoveFromMessages_eq]
      by_cases hi : a.id = id
      · rw [hi, hmessages] at hheld
        exact Or.inl (hnone a hheld)
      · rw [Function.update_of_ne hi]
        exact Or.inr hheld

theorem rerouting_cgrForward {x x' : Rerouting} {m : Message} (hf : x.cgrForward sim m = some x') :
    ∃ outcome, cgrForward sim x.router m outcome = some x'.router := by
  unfold Rerouting.cgrForward at hf
  split at hf
  · exact ⟨.stays, congrArg some (congrArg Rerouting.router (Option.some.inj hf))⟩
  · rename_i outcome rest hout
    obtain ⟨r, hr, rfl⟩ := Option.map_eq_some_iff.mp hf
    exact ⟨outcome, hr⟩

/-- The messages of the limbo are routed one after the other; those still to come stay in it. -/
theorem good_tryRoutes (queue : List Message) (x x' : Rerouting) (h : Good sim x.router) (hnodup : queue.Nodup)
    (hqueue : ∀ m ∈ queue, m ∈ x.router.limbo.queue)
    (hrun : Runs.run (Rerouting.cgrForward sim) x queue = some x') : Good sim x'.router := by
  induction queue generalizing x with
  | nil => exact Option.some.inj hrun ▸ h
  | cons m rest ih =>
    rw [Runs.run_cons, Option.bind_eq_some_iff] at hrun
    obtain ⟨y, hy, hrest⟩ := hrun
    obtain ⟨outcome, hf⟩ := rerouting_cgrForward hy
    have hm := hqueue m List.mem_cons_self
    have hgood := good_cgrForward h hm hf
    obtain ⟨hno, hnodup'⟩ := List.nodup_cons.mp hnodup
    apply ih y hgood hnodup' _ hrest
    intro a ha
    have hne : a ≠ m := fun he => hno (he ▸ ha)
    obtain ⟨hknown, -, href⟩ := cgrForward_frame h hm hne hf
    rw [hgood.limbo, hknown, href, ← h.limbo]
    exact hqueue a (List.mem_cons_of_mem _ ha)

/-- A message of an outduct is rerouted by way of the limbo; the other messages of the outduct stay. -/
theorem good_reroute {x x' : Rerouting} {host : Nat} {m : Message} (h : Good sim x.router)
    (hm : m ∈ (x.router.outducts host).queue) (hr : reroute sim host x m = some x') :
    Good sim x'.router ∧ ∀ a ≠ m, a ∈ (x.router.outducts host).queue → a ∈ (x'.router.outducts host).queue := by
  have hs := h.sole (Or.inl (h.outduct_held hm))
  have hmoved := moved_from_outduct h hm
  have hout := h.moved hmoved (Or.inr (Or.inl rfl)) (Or.inl rfl)
  obtain ⟨r₁, hput, hf⟩ := Option.bind_eq_some_iff.mp hr
  rw [removeMessageFromOutduct_of_mem hs hm] at hput
  -- its property names no place now
  have hnone := congrFun hmoved.outductRef m
  rw [Function.update_self] at hnone
  rw [putMessageIntoLimbo, hnone, if_neg (by decide), Option.some.injEq] at hput
  have hmoved' := moved_to_limbo hout hnone
  have hknown := ((h.outduct host m).mp hm).1
  have hgood := hout.moved hmoved' (Or.inl rfl) (Or.inr ⟨hknown, h.outduct_held hm⟩)
  rw [hput] at hmoved' hgood
  have hlimbo : m ∈ r₁.limbo.queue := by
    rw [hmoved'.limbo, if_pos rfl]
    exact List.mem_append_right _ (List.mem_singleton.mpr rfl)
  obtain ⟨outcome, hf⟩ := rerouting_cgrForward hf
  refine ⟨good_cgrForward hgood hlimbo hf, fun a hne ha => ?_⟩
  obtain ⟨hk, -, href⟩ := cgrForward_frame hgood hlimbo hne hf
  rw [(good_cgrForward hgood hlimbo hf).outduct, hk, href, hmoved'.known, hmoved'.outductRef,
    Function.update_of_ne hne, hmoved.known, hmoved.outductRef, Function.update_of_ne hne, ← h.outduct]
  exact ha

theorem good_rerouteAll (host : Nat) (expired : List Message) (x x' : Rerouting) (h : Good sim x.router)
    (hnodup : expired.Nodup) (hqueue : ∀ m ∈ expired, m ∈ (x.router.outducts host).queue)
    (hrun : Runs.run (reroute sim host) x expired = some x') : Good sim x'.router := by
  induction expired generalizing x with
  | nil => exact Option.some.inj hrun ▸ h
  | cons m rest ih =>
    rw [Runs.run_cons, Option.bind_eq_some_iff] at hrun
    obtain ⟨y, hy, hrest⟩ := hrun
    obtain ⟨hgood, hstay⟩ := good_reroute h (hqueue m List.mem_cons_self) hy
    obtain ⟨hno, hnodup'⟩ := List.nodup_cons.mp hnodup
    apply ih y hgood hnodup' _ hrest
    intro a ha
    exact hstay a (fun he => hno (he ▸ ha)) (hqueue a (List.mem_cons_of_mem _ ha))

theorem good_checkOutducts (now : Int) (hosts : List Nat) (x x' : Rerouting) (h : Good sim x.router)
    (hc : checkOutducts sim now hosts x = some x') : Good sim x'.router := by
  induction hosts generalizing x with
  | nil => exact Option.some.inj hc ▸ h
  | cons host rest ih =>
    rw [checkOutducts] at hc
    split at hc
    · exact Option.some.inj hc ▸ h
    · obtain ⟨y, hy, hrest⟩ := Option.bind_eq_some_iff.mp hc
      have hgood := good_rerouteAll host _ x y h ((h.outduct_nodup host).filter _)
        (fun m hm => (List.mem_filter.mp hm).1) hy
      exact ih y hgood hrest

theorem good_init (outductRef forwardTimelimit : Message → Int) :
    Good sim (ContactGraphRouter.init outductRef forwardTimelimit) where
  held id m hm := by cases hm
  place m hm := by cases hm
  limbo m := by simp [ContactGraphRouter.init]
  outduct host m := by simp [ContactGraphRouter.init]
  limbo_nodup := List.nodup_nil
  outduct_nodup _ := List.nodup_nil
  bytes _ := rfl

theorem good_step {r r' : ContactGraphRouter} {s : Step} (h : Good sim r) (hs : step sim r s = some r') :
    Good sim r' := by
  cases s with
  | createNewMessage m outcome =>
    rw [step] at hs
    split at hs
    · exact Option.some.inj hs ▸ h
    · rename_i hheld
      exact good_addToMessages h (Option.not_isSome_iff_eq_none.mp hheld) (fun _ => rfl) hs
  | receive m outductRef forwardTimelimit outcome =>
    rw [step] at hs
    split at hs
    · exact Option.some.inj hs ▸ h
    · rename_i hheld
      exact good_addToMessages h (Option.not_isSome_iff_eq_none.mp hheld) (fun hnew => by cases hnew) hs
  | cgrForward m outcome =>
    rw [step] at hs
    split at hs
    · rename_i hm
      exact good_cgrForward h hm hs
    · cases hs
  | checkExpiredRoutes now outcomes =>
    obtain ⟨x', hx, rfl⟩ := Option.map_eq_some_iff.mp hs
    exact good_checkOutducts now sim.hosts _ x' h hx
  | tryRouteForMessageIntoLimbo outcomes =>
    obtain ⟨x', hx, rfl⟩ := Option.map_eq_some_iff.mp hs
    exact good_tryRoutes r.limbo.queue _ x' h h.limbo_nodup (fun m hm => hm) hx
  | removeFromMessages id =>
    obtain ⟨r₁, hr₁, hgood⟩ := good_removeFromMessages h id
    exact Option.some.inj (hr₁.symm.trans hs) ▸ hgood
  | transferDone id =>
    obtain ⟨r₁, hr₁, hgood, -, -⟩ := good_removeFromOutducts h id
    exact Option.some.inj (hr₁.symm.trans hs) ▸ hgood

/-- All messages over the limbo and the outducts of all hosts. -/
def queued (sim : Simulator) (r : ContactGraphRouter) : List Message :=
  r.limbo.queue ++ sim.hosts.flatMap (fun host => (r.outducts host).queue)

structure QueuesConsistent (sim : Simulator) (r : ContactGraphRouter) : Prop where
  once : (queued sim r).Nodup
  known : ∀ m ∈ queued sim r, m ∈ r.known
  held : ∀ id m, r.messages id = some m → m ∈ r.known
  limbo : ∀ m ∈ r.known, (r.outductRef m = limboId ↔ m ∈ r.limbo.queue)
  outduct : ∀ m ∈ r.known, ∀ host ∈ sim.hosts, (r.outductRef m = (host : Int) ↔ m ∈ (r.outducts host).queue)
  nowhere : ∀ m ∈ r.known, (r.outductRef m = noneId ↔ m ∉ queued sim r)
  bytes : ∀ host ∈ sim.hosts,
    (r.outducts host).totalEnqueuedBytes = (((r.outducts host).queue.map Message.size).sum : Nat)

theorem mem_queued {r : ContactGraphRouter} {m : Message} :
    m ∈ queued sim r ↔ m ∈ r.limbo.queue ∨ ∃ host ∈ sim.hosts, m ∈ (r.outducts host).queue := by
  rw [queued, List.mem_append, List.mem_flatMap]

theorem Good.queued_nodup {r : ContactGraphRouter} (h : Good sim r) : (queued sim r).Nodup := by
  rw [queued, List.nodup_append]
  refine ⟨h.limbo_nodup, ?_, ?_⟩
  · rw [List.nodup_flatMap]
    refine ⟨fun host _ => h.outduct_nodup host, sim.hosts_sorted.imp ?_⟩
    intro host other hlt m hm hm'
    have href := ((h.outduct host m).mp hm).2
    have href' := ((h.outduct other m).mp hm').2
    omega
  · intro m hm m' hm' he
    obtain ⟨host, -, hin⟩ := List.mem_flatMap.mp hm'
    have href := ((h.limbo m).mp hm).2
    have href' := ((h.outduct host m').mp hin).2
    exact natCast_ne_limboId host (href'.symm.trans (he ▸ href))

theorem Good.consistent {r : ContactGraphRouter} (h : Good sim r) : QueuesConsistent sim r := by
  refine ⟨h.queued_nodup, fun m hm => ?_, fun id m hm => (h.held id m hm).2, fun m hm => ?_, fun m hm host _ => ?_,
    fun m hm => ?_, fun host _ => h.bytes host⟩
  · obtain hl | ⟨host, -, ho⟩ := mem_queued.mp hm
    · exact ((h.limbo m).mp hl).1
    · exact ((h.outduct host m).mp ho).1
  · rw [h.limbo]
    exact ⟨fun href => ⟨hm, href⟩, And.right⟩
  · rw [h.outduct]
    exact ⟨fun href => ⟨hm, href⟩, And.right⟩
  · constructor
    · intro href hq
      obtain hl | ⟨host, -, ho⟩ := mem_queued.mp hq
      · exact h.notMem_limbo href noneId_ne_limboId hl
      · exact h.notMem_outduct href (natCast_ne_noneId host).symm ho
    · intro hno
      obtain hl | href | ⟨host, hhost, href⟩ := (h.place m hm).1
      · exact absurd (mem_queued.mpr (Or.inl ((h.limbo m).mpr ⟨hm, hl⟩))) hno
      · exact href
      · exact absurd (mem_queued.mpr (Or.inr ⟨host, hhost, (h.outduct host m).mpr ⟨hm, href⟩⟩)) hno

/-- In every state that a run of the router reaches the queues are consistent. -/
theorem queues_consistent (sim : Simulator) (outductRef forwardTimelimit : Message → Int) (steps : List Step)
    (r : ContactGraphRouter)
    (hrun : Runs.run (step sim) (ContactGraphRouter.init outductRef forwardTimelimit) steps = some r) :
    QueuesConsistent sim r := by
  have hgood : Good sim r :=
    Runs.run_invariant (fun _ _ _ h hs => good_step h hs) steps _ r (good_init outductRef forwardTimelimit) hrun
  exact hgood.consistent

/-- Three hosts, the first of them with the router; messages are equal to themselves only. -/
def threeHosts : Simulator where
  hosts := [1, 2, 3]
  hosts_sorted := by decide
  hosts_int := by decide
  host := 1
  equals m m' := m == m'
  equals_self m := beq_self_eq_true m
  id_of_equals m m' h := congrArg Message.id (beq_iff_eq.mp h)
  superAddToMessages messages m := Function.update messages m.id (some m)
  superAddToMessages_eq _ _ := rfl
  superRemoveFromMessages messages id := Function.update messages id none
  superRemoveFromMessages_eq _ _ := rfl

def messageTo (ref : Nat) (id : String) (host : Nat) : Message := ⟨ref, id, 100, 1, host⟩

/-- Created, routed, expired, routed again, sent; a replica comes with the place it had at its sender. -/
def someSteps : List Step :=
  [.createNewMessage (messageTo 1 "M1" 3) (.enqueued 20 2), .receive (messageTo 2 "M2" 3) 3 15 .stays,
    .checkExpiredRoutes 30 [.enqueued 50 3], .tryRouteForMessageIntoLimbo [.enqueued 40 2], .transferDone "M1",
    .removeFromMessages "M2", .createNewMessage (messageTo 3 "M3" 2) .stays, .cgrForward (messageTo 3 "M3" 2) .stays]

theorem queues_consistent_someSteps :
    ∃ r, Runs.run (step threeHosts) (ContactGraphRouter.init (fun _ => 3) (fun _ => 0)) someSteps = some r ∧
      QueuesConsistent threeHosts r := by
  have hsome : (Runs.run (step threeHosts) (ContactGraphRouter.init (fun _ => 3) (fun _ => 0)) someSteps).isSome := by
    decide +kernel
  obtain ⟨r, hrun⟩ := Option.isSome_iff_exists.mp hsome
  exact ⟨r, hrun, queues_consistent threeHosts _ _ someSteps r hrun⟩

end RouterQueues
