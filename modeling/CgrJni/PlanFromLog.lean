import CgrJni.PlanText
import CgrJni.PlanOrder
import CgrJni.ApplicableRange

/-!
From the event log of a simulation to the contact plan of a node: the generator writes
the plan, the node reads the file, and what is then in its indexes is what the log says
of each connection.
-/

namespace PlanFromLog

open IonDb Rfx Ionadmin PlanOrder ContactPlanCreator Process PlanText

/-- What an entry of an index says, apart from what the node has added to it. -/
structure Planned where
  fromNode : Nat
  toNode : Nat
  fromTime : Int
  toTime : Int
  amount : Nat
  deriving DecidableEq

def Planned.reverse (y : Planned) : Planned := { y with fromNode := y.toNode, toNode := y.fromNode }

def ofSpan (span : Span) (amount : Nat) : Planned := ⟨span.fromNode, span.toNode, span.fromTime, span.toTime, amount⟩

def contactFacts (x : IonCXref) : Planned := ofSpan x.toSpan x.xmitRate

def rangeFacts (x : IonRXref) : Planned := ofSpan x.toSpan x.owlt

/-- A connection in the direction in which it was logged, with times counted from a reference time. -/
def logged (referenceTime : Int) (c : ContactPlanLine) (amount : Nat) : Planned :=
  ⟨c.fromNode, c.toNode, referenceTime + c.start, referenceTime + c.stop, amount⟩

/-- A connection is a contact in both directions. -/
def contactsOf (referenceTime : Int) (c : ContactPlanLine) : List Planned :=
  [logged referenceTime c c.datarate, (logged referenceTime c c.datarate).reverse]

/-- It has a range of one second, and one in the other direction if the first node is the smaller one. -/
def rangesOf (referenceTime : Int) (c : ContactPlanLine) : List Planned :=
  logged referenceTime c 1 :: if c.fromNode < c.toNode then [(logged referenceTime c 1).reverse] else []

/-- A connection that lasts for a second at least, and has neither node nor time zero. -/
def Lasting (referenceTime : Int) (c : ContactPlanLine) : Prop :=
  c.start < c.stop ∧ c.fromNode ≠ 0 ∧ c.toNode ≠ 0 ∧ referenceTime + c.start ≠ 0

instance (referenceTime : Int) (c : ContactPlanLine) : Decidable (Lasting referenceTime c) :=
  inferInstanceAs (Decidable (_ ∧ _))

/-- The nodes and the rate of a connection are integers of the generator, and no node is connected to itself. -/
def Sound (c : ContactPlanLine) : Prop :=
  c.fromNode < 2 ^ 31 ∧ c.toNode < 2 ^ 31 ∧ c.datarate < 2 ^ 31 ∧ c.fromNode ≠ c.toNode

variable {log rest : List LogLine} {cs : List ContactPlanLine} {c c' : ContactPlanLine}
variable {a b node1 node2 : Nat} {last : ℚ≥0} {referenceTime : Int}

/-! The connections of a log. -/

theorem connection_start (h : c ∈ connections last log) : ∃ e ∈ log, c.start = ⌊e.time⌋₊ := by
  induction log with
  | nil => cases h
  | cons e rest ih =>
    have hlater : c ∈ connections last rest → ∃ e' ∈ e :: rest, c.start = ⌊e'.time⌋₊ := by
      intro hmem
      obtain ⟨e', he', hstart⟩ := ih hmem
      exact ⟨e', List.mem_cons_of_mem _ he', hstart⟩
    cases e with
    | up time node1 node2 datarate =>
      cases List.mem_cons.mp h with
      | inl heq => exact ⟨_, List.mem_cons_self, by rw [heq]; rfl⟩
      | inr hmem => exact hlater hmem
    | down time node1 node2 => exact hlater h
    | other time => exact hlater h

theorem samePair_comm (a b node1 node2 : Nat) : samePair a b node1 node2 = samePair node1 node2 a b := by
  rw [Bool.eq_iff_iff, samePair_iff, samePair_iff]
  omega

theorem stopTime_up {time : ℚ≥0} {datarate : Nat} :
    stopTime last a b (.up time node1 node2 datarate :: rest) = stopTime last a b rest := rfl

theorem stopTime_down {time : ℚ≥0} : stopTime last a b (.down time node1 node2 :: rest) =
    if samePair a b node1 node2 then time else stopTime last a b rest := by
  rw [stopTime, downTime]
  split <;> rfl

/-- While two nodes are connected, they are connected again only after that has ended. -/
theorem stop_le_start (hordered : log.Pairwise fun e e' => e.time ≤ e'.time) (hup : Alternates a b true log)
    (hc : c ∈ connections last log) (hpair : samePair a b c.fromNode c.toNode = true) :
    ⌊stopTime last a b log⌋₊ ≤ c.start := by
  induction log with
  | nil => cases hc
  | cons e rest ih =>
    obtain ⟨hfirst, hrest⟩ := List.pairwise_cons.mp hordered
    cases e with
    | other time => exact ih hrest hup hc
    | up time node1 node2 datarate =>
      rw [Alternates] at hup
      by_cases hsame : samePair node1 node2 a b = true
      · rw [if_pos hsame] at hup
        exact absurd hup.1 (by decide)
      · rw [if_neg hsame] at hup
        rw [stopTime_up]
        cases List.mem_cons.mp hc with
        | inl heq =>
          rw [heq, samePair_comm] at hpair
          exact absurd hpair hsame
        | inr hmem => exact ih hrest hup hmem
    | down time node1 node2 =>
      rw [Alternates, samePair_comm] at hup
      rw [stopTime_down]
      by_cases hsame : samePair a b node1 node2 = true
      · rw [if_pos hsame]
        have hmem : c ∈ connections last rest := hc
        obtain ⟨e', he', hstart⟩ := connection_start hmem
        rw [hstart]
        exact Nat.floor_le_floor (hfirst e' he')
      · rw [if_neg hsame] at hup
        rw [if_neg hsame]
        exact ih hrest hup hc

/-- Of two connections of the same nodes the first has ended when the second begins. -/
theorem connections_pairwise (hordered : log.Pairwise fun e e' => e.time ≤ e'.time)
    (halternates : ∀ a b, ∃ isUp, Alternates a b isUp log) : (connections last log).Pairwise
      fun c c' => samePair c.fromNode c.toNode c'.fromNode c'.toNode = true → c.stop ≤ c'.start := by
  induction log with
  | nil => exact List.Pairwise.nil
  | cons e rest ih =>
    obtain ⟨-, hrest⟩ := List.pairwise_cons.mp hordered
    have hlater : ∀ a b, ∃ isUp, Alternates a b isUp rest := by
      intro a b
      obtain ⟨isUp, hup⟩ := halternates a b
      cases e with
      | other time => exact ⟨isUp, hup⟩
      | up time node1 node2 datarate =>
        rw [Alternates] at hup
        split at hup
        · exact ⟨true, hup.2⟩
        · exact ⟨isUp, hup⟩
      | down time node1 node2 =>
        rw [Alternates] at hup
        split at hup
        · exact ⟨false, hup.2⟩
        · exact ⟨isUp, hup⟩
    cases e with
    | other time => exact ih hrest hlater
    | down time node1 node2 => exact ih hrest hlater
    | up time node1 node2 datarate =>
      refine List.pairwise_cons.mpr ⟨?_, ih hrest hlater⟩
      intro c hc hpair
      obtain ⟨isUp, hup⟩ := halternates node1 node2
      rw [Alternates, if_pos (samePair_self node1 node2)] at hup
      exact stop_le_start hrest hup.2 hc hpair

/-! The lines of the plan as assertions. -/

theorem certain : (0 : ℚ) < 1 ∧ (1 : ℚ) ≤ 1 := ⟨zero_lt_one, le_rfl⟩

/-- The assertion that a line makes, if it passes the checks of its insertion. -/
def assertionOf (referenceTime : Int) : PlanLine → Option Assertion
  | .contact start stop fromNode toNode datarate =>
    (Span.check (referenceTime + start) (referenceTime + stop) fromNode toNode).map
      (fun span => .contact span datarate 1 certain)
  | .range start stop fromNode toNode owlt =>
    (Span.check (referenceTime + start) (referenceTime + stop) fromNode toNode).map (fun span => .range span owlt)

/-- The database after a line of the plan. -/
def assertLine (now : Int) (s : IonState) (line : PlanLine) : IonState :=
  (assertionOf now line).elim s (fun a => (assert s now a).1)

theorem check_eq_none {fromTime toTime : Int} (h : toTime ≤ fromTime) (fromNode toNode : Nat) :
    Span.check fromTime toTime fromNode toNode = none := by
  rw [Span.check, dif_neg]
  rintro ⟨-, hlt, -⟩
  omega

/-- A line that is no edit does not pass the checks either. -/
theorem assertionOf_of_editOf {line : PlanLine} (h : editOf referenceTime line = none) :
    assertionOf referenceTime line = none := by
  cases line with
  | contact start stop fromNode toNode datarate =>
    rw [editOf] at h
    split at h
    · rw [assertionOf, check_eq_none (by omega), Option.map_none]
    · cases h
  | range start stop fromNode toNode owlt =>
    rw [editOf] at h
    split at h
    · rw [assertionOf, check_eq_none (by omega), Option.map_none]
    · cases h

theorem edit_assertLine {now : Int} {line : PlanLine} {e : Edit} (h : editOf now line = some e) (s : IonState) :
    edit s (now, e) = some (assertLine now s line) := by
  cases line with
  | contact start stop fromNode toNode datarate =>
    rw [editOf] at h
    split at h
    · cases h
    · obtain rfl := Option.some.inj h
      simp only [edit, assertLine, assertionOf, rfxInsertContact]
      cases hspan : Span.check (now + start) (now + stop) fromNode toNode with
      | none => rfl
      | some span => simp [assert_contact]
  | range start stop fromNode toNode owlt =>
    rw [editOf] at h
    split at h
    · cases h
    · obtain rfl := Option.some.inj h
      simp only [edit, assertLine, assertionOf, rfxInsertRange]
      cases hspan : Span.check (now + start) (now + stop) fromNode toNode with
      | none => rfl
      | some span => simp [assert_range]

/-- The process with another database at a node. -/
def withIon (p : IonProcess) (nodeNbr : Nat) (part : Partition) (ion : IonState) : IonProcess :=
  { p with partitions := Function.update p.partitions nodeNbr (some { part with ion := ion }) }

theorem withIon_same (p : IonProcess) (nodeNbr : Nat) (part : Partition) (ion : IonState) :
    (withIon p nodeNbr part ion).partitions nodeNbr = some { part with ion := ion } := Function.update_self ..

theorem withIon_withIon (p : IonProcess) (nodeNbr : Nat) (part : Partition) (ion ion' : IonState) :
    withIon (withIon p nodeNbr part ion) nodeNbr { part with ion := ion } ion' = withIon p nodeNbr part ion' := by
  simp [withIon]

/-- The edits of a plan are its lines, one after the other. -/
theorem run_editNode {p : IonProcess} {nodeNbr : Nat} {part : Partition} (hpart : p.partitions nodeNbr = some part)
    (now : Int) (plan : List PlanLine) :
    Runs.run (fun nodes e => editNode nodes nodeNbr now e) p (plan.filterMap (editOf now)) =
      some (withIon p nodeNbr part (plan.foldl (assertLine now) part.ion)) := by
  induction plan generalizing p part with
  | nil =>
    have hsame : withIon p nodeNbr part part.ion = p := by
      rw [withIon, ← hpart, Function.update_eq_self]
    rw [List.foldl_nil, hsame]
    rfl
  | cons line rest ih =>
    rw [List.filterMap_cons, List.foldl_cons]
    cases he : editOf now line with
    | none =>
      have hline : assertLine now part.ion line = part.ion := by
        rw [assertLine, assertionOf_of_editOf he, Option.elim_none]
      rw [hline]
      exact ih hpart
    | some e =>
      have hedit : editNode p nodeNbr now e = some (withIon p nodeNbr part (assertLine now part.ion line)) := by
        rw [editNode, hpart, Option.bind_some, edit_assertLine he, Option.map_some]
        rfl
      simp only [Runs.run_cons, hedit, Option.bind_some]
      rw [ih (withIon_same p nodeNbr part _), withIon_withIon]

/-- Assertions that are all accepted lead to the same database. -/
theorem foldl_assertLine {now : Int} {s t : IonState} {plan : List PlanLine}
    (h : PlanOrder.execute s ((plan.filterMap (assertionOf now)).map (fun a => (now, a))) = some t) :
    plan.foldl (assertLine now) s = t := by
  induction plan generalizing s with
  | nil => exact Option.some.inj h
  | cons line rest ih =>
    rw [List.foldl_cons, assertLine]
    rw [List.filterMap_cons] at h
    cases ha : assertionOf now line with
    | none =>
      rw [ha] at h
      exact ih h
    | some a =>
      rw [ha, List.map_cons, PlanOrder.execute] at h
      split at h
      · cases h
      · exact ih h

/-! The plan of a list of connections. -/

def spanOf (referenceTime : Int) (c : ContactPlanLine) : Option Span :=
  Span.check (referenceTime + c.start) (referenceTime + c.stop) c.fromNode c.toNode

def assertionsOf (c : ContactPlanLine) (span : Span) : List Assertion :=
  [.range span 1, .contact span c.datarate 1 certain, .contact span.reverse c.datarate 1 certain]

def planOf (referenceTime : Int) (c : ContactPlanLine) : List Assertion :=
  (spanOf referenceTime c).elim [] (assertionsOf c)

theorem spanOf_eq_some {span : Span} : spanOf referenceTime c = some span ↔
    span.fromNode = c.fromNode ∧ span.toNode = c.toNode ∧ span.fromTime = referenceTime + c.start ∧
      span.toTime = referenceTime + c.stop := by
  rw [spanOf, Span.check]
  constructor
  · intro h
    split at h
    · obtain rfl := Option.some.inj h
      exact ⟨rfl, rfl, rfl, rfl⟩
    · cases h
  · rintro ⟨h1, h2, h3, h4⟩
    rw [dif_pos ⟨h3 ▸ span.fromTime_ne, h3 ▸ h4 ▸ span.interval, h1 ▸ span.fromNode_ne, h2 ▸ span.toNode_ne⟩]
    cases span
    simp only at h1 h2 h3 h4
    simp only [h1, h2, h3, h4]

theorem exists_spanOf : (∃ span, spanOf referenceTime c = some span) ↔ Lasting referenceTime c := by
  rw [spanOf, Span.check, Lasting]
  constructor
  · rintro ⟨span, h⟩
    split at h
    · omega
    · cases h
  · intro h
    rw [dif_pos (by omega)]
    exact ⟨_, rfl⟩

theorem check_reverse (fromTime toTime : Int) (fromNode toNode : Nat) :
    Span.check fromTime toTime toNode fromNode = (Span.check fromTime toTime fromNode toNode).map Span.reverse := by
  simp only [Span.check]
  split
  · rw [dif_pos (by omega)]
    rfl
  · rw [dif_neg (by omega)]
    rfl

theorem filterMap_written (referenceTime : Int) (c : ContactPlanLine) :
    (written c).filterMap (assertionOf referenceTime) = planOf referenceTime c := by
  simp only [written, toStringRange, toStringContact, toStringTwoWays, List.filterMap_cons, List.filterMap_nil,
    assertionOf, planOf, spanOf, check_reverse _ _ c.fromNode c.toNode]
  cases Span.check (referenceTime + c.start) (referenceTime + c.stop) c.fromNode c.toNode <;> rfl

theorem mem_planOf {a : Assertion} : a ∈ planOf referenceTime c ↔
    ∃ span, spanOf referenceTime c = some span ∧ a ∈ assertionsOf c span := by
  rw [planOf]
  cases spanOf referenceTime c <;> simp

/-- Assertions of different connections, and those of one connection, do not touch each other. -/
def Apart (a b : Assertion) : Prop :=
  (a.isRange = b.isRange → a.span.pair = b.span.pair → a.span.Disjoint b.span) ∧
    (a.isRange = true → b.isRange = true → a.span.pair = b.span.reverse.pair → a.span.Disjoint b.span)

instance : Std.Symm Apart where
  symm := by
    rintro a b ⟨h, h'⟩
    refine ⟨fun hkind hpair => (h hkind.symm hpair.symm).symm, fun ha hb hpair => (h' hb ha ?_).symm⟩
    have hback := Span.reverse_pair hpair
    rw [Span.reverse_reverse] at hback
    exact hback.symm

theorem not_disjoint_self (span : Span) : ¬ span.Disjoint span := by
  intro h
  have hopen := span.interval
  rw [Span.Disjoint] at h
  omega

theorem Apart.ne {a b : Assertion} (h : Apart a b) : a ≠ b := by
  rintro rfl
  exact not_disjoint_self a.span (h.1 rfl rfl)

theorem pair_ne_reverse {span : Span} (h : span.fromNode ≠ span.toNode) : span.pair ≠ span.reverse.pair := by
  intro heq
  exact h (Span.pair_eq_iff.mp heq).1

theorem assertionsOf_apart {span : Span} (h : span.fromNode ≠ span.toNode) : (assertionsOf c span).Pairwise Apart := by
  have hne := pair_ne_reverse h
  simp only [assertionsOf, List.pairwise_cons, List.mem_cons, List.not_mem_nil, or_false, forall_eq_or_imp, forall_eq,
    List.Pairwise.nil, and_true, Apart, Assertion.isRange, Assertion.span, Bool.true_eq_false, Bool.false_eq_true,
    implies_true, hne, IsEmpty.forall_iff]

/-- What is asserted for a connection is about its span, in one direction or the other. -/
theorem span_of_assertion {a : Assertion} {span : Span} (h : a ∈ assertionsOf c span) :
    a.span = span ∨ a.span = span.reverse := by
  simp only [assertionsOf, List.mem_cons, List.not_mem_nil, or_false] at h
  rcases h with rfl | rfl | rfl
  · exact Or.inl rfl
  · exact Or.inl rfl
  · exact Or.inr rfl

theorem disjoint_of_stop_le {span span' x y : Span} (hspan : spanOf referenceTime c = some span)
    (hspan' : spanOf referenceTime c' = some span') (hx : x = span ∨ x = span.reverse) (hy : y = span' ∨ y = span'.reverse)
    (hstop : c.stop ≤ c'.start) : x.Disjoint y := by
  obtain ⟨-, -, -, hend⟩ := spanOf_eq_some.mp hspan
  obtain ⟨-, -, hbegin, -⟩ := spanOf_eq_some.mp hspan'
  left
  have hxend : x.toTime = span.toTime := by cases hx with | inl h => rw [h] | inr h => rw [h]; rfl
  have hybegin : y.fromTime = span'.fromTime := by cases hy with | inl h => rw [h] | inr h => rw [h]; rfl
  omega

/-- Spans between the same nodes are of connections between the same nodes. -/
theorem samePair_of_span {span span' x y : Span} (hspan : spanOf referenceTime c = some span)
    (hspan' : spanOf referenceTime c' = some span') (hx : x = span ∨ x = span.reverse) (hy : y = span' ∨ y = span'.reverse)
    (hpair : x.pair = y.pair ∨ x.pair = y.reverse.pair) : samePair c.fromNode c.toNode c'.fromNode c'.toNode = true := by
  obtain ⟨h1, h2, -⟩ := spanOf_eq_some.mp hspan
  obtain ⟨h3, h4, -⟩ := spanOf_eq_some.mp hspan'
  rw [samePair_iff, ← h1, ← h2, ← h3, ← h4]
  simp only [Span.pair_eq_iff] at hpair
  rcases hx with rfl | rfl <;> rcases hy with rfl | rfl <;> simp only [Span.reverse] at hpair <;> omega

theorem plan_apart (hcs : cs.Pairwise fun c c' => samePair c.fromNode c.toNode c'.fromNode c'.toNode = true → c.stop ≤ c'.start)
    (hself : ∀ c ∈ cs, c.fromNode ≠ c.toNode) : (cs.flatMap (planOf referenceTime)).Pairwise Apart := by
  rw [List.pairwise_flatMap]
  constructor
  · intro c hc
    rw [planOf]
    cases hspan : spanOf referenceTime c with
    | none => exact List.Pairwise.nil
    | some span =>
      obtain ⟨h1, h2, -⟩ := spanOf_eq_some.mp hspan
      exact assertionsOf_apart (h1 ▸ h2 ▸ hself c hc)
  · apply hcs.imp
    intro c c' hstop a ha b hb
    obtain ⟨span, hspan, ha⟩ := mem_planOf.mp ha
    obtain ⟨span', hspan', hb⟩ := mem_planOf.mp hb
    have hx := span_of_assertion ha
    have hy := span_of_assertion hb
    constructor
    · intro _ hpair
      exact disjoint_of_stop_le hspan hspan' hx hy (hstop (samePair_of_span hspan hspan' hx hy (Or.inl hpair)))
    · intro _ _ hpair
      exact disjoint_of_stop_le hspan hspan' hx hy (hstop (samePair_of_span hspan hspan' hx hy (Or.inr hpair)))

theorem consistent_of_apart {plan : List Assertion} (h : plan.Pairwise Apart) : Consistent plan where
  nodup := h.imp (fun hab => hab.ne)
  disjoint _ ha _ hb hne := (h.forall ha hb hne).1

theorem compatible_of_apart {plan : List Assertion} (h : plan.Pairwise Apart) : Compatible plan := by
  intro span owlt span' owlt' hmem hmem' hlt hpair
  have hback := Span.reverse_pair hpair
  rw [Span.reverse_reverse] at hback
  have hne : Assertion.range span owlt ≠ .range span' owlt' := by
    rintro heq
    obtain ⟨rfl, -⟩ := Assertion.range.inj heq
    have hsame := (Span.pair_eq_iff.mp hpair).1
    simp only [Span.reverse] at hsame
    omega
  exact Or.inl ((h.forall hmem hmem' hne).2 rfl rfl hback.symm)

/-! What is installed. -/

@[simp] theorem contactFacts_content (x : IonCXref) : contactFacts (contactContent x) = contactFacts x := rfl

@[simp] theorem rangeFacts_content (x : IonRXref) : rangeFacts (rangeContent x) = rangeFacts x := rfl

theorem ofSpan_spanOf {span : Span} (h : spanOf referenceTime c = some span) (amount : Nat) :
    ofSpan span amount = logged referenceTime c amount ∧
      ofSpan span.reverse amount = (logged referenceTime c amount).reverse := by
  obtain ⟨h1, h2, h3, h4⟩ := spanOf_eq_some.mp h
  simp only [ofSpan, Span.reverse, logged, Planned.reverse, h1, h2, h3, h4, and_self]

theorem mem_plan {a : Assertion} : a ∈ cs.flatMap (planOf referenceTime) ↔
    ∃ c ∈ cs, ∃ span, spanOf referenceTime c = some span ∧ a ∈ assertionsOf c span := by
  simp only [List.mem_flatMap, mem_planOf]

theorem contact_mem_assertionsOf {span x : Span} {xmitRate : Nat} {prob : ℚ} {valid : 0 < prob ∧ prob ≤ 1} :
    Assertion.contact x xmitRate prob valid ∈ assertionsOf c span ↔
      (x = span ∨ x = span.reverse) ∧ xmitRate = c.datarate ∧ prob = 1 := by
  simp only [assertionsOf, List.mem_cons, reduceCtorEq, Assertion.contact.injEq, List.not_mem_nil, or_false, false_or]
  tauto

theorem range_mem_assertionsOf {span x : Span} {owlt : Nat} :
    Assertion.range x owlt ∈ assertionsOf c span ↔ x = span ∧ owlt = 1 := by
  simp [assertionsOf]

theorem contacts_installed {s₀ s : IonState} {all : List Assertion} (hI : Installed s₀ all s)
    (hall : ∀ a, a ∈ all ↔ a ∈ cs.flatMap (planOf referenceTime)) (y : Planned) :
    (∃ x ∈ s.contactIndex, contactFacts x = y) ↔ ∃ c ∈ cs, Lasting referenceTime c ∧ y ∈ contactsOf referenceTime c := by
  constructor
  · rintro ⟨x, hx, rfl⟩
    obtain ⟨span, xmitRate, prob, valid, hmem, heq⟩ := (hI.contact _).mp ⟨x, hx, rfl⟩
    obtain ⟨c, hc, span', hspan, ha⟩ := mem_plan.mp ((hall _).mp hmem)
    obtain ⟨hx', rfl, -⟩ := contact_mem_assertionsOf.mp ha
    obtain ⟨hforward, hback⟩ := ofSpan_spanOf hspan c.datarate
    have hfacts : contactFacts x = ofSpan span c.datarate := congrArg contactFacts heq
    refine ⟨c, hc, exists_spanOf.mp ⟨span', hspan⟩, ?_⟩
    rw [contactsOf, hfacts, ← hback, ← hforward]
    cases hx' with
    | inl h => simp [h]
    | inr h => simp [h]
  · rintro ⟨c, hc, hlasting, hy⟩
    obtain ⟨span, hspan⟩ := exists_spanOf.mpr hlasting
    obtain ⟨hforward, hback⟩ := ofSpan_spanOf hspan c.datarate
    obtain ⟨span', hspan', rfl⟩ : ∃ span', (span' = span ∨ span' = span.reverse) ∧ ofSpan span' c.datarate = y := by
      rw [contactsOf, ← hback, ← hforward, List.mem_cons, List.mem_singleton] at hy
      cases hy with
      | inl h => exact ⟨span, Or.inl rfl, h.symm⟩
      | inr h => exact ⟨span.reverse, Or.inr rfl, h.symm⟩
    have hmem : Assertion.contact span' c.datarate 1 certain ∈ all :=
      (hall _).mpr (mem_plan.mpr ⟨c, hc, span, hspan, contact_mem_assertionsOf.mpr ⟨hspan', rfl, rfl⟩⟩)
    obtain ⟨x, hx, heq⟩ := (hI.contact _).mpr ⟨span', c.datarate, 1, certain, hmem, rfl⟩
    exact ⟨x, hx, congrArg contactFacts heq⟩

/-- No range is given for the reverse of a canonical one, at the same start. -/
theorem reverse_free {plan : List Assertion} (h : plan.Pairwise Apart) {span span' : Span} {owlt owlt' : Nat}
    (hmem : Assertion.range span owlt ∈ plan) (hlt : span.fromNode < span.toNode)
    (hmem' : Assertion.range span' owlt' ∈ plan) : span'.key ≠ span.reverse.key := by
  intro hkey
  obtain ⟨hpair, hstart⟩ := Span.key_eq_iff.mp hkey
  cases compatible_of_apart h span owlt span' owlt' hmem hmem' hlt hpair with
  | inl hdisjoint => exact hdisjoint.start_ne hstart.symm
  | inr hsame =>
    have hne : Assertion.range span' owlt' ≠ .range span owlt := by
      intro heq
      obtain ⟨rfl, -⟩ := Assertion.range.inj heq
      exact pair_ne_reverse (Nat.ne_of_lt hlt) hpair
    exact ((h.forall hmem' hmem hne).2 rfl rfl hpair).start_ne hstart

theorem ranges_installed {s₀ s : IonState} {all : List Assertion} (hI : Installed s₀ all s)
    (hall : ∀ a, a ∈ all ↔ a ∈ cs.flatMap (planOf referenceTime))
    (hapart : (cs.flatMap (planOf referenceTime)).Pairwise Apart) (y : Planned) :
    (∃ x ∈ s.rangeIndex, rangeFacts x = y) ↔ ∃ c ∈ cs, Lasting referenceTime c ∧ y ∈ rangesOf referenceTime c := by
  constructor
  · rintro ⟨x, hx, rfl⟩
    rcases (hI.range _).mp ⟨x, hx, rfl⟩ with ⟨span, owlt, hmem, heq⟩ | ⟨span, owlt, hmem, hlt, -, heq⟩
    · obtain ⟨c, hc, span', hspan, ha⟩ := mem_plan.mp ((hall _).mp hmem)
      obtain ⟨rfl, rfl⟩ := range_mem_assertionsOf.mp ha
      have hfacts : rangeFacts x = ofSpan span 1 := congrArg rangeFacts heq
      refine ⟨c, hc, exists_spanOf.mp ⟨span, hspan⟩, ?_⟩
      rw [hfacts, (ofSpan_spanOf hspan 1).1]
      exact List.mem_cons_self
    · obtain ⟨c, hc, span', hspan, ha⟩ := mem_plan.mp ((hall _).mp hmem)
      obtain ⟨rfl, rfl⟩ := range_mem_assertionsOf.mp ha
      obtain ⟨h1, h2, -⟩ := spanOf_eq_some.mp hspan
      have hfacts : rangeFacts x = ofSpan span.reverse 1 := congrArg rangeFacts heq
      refine ⟨c, hc, exists_spanOf.mp ⟨span, hspan⟩, ?_⟩
      rw [hfacts, (ofSpan_spanOf hspan 1).2, rangesOf, if_pos (h1 ▸ h2 ▸ hlt)]
      exact List.mem_cons_of_mem _ List.mem_cons_self
  · rintro ⟨c, hc, hlasting, hy⟩
    obtain ⟨span, hspan⟩ := exists_spanOf.mpr hlasting
    obtain ⟨hforward, hback⟩ := ofSpan_spanOf hspan 1
    obtain ⟨h1, h2, -⟩ := spanOf_eq_some.mp hspan
    have hplan : Assertion.range span 1 ∈ cs.flatMap (planOf referenceTime) :=
      mem_plan.mpr ⟨c, hc, span, hspan, range_mem_assertionsOf.mpr ⟨rfl, rfl⟩⟩
    have hmem := (hall _).mpr hplan
    rw [rangesOf, List.mem_cons] at hy
    cases hy with
    | inl heq =>
      obtain ⟨x, hx, hcontent⟩ := (hI.range (assertedContent span 1)).mpr (Or.inl ⟨span, 1, hmem, rfl⟩)
      have hfacts : rangeFacts x = ofSpan span 1 := congrArg rangeFacts hcontent
      exact ⟨x, hx, by rw [hfacts, hforward, heq]⟩
    | inr hrev =>
      split at hrev
      · rename_i hlt
        rw [← h1, ← h2] at hlt
        have hfree : ∀ n o, Assertion.range n o ∈ all → n.key ≠ span.reverse.key :=
          fun n o hn => reverse_free hapart hplan hlt ((hall _).mp hn)
        obtain ⟨x, hx, hcontent⟩ := (hI.range (imputedContent span 1)).mpr (Or.inr ⟨span, 1, hmem, hlt, hfree, rfl⟩)
        have hfacts : rangeFacts x = ofSpan span.reverse 1 := congrArg rangeFacts hcontent
        exact ⟨x, hx, by rw [hfacts, hback, List.mem_singleton.mp hrev]⟩
      · cases hrev

/-! What the generator writes for a log. -/

theorem start_le_stop (hordered : log.Pairwise fun e e' => e.time ≤ e'.time) (hended : ∀ e ∈ log, e.time ≤ last)
    (h : c ∈ connections last log) : c.start ≤ c.stop := by
  induction log with
  | nil => cases h
  | cons e rest ih =>
    obtain ⟨hfirst, hrest⟩ := List.pairwise_cons.mp hordered
    have hlater : c ∈ connections last rest → c.start ≤ c.stop :=
      ih hrest (fun e' he' => hended e' (List.mem_cons_of_mem _ he'))
    cases e with
    | down time node1 node2 => exact hlater h
    | other time => exact hlater h
    | up time node1 node2 datarate =>
      cases List.mem_cons.mp h with
      | inr hmem => exact hlater hmem
      | inl heq =>
        rw [heq]
        exact Nat.floor_le_floor (time_le_stopTime hfirst (hended _ List.mem_cons_self) node1 node2)

theorem main_perm {plan : List PlanLine} (hlog : WellFormed log) (hdistinct : Distinct (connections (lastTime log) log))
    (hplan : main log = some plan) : plan.Perm ((connections (lastTime log) log).flatMap written) := by
  obtain ⟨final, hfinal, rfl⟩ := Option.map_eq_some_iff.mp hplan
  have hlast : lastTime log = final.time := by rw [lastTime, hfinal]; rfl
  have hperm := (readLines_total (ready_start hlog hdistinct)).flatMap_right written
  rw [List.flatMap_map, hlast] at hperm
  rw [hlast]
  exact hperm

theorem fits_written (hstart : c.start ≤ c.stop) (hstop : c.stop < 2 ^ 31) (hsound : Sound c) :
    ∀ line ∈ written c, Fits line := by
  obtain ⟨h1, h2, h3, -⟩ := hsound
  simp [written, toStringRange, toStringContact, toStringTwoWays, Fits]
  omega

theorem fits_plan {plan : List PlanLine} (hlog : WellFormed log) (hdistinct : Distinct (connections (lastTime log) log))
    (hsound : ∀ c ∈ connections (lastTime log) log, Sound c) (hplan : main log = some plan) : ∀ line ∈ plan, Fits line := by
  intro line hline
  have hready := ready_start hlog hdistinct
  obtain ⟨c, hc, hmem⟩ := List.mem_flatMap.mp ((main_perm hlog hdistinct hplan).mem_iff.mp hline)
  exact fits_written (start_le_stop hready.ordered hready.ended hc) (hdistinct.stops c hc).2 (hsound c hc) line hmem

/-- The indexes have, for every connection of the log, a contact in both directions and a range in the
direction of the log, and in the other direction if the first node is the smaller one; and nothing else. -/
structure FromLog (referenceTime : Int) (log : List LogLine) (ion : IonState) : Prop where
  contacts : ∀ y, (∃ x ∈ ion.contactIndex, contactFacts x = y) ↔
    ∃ c ∈ connections (lastTime log) log, Lasting referenceTime c ∧ y ∈ contactsOf referenceTime c
  ranges : ∀ y, (∃ x ∈ ion.rangeIndex, rangeFacts x = y) ↔
    ∃ c ∈ connections (lastTime log) log, Lasting referenceTime c ∧ y ∈ rangesOf referenceTime c

theorem assertLines_fromLog {plan : List PlanLine} {s : IonState} (hlog : WellFormed log)
    (hdistinct : Distinct (connections (lastTime log) log)) (hsound : ∀ c ∈ connections (lastTime log) log, Sound c)
    (hplan : main log = some plan) (hcontacts : s.contactIndex = SortedIndex.empty)
    (hranges : s.rangeIndex = SortedIndex.empty) (now : Int) : FromLog now log (plan.foldl (assertLine now) s) := by
  have hapart : ((connections (lastTime log) log).flatMap (planOf now)).Pairwise Apart :=
    plan_apart (connections_pairwise hlog.ordered (fun a b => ⟨false, hlog.alternates a b⟩)) (fun c hc => (hsound c hc).2.2.2)
  have hasserted : (plan.filterMap (assertionOf now)).Perm ((connections (lastTime log) log).flatMap (planOf now)) := by
    have hfiltered := (main_perm hlog hdistinct hplan).filterMap (assertionOf now)
    rw [List.filterMap_flatMap] at hfiltered
    simpa only [filterMap_written] using hfiltered
  obtain ⟨ion, all, hexecute, hinstalled, hall⟩ :=
    execute_installed (consistent_of_apart hapart) (compatible_of_apart hapart)
      ((plan.filterMap (assertionOf now)).map (fun a => (now, a))) (installed_empty hcontacts hranges)
      (by simpa [Function.comp_def] using hasserted)
  rw [foldl_assertLine hexecute]
  exact ⟨contacts_installed hinstalled hall, ranges_installed hinstalled hall hapart⟩

/-- The node's database is what the lines of the file assert, one after the other. -/
theorem runIonadmin_lines (atof : Platform.CString → ℚ) {p : AdminProcess} {nodeNbr : Nat} (now : Int)
    {plan : List PlanLine} {part : Partition} (hfits : ∀ line ∈ plan, Fits line)
    (hpart : p.nodes.partitions nodeNbr = some part) : runIonadmin atof p nodeNbr now (some (fileText plan)) =
      some ⟨withIon p.nodes nodeNbr part (plan.foldl (assertLine now) part.ion), now⟩ := by
  rw [runIonadmin]
  simp only [readLines_fileText hfits]
  rw [processLines_fileText atof nodeNbr now hfits]
  simp only [run_editNode hpart, Option.map_some]

/-- Two nodes that meet twice, the second time with the larger node first. -/
def meetTwice : List LogLine := [.up 10 1 2 100, .down 20 2 1, .up 20 2 1 100, .other 40]

theorem meetTwice_wellFormed : WellFormed meetTwice where
  ordered := by
    simp only [meetTwice, List.pairwise_cons, LogLine.time]
    norm_num
  alternates a b := by
    have hswap : samePair 2 1 a b = samePair 1 2 a b := by
      rw [Bool.eq_iff_iff, samePair_iff, samePair_iff]
      omega
    simp only [meetTwice, Alternates, hswap]
    by_cases hpair : samePair 1 2 a b = true <;> simp [hpair]

theorem meetTwice_connections : connections (lastTime meetTwice) meetTwice = [⟨10, 20, 1, 2, 100⟩, ⟨20, 42, 2, 1, 100⟩] := by
  have hend : ⌊(40 + 2 : ℚ≥0)⌋₊ = 42 := by norm_num
  simp [meetTwice, connections, stopTime, downTime, samePair, lastTime, LogLine.time, hend]

theorem meetTwice_distinct : Distinct (connections (lastTime meetTwice) meetTwice) := by
  rw [meetTwice_connections]
  exact ⟨by decide, by decide⟩

theorem meetTwice_sound : ∀ c ∈ connections (lastTime meetTwice) meetTwice, Sound c := by
  rw [meetTwice_connections]
  simp [Sound]

/-- When all ranges have one latency, a contact has that latency if some range covers its start. -/
theorem getApplicableRange_of_same {s : IonState} {owlt : Nat} (hsame : ∀ r ∈ s.rangeIndex, r.owlt = owlt) (x : IonCXref) :
    (Libcgr.getApplicableRange s x = some owlt ∨ Libcgr.getApplicableRange s x = none) ∧
      (Libcgr.getApplicableRange s x = some owlt ↔
        ∃ r ∈ s.rangeIndex, r.pair = x.pair ∧ 0 < r.fromTime ∧ r.fromTime ≤ x.fromTime ∧ x.fromTime ≤ r.toTime) := by
  constructor
  · cases hfound : Libcgr.getApplicableRange s x with
    | none => exact Or.inr rfl
    | some found =>
      obtain ⟨r, hr, -, -, -, -, howlt, -⟩ := ApplicableRange.getApplicableRange_eq_some.mp hfound
      rw [← howlt, hsame r hr]
      exact Or.inl rfl
  rw [ApplicableRange.getApplicableRange_eq_some]
  constructor
  · rintro ⟨r, hr, hpair, hpos, hstart, hend, -⟩
    exact ⟨r, hr, hpair, hpos, hstart, hend⟩
  · rintro ⟨r₀, hr₀, hcovers₀⟩
    -- of the ranges that cover the start, the one that begins first
    let covering := s.rangeIndex.entries.filter
      (fun r => decide (r.pair = x.pair ∧ 0 < r.fromTime ∧ r.fromTime ≤ x.fromTime ∧ x.fromTime ≤ r.toTime))
    have hmem : ∀ r, r ∈ covering ↔
        r ∈ s.rangeIndex ∧ r.pair = x.pair ∧ 0 < r.fromTime ∧ r.fromTime ≤ x.fromTime ∧ x.fromTime ≤ r.toTime := by
      intro r
      simp only [covering, List.mem_filter, decide_eq_true_eq]
      exact Iff.rfl
    obtain ⟨r, hr, hleast⟩ := covering.toFinset.exists_min_image (fun r => r.fromTime)
      ⟨r₀, List.mem_toFinset.mpr ((hmem r₀).mpr ⟨hr₀, hcovers₀⟩)⟩
    obtain ⟨hidx, hpair, hpos, hstart, hend⟩ := (hmem r).mp (List.mem_toFinset.mp hr)
    refine ⟨r, hidx, hpair, hpos, hstart, hend, hsame r hidx, ?_⟩
    intro y hy hypair hypos hearlier
    by_contra hopen
    have hcovers := (hmem y).mpr ⟨hy, hypair, hypos, by omega, by omega⟩
    have hle := hleast y (List.mem_toFinset.mpr hcovers)
    omega

/-- A range in the direction of a contact covers its start, if the other nodes' connections allow. -/
theorem FromLog.range_iff {now : Int} {ion : IonState} (h : FromLog now log ion) (x : IonCXref) :
    (∃ r ∈ ion.rangeIndex, r.pair = x.pair ∧ 0 < r.fromTime ∧ r.fromTime ≤ x.fromTime ∧ x.fromTime ≤ r.toTime) ↔
      ∃ c ∈ connections (lastTime log) log, Lasting now c ∧ 0 < now + c.start ∧ now + c.start ≤ x.fromTime ∧
        x.fromTime ≤ now + c.stop ∧ ((c.fromNode = x.fromNode ∧ c.toNode = x.toNode) ∨
          (c.fromNode = x.toNode ∧ c.toNode = x.fromNode ∧ c.fromNode < c.toNode)) := by
  constructor
  · rintro ⟨r, hr, hpair, hpos, hstart, hend⟩
    obtain ⟨c, hc, hlasting, hmem⟩ := (h.ranges _).mp ⟨r, hr, rfl⟩
    obtain ⟨h1, h2⟩ := Span.pair_eq_iff.mp hpair
    refine ⟨c, hc, hlasting, ?_⟩
    rw [rangesOf, List.mem_cons] at hmem
    cases hmem with
    | inl heq =>
      simp only [rangeFacts, ofSpan, logged, Planned.mk.injEq] at heq
      omega
    | inr hrev =>
      split at hrev
      · have heq := List.mem_singleton.mp hrev
        simp only [rangeFacts, ofSpan, logged, Planned.reverse, Planned.mk.injEq] at heq
        omega
      · cases hrev
  · rintro ⟨c, hc, hlasting, hpos, hstart, hend, hnodes⟩
    obtain ⟨y, hy, hfacts⟩ : ∃ y ∈ rangesOf now c, y.fromNode = x.fromNode ∧ y.toNode = x.toNode ∧
        y.fromTime = now + c.start ∧ y.toTime = now + c.stop := by
      rcases hnodes with ⟨h1, h2⟩ | ⟨h1, h2, hlt⟩
      · exact ⟨_, List.mem_cons_self, h1, h2, rfl, rfl⟩
      · refine ⟨(logged now c 1).reverse, ?_, h2, h1, rfl, rfl⟩
        rw [rangesOf, if_pos hlt]
        exact List.mem_cons_of_mem _ List.mem_cons_self
    obtain ⟨r, hr, rfl⟩ := (h.ranges y).mpr ⟨c, hc, hlasting, hy⟩
    simp only [rangeFacts, ofSpan] at hfacts
    exact ⟨r, hr, Span.pair_eq_iff.mpr ⟨hfacts.1, hfacts.2.1⟩, by omega, by omega, by omega⟩

theorem FromLog.owlt_one {now : Int} {ion : IonState} (h : FromLog now log ion) : ∀ r ∈ ion.rangeIndex, r.owlt = 1 := by
  intro r hr
  obtain ⟨c, -, -, hmem⟩ := (h.ranges _).mp ⟨r, hr, rfl⟩
  rw [rangesOf, List.mem_cons] at hmem
  cases hmem with
  | inl heq => exact congrArg Planned.amount heq
  | inr hrev =>
    split at hrev
    · exact congrArg Planned.amount (List.mem_singleton.mp hrev)
    · cases hrev

/-- Different connections of the same nodes do not overlap. -/
theorem connections_apart (hlog : WellFormed log) (hc : c ∈ connections last log) (hc' : c' ∈ connections last log)
    (hne : c ≠ c') (hpair : samePair c.fromNode c.toNode c'.fromNode c'.toNode = true) :
    c.stop ≤ c'.start ∨ c'.stop ≤ c.start := by
  have hpairwise := @connections_pairwise log last hlog.ordered (fun a b => ⟨false, hlog.alternates a b⟩)
  obtain ⟨i, hi, rfl⟩ := List.getElem_of_mem hc
  obtain ⟨j, hj, rfl⟩ := List.getElem_of_mem hc'
  rcases Nat.lt_trichotomy i j with hlt | rfl | hgt
  · exact Or.inl (List.pairwise_iff_getElem.mp hpairwise i j hi hj hlt hpair)
  · exact absurd rfl hne
  · exact Or.inr (List.pairwise_iff_getElem.mp hpairwise j i hj hi hgt (by rw [samePair_comm]; exact hpair))

/-- Another connection of the nodes, logged the other way round, ends in the second in which this one begins. -/
def Relayed (now : Int) (log : List LogLine) (c : ContactPlanLine) : Prop :=
  ∃ c' ∈ connections (lastTime log) log, Lasting now c' ∧ c'.fromNode = c.toNode ∧ c'.toNode = c.fromNode ∧ c'.stop = c.start

/-- In a plan made from a log, the contact in the direction of the log always has a range. The one back
has a range only if the smaller node was logged first, or by the range of a connection just before. -/
theorem runIonadmin_ranges (atof : Platform.CString → ℚ) (p : AdminProcess) (nodeNbr : Nat) {now : Int}
    {plan : List PlanLine} {part : Partition} (hnow : 0 < now) (hlog : WellFormed log)
    (hdistinct : Distinct (connections (lastTime log) log)) (hsound : ∀ c ∈ connections (lastTime log) log, Sound c)
    (hplan : main log = some plan) (hpart : p.nodes.partitions nodeNbr = some part)
    (hcontacts : part.ion.contactIndex = SortedIndex.empty) (hranges : part.ion.rangeIndex = SortedIndex.empty) :
    ∃ ion, runIonadmin atof p nodeNbr now (some (fileText plan)) = some ⟨withIon p.nodes nodeNbr part ion, now⟩ ∧
      ∀ c ∈ connections (lastTime log) log, Lasting now c → ∀ x ∈ ion.contactIndex,
        (contactFacts x = logged now c c.datarate → Libcgr.getApplicableRange ion x = some 1) ∧
        (contactFacts x = (logged now c c.datarate).reverse →
          (Libcgr.getApplicableRange ion x = some 1 ↔ c.fromNode < c.toNode ∨ Relayed now log c) ∧
          (Libcgr.getApplicableRange ion x = none ↔ ¬ (c.fromNode < c.toNode ∨ Relayed now log c))) := by
  have hfrom := assertLines_fromLog hlog hdistinct hsound hplan hcontacts hranges now
  refine ⟨_, runIonadmin_lines atof now (fits_plan hlog hdistinct hsound hplan) hpart, ?_⟩
  generalize plan.foldl (assertLine now) part.ion = ion at hfrom ⊢
  intro c hc hlasting x hx
  obtain ⟨hsome, hiff⟩ := getApplicableRange_of_same hfrom.owlt_one x
  have hopen := hlasting.1
  rw [hfrom.range_iff] at hiff
  constructor
  · intro hfacts
    simp only [contactFacts, ofSpan, logged, Planned.mk.injEq] at hfacts
    exact hiff.mpr ⟨c, hc, hlasting, by omega, by omega, by omega, by omega⟩
  · intro hfacts
    simp only [contactFacts, ofSpan, logged, Planned.reverse, Planned.mk.injEq] at hfacts
    have hback : Libcgr.getApplicableRange ion x = some 1 ↔ c.fromNode < c.toNode ∨ Relayed now log c := by
      rw [hiff]
      constructor
      · rintro ⟨c', hc', hlasting', -, hstart, hend, ⟨h1, h2⟩ | ⟨h1, h2, hlt⟩⟩
        · right
          refine ⟨c', hc', hlasting', by omega, by omega, ?_⟩
          have hself := (hsound c hc).2.2.2
          have hne : c' ≠ c := by
            rintro rfl
            omega
          have happart := connections_apart hlog hc' hc hne (samePair_iff.mpr (by omega))
          omega
        · left
          omega
      · rintro (hlt | ⟨c', hc', hlasting', h1, h2, hstop⟩)
        · exact ⟨c, hc, hlasting, by omega, by omega, by omega, by omega⟩
        · have hopen' := hlasting'.1
          exact ⟨c', hc', hlasting', by omega, by omega, by omega, by omega⟩
    refine ⟨hback, ?_⟩
    rw [← hback]
    cases hsome with
    | inl h => simp [h]
    | inr h => simp [h]

/-- The second meeting, logged from the larger node, has a range for the way back, from the first one. -/
theorem runIonadmin_ranges_meetTwice : ∃ plan ion, main meetTwice = some plan ∧
    runIonadmin (fun _ => 1) ⟨initializeNode IonProcess.start 1, 0⟩ 1 1000 (some (fileText plan)) =
      some ⟨withIon (initializeNode IonProcess.start 1) 1 (Partition.new 1) ion, 1000⟩ ∧
    ∀ x ∈ ion.contactIndex, contactFacts x = ⟨1, 2, 1020, 1042, 100⟩ → Libcgr.getApplicableRange ion x = some 1 := by
  obtain ⟨ion, hrun, hback⟩ := runIonadmin_ranges (fun _ => 1) ⟨initializeNode IonProcess.start 1, 0⟩ 1
    (show (0 : Int) < 1000 by decide) meetTwice_wellFormed meetTwice_distinct meetTwice_sound rfl rfl rfl rfl
  refine ⟨_, ion, rfl, hrun, ?_⟩
  intro x hx hfacts
  rw [meetTwice_connections] at hback
  have hc := hback ⟨20, 42, 2, 1, 100⟩ (by simp) (by decide) x hx
  refine ((hc.2 hfacts).1).mpr (Or.inr ⟨⟨10, 20, 1, 2, 100⟩, ?_, by decide, rfl, rfl, rfl⟩)
  rw [meetTwice_connections]
  simp

end PlanFromLog
