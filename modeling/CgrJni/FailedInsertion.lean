import CgrJni.RfxContacts

/-!
Contact insertion when requests for memory may fail. The requests of a call are
numbered in the order in which it makes them; a function that gives up hands
back what it has done so far.
-/

namespace FailedInsertion

open IonDb

/-- Which of the requests to come succeed. -/
abbrev Outcomes := Nat → Bool

def Outcomes.after (outcomes : Outcomes) (n : Nat) : Outcomes := fun i => outcomes (n + i)

/-- What a failed insertion leaves of a tree: the rotations on the way down are
made before the block for the new node is asked for, and stay. -/
structure Remains where
  nodes : NodeTree → IonNode → NodeTree
  contactIndex : ContactIndex → IonCXref → ContactIndex
  timeline : List IonEvent → IonEvent → List IonEvent

variable (remains : Remains)

/-- A block is asked for and put into a tree; where the second request fails, the block is freed. -/
def insertBlock {T : Type} (outcomes : Outcomes) (tree left inserted : T) : Except T T :=
  if outcomes 0 then
    if outcomes 1 then .ok inserted else .error left
  else .error tree

/-- Nothing looks at what the request for the list of embargoes comes to. -/
def addNode (outcomes : Outcomes) (nodes : NodeTree) (nodeNbr : Nat)
    (h : Rfx.findNode nodes nodeNbr = none) : Except NodeTree (NodeTree × Outcomes) :=
  (insertBlock outcomes nodes (remains.nodes nodes ⟨nodeNbr, []⟩) (Rfx.addNode nodes nodeNbr h)).map
    (fun nodes => (nodes, outcomes.after 3))

def loadNode (outcomes : Outcomes) (nodes : NodeTree) (nodeNbr : Nat) :
    Except NodeTree (NodeTree × Outcomes) :=
  match h : Rfx.findNode nodes nodeNbr with
  | some _ => .ok (nodes, outcomes)
  | none => addNode remains outcomes nodes nodeNbr h

def insertEvents (outcomes : Outcomes) (timeline : List IonEvent) :
    List IonEvent → Except (List IonEvent) (List IonEvent)
  | [] => .ok timeline
  | event :: events =>
    match insertBlock outcomes timeline (remains.timeline timeline event)
        (Rfx.insertEvent timeline event) with
    | .error timeline => .error timeline
    | .ok timeline => insertEvents (outcomes.after 2) timeline events

def insertCXref (outcomes : Outcomes) (s : IonState) (now : Int) (cxref : IonCXref)
    (h : s.contactIndex.lookup cxref.key = none) : Except IonState IonState :=
  match loadNode remains outcomes s.nodes cxref.toNode with
  | .error nodes => .error { s with nodes := nodes }
  | .ok (nodes, outcomes) =>
    match loadNode remains outcomes nodes cxref.fromNode with
    | .error nodes => .error { s with nodes := nodes }
    | .ok (nodes, outcomes) =>
      match insertBlock outcomes s.contactIndex (remains.contactIndex s.contactIndex cxref)
          (s.contactIndex.insert cxref h) with
      | .error contactIndex => .error { s with nodes := nodes, contactIndex := contactIndex }
      | .ok contactIndex =>
        -- from here on the entry stays in the index, whatever happens
        match insertEvents remains (outcomes.after 2) s.timeline (Rfx.contactEvents cxref) with
        | .error timeline =>
          .error { s with
            nodes := nodes
            contactIndex := contactIndex
            timeline := timeline
            lastAddr := cxref.addr }
        | .ok timeline =>
          .ok { s with
            nodes := nodes
            contactIndex := contactIndex
            timeline := timeline
            lastEditTime := Rfx.editTime s now cxref.toTime
            lastAddr := cxref.addr }

/-- A stub, which rolls nothing back. -/
def sdrCancelXn (s : IonState) : IonState := s

/-- The first two requests are for the record and for its place in the list. -/
def addContact (outcomes : Outcomes) (s : IonState) (now : Int) (span : Span) (xmitRate : Nat) (prob : ℚ)
    (h : s.contactIndex.lookup span.key = none) : IonState × PsmAddress :=
  if outcomes 0 ∧ outcomes 1 then
    let elt := s.lastObject + 1
    let cxref := Rfx.contactEntry s span xmitRate elt
    match insertCXref remains (outcomes.after 2)
        { s with contacts := s.contacts ++ [(elt, ⟨span, xmitRate, prob⟩)], lastObject := elt } now cxref h with
    | .error s => (sdrCancelXn s, 0)
    | .ok s => (s, cxref.addr)
  else (s, 0)

def insertContact (outcomes : Outcomes) (s : IonState) (now : Int) (span : Span) (xmitRate : Nat) (prob : ℚ) :
    IonState × PsmAddress :=
  match h : s.contactIndex.lookup span.key with
  | some cxref => (s, if cxref.xmitRate = xmitRate then cxref.addr else 0)
  | none =>
    if Rfx.overlapsContact s.contactIndex span then (s, 0)
    else addContact remains outcomes s now span xmitRate prob h

def rfxInsertContact (outcomes : Outcomes) (s : IonState) (now fromTime toTime : Int)
    (fromNode toNode xmitRate : Nat) (prob : ℚ) : IonState × PsmAddress :=
  match Span.check fromTime toTime fromNode toNode with
  | none => (s, 0)
  | some span =>
    if 0 < prob ∧ prob ≤ 1 then insertContact remains outcomes s now span xmitRate prob else (s, 0)

/-- Whether the code looks at what a request comes to. -/
inductive Request
  | checked
  | unchecked
  deriving DecidableEq

/-- Every request that is looked at succeeds. -/
def Met (requests : List Request) (outcomes : Outcomes) : Prop :=
  ∀ i, requests[i]? = some .checked → outcomes i = true

def blockRequests : List Request := [.checked, .checked]

def nodeRequests (nodes : NodeTree) (nodeNbr : Nat) : List Request :=
  if (Rfx.findNode nodes nodeNbr).isSome then [] else blockRequests ++ [.unchecked]

def eventRequests (events : List IonEvent) : List Request := events.flatMap (fun _ => blockRequests)

/-- The requests that the index entry of a contact takes, with its nodes and its events. -/
def insertionRequests (s : IonState) (cxref : IonCXref) : List Request :=
  nodeRequests s.nodes cxref.toNode ++
    (nodeRequests (Rfx.loadNode s.nodes cxref.toNode) cxref.fromNode ++
      (blockRequests ++ eventRequests (Rfx.contactEvents cxref)))

/-- A call that returns no address has changed none of what it edits. -/
def LeavesNothing (s : IonState) (result : IonState × PsmAddress) : Prop :=
  result.2 = 0 →
    result.1.contactIndex = s.contactIndex ∧ result.1.timeline = s.timeline ∧
      result.1.contacts = s.contacts ∧ result.1.lastEditTime = s.lastEditTime

/-- The contact is accepted and on record, and a request for its index entry fails. -/
def GivesUpLate (outcomes : Outcomes) (s : IonState) (fromTime toTime : Int)
    (fromNode toNode xmitRate : Nat) (prob : ℚ) : Prop :=
  ∃ span, Span.check fromTime toTime fromNode toNode = some span ∧ (0 < prob ∧ prob ≤ 1) ∧
    s.contactIndex.lookup span.key = none ∧ Rfx.overlapsContact s.contactIndex span = false ∧
    (outcomes 0 ∧ outcomes 1) ∧
    ¬ Met (insertionRequests s (Rfx.contactEntry s span xmitRate (s.lastObject + 1))) (outcomes.after 2)

variable {remains} {outcomes : Outcomes} {s : IonState}

theorem after_after (outcomes : Outcomes) (m n : Nat) :
    (outcomes.after m).after n = outcomes.after (m + n) := by
  funext i
  simp only [Outcomes.after, Nat.add_assoc]

@[simp] theorem after_zero (outcomes : Outcomes) : outcomes.after 0 = outcomes := by
  funext i
  simp only [Outcomes.after, Nat.zero_add]

@[simp] theorem met_nil (outcomes : Outcomes) : Met [] outcomes := by
  intro i hi
  cases hi

theorem met_cons {request : Request} {requests : List Request} : Met (request :: requests) outcomes ↔
    (request = .checked → outcomes 0 = true) ∧ Met requests (outcomes.after 1) := by
  constructor
  · intro h
    refine ⟨fun hc => h 0 (by rw [hc]; rfl), ?_⟩
    intro i hi
    rw [Outcomes.after, Nat.add_comm]
    exact h (i + 1) hi
  · rintro ⟨h0, h⟩ i hi
    cases i with
    | zero => exact h0 (Option.some.inj hi)
    | succ i =>
      rw [Nat.add_comm]
      exact h i hi

/-- What is asked for later is met by what comes later. -/
theorem met_append {requests requests' : List Request} : Met (requests ++ requests') outcomes ↔
    Met requests outcomes ∧ Met requests' (outcomes.after requests.length) := by
  induction requests generalizing outcomes with
  | nil => simp
  | cons request requests ih =>
    rw [List.cons_append, met_cons, met_cons, ih, after_after, List.length_cons, Nat.add_comm 1, and_assoc]

theorem met_block : Met blockRequests outcomes ↔ outcomes 0 = true ∧ outcomes 1 = true := by
  simp [blockRequests, met_cons, Outcomes.after]

theorem met_of_all (h : ∀ i, outcomes i = true) (requests : List Request) : Met requests outcomes :=
  fun i _ => h i

theorem insertBlock_cases {T : Type} (outcomes : Outcomes) (tree left inserted : T) :
    (Met blockRequests outcomes ∧ insertBlock outcomes tree left inserted = .ok inserted) ∨
    (¬ Met blockRequests outcomes ∧ ∃ t, insertBlock outcomes tree left inserted = .error t) := by
  rw [met_block]
  unfold insertBlock
  split
  · rename_i h0
    split
    · rename_i h1
      exact Or.inl ⟨⟨h0, h1⟩, rfl⟩
    · rename_i h1
      exact Or.inr ⟨fun h => h1 h.2, left, rfl⟩
  · rename_i h0
    exact Or.inr ⟨fun h => h0 h.1, tree, rfl⟩

theorem loadNode_cases (remains : Remains) (outcomes : Outcomes) (nodes : NodeTree) (nodeNbr : Nat) :
    (Met (nodeRequests nodes nodeNbr) outcomes ∧ loadNode remains outcomes nodes nodeNbr =
      .ok (Rfx.loadNode nodes nodeNbr, outcomes.after (nodeRequests nodes nodeNbr).length)) ∨
    (¬ Met (nodeRequests nodes nodeNbr) outcomes ∧
      ∃ left, loadNode remains outcomes nodes nodeNbr = .error left) := by
  unfold loadNode
  split
  · rename_i node h
    have hload : Rfx.loadNode nodes nodeNbr = nodes := by
      unfold Rfx.loadNode
      split <;> simp_all
    have hnone : nodeRequests nodes nodeNbr = [] := if_pos (by rw [h]; rfl)
    rw [hnone, hload, List.length_nil, after_zero]
    exact Or.inl ⟨met_nil outcomes, rfl⟩
  · rename_i h
    have hload : Rfx.loadNode nodes nodeNbr = Rfx.addNode nodes nodeNbr h := by
      unfold Rfx.loadNode
      split <;> simp_all
    have hthree : nodeRequests nodes nodeNbr = blockRequests ++ [.unchecked] :=
      if_neg (by rw [h]; exact Bool.false_ne_true)
    have hmet : Met (nodeRequests nodes nodeNbr) outcomes ↔ Met blockRequests outcomes := by
      rw [hthree, met_append, met_cons]
      simp
    rw [hmet, hthree, hload, addNode]
    rcases insertBlock_cases outcomes nodes (remains.nodes nodes ⟨nodeNbr, []⟩)
      (Rfx.addNode nodes nodeNbr h) with ⟨hm, hb⟩ | ⟨hm, left, hb⟩ <;> rw [hb]
    · exact Or.inl ⟨hm, rfl⟩
    · exact Or.inr ⟨hm, left, rfl⟩

theorem insertEvents_cases (remains : Remains) (outcomes : Outcomes) (timeline events : List IonEvent) :
    (Met (eventRequests events) outcomes ∧ insertEvents remains outcomes timeline events =
      .ok (events.foldl Rfx.insertEvent timeline)) ∨
    (¬ Met (eventRequests events) outcomes ∧
      ∃ left, insertEvents remains outcomes timeline events = .error left) := by
  induction events generalizing outcomes timeline with
  | nil => exact Or.inl ⟨met_nil outcomes, rfl⟩
  | cons event events ih =>
    have hmet : Met (eventRequests (event :: events)) outcomes ↔
        Met blockRequests outcomes ∧ Met (eventRequests events) (outcomes.after 2) := met_append
    rw [hmet, insertEvents]
    rcases insertBlock_cases outcomes timeline (remains.timeline timeline event)
      (Rfx.insertEvent timeline event) with ⟨hm, hb⟩ | ⟨hm, left, hb⟩ <;> rw [hb]
    · rcases ih (outcomes.after 2) (Rfx.insertEvent timeline event) with ⟨hm', he⟩ | ⟨hm', left, he⟩
      · exact Or.inl ⟨⟨hm, hm'⟩, he⟩
      · exact Or.inr ⟨fun h => hm' h.2, left, he⟩
    · exact Or.inr ⟨fun h => hm h.1, left, rfl⟩

/-- An index entry goes in with its nodes and its events, or some checked request
fails; the list of contacts and the time of the last edit are then as they were. -/
theorem insertCXref_cases (remains : Remains) (outcomes : Outcomes) (s : IonState) (now : Int)
    (cxref : IonCXref) (h : s.contactIndex.lookup cxref.key = none) :
    (Met (insertionRequests s cxref) outcomes ∧
      insertCXref remains outcomes s now cxref h = .ok (Rfx.insertCXref s now cxref h)) ∨
    (¬ Met (insertionRequests s cxref) outcomes ∧
      ∃ left, insertCXref remains outcomes s now cxref h = .error left ∧
        left.contacts = s.contacts ∧ left.lastEditTime = s.lastEditTime) := by
  unfold insertCXref insertionRequests
  rw [met_append, met_append, met_append]
  rcases loadNode_cases remains outcomes s.nodes cxref.toNode with ⟨hto, ht⟩ | ⟨hto, left, ht⟩ <;> rw [ht]
  · dsimp only
    generalize outcomes.after (nodeRequests s.nodes cxref.toNode).length = outcomes
    rcases loadNode_cases remains outcomes (Rfx.loadNode s.nodes cxref.toNode) cxref.fromNode with
      ⟨hfrom, hf⟩ | ⟨hfrom, left, hf⟩ <;> rw [hf]
    · dsimp only
      generalize outcomes.after
        (nodeRequests (Rfx.loadNode s.nodes cxref.toNode) cxref.fromNode).length = outcomes
      rcases insertBlock_cases outcomes s.contactIndex (remains.contactIndex s.contactIndex cxref)
        (s.contactIndex.insert cxref h) with ⟨hentry, hb⟩ | ⟨hentry, left, hb⟩ <;> rw [hb]
      · rcases insertEvents_cases remains (outcomes.after 2) s.timeline (Rfx.contactEvents cxref) with
          ⟨hevents, he⟩ | ⟨hevents, left, he⟩
        · refine Or.inl ⟨⟨hto, hfrom, hentry, hevents⟩, ?_⟩
          simp only [he]
          rfl
        · refine Or.inr ⟨fun hmet => hevents hmet.2.2.2, ?_⟩
          simp only [he]
          exact ⟨_, rfl, rfl, rfl⟩
      · exact Or.inr ⟨fun hmet => hentry hmet.2.2.1, _, rfl, rfl, rfl⟩
    · exact Or.inr ⟨fun hmet => hfrom hmet.2.1, _, rfl, rfl, rfl⟩
  · exact Or.inr ⟨fun hmet => hto hmet.1, _, rfl, rfl, rfl⟩

/-- An addition gets no record, or succeeds, or leaves the record behind when it is given up later. -/
theorem addContact_cases (remains : Remains) (outcomes : Outcomes) (s : IonState) (now : Int)
    (span : Span) (xmitRate : Nat) (prob : ℚ) (h : s.contactIndex.lookup span.key = none) :
    (¬ (outcomes 0 ∧ outcomes 1) ∧ addContact remains outcomes s now span xmitRate prob h = (s, 0)) ∨
    ((outcomes 0 ∧ outcomes 1) ∧
      Met (insertionRequests s (Rfx.contactEntry s span xmitRate (s.lastObject + 1))) (outcomes.after 2) ∧
      addContact remains outcomes s now span xmitRate prob h = Rfx.addContact s now span xmitRate prob h) ∨
    ((outcomes 0 ∧ outcomes 1) ∧
      ¬ Met (insertionRequests s (Rfx.contactEntry s span xmitRate (s.lastObject + 1))) (outcomes.after 2) ∧
      ∃ left, addContact remains outcomes s now span xmitRate prob h = (left, 0) ∧
        left.contacts = s.contacts ++ [(s.lastObject + 1, ⟨span, xmitRate, prob⟩)]) := by
  unfold addContact
  split
  · rename_i hrecord
    dsimp only
    rcases insertCXref_cases remains (outcomes.after 2)
      { s with
        contacts := s.contacts ++ [(s.lastObject + 1, ⟨span, xmitRate, prob⟩)]
        lastObject := s.lastObject + 1 }
      now (Rfx.contactEntry s span xmitRate (s.lastObject + 1)) h with
      ⟨hmet, hi⟩ | ⟨hmet, left, hi, hcontacts, -⟩ <;> simp only [hi]
    · exact Or.inr (Or.inl ⟨hrecord, hmet, rfl⟩)
    · exact Or.inr (Or.inr ⟨hrecord, hmet, left, rfl, hcontacts⟩)
  · rename_i hrecord
    exact Or.inl ⟨hrecord, rfl⟩

/-- An addition that is given up after the record is on the list leaves it there. -/
theorem addContact_leavesNothing (remains : Remains) (outcomes : Outcomes) (s : IonState) (now : Int)
    (span : Span) (xmitRate : Nat) (prob : ℚ) (h : s.contactIndex.lookup span.key = none) :
    LeavesNothing s (addContact remains outcomes s now span xmitRate prob h) ↔
      ¬ ((outcomes 0 ∧ outcomes 1) ∧
        ¬ Met (insertionRequests s (Rfx.contactEntry s span xmitRate (s.lastObject + 1)))
          (outcomes.after 2)) := by
  rcases addContact_cases remains outcomes s now span xmitRate prob h with
    ⟨hrecord, he⟩ | ⟨-, hmet, he⟩ | ⟨hrecord, hmet, left, he, hcontacts⟩ <;> rw [he]
  · exact ⟨fun _ hlate => hrecord hlate.1, fun _ _ => ⟨rfl, rfl, rfl, rfl⟩⟩
  · have hne : s.lastAddr + 1 ≠ 0 := Nat.succ_ne_zero _
    exact ⟨fun _ hlate => hlate.2 hmet, fun _ hzero => (hne hzero).elim⟩
  · constructor
    · intro hnothing
      have hsame : left.contacts = s.contacts := (hnothing rfl).2.2.1
      rw [hcontacts] at hsame
      have hlength := congrArg List.length hsame
      simp at hlength
    · intro hnot
      exact (hnot ⟨hrecord, hmet⟩).elim

theorem insertContact_of_some {now : Int} {span : Span} {xmitRate : Nat} {prob : ℚ} {c : IonCXref}
    (hc : s.contactIndex.lookup span.key = some c) :
    insertContact remains outcomes s now span xmitRate prob = (s, if c.xmitRate = xmitRate then c.addr else 0) := by
  unfold insertContact
  split
  · rename_i c' hc'
    rw [hc] at hc'
    rw [Option.some.inj hc']
  · rename_i hnone
    rw [hc] at hnone
    cases hnone

theorem insertContact_of_none {now : Int} {span : Span} {xmitRate : Nat} {prob : ℚ}
    (hnone : s.contactIndex.lookup span.key = none) :
    insertContact remains outcomes s now span xmitRate prob =
      if Rfx.overlapsContact s.contactIndex span then (s, 0)
      else addContact remains outcomes s now span xmitRate prob hnone := by
  unfold insertContact
  split
  · rename_i c hc
    rw [hnone] at hc
    cases hc
  · rfl

theorem leavesNothing_self (s : IonState) (addr : PsmAddress) : LeavesNothing s (s, addr) :=
  fun _ => ⟨rfl, rfl, rfl, rfl⟩

/-- A failed insertion has left nothing behind unless it was given up late. -/
theorem rfxInsertContact_leavesNothing_iff (remains : Remains) (outcomes : Outcomes) (s : IonState)
    (now fromTime toTime : Int) (fromNode toNode xmitRate : Nat) (prob : ℚ) :
    LeavesNothing s
        (rfxInsertContact remains outcomes s now fromTime toTime fromNode toNode xmitRate prob) ↔
      ¬ GivesUpLate outcomes s fromTime toTime fromNode toNode xmitRate prob := by
  unfold rfxInsertContact GivesUpLate
  split
  · rename_i hcheck
    simp [hcheck, leavesNothing_self]
  · rename_i span hcheck
    simp only [hcheck, Option.some.injEq, exists_eq_left']
    split
    · rename_i hprob
      cases hlookup : s.contactIndex.lookup span.key with
      | some c =>
        rw [insertContact_of_some hlookup]
        simp [leavesNothing_self]
      | none =>
        rw [insertContact_of_none hlookup]
        split
        · rename_i hover
          simp [hover, leavesNothing_self]
        · rename_i hover
          rw [addContact_leavesNothing]
          simp [hprob, hover]
    · rename_i hprob
      simp only [hprob, false_and, not_false_iff, iff_true]
      exact leavesNothing_self s 0

/-- A failed tree insertion that left its tree as it was. -/
def untouched : Remains where
  nodes := fun nodes _ => nodes
  contactIndex := fun contactIndex _ => contactIndex
  timeline := fun timeline _ => timeline

/-- The very first contact is on record when there is no memory for its node. -/
theorem rfxInsertContact_leavesRecord : ¬ LeavesNothing (ionInitialize 1)
    (rfxInsertContact untouched (fun i => i != 2) (ionInitialize 1) 0 10 20 1 2 100 1) := by
  intro h
  have hcontacts := (h rfl).2.2.1
  have hlength := congrArg List.length hcontacts
  revert hlength
  decide

/-- Where every request succeeds, the insertion is the one without failures. -/
theorem rfxInsertContact_of_all (remains : Remains) (hall : ∀ i, outcomes i = true) (s : IonState)
    (now fromTime toTime : Int) (fromNode toNode xmitRate : Nat) (prob : ℚ) :
    rfxInsertContact remains outcomes s now fromTime toTime fromNode toNode xmitRate prob =
      Rfx.rfxInsertContact s now fromTime toTime fromNode toNode xmitRate prob := by
  have hadd : ∀ (span : Span) (h : s.contactIndex.lookup span.key = none),
      addContact remains outcomes s now span xmitRate prob h = Rfx.addContact s now span xmitRate prob h := by
    intro span h
    rcases addContact_cases remains outcomes s now span xmitRate prob h with ⟨hno, -⟩ | ⟨-, -, he⟩ | ⟨-, hmet, -⟩
    · exact (hno ⟨hall 0, hall 1⟩).elim
    · exact he
    · exact (hmet (met_of_all (fun i => hall (2 + i)) _)).elim
  have hinsert : ∀ span : Span, insertContact remains outcomes s now span xmitRate prob =
      Rfx.insertContact s now span xmitRate prob := by
    intro span
    rcases RfxContacts.insertContact_cases s now span xmitRate prob with
      ⟨c, hc, h⟩ | ⟨hnone, hover, h⟩ | ⟨hnone, hover, h⟩ <;> rw [h]
    · exact insertContact_of_some hc
    · rw [insertContact_of_none hnone, if_pos hover]
    · rw [insertContact_of_none hnone, if_neg (by rw [hover]; exact Bool.false_ne_true), hadd]
  unfold rfxInsertContact Rfx.rfxInsertContact
  cases Span.check fromTime toTime fromNode toNode with
  | none => rfl
  | some span =>
    dsimp only
    rw [hinsert]

end FailedInsertion
