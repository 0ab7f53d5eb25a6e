import CgrJni.Ionadmin
import CgrJni.Runs

/-!
Two nodes that share the reference time. The calls at other nodes change nothing
for a node as long as its own offsets are read against the reference time that
its own calls have set.
-/

namespace ReferenceTime

open Platform Ionadmin Rfx IonDb
open Process (IonProcess editNode editNode_eq_some)

variable (atof : CString → ℚ)

/-- The timestamps that a line is read with: none if it is not executed at all. -/
def timestamps (line : CString) : List (Option CString) :=
  let parsed := readTokens 9 line
  if parsed.2.dropWhile isspace ≠ [] then []
  else
    match (token parsed.1 0).bind List.head? with
    | some '@' => if 2 ≤ parsed.1.length then [token parsed.1 1] else []
    | some 'a' =>
      if parsed.1.length = 7 ∨ parsed.1.length = 8 then [token parsed.1 2, token parsed.1 3] else []
    | some 'd' => if parsed.1.length = 5 then [token parsed.1 2] else []
    | _ => []

/-- The process, with the reference time that the calls at one node have set. -/
structure Observed where
  process : AdminProcess
  ownTime : Int

def Observed.start (p : AdminProcess) : Observed := ⟨p, p.referenceTime⟩

def setsReferenceTime (p : AdminProcess) (a : Addressed) : Bool :=
  match a.call with
  | .readContactPlan _ => true
  | .processLine line =>
    match readLine atof p.referenceTime a.time line with
    | some (.setReferenceTime _) => true
    | _ => false

def observe (nodeNbr : Nat) (o : Observed) (a : Addressed) : Option Observed :=
  (step atof o.process a).map fun p =>
    ⟨p, if a.nodeNbr = nodeNbr ∧ setsReferenceTime atof o.process a then p.referenceTime else o.ownTime⟩

def addressedTo (nodeNbr : Nat) (a : Addressed) : Bool := a.nodeNbr == nodeNbr

/-- A line of the node with an offset comes while the reference time is that of the node's own calls. -/
def OwnReference (nodeNbr : Nat) (o : Observed) (a : Addressed) : Prop :=
  a.nodeNbr = nodeNbr →
    match a.call with
    | .readContactPlan _ => True
    | .processLine line => (timestamps line).any relative = true → o.process.referenceTime = o.ownTime

instance (nodeNbr : Nat) (o : Observed) (a : Addressed) : Decidable (OwnReference nodeNbr o a) := by
  unfold OwnReference
  cases a.call <;> exact inferInstance

/-- The database of a node, with its contacts and ranges. -/
def planAt (p : AdminProcess) (nodeNbr : Nat) : Option IonState :=
  (p.nodes.partitions nodeNbr).map (fun part => part.ion)

variable {atof}

theorem executeAdd_absolute {tokens : Tokens} (h : tokens.length = 7 ∨ tokens.length = 8 →
    relative (token tokens 2) = false ∧ relative (token tokens 3) = false) (time time' : Int) :
    executeAdd atof time tokens = executeAdd atof time' tokens := by
  unfold executeAdd
  by_cases hlen : tokens.length = 7 ∨ tokens.length = 8
  · obtain ⟨hfrom, hto⟩ := h hlen
    rw [readTimestampUTC_absolute hfrom time time', readTimestampUTC_absolute hto time time']
  · rw [if_pos (not_or.mp hlen), if_pos (not_or.mp hlen)]

theorem executeDelete_absolute {tokens : Tokens} (h : tokens.length = 5 → relative (token tokens 2) = false)
    (time time' : Int) : executeDelete time tokens = executeDelete time' tokens := by
  unfold executeDelete
  by_cases hlen : tokens.length = 5
  · rw [readTimestampUTC_absolute (h hlen) time time']
  · rw [if_pos hlen, if_pos hlen]

theorem executeAt_absolute {tokens : Tokens} (h : 2 ≤ tokens.length → relative (token tokens 1) = false)
    (time time' now : Int) : executeAt time now tokens = executeAt time' now tokens := by
  unfold executeAt
  by_cases hlen : tokens.length < 2
  · rw [if_pos hlen, if_pos hlen]
  · rw [if_neg hlen, if_neg hlen]
    cases htoken : token tokens 1 with
    | none => rfl
    | some word =>
      rw [htoken] at h
      simp only [Option.bind_eq_bind, Option.bind_some]
      rw [readTimestampUTC_absolute (h (Nat.le_of_not_lt hlen)) time time']

/-- A line without offsets says the same at every reference time. -/
theorem readLine_absolute {line : CString} (h : (timestamps line).any relative = false) (now time time' : Int) :
    readLine atof time now line = readLine atof time' now line := by
  simp only [readLine]
  by_cases hnil : (readTokens 9 line).1 = []
  · rw [if_pos hnil, if_pos hnil]
  · rw [if_neg hnil, if_neg hnil]
    by_cases hrest : (readTokens 9 line).2.dropWhile isspace ≠ []
    · rw [if_pos hrest, if_pos hrest]
    · rw [if_neg hrest, if_neg hrest]
      cases hcode : token (readTokens 9 line).1 0 with
      | none => rfl
      | some code =>
        simp only [timestamps, if_neg hrest, hcode, Option.bind_some] at h
        rw [Option.bind_some, Option.bind_some]
        unfold execute
        split
        · rfl
        · rename_i hat
          apply executeAt_absolute
          intro hlen
          simpa [hat, hlen] using h
        · rename_i hadd
          apply executeAdd_absolute
          intro hlen
          simpa [hadd, hlen] using h
        · rename_i hdelete
          apply executeDelete_absolute
          intro hlen
          simpa [hdelete, hlen] using h
        all_goals rfl

/-- Two processes that a node cannot tell apart: the node is the same there, and so is the reference time. -/
structure Alike (nodeNbr : Nat) (p q : AdminProcess) : Prop where
  partitions : p.nodes.partitions nodeNbr = q.nodes.partitions nodeNbr
  referenceTime : p.referenceTime = q.referenceTime

variable {nodeNbr : Nat} {now : Int} {p p' q : AdminProcess}

theorem editNode_partition {p p' q : IonProcess} {e : Edit} (h : p.partitions nodeNbr = q.partitions nodeNbr)
    (he : editNode p nodeNbr now e = some p') :
    ∃ q', editNode q nodeNbr now e = some q' ∧ p'.partitions nodeNbr = q'.partitions nodeNbr := by
  obtain ⟨part, ion, hpart, hion, rfl⟩ := editNode_eq_some he
  have hq : q.partitions nodeNbr = some part := h ▸ hpart
  refine ⟨{ q with partitions := Function.update q.partitions nodeNbr (some { part with ion := ion }) }, ?_, ?_⟩
  · rw [editNode, hq, Option.bind_some, hion, Option.map_some]
  · simp only [Function.update_self]

/-- The same command has the same effect on the node, and the same one on the reference time if it is set. -/
theorem executeCommand_partition {command : Command} (h : p.nodes.partitions nodeNbr = q.nodes.partitions nodeNbr)
    (he : executeCommand p nodeNbr now command = some p') :
    ∃ q', executeCommand q nodeNbr now command = some q' ∧
      p'.nodes.partitions nodeNbr = q'.nodes.partitions nodeNbr ∧
      ((∃ time, command = .setReferenceTime time ∧ p'.referenceTime = time ∧ q'.referenceTime = time) ∨
        ((∀ time, command ≠ .setReferenceTime time) ∧ p'.referenceTime = p.referenceTime ∧
          q'.referenceTime = q.referenceTime)) := by
  cases command with
  | nothing =>
    obtain rfl := Option.some.inj he
    exact ⟨q, rfl, h, Or.inr ⟨by simp, rfl, rfl⟩⟩
  | stop =>
    obtain rfl := Option.some.inj he
    exact ⟨q, rfl, h, Or.inr ⟨by simp, rfl, rfl⟩⟩
  | setReferenceTime time =>
    obtain rfl := Option.some.inj he
    exact ⟨_, rfl, h, Or.inl ⟨time, rfl, rfl, rfl⟩⟩
  | initializeNode ownNodeNbr =>
    obtain rfl := Option.some.inj he
    refine ⟨_, rfl, ?_, Or.inr ⟨by simp, rfl, rfl⟩⟩
    simp only [ionInitializeAt, h]
    split
    · exact h
    · simp only [Function.update_self]
  | showIndex =>
    obtain ⟨part, hpart, rfl⟩ := Option.map_eq_some_iff.mp he
    refine ⟨q, ?_, h, Or.inr ⟨by simp, rfl, rfl⟩⟩
    rw [executeCommand, ← h, hpart, Option.map_some]
  | edit e =>
    obtain ⟨nodes, hnodes, rfl⟩ := Option.map_eq_some_iff.mp he
    obtain ⟨nodes', hnodes', hpart⟩ := editNode_partition h hnodes
    refine ⟨{ q with nodes := nodes' }, ?_, hpart, Or.inr ⟨by simp, rfl, rfl⟩⟩
    rw [executeCommand, hnodes', Option.map_some]

/-- A command at another node leaves the node alone. -/
theorem executeCommand_other {command : Command} {other : Nat} (hne : other ≠ nodeNbr)
    (he : executeCommand p other now command = some p') :
    p'.nodes.partitions nodeNbr = p.nodes.partitions nodeNbr := by
  have hother : nodeNbr ≠ other := Ne.symm hne
  cases command with
  | nothing => rw [← Option.some.inj he]
  | stop => rw [← Option.some.inj he]
  | setReferenceTime time => rw [← Option.some.inj he]
  | initializeNode ownNodeNbr =>
    rw [← Option.some.inj he]
    simp only [ionInitializeAt]
    split
    · rfl
    · exact Function.update_of_ne hother ..
  | showIndex =>
    obtain ⟨part, -, rfl⟩ := Option.map_eq_some_iff.mp he
    rfl
  | edit e =>
    obtain ⟨nodes, hnodes, rfl⟩ := Option.map_eq_some_iff.mp he
    obtain ⟨part, ion, -, -, rfl⟩ := editNode_eq_some hnodes
    exact Function.update_of_ne hother ..

/-- A line is read and executed; the result depends on the command alone. -/
theorem processLine_eq_some {line : CString} {r : AdminProcess × Int}
    (h : processLine atof p nodeNbr now line = some r) :
    ∃ command, readLine atof p.referenceTime now line = some command ∧
      executeCommand p nodeNbr now command = some r.1 ∧
      ∀ q q', readLine atof q.referenceTime now line = some command →
        executeCommand q nodeNbr now command = some q' → processLine atof q nodeNbr now line = some (q', r.2) := by
  obtain ⟨command, hread, h⟩ := Option.bind_eq_some_iff.mp h
  obtain ⟨p', hexec, h⟩ := Option.bind_eq_some_iff.mp h
  refine ⟨command, hread, ?_, ?_⟩
  · cases command <;> exact (Option.some.inj h) ▸ hexec
  · intro q q' hq hq'
    rw [processLine, hq]
    cases command <;> simp [hq', ← Option.some.inj h]

theorem processLine_alike {line : CString} {r : AdminProcess × Int} (h : Alike nodeNbr p q)
    (hp : processLine atof p nodeNbr now line = some r) :
    ∃ q', processLine atof q nodeNbr now line = some (q', r.2) ∧ Alike nodeNbr r.1 q' := by
  obtain ⟨command, hread, hexec, hsame⟩ := processLine_eq_some hp
  obtain ⟨q', hexec', hpart, htime⟩ := executeCommand_partition h.partitions hexec
  refine ⟨q', hsame q q' (by rw [← h.referenceTime, hread]) hexec', hpart, ?_⟩
  obtain ⟨time, -, hp', hq'⟩ | ⟨-, hp', hq'⟩ := htime
  · rw [hp', hq']
  · rw [hp', hq', h.referenceTime]

theorem processLines_alike {lines : List CString} (h : Alike nodeNbr p q)
    (hp : processLines atof nodeNbr now lines p = some p') :
    ∃ q', processLines atof nodeNbr now lines q = some q' ∧ Alike nodeNbr p' q' := by
  induction lines generalizing p q with
  | nil =>
    obtain rfl := Option.some.inj hp
    exact ⟨q, rfl, h⟩
  | cons line rest ih =>
    rw [processLines] at hp ⊢
    by_cases hskip : line = [] ∨ line.head? = some '#'
    · rw [if_pos hskip] at hp ⊢
      exact ih h hp
    · rw [if_neg hskip] at hp ⊢
      obtain ⟨r, hr, hp⟩ := Option.bind_eq_some_iff.mp hp
      obtain ⟨q', hq', halike⟩ := processLine_alike h hr
      rw [hq', Option.bind_some]
      by_cases hend : r.2 ≠ 0
      · rw [if_pos hend] at hp ⊢
        exact ⟨q', rfl, Option.some.inj hp ▸ halike⟩
      · rw [if_neg hend] at hp ⊢
        exact ih halike hp

theorem processLines_other {lines : List CString} {other : Nat} (hne : other ≠ nodeNbr)
    (hp : processLines atof other now lines p = some p') :
    p'.nodes.partitions nodeNbr = p.nodes.partitions nodeNbr := by
  induction lines generalizing p with
  | nil => rw [← Option.some.inj hp]
  | cons line rest ih =>
    rw [processLines] at hp
    by_cases hskip : line = [] ∨ line.head? = some '#'
    · rw [if_pos hskip] at hp
      exact ih hp
    · rw [if_neg hskip] at hp
      obtain ⟨r, hr, hp⟩ := Option.bind_eq_some_iff.mp hp
      obtain ⟨command, -, hexec, -⟩ := processLine_eq_some hr
      rw [← executeCommand_other hne hexec]
      by_cases hend : r.2 ≠ 0
      · rw [if_pos hend] at hp
        rw [Option.some.inj hp]
      · rw [if_neg hend] at hp
        exact ih hp

/-- The reference time is set before a file is read, so nothing else of it matters. -/
theorem runIonadmin_alike {cmdFile : Option CString} (h : p.nodes.partitions nodeNbr = q.nodes.partitions nodeNbr)
    (hp : runIonadmin atof p nodeNbr now cmdFile = some p') :
    ∃ q', runIonadmin atof q nodeNbr now cmdFile = some q' ∧ Alike nodeNbr p' q' := by
  have hset : Alike nodeNbr { p with referenceTime := now } { q with referenceTime := now } := ⟨h, rfl⟩
  cases cmdFile with
  | none => exact ⟨_, rfl, Option.some.inj hp ▸ hset⟩
  | some file => exact processLines_alike hset hp

theorem runIonadmin_other {cmdFile : Option CString} {other : Nat} (hne : other ≠ nodeNbr)
    (hp : runIonadmin atof p other now cmdFile = some p') :
    p'.nodes.partitions nodeNbr = p.nodes.partitions nodeNbr := by
  cases cmdFile with
  | none => rw [← Option.some.inj hp]
  | some file =>
    have hlines : processLines atof other now (readLines 256 file.length file) { p with referenceTime := now } =
        some p' := hp
    have hother := processLines_other hne hlines
    exact hother

/-- The states of the two runs: the node is the same, and the reference time that its calls have
set is the one in force without the others. -/
def Together (nodeNbr : Nat) (o : Observed) (q : AdminProcess) : Prop :=
  o.process.nodes.partitions nodeNbr = q.nodes.partitions nodeNbr ∧ o.ownTime = q.referenceTime

variable {o o' : Observed} {a : Addressed}

theorem observe_kept (h : Together nodeNbr o q) (ha : addressedTo nodeNbr a = true)
    (hown : OwnReference nodeNbr o a) (hstep : observe atof nodeNbr o a = some o') :
    ∃ q', step atof q a = some q' ∧ Together nodeNbr o' q' := by
  obtain ⟨p', hp, rfl⟩ := Option.map_eq_some_iff.mp hstep
  obtain ⟨n, time, call⟩ := a
  obtain rfl : n = nodeNbr := beq_iff_eq.mp ha
  cases call with
  | readContactPlan cmdFile =>
    obtain ⟨q', hq', halike⟩ := runIonadmin_alike h.1 hp
    exact ⟨q', hq', halike.partitions, by simpa [setsReferenceTime] using halike.referenceTime⟩
  | processLine line =>
    obtain ⟨r, hr, rfl⟩ := Option.map_eq_some_iff.mp hp
    obtain ⟨command, hread, hexec, hsame⟩ := processLine_eq_some hr
    have hread' : readLine atof q.referenceTime time line = some command := by
      cases hrel : (timestamps line).any relative with
      | false => rw [← readLine_absolute hrel time o.process.referenceTime, hread]
      | true => rw [← h.2, ← hown rfl hrel, hread]
    obtain ⟨q', hexec', hpart, htime⟩ := executeCommand_partition h.1 hexec
    refine ⟨q', by simp only [step, hsame q q' hread' hexec', Option.map_some], hpart, ?_⟩
    obtain ⟨t, rfl, hp', hq'⟩ | ⟨hnot, -, hq'⟩ := htime
    · simp [setsReferenceTime, hread, hp', hq']
    · have hsets : setsReferenceTime atof o.process ⟨n, time, .processLine line⟩ = false := by
        simp only [setsReferenceTime, hread]
        cases command with
        | setReferenceTime t => exact absurd rfl (hnot t)
        | _ => rfl
      simp [hsets, hq', h.2]

theorem observe_skipped (h : Together nodeNbr o q) (ha : addressedTo nodeNbr a = false)
    (hstep : observe atof nodeNbr o a = some o') : Together nodeNbr o' q := by
  obtain ⟨p', hp, rfl⟩ := Option.map_eq_some_iff.mp hstep
  have hne : a.nodeNbr ≠ nodeNbr := beq_eq_false_iff_ne.mp ha
  refine ⟨?_, ?_⟩
  · rw [← h.1]
    obtain ⟨n, time, call⟩ := a
    cases call with
    | readContactPlan cmdFile => exact runIonadmin_other hne hp
    | processLine line =>
      obtain ⟨r, hr, rfl⟩ := Option.map_eq_some_iff.mp hp
      obtain ⟨command, -, hexec, -⟩ := processLine_eq_some hr
      exact executeCommand_other hne hexec
  · simp [hne, h.2]

/-- In a run in which the offsets given to a node are read against the reference time that the
calls at the node have set, its contacts and ranges are those of the run without the other calls. -/
theorem plan_isolated (atof : CString → ℚ) (nodeNbr : Nat) (p : AdminProcess) (calls : List Addressed) (o : Observed)
    (hrun : Runs.run (observe atof nodeNbr) (Observed.start p) calls = some o)
    (hown : Runs.StepsMeet (observe atof nodeNbr) (OwnReference nodeNbr) (Observed.start p) calls) :
    ∃ q, Runs.run (step atof) p (calls.filter (addressedTo nodeNbr)) = some q ∧
      planAt o.process nodeNbr = planAt q nodeNbr := by
  have hstart : Together nodeNbr (Observed.start p) p := ⟨rfl, rfl⟩
  obtain ⟨q, hq, htogether⟩ :=
    Runs.run_filter (addressedTo nodeNbr) (fun _ _ _ _ h ha hok hs => observe_kept h ha hok hs)
      (fun _ _ _ _ h ha _ hs => observe_skipped h ha hs) calls _ o p hstart hown hrun
  exact ⟨q, hq, by rw [planAt, planAt, htogether.1]⟩

def twoNodes : AdminProcess := ⟨Process.initializeNode (Process.initializeNode IonProcess.start 1) 2, 0⟩

/-- A node sets the reference time to the time of the call, and adds a contact later by offsets from it. -/
def setNow (nodeNbr : Nat) (time : Int) : Addressed := ⟨nodeNbr, time, .processLine "@ 0".toList⟩

def addContact (nodeNbr : Nat) (time : Int) : Addressed :=
  ⟨nodeNbr, time, .processLine "a contact +10 +20 1 2 1000".toList⟩

theorem plan_isolated_twoNodes :
    ∃ o q, Runs.run (observe (fun _ => 0) 1) (Observed.start twoNodes) [setNow 1 100, setNow 2 100, addContact 2 150,
        addContact 1 200] = some o ∧
      Runs.run (step (fun _ => 0)) twoNodes [setNow 1 100, addContact 1 200] = some q ∧
      (planAt o.process 1).map (fun s => s.contactIndex.entries.map (fun c => c.fromTime)) = some [110] ∧
      planAt o.process 1 = planAt q 1 := by
  have hsome : (Runs.run (observe (fun _ => 0) 1) (Observed.start twoNodes) [setNow 1 100, setNow 2 100, addContact 2 150,
      addContact 1 200]).any (fun o =>
        (planAt o.process 1).map (fun s => s.contactIndex.entries.map (fun c => c.fromTime)) = some [110]) = true := by
    decide +kernel
  obtain ⟨o, hrun, hplan⟩ := (Option.any_eq_true _ _).mp hsome
  obtain ⟨q, hq, hsame⟩ := plan_isolated (fun _ => 0) 1 twoNodes _ o hrun (by decide +kernel)
  exact ⟨o, q, hrun, hq, of_decide_eq_true hplan, hsame⟩

/-- Node 2 reads a plan in between, which sets the reference time for node 1 as well: its contact
begins at 210 in place of 110. -/
theorem plan_disturbed :
    ¬ ∀ (calls : List Addressed) (p q : AdminProcess), Runs.run (step (fun _ => 0)) twoNodes calls = some p →
      Runs.run (step (fun _ => 0)) twoNodes (calls.filter (addressedTo 1)) = some q → planAt p 1 = planAt q 1 := by
  intro hall
  have hboth : (Runs.run (step (fun _ => 0)) twoNodes
      [setNow 1 100, ⟨2, 200, .readContactPlan (some [])⟩, addContact 1 200]).any (fun p =>
        (Runs.run (step (fun _ => 0)) twoNodes
          ([setNow 1 100, ⟨2, 200, .readContactPlan (some [])⟩, addContact 1 200].filter (addressedTo 1))).any
            (fun q => planAt p 1 ≠ planAt q 1)) = true := by
    decide +kernel
  obtain ⟨p, hp, hsome⟩ := (Option.any_eq_true _ _).mp hboth
  obtain ⟨q, hq, hne⟩ := (Option.any_eq_true _ _).mp hsome
  exact of_decide_eq_true hne (hall _ p q hp hq)

end ReferenceTime
