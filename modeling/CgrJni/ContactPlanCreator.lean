import Mathlib

/-!
The generator of contact plans from the event log of a simulation. Its lines are
kept in a sorted set, where two lines with the same start and the same first node
are one; a line that has no stop yet has zero in its place. The log is given as its
lines are read, one event each; times are not negative, and are kept exactly.
-/

namespace ContactPlanCreator

inductive LogLine
  | up (time : ℚ≥0) (node1 node2 datarate : Nat)
  | down (time : ℚ≥0) (node1 node2 : Nat)
  | other (time : ℚ≥0)

def LogLine.time : LogLine → ℚ≥0
  | up time _ _ _ => time
  | down time _ _ => time
  | other time => time

/-- The cast of a floating-point number to an integer of 32 bits. -/
def toInt (time : ℚ≥0) : Nat := min ⌊time⌋₊ (2 ^ 31 - 1)

structure ContactPlanLine where
  start : Nat
  stop : Nat
  fromNode : Nat
  toNode : Nat
  datarate : Nat
  deriving DecidableEq

namespace ContactPlanLine

def compareTo (line cpl : ContactPlanLine) : Int :=
  if (line.start : Int) - cpl.start = 0 then (line.fromNode : Int) - cpl.fromNode else line.start - cpl.start

end ContactPlanLine

def samePair (a b node1 node2 : Nat) : Bool := (a = node1 && b = node2) || (a = node2 && b = node1)

def connectionUp (cpl : ContactPlanLine) (node1 node2 : Nat) : Bool :=
  samePair cpl.fromNode cpl.toNode node1 node2 && cpl.stop = 0

/-- A line is not put into the set if one compares equal to it. -/
def add (line : ContactPlanLine) : List ContactPlanLine → List ContactPlanLine
  | [] => [line]
  | cpl :: rest =>
    if line.compareTo cpl = 0 then cpl :: rest
    else if line.compareTo cpl < 0 then line :: cpl :: rest
    else cpl :: add line rest

/-- The first line of the two nodes that has no stop gets one. -/
def setFirstStop (node1 node2 stop : Nat) : List ContactPlanLine → List ContactPlanLine
  | [] => []
  | cpl :: rest =>
    if connectionUp cpl node1 node2 then { cpl with stop := stop } :: rest
    else cpl :: setFirstStop node1 node2 stop rest

def readLine (contactPlan : List ContactPlanLine) : LogLine → List ContactPlanLine
  | .up time node1 node2 datarate => add ⟨toInt time, 0, node1, node2, datarate⟩ contactPlan
  | .down time node1 node2 => setFirstStop node1 node2 (toInt time) contactPlan
  | .other _ => contactPlan

/-- A line of the contact plan, with the owlt of a range. -/
inductive PlanLine
  | contact (start stop fromNode toNode datarate : Nat)
  | range (start stop fromNode toNode owlt : Nat)
  deriving DecidableEq

def toStringRange (c : ContactPlanLine) : PlanLine := .range c.start c.stop c.fromNode c.toNode 1

def toStringContact (c : ContactPlanLine) : PlanLine := .contact c.start c.stop c.fromNode c.toNode c.datarate

def toStringTwoWays (c : ContactPlanLine) : PlanLine := .contact c.start c.stop c.toNode c.fromNode c.datarate

def written (c : ContactPlanLine) : List PlanLine := [toStringRange c, toStringContact c, toStringTwoWays c]

/-- A connection that is still up at the end of the log. -/
def closeAtEnd (lastIndex : Nat) (c : ContactPlanLine) : ContactPlanLine :=
  if c.stop ≠ 0 then c else { c with stop := lastIndex }

/-- What is written; a log without lines ends in an exception. -/
def main (log : List LogLine) : Option (List PlanLine) :=
  let contactPlan := log.foldl readLine []
  log.getLast?.map fun lastLine => contactPlan.flatMap fun c => written (closeAtEnd (toInt (lastLine.time + 2)) c)

/-! What a log says, apart from the generator. -/

/-- The events of two nodes take turns. -/
def Alternates (a b : Nat) : Bool → List LogLine → Prop
  | _, [] => True
  | isUp, .up _ node1 node2 _ :: rest =>
    if samePair node1 node2 a b then isUp = false ∧ Alternates a b true rest else Alternates a b isUp rest
  | isUp, .down _ node1 node2 :: rest =>
    if samePair node1 node2 a b then isUp = true ∧ Alternates a b false rest else Alternates a b isUp rest
  | isUp, .other _ :: rest => Alternates a b isUp rest

structure WellFormed (log : List LogLine) : Prop where
  ordered : log.Pairwise fun e e' => e.time ≤ e'.time
  alternates : ∀ a b, Alternates a b false log

/-- The next time at which the connection of two nodes goes down. -/
def downTime (node1 node2 : Nat) : List LogLine → Option ℚ≥0
  | [] => none
  | .down time a b :: rest => if samePair node1 node2 a b then some time else downTime node1 node2 rest
  | .up _ _ _ _ :: rest => downTime node1 node2 rest
  | .other _ :: rest => downTime node1 node2 rest

/-- When a connection ends that is up before the given part of the log. -/
def stopTime (last : ℚ≥0) (node1 node2 : Nat) (log : List LogLine) : ℚ≥0 := (downTime node1 node2 log).getD (last + 2)

/-- The connections of a log, in whole seconds. -/
def connections (last : ℚ≥0) : List LogLine → List ContactPlanLine
  | [] => []
  | .up time node1 node2 datarate :: rest =>
    ⟨⌊time⌋₊, ⌊stopTime last node1 node2 rest⌋₊, node1, node2, datarate⟩ :: connections last rest
  | .down _ _ _ :: rest => connections last rest
  | .other _ :: rest => connections last rest

def lastTime (log : List LogLine) : ℚ≥0 := (log.getLast?.map LogLine.time).getD 0

/-- The plan has the lines of every connection, each once, and no others. -/
def LosesNothing (log : List LogLine) : Prop :=
  ((main log).getD []).Perm ((connections (lastTime log) log).flatMap written)

def key (c : ContactPlanLine) : Nat × Nat := (c.start, c.fromNode)

/-- No two connections begin within the same second at the same first node, and each ends in a
second that is not the first of the simulation and that an integer holds. -/
structure Distinct (cs : List ContactPlanLine) : Prop where
  keys : (cs.map key).Nodup
  stops : ∀ c ∈ cs, 0 < c.stop ∧ c.stop < 2 ^ 31

variable {log rest : List LogLine} {plan plan' : List ContactPlanLine} {c c' line : ContactPlanLine}
variable {a b node1 node2 stop : Nat} {last time : ℚ≥0}

theorem Distinct.perm {cs cs' : List ContactPlanLine} (h : Distinct cs) (hperm : cs.Perm cs') : Distinct cs' where
  keys := (hperm.map key).nodup_iff.mp h.keys
  stops c hc := h.stops c (hperm.mem_iff.mpr hc)

theorem samePair_self (a b : Nat) : samePair a b a b = true := by simp [samePair]

theorem samePair_iff : samePair a b node1 node2 = true ↔ (a = node1 ∧ b = node2) ∨ (a = node2 ∧ b = node1) := by
  simp [samePair]

theorem samePair_trans {x y : Nat} (h : samePair x y node1 node2 = true) (h' : samePair x y a b = true) :
    samePair node1 node2 a b = true := by
  rw [samePair_iff] at *
  omega

/-- Lines of the same two nodes are up for the same pairs. -/
theorem connectionUp_congr (hpair : samePair node1 node2 a b = true) (c : ContactPlanLine) :
    connectionUp c node1 node2 = connectionUp c a b := by
  have hsame : samePair c.fromNode c.toNode node1 node2 = samePair c.fromNode c.toNode a b := by
    rw [Bool.eq_iff_iff, samePair_iff, samePair_iff]
    rcases samePair_iff.mp hpair with ⟨rfl, rfl⟩ | ⟨rfl, rfl⟩
    · exact Iff.rfl
    · exact or_comm
  simp only [connectionUp, hsame]

theorem connectionUp_iff : connectionUp c a b = true ↔ samePair c.fromNode c.toNode a b = true ∧ c.stop = 0 := by
  simp [connectionUp]

theorem compareTo_eq_zero : line.compareTo c = 0 ↔ key line = key c := by
  simp only [ContactPlanLine.compareTo, key, Prod.mk.injEq]
  split <;> omega

theorem compareTo_neg : line.compareTo c < 0 ↔
    line.start < c.start ∨ (line.start = c.start ∧ line.fromNode < c.fromNode) := by
  simp only [ContactPlanLine.compareTo]
  split <;> omega

/-- A line whose key is new is put into the set. -/
theorem add_perm (hnew : key line ∉ plan.map key) : (add line plan).Perm (line :: plan) := by
  induction plan with
  | nil => exact List.Perm.refl _
  | cons cpl rest ih =>
    rw [List.map_cons, List.mem_cons, not_or] at hnew
    rw [add, if_neg (mt compareTo_eq_zero.mp hnew.1)]
    split
    · exact List.Perm.refl _
    · exact ((ih hnew.2).cons cpl).trans (List.Perm.swap line cpl rest)

/-- The set is sorted. -/
def Sorted (plan : List ContactPlanLine) : Prop := plan.Pairwise fun c c' => c.compareTo c' < 0

theorem mem_add (h : c ∈ add line plan) : c = line ∨ c ∈ plan := by
  induction plan with
  | nil => exact Or.inl (List.mem_singleton.mp h)
  | cons cpl rest ih =>
    rw [add] at h
    split at h
    · exact Or.inr h
    · split at h
      · exact (List.mem_cons.mp h).imp_right id
      · cases List.mem_cons.mp h with
        | inl heq => exact Or.inr (heq ▸ List.mem_cons_self)
        | inr hmem => exact (ih hmem).imp_right (List.mem_cons_of_mem _)

theorem add_sorted (h : Sorted plan) : Sorted (add line plan) := by
  induction plan with
  | nil => exact List.pairwise_singleton _ _
  | cons cpl rest ih =>
    obtain ⟨hcpl, hrest⟩ := List.pairwise_cons.mp h
    rw [add]
    split
    · exact h
    · rename_i hne
      split
      · rename_i hlt
        refine List.pairwise_cons.mpr ⟨?_, h⟩
        intro c hc
        cases List.mem_cons.mp hc with
        | inl heq => rwa [heq]
        | inr hmem =>
          have hnext := hcpl c hmem
          rw [compareTo_neg] at hlt hnext ⊢
          omega
      · rename_i hge
        refine List.pairwise_cons.mpr ⟨?_, ih hrest⟩
        intro c hc
        cases mem_add hc with
        | inl heq =>
          rw [compareTo_eq_zero, key, key, Prod.mk.injEq] at hne
          rw [compareTo_neg] at hge ⊢
          rw [heq]
          omega
        | inr hmem => exact hcpl c hmem

/-- No two lines of the same nodes are up at once. -/
def OneUp (plan : List ContactPlanLine) : Prop :=
  ∀ a b, plan.Pairwise fun c c' => ¬ (connectionUp c a b = true ∧ connectionUp c' a b = true)

/-- The line that a stop is given to. -/
def close (node1 node2 stop : Nat) (c : ContactPlanLine) : ContactPlanLine :=
  if connectionUp c node1 node2 then { c with stop := stop } else c

theorem setFirstStop_eq_map (h : OneUp plan) (node1 node2 stop : Nat) :
    setFirstStop node1 node2 stop plan = plan.map (close node1 node2 stop) := by
  induction plan with
  | nil => rfl
  | cons c rest ih =>
    have hrest : OneUp rest := fun a b => (List.pairwise_cons.mp (h a b)).2
    rw [setFirstStop, List.map_cons]
    by_cases hup : connectionUp c node1 node2 = true
    · have hsame : rest.map (close node1 node2 stop) = rest := by
        rw [List.map_congr_left (g := id), List.map_id]
        intro c' hc'
        have hdown := (List.pairwise_cons.mp (h node1 node2)).1 c' hc'
        rw [close, if_neg (fun hup' => hdown ⟨hup, hup'⟩)]
        rfl
      rw [if_pos hup, close, if_pos hup, hsame]
    · rw [if_neg hup, close, if_neg hup, ih hrest]

theorem setFirstStop_keys (node1 node2 stop : Nat) (plan : List ContactPlanLine) :
    (setFirstStop node1 node2 stop plan).map key = plan.map key := by
  induction plan with
  | nil => rfl
  | cons c rest ih =>
    rw [setFirstStop]
    split
    · rfl
    · rw [List.map_cons, ih, List.map_cons]

/-- A line as it will be when the rest of the log has been read. -/
def resolve (last : ℚ≥0) (rest : List LogLine) (c : ContactPlanLine) : ContactPlanLine :=
  if c.stop ≠ 0 then c else { c with stop := ⌊stopTime last c.fromNode c.toNode rest⌋₊ }

theorem resolve_key (last : ℚ≥0) (rest : List LogLine) (c : ContactPlanLine) : key (resolve last rest c) = key c := by
  unfold resolve
  split <;> rfl

/-- All connections: those in the set, and those that the rest of the log has. -/
def total (last : ℚ≥0) (plan : List ContactPlanLine) (rest : List LogLine) : List ContactPlanLine :=
  plan.map (resolve last rest) ++ connections last rest

theorem toInt_eq (h : ⌊time⌋₊ < 2 ^ 31) : toInt time = ⌊time⌋₊ := by
  unfold toInt
  omega

/-- What holds between two lines of the log. -/
structure Ready (last : ℚ≥0) (plan : List ContactPlanLine) (log : List LogLine) : Prop where
  ordered : log.Pairwise fun e e' => e.time ≤ e'.time
  ended : ∀ e ∈ log, e.time ≤ last
  oneUp : OneUp plan
  alternates : ∀ a b, Alternates a b (plan.any fun c => connectionUp c a b) log
  distinct : Distinct (total last plan log)

theorem time_le_stopTime {e : LogLine} (hordered : ∀ e' ∈ rest, e.time ≤ e'.time) (hlast : e.time ≤ last)
    (node1 node2 : Nat) : e.time ≤ stopTime last node1 node2 rest := by
  have hend : e.time ≤ last + 2 := hlast.trans (le_add_of_nonneg_right (by positivity))
  induction rest with
  | nil => exact hend
  | cons e' rest ih =>
    have hrest := ih (fun e'' he'' => hordered e'' (List.mem_cons_of_mem _ he''))
    cases e' with
    | up time' a b datarate => exact hrest
    | other time' => exact hrest
    | down time' a b =>
      rw [stopTime, downTime]
      split
      · exact hordered _ List.mem_cons_self
      · exact hrest

/-- A new line is what it will be resolved to, out of its turn. -/
theorem total_add {datarate : Nat} (hnew : key ⟨⌊time⌋₊, 0, node1, node2, datarate⟩ ∉ plan.map key) :
    (total last (add ⟨⌊time⌋₊, 0, node1, node2, datarate⟩ plan) rest).Perm
      (total last plan (.up time node1 node2 datarate :: rest)) := by
  have hsplit := ((add_perm hnew).map (resolve last rest)).append_right (connections last rest)
  have hmiddle : (total last plan (.up time node1 node2 datarate :: rest)).Perm
      (⟨⌊time⌋₊, ⌊stopTime last node1 node2 rest⌋₊, node1, node2, datarate⟩ ::
        (plan.map (resolve last rest) ++ connections last rest)) := List.perm_middle
  exact hsplit.trans hmiddle.symm

/-- A new line begins the turn of its two nodes, and of no others. -/
theorem alternates_add {start datarate : Nat} (hnew : key ⟨start, 0, node1, node2, datarate⟩ ∉ plan.map key)
    (halternates : Alternates a b (plan.any fun c => connectionUp c a b) (.up time node1 node2 datarate :: rest)) :
    Alternates a b ((add ⟨start, 0, node1, node2, datarate⟩ plan).any fun c => connectionUp c a b) rest := by
  rw [Alternates] at halternates
  rw [(add_perm hnew).any_eq, List.any_cons]
  by_cases hpair : samePair node1 node2 a b = true
  · rw [if_pos hpair] at halternates
    have hup : connectionUp ⟨start, 0, node1, node2, datarate⟩ a b = true := connectionUp_iff.mpr ⟨hpair, rfl⟩
    rw [hup]
    exact halternates.2
  · rw [if_neg hpair] at halternates
    have hup : connectionUp ⟨start, 0, node1, node2, datarate⟩ a b = false := by
      rw [Bool.eq_false_iff]
      exact fun hup => hpair (connectionUp_iff.mp hup).1
    rw [hup]
    exact halternates

/-- An UP event puts a new line into the set, which is up. -/
theorem Ready.up {datarate : Nat} (h : Ready last plan (.up time node1 node2 datarate :: rest)) :
    Ready last (add ⟨toInt time, 0, node1, node2, datarate⟩ plan) rest ∧
      (total last (add ⟨toInt time, 0, node1, node2, datarate⟩ plan) rest).Perm
        (total last plan (.up time node1 node2 datarate :: rest)) := by
  obtain ⟨hordered, hended, honeUp, halternates, hdistinct⟩ := h
  have hstop := hdistinct.stops ⟨⌊time⌋₊, ⌊stopTime last node1 node2 rest⌋₊, node1, node2, datarate⟩
    (List.mem_append_right _ List.mem_cons_self)
  have hle : ⌊time⌋₊ ≤ ⌊stopTime last node1 node2 rest⌋₊ :=
    Nat.floor_le_floor (time_le_stopTime (List.pairwise_cons.mp hordered).1 (hended _ List.mem_cons_self) node1 node2)
  have hint : toInt time = ⌊time⌋₊ := toInt_eq (hle.trans_lt hstop.2)
  rw [hint]
  have hkeys := hdistinct.keys
  rw [total, List.map_append, List.map_map, List.nodup_append'] at hkeys
  have hnew : key ⟨⌊time⌋₊, 0, node1, node2, datarate⟩ ∉ plan.map key := by
    intro hmem
    refine hkeys.2.2 ?_ (List.mem_map_of_mem List.mem_cons_self)
    obtain ⟨c, hc, heq⟩ := List.mem_map.mp hmem
    exact List.mem_map.mpr ⟨c, hc, (resolve_key _ _ c).trans heq⟩
  have htotal : (total last (add ⟨⌊time⌋₊, 0, node1, node2, datarate⟩ plan) rest).Perm
      (total last plan (.up time node1 node2 datarate :: rest)) := total_add hnew
  refine ⟨⟨(List.pairwise_cons.mp hordered).2, fun e he => hended e (List.mem_cons_of_mem _ he), ?_,
    fun a b => alternates_add hnew (halternates a b), hdistinct.perm htotal.symm⟩, htotal⟩
  intro a b
  rw [(add_perm hnew).pairwise_iff (fun hcc hc => hcc hc.symm), List.pairwise_cons]
  refine ⟨?_, honeUp a b⟩
  rintro c hc ⟨hup, hup'⟩
  -- its nodes are not up when they come up
  have halt := halternates a b
  rw [Alternates, if_pos (connectionUp_iff.mp hup).1] at halt
  exact List.any_eq_false.mp halt.1 c hc hup'

theorem resolve_down (hup : connectionUp c node1 node2 = true) :
    resolve last (.down time node1 node2 :: rest) c = { c with stop := ⌊time⌋₊ } := by
  obtain ⟨hpair, hzero⟩ := connectionUp_iff.mp hup
  rw [resolve, if_neg (not_not_intro hzero), stopTime, downTime, if_pos hpair]
  rfl

/-- A line that a DOWN event closes is what it would have become. -/
theorem resolve_close (hpos : ⌊time⌋₊ ≠ 0) (c : ContactPlanLine) :
    resolve last rest (close node1 node2 ⌊time⌋₊ c) = resolve last (.down time node1 node2 :: rest) c := by
  rw [close]
  by_cases hup : connectionUp c node1 node2 = true
  · rw [if_pos hup, resolve_down hup, resolve, if_pos hpos]
  · rw [if_neg hup, resolve, resolve]
    by_cases hzero : c.stop = 0
    · have hpair : ¬ samePair c.fromNode c.toNode node1 node2 = true :=
        fun hpair => hup (connectionUp_iff.mpr ⟨hpair, hzero⟩)
      rw [if_neg (not_not_intro hzero), if_neg (not_not_intro hzero), stopTime, stopTime, downTime, if_neg hpair]
    · rw [if_pos hzero, if_pos hzero]

/-- What is up afterwards was up before, and is not of the two nodes. -/
theorem connectionUp_close (hpos : stop ≠ 0) : connectionUp (close node1 node2 stop c) a b = true ↔
    connectionUp c a b = true ∧ ¬ samePair node1 node2 a b = true := by
  rw [close]
  by_cases hup : connectionUp c node1 node2 = true
  · rw [if_pos hup]
    constructor
    · intro hup'
      exact absurd (connectionUp_iff.mp hup').2 hpos
    · rintro ⟨hup', hpair⟩
      exact absurd (samePair_trans (connectionUp_iff.mp hup).1 (connectionUp_iff.mp hup').1) hpair
  · rw [if_neg hup]
    constructor
    · intro hup'
      refine ⟨hup', fun hpair => hup ?_⟩
      rw [connectionUp_congr hpair]
      exact hup'
    · exact And.left

/-- A stop ends the turn of the two nodes, and of no others. -/
theorem alternates_close (hpos : stop ≠ 0) (halternates : Alternates a b (plan.any fun c => connectionUp c a b)
    (.down time node1 node2 :: rest)) :
    Alternates a b ((plan.map (close node1 node2 stop)).any fun c => connectionUp c a b) rest := by
  rw [Alternates] at halternates
  rw [List.any_map]
  by_cases hpair : samePair node1 node2 a b = true
  · rw [if_pos hpair] at halternates
    have hnone : plan.any ((fun c => connectionUp c a b) ∘ close node1 node2 stop) = false := by
      rw [List.any_eq_false]
      exact fun c _ hc => ((connectionUp_close hpos).mp hc).2 hpair
    rw [hnone]
    exact halternates.2
  · rw [if_neg hpair] at halternates
    have hsame : ((fun c => connectionUp c a b) ∘ close node1 node2 stop) = fun c => connectionUp c a b := by
      funext c
      rw [Function.comp_apply, Bool.eq_iff_iff, connectionUp_close hpos]
      exact and_iff_left hpair
    rw [hsame]
    exact halternates

/-- A DOWN event gives the one line that is up its stop. -/
theorem Ready.down (h : Ready last plan (.down time node1 node2 :: rest)) :
    Ready last (setFirstStop node1 node2 (toInt time) plan) rest ∧
      total last (setFirstStop node1 node2 (toInt time) plan) rest = total last plan (.down time node1 node2 :: rest) := by
  obtain ⟨hordered, hended, honeUp, halternates, hdistinct⟩ := h
  have halt := halternates node1 node2
  rw [Alternates, if_pos (samePair_self node1 node2)] at halt
  obtain ⟨open', hopen, hup⟩ := List.any_eq_true.mp halt.1
  have hstop := hdistinct.stops { open' with stop := ⌊time⌋₊ }
    (List.mem_append_left _ (List.mem_map.mpr ⟨open', hopen, resolve_down hup⟩))
  have hint : toInt time = ⌊time⌋₊ := toInt_eq hstop.2
  have hpos : ⌊time⌋₊ ≠ 0 := Nat.pos_iff_ne_zero.mp hstop.1
  rw [hint, setFirstStop_eq_map honeUp]
  have htotal : total last (plan.map (close node1 node2 ⌊time⌋₊)) rest =
      total last plan (.down time node1 node2 :: rest) := by
    unfold total
    rw [List.map_map]
    congr 1
    exact List.map_congr_left fun c _ => resolve_close hpos c
  refine ⟨⟨(List.pairwise_cons.mp hordered).2, fun e he => hended e (List.mem_cons_of_mem _ he), ?_,
    fun a b => alternates_close hpos (halternates a b), ?_⟩, htotal⟩
  · intro a b
    rw [List.pairwise_map]
    apply (honeUp a b).imp
    rintro c c' hnot ⟨hc, hc'⟩
    exact hnot ⟨((connectionUp_close hpos).mp hc).1, ((connectionUp_close hpos).mp hc').1⟩
  · rw [htotal]
    exact hdistinct

/-- What the generator ends with is all the connections. -/
theorem readLines_total (h : Ready last plan log) :
    ((log.foldl readLine plan).map (closeAtEnd (toInt (last + 2)))).Perm (total last plan log) := by
  induction log generalizing plan with
  | nil =>
    rw [List.foldl_nil, total, connections, List.append_nil, List.map_congr_left]
    intro c hc
    rw [closeAtEnd, resolve]
    by_cases hzero : c.stop = 0
    · have hresolve : resolve last [] c = { c with stop := ⌊last + 2⌋₊ } := by
        rw [resolve, if_neg (not_not_intro hzero)]
        rfl
      have hstop := (h.distinct.stops _ (List.mem_append_left _ (List.mem_map_of_mem hc))).2
      rw [hresolve] at hstop
      rw [if_neg (not_not_intro hzero), if_neg (not_not_intro hzero), toInt_eq hstop]
      rfl
    · rw [if_pos hzero, if_pos hzero]
  | cons e log ih =>
    rw [List.foldl_cons]
    cases e with
    | up time node1 node2 datarate =>
      obtain ⟨hready, htotal⟩ := h.up
      exact (ih hready).trans htotal
    | down time node1 node2 =>
      obtain ⟨hready, htotal⟩ := h.down
      rw [← htotal]
      exact ih hready
    | other time =>
      exact ih ⟨(List.pairwise_cons.mp h.ordered).2, fun e he => h.ended e (List.mem_cons_of_mem _ he), h.oneUp,
        h.alternates, h.distinct⟩

/-- The set has no two lines with the same key, and its stops are integers. -/
structure Kept (plan : List ContactPlanLine) : Prop where
  sorted : Sorted plan
  stops : ∀ c ∈ plan, c.stop < 2 ^ 31

theorem toInt_lt (time : ℚ≥0) : toInt time < 2 ^ 31 := by
  unfold toInt
  omega

theorem setFirstStop_kept (h : Kept plan) (hstop : stop < 2 ^ 31) : Kept (setFirstStop node1 node2 stop plan) := by
  constructor
  · have hsorted := h.sorted
    have hcompare : ∀ c c' : ContactPlanLine, c.compareTo c' < 0 ↔
        (key c).1 < (key c').1 ∨ ((key c).1 = (key c').1 ∧ (key c).2 < (key c').2) := fun c c' => compareTo_neg
    have hkeys : ∀ plan : List ContactPlanLine, Sorted plan ↔
        (plan.map key).Pairwise fun k k' => k.1 < k'.1 ∨ (k.1 = k'.1 ∧ k.2 < k'.2) := by
      intro plan
      rw [List.pairwise_map, Sorted]
      simp only [hcompare]
    rw [hkeys, setFirstStop_keys, ← hkeys]
    exact hsorted
  · have hstops := h.stops
    clear h
    induction plan with
    | nil => exact hstops
    | cons cpl rest ih =>
      intro c hc
      rw [setFirstStop] at hc
      split at hc
      · cases List.mem_cons.mp hc with
        | inl heq => rwa [heq]
        | inr hmem => exact hstops c (List.mem_cons_of_mem _ hmem)
      · cases List.mem_cons.mp hc with
        | inl heq => exact hstops c (heq ▸ List.mem_cons_self)
        | inr hmem => exact ih (fun c hc => hstops c (List.mem_cons_of_mem _ hc)) c hmem

theorem readLines_kept (log : List LogLine) (h : Kept plan) : Kept (log.foldl readLine plan) := by
  induction log generalizing plan with
  | nil => exact h
  | cons e log ih =>
    apply ih
    cases e with
    | up time node1 node2 datarate =>
      refine ⟨add_sorted h.sorted, ?_⟩
      intro c hc
      cases mem_add hc with
      | inl heq => simp [heq]
      | inr hmem => exact h.stops c hmem
    | down time node1 node2 => exact setFirstStop_kept h (toInt_lt time)
    | other time => exact h

/-- A range line tells what the line of a connection was, its rate apart. -/
def rangeOf : PlanLine → Option (Nat × Nat × Nat)
  | .range start stop fromNode _ _ => some (start, stop, fromNode)
  | .contact _ _ _ _ _ => none

theorem rangeOf_written (cs : List ContactPlanLine) :
    (cs.flatMap written).filterMap rangeOf = cs.map fun c => (c.start, c.stop, c.fromNode) := by
  induction cs with
  | nil => rfl
  | cons c rest ih =>
    rw [List.flatMap_cons, List.filterMap_append, ih]
    rfl

/-- What is written for a set whose lines are unlike each other. -/
theorem distinct_of_written {cs : List ContactPlanLine} (h : Kept plan)
    (hperm : (plan.flatMap fun c => written (closeAtEnd (toInt (last + 2)) c)).Perm (cs.flatMap written)) :
    Distinct cs := by
  have hplan : (plan.flatMap fun c => written (closeAtEnd (toInt (last + 2)) c)) =
      (plan.map (closeAtEnd (toInt (last + 2)))).flatMap written := by rw [List.flatMap_map]
  rw [hplan] at hperm
  have hranges := hperm.filterMap rangeOf
  rw [rangeOf_written, rangeOf_written] at hranges
  constructor
  · have hkeys := hranges.map fun r => (r.1, r.2.2)
    rw [List.map_map, List.map_map, List.map_map] at hkeys
    have hnodup : (plan.map key).Nodup := by
      rw [List.Nodup, List.pairwise_map]
      apply h.sorted.imp
      intro c c' hlt heq
      rw [compareTo_eq_zero.mpr heq] at hlt
      exact lt_irrefl _ hlt
    have hkey : ((fun r : Nat × Nat × Nat => (r.1, r.2.2)) ∘ fun c : ContactPlanLine => (c.start, c.stop, c.fromNode)) ∘
        closeAtEnd (toInt (last + 2)) = key := by
      funext c
      simp only [Function.comp_apply, closeAtEnd]
      split <;> rfl
    rw [hkey] at hkeys
    exact hkeys.nodup_iff.mp hnodup
  · intro c hc
    have hmem : (c.start, c.stop, c.fromNode) ∈ cs.map fun c => (c.start, c.stop, c.fromNode) :=
      List.mem_map_of_mem hc
    rw [← hranges.mem_iff, List.map_map] at hmem
    obtain ⟨c', hc', heq⟩ := List.mem_map.mp hmem
    rw [Function.comp_apply, Prod.mk.injEq, Prod.mk.injEq] at heq
    rw [← heq.2.1, closeAtEnd]
    by_cases hzero : c'.stop = 0
    · rw [if_neg (not_not_intro hzero)]
      refine ⟨?_, toInt_lt _⟩
      have htwo : 2 ≤ ⌊last + 2⌋₊ := Nat.le_floor (le_add_of_nonneg_left (by positivity))
      change 0 < toInt (last + 2)
      unfold toInt
      omega
    · rw [if_pos hzero]
      exact ⟨Nat.pos_of_ne_zero hzero, h.stops c' hc'⟩

theorem ready_start (h : WellFormed log) (hdistinct : Distinct (connections (lastTime log) log)) :
    Ready (lastTime log) [] log where
  ordered := h.ordered
  ended e he := by
    rcases List.eq_nil_or_concat' log with rfl | ⟨front, final, rfl⟩
    · cases he
    · have hlast : lastTime (front ++ [final]) = final.time := by simp [lastTime]
      rw [hlast]
      rw [List.mem_append, List.mem_singleton] at he
      cases he with
      | inl hfront => exact (List.pairwise_append.mp h.ordered).2.2 e hfront final (List.mem_singleton.mpr rfl)
      | inr heq => rw [heq]
  oneUp := fun _ _ => List.Pairwise.nil
  alternates := h.alternates
  distinct := hdistinct

/-- Of two connections that begin at the same time at the same node the second is lost. -/
theorem main_loses_one : WellFormed [.up 10 1 2 100, .up 10 1 3 100] ∧
    ¬ LosesNothing [.up 10 1 2 100, .up 10 1 3 100] := by
  refine ⟨⟨by simp [LogLine.time], ?_⟩, ?_⟩
  · intro a b
    simp only [Alternates]
    by_cases h12 : samePair 1 2 a b = true
    · have h13 : ¬ samePair 1 3 a b = true := by
        rw [samePair_iff] at *
        omega
      simp [h12, h13]
    · simp [h12]
  · intro h
    have hlength := h.length_eq
    simp [main, readLine, add, ContactPlanLine.compareTo, connections, written] at hlength

/-- The generator loses no connection exactly when no two of them begin within the same second at the
same first node and none ends in the first second, nor later than an integer can tell. -/
theorem main_losesNothing_iff (h : WellFormed log) :
    LosesNothing log ↔ Distinct (connections (lastTime log) log) := by
  unfold LosesNothing main
  rcases List.eq_nil_or_concat' log with rfl | ⟨front, final, heq⟩
  · exact ⟨fun _ => ⟨List.nodup_nil, by simp [connections]⟩, fun _ => List.Perm.refl _⟩
  have hfinal : log.getLast? = some final := by rw [heq, List.getLast?_concat]
  have hlast : lastTime log = final.time := by rw [lastTime, hfinal]; rfl
  rw [hfinal, Option.map_some, Option.getD_some, hlast]
  constructor
  · intro hperm
    exact distinct_of_written (readLines_kept log ⟨List.Pairwise.nil, by simp⟩) hperm
  · intro hdistinct
    rw [← hlast] at hdistinct ⊢
    have hperm := (readLines_total (ready_start h hdistinct)).flatMap_right written
    rw [List.flatMap_map] at hperm
    exact hperm

/-- Two nodes that meet twice, the second time to the end of the log. -/
theorem main_losesNothing_iff_twice :
    LosesNothing [.up 10 1 2 100, .down 20 2 1, .up 30 1 2 100, .other 40] := by
  refine (main_losesNothing_iff ⟨?_, ?_⟩).mpr ⟨?_, ?_⟩
  · simp only [List.pairwise_cons, LogLine.time]
    norm_num
  · intro a b
    have hswap : samePair 2 1 a b = samePair 1 2 a b := by
      rw [Bool.eq_iff_iff, samePair_iff, samePair_iff]
      omega
    simp only [Alternates, hswap]
    by_cases hpair : samePair 1 2 a b = true <;> simp [hpair]
  · simp [connections, key]
  · have hend : ⌊(40 + 2 : ℚ≥0)⌋₊ = 42 := by norm_num
    simp [connections, stopTime, downTime, samePair, lastTime, LogLine.time, hend]

end ContactPlanCreator
