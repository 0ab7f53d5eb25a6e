import CgrJni.Platform
import CgrJni.Process

/-!
The contact plan commands of `ionadmin.c`. Every timestamp that begins with a
plus sign is an offset from the reference time, which is one static variable of
the process. Following a null token ends a call without a result. What is
printed is left out.
-/

namespace Ionadmin

open Platform Process Rfx

abbrev Tokens := List (Option CString)

/-- At most so many tokens, and the cursor behind the last of them. Behind trailing space there is
a token that was not found. -/
def readTokens : Nat → CString → Tokens × CString
  | 0, cursor => ([], cursor)
  | n + 1, cursor =>
    if cursor = [] then ([], [])
    else
      let found := findToken cursor
      let more := readTokens n found.2
      (found.1 :: more.1, more.2)

def token (tokens : Tokens) (i : Nat) : Option CString := (tokens[i]?).join

/-- What a command line asks for, once its timestamps are read. -/
inductive Command
  | nothing
  | stop
  | setReferenceTime (time : Int)
  | initializeNode (ownNodeNbr : Nat)
  | showIndex
  | edit (e : Edit)

def contactWord : CString := ['c', 'o', 'n', 't', 'a', 'c', 't']

def rangeWord : CString := ['r', 'a', 'n', 'g', 'e']

section

variable (atof : CString → ℚ)

def executeAdd (referenceTime : Int) (tokens : Tokens) : Option Command :=
  if tokens.length ≠ 7 ∧ tokens.length ≠ 8 then some .nothing
  else do
    let prob ← if tokens.length = 8 then (token tokens 7).map atof else some 1
    let fromTime := readTimestampUTC (token tokens 2) referenceTime
    let toTime := readTimestampUTC (token tokens 3) referenceTime
    if toTime ≤ fromTime then some .nothing
    else
      let fromNodeNbr := strtouvast (← token tokens 4)
      let toNodeNbr := strtouvast (← token tokens 5)
      let word ← token tokens 1
      if word = contactWord then
        let xmitRate := toUnsigned (strtol 0 (← token tokens 6))
        some (.edit (.insertContact fromTime toTime fromNodeNbr toNodeNbr xmitRate prob))
      else if word = rangeWord then
        let owlt := toUnsigned (strtol 10 (← token tokens 6))
        some (.edit (.insertRange fromTime toTime fromNodeNbr toNodeNbr owlt))
      else some .nothing

def executeDelete (referenceTime : Int) (tokens : Tokens) : Option Command :=
  if tokens.length ≠ 5 then some .nothing
  else do
    let wild := (← token tokens 2).head? = some '*'
    let timestamp := if wild then 0 else readTimestampUTC (token tokens 2) referenceTime
    if ¬ wild ∧ timestamp = 0 then some .nothing
    else
      let fromNodeNbr := strtouvast (← token tokens 3)
      let toNodeNbr := strtouvast (← token tokens 4)
      let word ← token tokens 1
      if word = contactWord then some (.edit (.removeContact timestamp fromNodeNbr toNodeNbr))
      else if word = rangeWord then some (.edit (.removeRange timestamp fromNodeNbr toNodeNbr))
      else some .nothing

def executeInfo (tokens : Tokens) : Option Command :=
  if tokens.length ≠ 5 then some .nothing
  else do
    let _ ← token tokens 3
    let _ ← token tokens 4
    let word ← token tokens 1
    some (if word = contactWord ∨ word = rangeWord then .showIndex else .nothing)

def executeList (tokens : Tokens) : Option Command :=
  if tokens.length < 2 then some .nothing
  else do
    let word ← token tokens 1
    some (if word = contactWord ∨ word = rangeWord then .showIndex else .nothing)

def initializeNodeLine (tokens : Tokens) : Option Command :=
  if tokens.length < 2 then some .nothing
  else do
    let ownNodeNbr ← token tokens 1
    some (if ownNodeNbr = [] then .nothing else .initializeNode (strtouvast ownNodeNbr))

def executeAt (referenceTime now : Int) (tokens : Tokens) : Option Command :=
  if tokens.length < 2 then some .nothing
  else do
    let time ← token tokens 1
    some (.setReferenceTime (if time = ['0'] then now else readTimestampUTC (some time) referenceTime))

/-- The switch on the command code, the first character of the first token. -/
def execute (referenceTime now : Int) (code : Option Char) (tokens : Tokens) : Option Command :=
  match code with
  | some '1' => initializeNodeLine tokens
  | some '@' => executeAt referenceTime now tokens
  | some 'a' => executeAdd atof referenceTime tokens
  | some 'd' => executeDelete referenceTime tokens
  | some 'i' => executeInfo tokens
  | some 'l' => executeList tokens
  | some 't' => some .stop
  | some 'q' => some .stop
  | _ => some .nothing

/-- Nine tokens at most: a line with more is not executed. -/
def readLine (referenceTime now : Int) (line : CString) : Option Command :=
  let parsed := readTokens 9 line
  if parsed.1 = [] then some .nothing
  else if parsed.2.dropWhile isspace ≠ [] then some .nothing
  else (token parsed.1 0).bind fun code => execute atof referenceTime now code.head? parsed.1

/-- The process of the simulated nodes, with the static variable. -/
structure AdminProcess where
  nodes : IonProcess
  referenceTime : Int

/-- A node that has no database yet gets an empty one; CGR is not started. -/
def ionInitializeAt (p : IonProcess) (nodeNbr ownNodeNbr : Nat) : IonProcess :=
  if ownNodeNbr = 0 ∨ p.partitions nodeNbr ≠ none then p
  else { p with partitions := Function.update p.partitions nodeNbr (some (Partition.new nodeNbr)) }

def executeCommand (p : AdminProcess) (nodeNbr : Nat) (now : Int) (command : Command) : Option AdminProcess :=
  match command with
  | .nothing => some p
  | .stop => some p
  | .setReferenceTime time => some { p with referenceTime := time }
  | .initializeNode ownNodeNbr => some { p with nodes := ionInitializeAt p.nodes nodeNbr ownNodeNbr }
  | .showIndex => (p.nodes.partitions nodeNbr).map fun _ => p
  | .edit e => (editNode p.nodes nodeNbr now e).map fun nodes => { p with nodes := nodes }

/-- One command line at a node; what is returned tells whether to go on with a file. -/
def processLine (p : AdminProcess) (nodeNbr : Nat) (now : Int) (line : CString) : Option (AdminProcess × Int) := do
  let command ← readLine atof p.referenceTime now line
  let p ← executeCommand p nodeNbr now command
  match command with
  | .stop => some (p, -1)
  | _ => some (p, 0)

def processLines (nodeNbr : Nat) (now : Int) : List CString → AdminProcess → Option AdminProcess
  | [], p => some p
  | line :: rest, p =>
    if line = [] ∨ line.head? = some '#' then processLines nodeNbr now rest p
    else
      (processLine atof p nodeNbr now line).bind fun r =>
        if r.2 ≠ 0 then some r.1 else processLines nodeNbr now rest r.1

/-- A command file, unless it cannot be opened; the reference time is set first either way. -/
def runIonadmin (p : AdminProcess) (nodeNbr : Nat) (now : Int) (cmdFile : Option CString) : Option AdminProcess :=
  let p := { p with referenceTime := now }
  match cmdFile with
  | none => some p
  | some file => processLines atof nodeNbr now (readLines 256 file.length file) p

inductive Call
  | readContactPlan (cmdFile : Option CString)
  | processLine (line : CString)

/-- A call at a node, at a simulated time. -/
structure Addressed where
  nodeNbr : Nat
  time : Int
  call : Call

def step (p : AdminProcess) (a : Addressed) : Option AdminProcess :=
  match a.call with
  | .readContactPlan cmdFile => runIonadmin atof p a.nodeNbr a.time cmdFile
  | .processLine line => (processLine atof p a.nodeNbr a.time line).map Prod.fst

end

end Ionadmin
