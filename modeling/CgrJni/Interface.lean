import CgrJni.Process
import CgrJni.Router

/-!
The adaptation layer: a message of the simulator as a bundle, the outducts of its
router as outducts of the bundle protocol, and what a call of `cgrForwardONE` does.
-/

namespace Interface

open Forward Process Router Scalar

/-- What the lookups of a call see and keep: the router of the local node, the outducts that
were converted, by list element, and their catalogue. A pending exception ends the call. -/
structure OneEnv where
  router : ContactGraphRouter
  outductList : List Forward.Outduct
  catalogue : String → Option Nat
  exception : Bool

def OneEnv.start (router : ContactGraphRouter) : OneEnv := ⟨router, [], fun _ => none, false⟩

/-- `getMessageTTL` is passed as `unsigned int`, and so is the sum. -/
def ionBundle (m : Message) (ttl now : Int) : Bundle where
  senderNodeNbr := m.fromHost
  returnToSender := true
  destination := m.toHost
  cbhe := true
  expirationTime := ((now + ttl % 2 ^ 32) % 2 ^ 32).toNat
  payloadLength := m.size % 2 ^ 32
  doesNotFragment := true
  minimumLatency := false
  dictionaryLength := 0
  prePayloadLength := 0
  postPayloadLength := 0

def getOutductName (host : Nat) : String := toString host

def ionOutduct (router : ContactGraphRouter) (host : Nat) : Forward.Outduct where
  name := getOutductName host
  blocked := false
  maxPayloadLen := 1024 * 1024 * 1024
  stdBacklog := loadScalar (toInt32 (router.outducts host).totalEnqueuedBytes)

variable (sim : Simulator)

/-- An unknown host ends in an exception; an outduct is only converted once. -/
def getONEDirective (nodeNbr : Nat) (env : OneEnv) : Option Nat × OneEnv :=
  match getHostFromNumber sim nodeNbr with
  | none => (none, { env with exception := true })
  | some host =>
    match env.catalogue (getOutductName host) with
    | some outductElt => (some outductElt, env)
    | none =>
      (some env.outductList.length,
        { env with
          outductList := env.outductList ++ [ionOutduct env.router host]
          catalogue := Function.update env.catalogue (getOutductName host) (some env.outductList.length) })

def readOutduct (env : OneEnv) (outductElt : Nat) : Forward.Outduct :=
  env.outductList.getD outductElt ⟨"", true, 0, ⟨0, 0⟩⟩

def oneLookup : CgrLookup Nat OneEnv where
  getDirective nodeNbr _ env := getONEDirective sim nodeNbr env
  readOutduct := Interface.readOutduct

/-- The elements of the list are freed, and with them their entries in the catalogue. -/
def wipeOutductList (env : OneEnv) : OneEnv :=
  { env with
    outductList := []
    catalogue := fun name => (env.catalogue name).filter (fun outductElt => env.outductList.length ≤ outductElt) }

/-- The value of a decimal number after blanks and a sign. -/
def atol (s : String) : Int :=
  match s.toList.dropWhile Char.isWhitespace with
  | '-' :: digits => -(Nat.ofDigitChars 10 (digits.takeWhile Char.isDigit) 0 : Int)
  | '+' :: digits => Nat.ofDigitChars 10 (digits.takeWhile Char.isDigit) 0
  | digits => Nat.ofDigitChars 10 (digits.takeWhile Char.isDigit) 0

/-- The router and `forwardResult`, after the bundle was enqueued for a neighbor. -/
def bpEnqueONE (reference : Int) (m : Message) (env : OneEnv) (x : ContactGraphRouter × Int)
    (neighbor : ProximateNode Nat) : Option (ContactGraphRouter × Int) :=
  let router := updateMessageForfeitTime x.1 m (neighbor.forfeitTime - reference)
  let proximateNodeNbr := atol (Interface.readOutduct env neighbor.directive).name
  (insertBundleIntoOutduct sim router m proximateNodeNbr).map (fun router => (router, toInt32 proximateNodeNbr))

structure Forwarded where
  result : Int
  process : IonProcess
  env : OneEnv
  forwarding : Forwarding Nat OneEnv

/-- A call at the node of the router's host; `reference` is the time at which the simulation
started. -/
def cgrForwardONE (p : IonProcess) (env : OneEnv) (m : Message) (ttl now reference : Int)
    (terminusNodeNbr : Nat) : Option Forwarded :=
  (Process.cgrForward p sim.host (oneLookup sim) (ionBundle m ttl now) terminusNodeNbr now env).bind (fun r =>
    if r.2.env.exception then none
    else if r.2.result < 0 then some ⟨-1, r.1, wipeOutductList r.2.env, r.2⟩
    else
      (Runs.run (bpEnqueONE sim reference m r.2.env) (env.router, 0) r.2.selected).map (fun x =>
        ⟨x.2, r.1, { wipeOutductList r.2.env with router := x.1 }, r.2⟩))

end Interface
