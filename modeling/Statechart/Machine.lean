import Statechart.Bundle
import Statechart.Descriptor

/-!
# Compiled machines

A machine holds the states of a descriptor with every name looked up: one chart of
states for a flat machine, one for each region of a parallel one.
-/

namespace Statechart

variable {κ : Type}

/-- What an action does: an effect to be executed later, or an assign. -/
inductive Operation (κ : Type) where
  | effect (name : String) (code : κ)
  | assign (change : Assign)

/-- A candidate transition with its names looked up. -/
structure Candidate (κ : Type) where
  target : Option String
  actions : List (Operation κ)
  guard : Option Guard

/-- A delay in milliseconds: fixed, or found by a rule each time. -/
inductive Delay where
  | fixed (millis : Nat)
  | ruled (rule : Rule Nat)

/-- The candidates of a delay, under the key it was declared with. -/
structure Delayed (κ : Type) where
  key : String
  delay : Delay
  candidates : List (Candidate κ)

/-- An invocation with the names of its reactions looked up.  A service is looked up
when the child is started. -/
structure Invocation (κ : Type) where
  id : String
  source : ChildSource κ
  data : Option ChildData
  onDone : Option (Reaction (Candidate κ))
  onError : Option (Reaction (Candidate κ))

/-- A state of a chart. -/
structure Node (κ : Type) where
  key : String
  kind : Kind
  on : OrderedMap (List (Candidate κ))
  entry : List (Operation κ)
  exit : List (Operation κ)
  after : List (Delayed κ)
  invoke : List (Invocation κ)
  metadata : Option Meta

/-- The states of a flat machine or of one region.  The owner is the name used in
errors. -/
structure Chart (κ : Type) where
  owner : String
  region : Option String
  initial : String
  nodes : OrderedMap (Node κ)

/-- The shape of a machine. -/
inductive Topology (κ : Type) where
  | flat (chart : Chart κ)
  | parallel (regions : List (Chart κ))

/-- A compiled machine.  Its initial snapshot has run the assigns among the entry
actions and holds the effects among them. -/
structure Machine (κ : Type) where
  id : Option String
  metadata : Option Meta
  context : Context
  topology : Topology κ
  initial : Snapshot κ
  services : Services κ

/-- The machine was asked about a state it does not have. -/
inductive MachineError where
  | unknownState (machine : String) (state : String)
  | missingRegion (machine : String) (region : String)
  | unexpectedValue (machine : String) (value : StateValue)

namespace MachineError

/-- The wording of an error. -/
def message : MachineError → String
  | unknownState machine state =>
    "State '" ++ state ++ "' not found on machine '" ++ machine ++ "'"
  | missingRegion machine region =>
    "Region '" ++ region ++ "' missing from the value of machine '" ++ machine ++ "'"
  | unexpectedValue machine value =>
    "Value '" ++ value.text ++ "' does not fit the shape of machine '" ++ machine ++ "'"

end MachineError

/-! ### Parts of a machine -/

namespace Node

/-- Whether reaching the state completes the machine. -/
def isFinal (n : Node κ) : Bool := n.kind = .final

/-- The candidates of a delay. -/
def after? (n : Node κ) (key : String) : Option (Delayed κ) :=
  n.after.find? fun d => d.key = key

/-- The invocation with an identifier. -/
def invoke? (n : Node κ) (id : String) : Option (Invocation κ) :=
  n.invoke.find? fun i => i.id = id

end Node

namespace Chart

/-- The state with a key. -/
def node (c : Chart κ) (key : String) : Except MachineError (Node κ) :=
  match c.nodes.get? key with
  | some n => .ok n
  | none => .error (.unknownState c.owner key)

/-- The key of a region; the owner for a flat machine. -/
def regionKey (c : Chart κ) : String := c.region.getD c.owner

/-- The keys of the final states. -/
def finalKeys (c : Chart κ) : List String := (c.nodes.values.filter Node.isFinal).map Node.key

/-- Whether a state is there and final. -/
def isFinalAt (c : Chart κ) (key : String) : Bool :=
  match c.nodes.get? key with
  | some n => n.isFinal
  | none => false

end Chart

namespace Machine

/-- The name of a machine in errors. -/
def nameOf (id : Option String) : String := id.getD "(anonymous)"

/-- The name of the machine in errors. -/
def name (m : Machine κ) : String := nameOf m.id

/-- Whether the machine has regions. -/
def isParallel (m : Machine κ) : Bool :=
  match m.topology with
  | .flat _ => false
  | .parallel _ => true

/-- The chart of a flat machine. -/
def flat? (m : Machine κ) : Option (Chart κ) :=
  match m.topology with
  | .flat chart => some chart
  | .parallel _ => none

/-- The final states, with their region if there are regions. -/
def finalStates (m : Machine κ) : List String :=
  match m.topology with
  | .flat chart => chart.finalKeys
  | .parallel regions =>
    regions.flatMap fun r => r.finalKeys.map fun key => r.regionKey ++ "." ++ key

end Machine

end Statechart
