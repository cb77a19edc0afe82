import Statechart.Machine.Issue
import Statechart.Machine.Parallel

/-!
# Compilation

A descriptor without issues is compiled by looking up its names in the bundle.  All
issues are reported together.
-/

namespace Statechart

variable {κ : Type}

/-! ### Looking up names -/

/-- What an action does; nothing if its name is unknown. -/
def Action.lookUp (b : Bundle κ) : Action κ → Option (Operation κ)
  | .named name =>
    match b.actions.get? name with
    | some (.effect code) => some (.effect name code)
    | some (.assign change) => some (.assign change)
    | none => none
  | .inline name code => some (.effect name code)
  | .assign change => some (.assign change)

/-- The guard that is meant. -/
def GuardRef.lookUp (b : Bundle κ) : GuardRef → Option Guard
  | .named name => b.guards.get? name
  | .inline guard => some guard

/-- The candidate of a transition. -/
def TransitionDescriptor.lookUp (b : Bundle κ) (t : TransitionDescriptor κ) :
    Candidate κ where
  target := t.target
  actions := t.actions.filterMap (Action.lookUp b)
  guard := t.guard.bind (GuardRef.lookUp b)

/-- The reaction with its names looked up. -/
def Reaction.lookUp (b : Bundle κ) :
    Reaction (TransitionDescriptor κ) → Reaction (Candidate κ)
  | .event kind => .event kind
  | .transition t => .transition (t.lookUp b)

/-- The delay that a key spells or names. -/
def Delay.lookUp (b : Bundle κ) (key : String) : Option Delay :=
  match millis? key with
  | some ms => some (.fixed ms)
  | none => (b.delays.get? key).map .ruled

/-- The invocation with its names looked up. -/
def InvokeDescriptor.lookUp (b : Bundle κ) (i : InvokeDescriptor κ) : Invocation κ where
  id := i.id
  source := i.source
  data := i.data
  onDone := i.onDone.map (Reaction.lookUp b)
  onError := i.onError.map (Reaction.lookUp b)

/-- The invocations with identifiers not yet seen. -/
def invocations (b : Bundle κ) : List String → List (InvokeDescriptor κ) → List (Invocation κ)
  | _, [] => []
  | seen, i :: rest =>
    if seen.contains i.id then invocations b seen rest
    else i.lookUp b :: invocations b (i.id :: seen) rest

/-- The node of a state. -/
def StateDescriptor.node (b : Bundle κ) (key : String) (n : StateDescriptor κ) :
    Node κ where
  key := key
  kind := n.kind
  on := n.on.map fun ts => ts.map (TransitionDescriptor.lookUp b)
  entry := n.entry.filterMap (Action.lookUp b)
  exit := n.exit.filterMap (Action.lookUp b)
  after := n.after.entries.filterMap fun e =>
    (Delay.lookUp b e.1).map fun delay =>
      ⟨e.1, delay, e.2.map (TransitionDescriptor.lookUp b)⟩
  invoke := invocations b [] n.invoke
  metadata := n.metadata

/-- The chart of the states of a machine or region. -/
def Chart.ofStates (b : Bundle κ) (owner : String) (region : Option String)
    (initial : String) (states : OrderedMap (StateDescriptor κ)) : Chart κ where
  owner := owner
  region := region
  initial := initial
  nodes := ⟨states.entries.map fun e => (e.1, e.2.node b e.1)⟩

/-- The chart of a region that has an initial state. -/
def Chart.ofRegion (b : Bundle κ) (machine key : String) (n : StateDescriptor κ) :
    Option (Chart κ) :=
  n.initial.map fun initial =>
    .ofStates b (machine ++ "." ++ key) (some key) initial n.states

/-- The shape of a machine; a flat machine needs an initial state. -/
def MachineDescriptor.topology (b : Bundle κ) (d : MachineDescriptor κ) :
    Except BuildError (Topology κ) :=
  let name := Machine.nameOf d.id
  if d.isParallel then
    .ok (.parallel (d.states.entries.filterMap fun e => Chart.ofRegion b name e.1 e.2))
  else
    match d.initial with
    | some initial => .ok (.flat (.ofStates b name none initial d.states))
    | none => .error (.missingInitialState name)

/-! ### The initial snapshot -/

/-- The value, the entry actions and the metadata of the initial states. -/
def Topology.entry (metadata : Option Meta) :
    Topology κ → Except MachineError (StateValue × List (Step κ) × Option Meta)
  | .flat chart =>
    match chart.node chart.initial with
    | .error e => .error e
    | .ok n => .ok (.leaf n.key, Step.all n.entry n.metadata, n.metadata)
  | .parallel regions =>
    match Regions.initialNodes regions with
    | .error e => .error e
    | .ok ns =>
      .ok (.ofParts (ns.map fun n => (n.1, .leaf n.2.key)),
        ns.flatMap fun n => Step.all n.2.entry n.2.metadata, metadata)

/-- The snapshot after entering the initial states. -/
def Topology.initial (t : Topology κ) (metadata : Option Meta) (context : Context) :
    Evaluated (Except MachineError (Snapshot κ)) :=
  match t.entry metadata with
  | .error e => pure (.error e)
  | .ok (value, steps, metadata) => do
    let o ← Step.run .init steps context
    return .ok ⟨value, o.context, metadata, o.actions, false, o.assigned⟩

/-! ### Compilation -/

/-- The machine of a descriptor and a bundle, or every reason why there is none. -/
def Machine.compile (d : MachineDescriptor κ) (b : Bundle κ) :
    Evaluated (Except BuildError (Machine κ)) :=
  let name := nameOf d.id
  match d.topology b with
  | .error e => pure (.error e)
  | .ok topology =>
    if d.issues b ≠ [] then pure (.error (.invalidDefinition name (d.issues b)))
    else do
      match ← topology.initial d.metadata d.context with
      | .error e => return .error (.invalidDefinition name [.unknownInitial e.message])
      | .ok initial =>
        return .ok
          { id := d.id
            metadata := d.metadata
            context := d.context
            topology := topology
            initial := initial
            services := b.services }

end Statechart
