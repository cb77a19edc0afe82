import Statechart.Bundle
import Statechart.Descriptor

/-!
# What is wrong with a descriptor

The issues that keep a descriptor from being compiled with a bundle, in the order in
which its parts are declared; and the errors of compilation.
-/

namespace Statechart

variable {κ : Type}

/-- A construct that is supported only at the top level of a flat machine. -/
inductive Feature where
  | regionHandlers
  | nestedStates
  | nestedParallel
  | delayedTransitions
  | invocations
deriving Repr, DecidableEq

/-- The wording of a feature. -/
def Feature.name : Feature → String
  | regionHandlers => "handlers on a region"
  | nestedStates => "nested states"
  | nestedParallel => "nested parallel states"
  | delayedTransitions => "delayed transitions"
  | invocations => "invocations"

/-- One thing wrong with a descriptor. -/
inductive Issue where
  | unknownInitial (state : String)
  | missingRegionInitial (region : String)
  | unknownTarget (state event target : String)
  | unknownAction (state action : String)
  | unknownGuard (state guard : String)
  | unknownDelay (state delay : String)
  | duplicateInvoke (state id : String)
  | unsupported (state : String) (feature : Feature)
deriving Repr, DecidableEq

/-- The wording of an issue. -/
def Issue.message : Issue → String
  | unknownInitial state => "initial state '" ++ state ++ "' is not defined"
  | missingRegionInitial region => "region '" ++ region ++ "' has no initial state"
  | unknownTarget state event target =>
    "transition from '" ++ state ++ "' on '" ++ event ++ "' targets unknown state '"
      ++ target ++ "'"
  | unknownAction state action =>
    "action '" ++ action ++ "' used in '" ++ state ++ "' is not implemented"
  | unknownGuard state guard =>
    "guard '" ++ guard ++ "' used in '" ++ state ++ "' is not implemented"
  | unknownDelay state delay =>
    "delay '" ++ delay ++ "' used in '" ++ state
      ++ "' is neither a number nor a named delay"
  | duplicateInvoke state id =>
    "invoke id '" ++ id ++ "' is declared twice in '" ++ state ++ "'"
  | unsupported state feature =>
    "'" ++ state ++ "' uses " ++ feature.name
      ++ ", which is only supported at the top level of a flat machine"

/-- The reason why a machine was not made. -/
inductive BuildError where
  | missingMachineId
  | missingInitialState (machine : String)
  | invalidDefinition (machine : String) (issues : List Issue)
deriving Repr, DecidableEq

namespace BuildError

/-- The issues behind an error. -/
def issues : BuildError → List Issue
  | invalidDefinition _ issues => issues
  | _ => []

/-- The wording of an error. -/
def message : BuildError → String
  | missingMachineId =>
    "Machine identifier not specified. Set `id` before registering the machine"
  | missingInitialState machine =>
    "Initial state not specified for machine '" ++ machine ++ "'"
  | invalidDefinition machine issues =>
    "Machine '" ++ machine ++ "' has " ++ toString issues.length
      ++ " invalid definition(s): " ++ "; ".intercalate (issues.map Issue.message)

end BuildError

/-- The reason why a child machine was not made. -/
inductive InvokeError where
  | unknownService (name : String)
  | build (error : BuildError)
  | failed (reason : String)
deriving Repr, DecidableEq

/-- The wording of an error. -/
def InvokeError.message : InvokeError → String
  | unknownService name => "Service '" ++ name ++ "' is not registered"
  | build error => "Child machine could not be built: " ++ error.message
  | failed reason => "Child machine could not be created: " ++ reason

/-! ### Delays -/

/-- The milliseconds that a key spells: decimal digits, perhaps after a plus sign,
up to the greatest of 64 bits. -/
def millis? (key : String) : Option Nat :=
  let digits := match key.toList with
    | '+' :: rest => rest
    | cs => cs
  if digits.isEmpty || !digits.all (fun c => '0' ≤ c && c ≤ '9') then none
  else
    let n := digits.foldl (fun n c => n * 10 + (c.toNat - 48)) 0
    if n ≤ maxNat64 then some n else none

/-! ### Collecting issues -/

/-- An issue unless something holds. -/
def need (ok : Bool) (issue : Issue) : List Issue := if ok then [] else [issue]

/-- A named action must be in the bundle. -/
def Action.issues (b : Bundle κ) (state : String) : Action κ → List Issue
  | .named name => need (b.actions.contains name) (.unknownAction state name)
  | _ => []

/-- A named guard must be in the bundle. -/
def GuardRef.issues (b : Bundle κ) (state : String) : GuardRef → List Issue
  | .named name => need (b.guards.contains name) (.unknownGuard state name)
  | .inline _ => []

/-- A target must be one of the siblings of the state. -/
def TransitionDescriptor.issues (b : Bundle κ) (siblings : OrderedMap (StateDescriptor κ))
    (state event : String) (t : TransitionDescriptor κ) : List Issue :=
  (match t.target with
    | some target => need (siblings.contains target) (.unknownTarget state event target)
    | none => [])
  ++ t.actions.flatMap (Action.issues b state)
  ++ (match t.guard with
    | some guard => guard.issues b state
    | none => [])

/-- The issues of a reaction are those of its transition. -/
def Reaction.issues (b : Bundle κ) (siblings : OrderedMap (StateDescriptor κ))
    (state label : String) : Reaction (TransitionDescriptor κ) → List Issue
  | .event _ => []
  | .transition t => t.issues b siblings state label

/-- The issues of an invocation are those of its reactions. -/
def InvokeDescriptor.issues (b : Bundle κ) (siblings : OrderedMap (StateDescriptor κ))
    (state : String) (i : InvokeDescriptor κ) : List Issue :=
  (match i.onDone with
    | some r => r.issues b siblings state ("done.invoke." ++ i.id)
    | none => [])
  ++ (match i.onError with
    | some r => r.issues b siblings state ("error.invoke." ++ i.id)
    | none => [])

/-- The issues of invocations, each of which must have an identifier not yet seen; one
that has is not looked into. -/
def invokeIssues (b : Bundle κ) (siblings : OrderedMap (StateDescriptor κ))
    (state : String) : List String → List (InvokeDescriptor κ) → List Issue
  | _, [] => []
  | seen, i :: rest =>
    (if seen.contains i.id then [.duplicateInvoke state i.id]
      else i.issues b siblings state)
    ++ invokeIssues b siblings state (i.id :: seen) rest

/-- The issues of the transitions after a delay, which must be a number or a name. -/
def delayIssues (b : Bundle κ) (siblings : OrderedMap (StateDescriptor κ))
    (state : String) (delay : String) (candidates : List (TransitionDescriptor κ)) :
    List Issue :=
  candidates.flatMap (TransitionDescriptor.issues b siblings state ("after " ++ delay))
  ++ need ((millis? delay).isSome || b.delays.contains delay) (.unknownDelay state delay)

/-- The issues of a state of a flat machine or of a region. -/
def StateDescriptor.issues (b : Bundle κ) (siblings : OrderedMap (StateDescriptor κ))
    (inRegion : Bool) (key : String) (n : StateDescriptor κ) : List Issue :=
  need n.states.isEmpty (.unsupported key .nestedStates)
  ++ need (n.kind ≠ .parallel) (.unsupported key .nestedParallel)
  ++ (if inRegion then
        need n.after.isEmpty (.unsupported key .delayedTransitions)
        ++ need n.invoke.isEmpty (.unsupported key .invocations)
      else [])
  ++ n.on.entries.flatMap (fun e =>
      e.2.flatMap (TransitionDescriptor.issues b siblings key e.1))
  ++ n.after.entries.flatMap (fun e => delayIssues b siblings key e.1 e.2)
  ++ invokeIssues b siblings key [] n.invoke
  ++ n.entry.flatMap (Action.issues b key)
  ++ n.exit.flatMap (Action.issues b key)

/-- The issues of the states of a flat machine or of a region. -/
def chartIssues (b : Bundle κ) (inRegion : Bool) (initial : String)
    (states : OrderedMap (StateDescriptor κ)) : List Issue :=
  need (states.contains initial) (.unknownInitial initial)
  ++ states.entries.flatMap (fun e => e.2.issues b states inRegion e.1)

/-- Whether a region has handlers of its own. -/
def StateDescriptor.hasHandlers (n : StateDescriptor κ) : Bool :=
  !(n.on.isEmpty && n.entry.isEmpty && n.exit.isEmpty && n.after.isEmpty && n.invoke.isEmpty)

/-- The issues of a region; the states of one without initial state are not looked
into. -/
def regionIssues (b : Bundle κ) (key : String) (n : StateDescriptor κ) : List Issue :=
  need (!n.hasHandlers) (.unsupported key .regionHandlers)
  ++ (match n.initial with
    | some initial => chartIssues b true initial n.states
    | none => [.missingRegionInitial key])

/-- The issues of a machine with a bundle. -/
def MachineDescriptor.issues (b : Bundle κ) (d : MachineDescriptor κ) : List Issue :=
  if d.isParallel then d.states.entries.flatMap fun e => regionIssues b e.1 e.2
  else
    match d.initial with
    | some initial => chartIssues b false initial d.states
    | none => []

end Statechart
