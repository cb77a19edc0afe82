import Statechart.Descriptor.Builder
import Statechart.Descriptor.Wire
import Statechart.Machine.Compile
import Statechart.Scenario.Ledger

/-!
# Machines from descriptions

The bundles, transitions, states and machines that JSON values describe.  Each script
gets a counter when it is made, so that the same description read twice gives two
scripts that count apart.
-/

namespace Statechart

namespace Scenario

/-! ### Rules -/

/-- The guard that a value describes. -/
def guardOf (name : String) (j : Json) : Guard :=
  let condition := Condition.ofJson j
  ⟨name, fun context event metadata => condition.holds context event metadata⟩

/-- The delay that a value describes: a number, or a context key with a default. -/
def delayOf (name : String) (j : Json) : Rule Nat :=
  match j.nat64? with
  | some ms => ⟨name, fun _ _ _ => ms⟩
  | none =>
    let key := j.textAt "ctx"
    let default := j.natAt "default"
    ⟨name, fun context _ _ => ((context.get? key).bind Json.nat64?).getD default⟩

/-- The assign that transforms the context by pairs. -/
def transformOf (name : String) (pairs : Json) : Assign :=
  let pairs := Pairs.ofJson pairs
  .transform ⟨name, fun context event metadata => pairs.eval context event metadata⟩

/-- The assign that sets properties by pairs. -/
def propertiesOf (name : String) (pairs : Json) : Assign :=
  let property (e : Expression) : Property :=
    match e.constant? with
    | some value => .constant value
    | none => .computed ⟨name, fun context event metadata => e.eval context event metadata⟩
  .properties ((Pairs.ofJson pairs).map fun p => (p.1, property p.2))

/-- The assign that a value describes, if it describes one. -/
def assignOf (name : String) (j : Json) : Option Assign :=
  match j.get? "assign", j.get? "props" with
  | some pairs, _ => some (transformOf name pairs)
  | none, some pairs => some (propertiesOf name pairs)
  | none, none => none

/-! ### Bundles -/

/-- The implementation that a value describes: an assign, or an effect with a
script. -/
def implementationOf (name : String) (j : Json) : Recording (Implementation Code) :=
  match assignOf name j with
  | some change => return .assign change
  | none => do
    let script ← Script.ofJson j
    return .effect (.effect name script)

/-- Declares an action of a bundle. -/
def declareAction (b : Bundle Code) (entry : String × Json) : Recording (Bundle Code) := do
  let implementation ← implementationOf entry.1 entry.2
  match implementation with
  | .effect code => return b.withEffect entry.1 code
  | .assign change => return b.withAssign entry.1 change

/-- The services that a value describes. -/
def servicesOf (fields : OrderedMap Json) : Services Code :=
  ⟨fields.entries.map fun e => (e.1, .service e.1 e.2)⟩

/-- Declares the effects that put the timers of a pool on standby and wake them. -/
def withTimerEffects (b : Bundle Code) (pool : Nat) : Bundle Code :=
  (b.withEffect "standbyTimers" (.standby pool)).withEffect "wakeTimers" (.wake pool)

/-- The bundle that a value describes, nested less than `depth` deep.  The timer
effects concern `pool`. -/
def bundleWithin (pool : Nat) : Nat → Json → Recording (Bundle Code)
  | 0, _ => return .empty
  | depth + 1, j => do
    let b ← (j.fieldsAt "actions").entries.foldlM declareAction .empty
    let b := (j.fieldsAt "guards").entries.foldl
      (fun b e => b.withGuard e.1 (guardOf e.1 e.2)) b
    let b := (j.fieldsAt "delays").entries.foldl
      (fun b e => b.withDelay e.1 (delayOf e.1 e.2)) b
    let b := (servicesOf (j.fieldsAt "services")).entries.foldl
      (fun b e => b.withService e.1 e.2) b
    let b := match j.present? "replace_services" with
      | some services => b.withServices (servicesOf services.asFields)
      | none => b
    let b := if j.flagAt "timer_actions" then withTimerEffects b pool else b
    (j.itemsAt "merge").foldlM
      (fun b other => do
        let other ← bundleWithin pool depth other
        return b.merge other)
      b

/-- The bundle that a value describes. -/
def bundleOf (pool : Nat) (j : Json) : Recording (Bundle Code) :=
  bundleWithin pool j.depth j

/-! ### Actions and transitions -/

/-- The action that a value describes: a name, or an action given in place. -/
def actionOf (j : Json) : Recording (Action Code) :=
  match j with
  | .string name => return .named name
  | j => do
    let name := ((j.field "name").string?).getD "inline"
    let implementation ← implementationOf name j
    match implementation with
    | .effect code => return .inline name code
    | .assign change => return .assign change

/-- Extends a transition by the declaration that a list describes: a word and its
argument. -/
def declareTransition (t : TransitionDescriptor Code) (call : Json) :
    Recording (TransitionDescriptor Code) :=
  let argument := Json.nth call.asItems 1
  match (Json.nth call.asItems 0).asText with
  | "to" => return t.toward argument.asText
  | "action" => do
    let action ← actionOf argument
    return t.act action
  | "assign" => return t.act (.assign (transformOf "inline" argument))
  | "guard" => return t.guarded (.inline (guardOf "guard" argument))
  | "when" => return t.guarded (.inline (guardOf "when" argument))
  | "guard_named" => return t.guarded (.named argument.asText)
  | _ => return t

/-- The transition that a value describes: its target, one of the short forms, or a
list of declarations. -/
def transitionOf (j : Json) : Recording (TransitionDescriptor Code) :=
  match j with
  | .string target => return .ofTarget target
  | .array calls => calls.foldlM declareTransition .targetless
  | .object ⟨(form, argument) :: _⟩ =>
    let target := Json.nth argument.asItems 0
    let condition := Json.nth argument.asItems 1
    match form with
    | "simple" => return .ofTarget argument.asText
    | "guarded" =>
      return (TransitionDescriptor.ofTarget target.asText).guarded (.inline (guardOf "when" condition))
    | "cond" =>
      let guard := match condition with
        | .string name => GuardRef.named name
        | condition => .inline (guardOf "cond" condition)
      return (TransitionDescriptor.ofTarget target.asText).guarded guard
    | "into" => argument.asItems.foldlM declareTransition .targetless
    | _ => return .targetless
  | _ => return .targetless

/-! ### Invocations -/

/-- The reaction that a value describes: an event, or a transition. -/
def reactionOf (j : Json) : Recording (Reaction (TransitionDescriptor Code)) :=
  match j with
  | .string kind => return .event kind
  | j => do
    let t ← transitionOf j
    return .transition t

/-- The data that a value describes: derived, or given. -/
def childDataOf (j : Json) : Option ChildData :=
  match j.present? "derive", j.present? "data" with
  | some pairs, _ =>
    let pairs := Pairs.ofJson pairs
    some (.derived fun context event => pairs.eval context event none)
  | none, some data => some (.literal data.asFields)
  | none, none => none

/-- The invocation that a value describes. -/
def invokeOf (j : Json) : Recording (InvokeDescriptor Code) := do
  let id := j.textAt "id"
  let i : InvokeDescriptor Code := match j.present? "factory" with
    | some description => .ofFactory id (.service "factory" description)
    | none => .ofService id (j.textAt "service")
  let i := match childDataOf j with
    | some data => i.withData data
    | none => i
  let i ← match j.present? "on_done" with
    | some r => do
      let r ← reactionOf r
      pure (i.whenDone r)
    | none => pure i
  match j.present? "on_error" with
  | some r => do
    let r ← reactionOf r
    return i.whenFailed r
  | none => return i

/-! ### States and machines -/

/-- Extends a state by the declaration that a list describes.  The states within are
described by `inner`. -/
def declareState (inner : Json → Recording (StateDescriptor Code))
    (n : StateDescriptor Code) (call : Json) : Recording (StateDescriptor Code) :=
  let first := Json.nth call.asItems 1
  let second := Json.nth call.asItems 2
  match (Json.nth call.asItems 0).asText with
  | "final" => return .finalState
  | "on" => do
    let t ← transitionOf second
    return n.onEvent first.asText t
  | "entry" => do
    let action ← actionOf first
    return n.onEntry action
  | "exit" => do
    let action ← actionOf first
    return n.onExit action
  | "after" => do
    let t ← transitionOf second
    return n.afterDelay first.asText t
  | "after_ms" => do
    let t ← transitionOf second
    return n.afterMillis first.asNat t
  | "invoke" => do
    let i ← invokeOf first
    return n.invoking i
  | "meta" => return n.withMetadata first
  | "initial" => return n.startingAt first.asText
  | "state" => do
    let m ← inner second
    return n.state first.asText m
  | _ => return n

/-- The state that a list of declarations describes, nested less than `depth` deep. -/
def stateWithin : Nat → Json → Recording (StateDescriptor Code)
  | 0, _ => return .empty
  | depth + 1, j => j.asItems.foldlM (declareState (stateWithin depth)) .empty

/-- The state that a list of declarations describes. -/
def stateOf (j : Json) : Recording (StateDescriptor Code) := stateWithin j.depth j

/-- Extends a machine by the declaration that a list describes. -/
def declareMachine (m : MachineDescriptor Code) (call : Json) :
    Recording (MachineDescriptor Code) :=
  let first := Json.nth call.asItems 1
  let second := Json.nth call.asItems 2
  match (Json.nth call.asItems 0).asText with
  | "initial" => return m.startingAt first.asText
  | "parallel" => return m.parallel
  | "context" => return m.inContext first.asFields
  | "with" => return m.set first.asText second
  | "meta" => return m.withMetadata first
  | "state" => do
    let n ← stateOf second
    return m.state first.asText n
  | _ => return m

/-- A machine that cannot be read, and whether it was read from text. -/
structure ReadFailure where
  error : DecodeError
  fromText : Bool

/-- The descriptor of the machine that a value describes: built step by step, or read
from text or from a value, with a context laid over. -/
def descriptorOf (j : Json) : Recording (Except ReadFailure (MachineDescriptor Code)) :=
  let overlay (d : MachineDescriptor Code) : MachineDescriptor Code :=
    match j.present? "with_context" with
    | some context => d.withContext context.asFields
    | none => d
  match j.present? "builder", j.get? "text" with
  | some builder, _ => do
    let d ← (builder.itemsAt "calls").foldlM declareMachine (.named (builder.textAt "id"))
    return .ok d
  | none, some text =>
    match MachineDescriptor.ofText text.asText with
    | .ok d => return .ok (overlay d)
    | .error e => return .error ⟨e, true⟩
  | none, none =>
    match MachineDescriptor.ofJson (j.field "config") with
    | .ok d => return .ok (overlay d)
    | .error e => return .error ⟨e, false⟩

/-- The descriptor and the bundle of the machine that a value describes. -/
def sourcesOf (pool : Nat) (j : Json) :
    Recording (Except ReadFailure (MachineDescriptor Code × Bundle Code)) := do
  match ← descriptorOf j with
  | .error e => return .error e
  | .ok d =>
    let b ← bundleOf pool (j.field "impl")
    return .ok (d, b)

/-! ### Services -/

/-- Whether a service fails on purpose, and with which reason. -/
def failureOf (j : Json) (context : Context) (event : Event) : Option String :=
  match j.present? "fail" with
  | none => none
  | some reason =>
    let applies := match j.get? "fail_if" with
      | some condition => (Condition.ofJson condition).holds context event none
      | none => true
    if applies then some reason.asText else none

/-- The machine that a service makes from a context and an event.  The call is
reported. -/
def serve (pool : Nat) (name : String) (j : Json) (context : Context) (event : Event) :
    Recording (Except InvokeError (Machine Code)) := do
  note (serviceReport name context event)
  match failureOf j context event with
  | some reason => return .error (.failed reason)
  | none =>
    match MachineDescriptor.ofJson (j.field "config") with
    | .error e => return .error (.failed e.message)
    | .ok d =>
      let d := if j.flagAt "overlay" then d.withContext context else d
      let b ← bundleOf pool (j.field "impl")
      let machine ← observe (Machine.compile d b)
      return machine.mapError .build

/-- Makes a machine by code that is a service. -/
def serveCode (pool : Nat) (code : Code) (context : Context) (event : Event) :
    Recording (Except InvokeError (Machine Code)) :=
  match code with
  | .service name description => serve pool name description context event
  | _ => return .error (.failed "not a service")

end Scenario

end Statechart
