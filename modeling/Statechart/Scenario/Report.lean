import Statechart.Description
import Statechart.Scenario.Construction

/-!
# Answers

How snapshots, descriptors, running machines and failures are shown as JSON.
-/

namespace Statechart

namespace Scenario

/-- A value that may be absent, or null. -/
def orNull {α : Type} (f : α → Json) : Option α → Json
  | some a => f a
  | none => .null

/-- A text that may be absent. -/
def textOrNull : Option String → Json := orNull .string

/-- A list of texts. -/
def texts (items : List String) : Json := .array (items.map .string)

/-- The entries of a map as a list of pairs, which shows their order. -/
def pairsToJson (m : OrderedMap Json) : Json :=
  .array (m.entries.map fun e => .array [.string e.1, e.2])

/-! ### Failures -/

/-- The reason why a request has no answer. -/
inductive Failure where
  | badRequest (reason : String)
  | notFound (what name : String)
  | descriptor (failure : ReadFailure)
  | event (error : DecodeError)
  | value (error : DecodeError)
  | history (error : DecodeError)
  | machine (error : MachineError)
  | build (error : BuildError)
  | invoke (error : InvokeError)
  | timer (error : TimerError)

/-- The answer to a request, or the reason why there is none. -/
abbrev Answer (α : Type) : Type := Except Failure α

/-- The kind of a machine error. -/
def machineErrorKind : MachineError → String
  | .unknownState _ _ => "UnknownState"
  | .missingRegion _ _ => "MissingRegion"
  | .unexpectedValue _ _ => "UnexpectedValue"

/-- The kind of a build error. -/
def buildErrorKind : BuildError → String
  | .missingMachineId => "MissingMachineId"
  | .missingInitialState _ => "MissingInitialState"
  | .invalidDefinition _ _ => "InvalidDefinition"

/-- The kind of an invoke error. -/
def invokeErrorKind : InvokeError → String
  | .unknownService _ => "UnknownService"
  | .build _ => "Build"
  | .failed _ => "Failed"

/-- The kind of a timer error. -/
def timerErrorKind : TimerError → String
  | .destroyed => "Destroyed"
  | .alreadyFired => "AlreadyFired"

/-- A failure of a kind with a message. -/
def failureToJson (kind message : String) : Json :=
  .ofFields [("error", .string kind), ("message", .string message)]

namespace Failure

/-- The shown form of a failure. -/
def toJson : Failure → Json
  | badRequest reason => failureToJson "BadInput" reason
  | notFound what name => failureToJson "NotFound" (what ++ " " ++ name)
  | descriptor ⟨e, true⟩ =>
    .ofFields [("error", .string "ConfigError"), ("category", .string e.category)]
  | descriptor ⟨e, false⟩ =>
    .ofFields [("error", .string "ConfigError"), ("category", .string "data"),
      ("message", .string e.message)]
  | event e => failureToJson "EventError" e.message
  | value e => failureToJson "ValueError" e.message
  | history e =>
    .ofFields [("error", .string "HistoryError"), ("category", .string e.category)]
  | machine e => failureToJson (machineErrorKind e) e.message
  | build e =>
    .ofFields [("error", .string (buildErrorKind e)), ("message", .string e.message),
      ("issues", texts (e.issues.map Issue.message))]
  | invoke e => failureToJson (invokeErrorKind e) e.message
  | timer e => failureToJson (timerErrorKind e) e.message

end Failure

/-- The shown form of an answer. -/
def answerToJson : Answer Json → Json
  | .ok j => j
  | .error e => e.toJson

/-! ### Snapshots -/

/-- The fields of a snapshot. -/
def snapshotFields (s : Snapshot Code) : List (String × Json) :=
  [("value", s.value.toJson), ("text", .string s.value.text),
    ("context", .object s.context), ("meta", s.metadata.getD .null),
    ("actions",
      .array (s.actions.map fun a => .array [.string a.name, a.metadata.getD .null])),
    ("changed", .bool s.changed)]

/-- A snapshot. -/
def snapshotToJson (s : Snapshot Code) : Json := .ofFields (snapshotFields s)

/-- A snapshot that was found from a given context, and whether it still has it. -/
def movedToJson (s : Snapshot Code) : Json :=
  .ofFields (snapshotFields s ++ [("same_context", .bool (!s.assigned))])

/-! ### Descriptors -/

/-- The name of an action, or the manner in which it is given in place. -/
def actionToJson : Action Code → Json
  | .named name => .string name
  | .inline name _ => .ofFields [("inline", .string name)]
  | .assign _ => .ofFields [("assign", .bool true)]

/-- A transition. -/
def transitionToJson (t : TransitionDescriptor Code) : Json :=
  .ofFields
    [("target", textOrNull t.target), ("actions", .array (t.actions.map actionToJson)),
     ("cond", match t.guard with
       | some (.named name) => .string name
       | some (.inline g) => .ofFields [("inline", .string g.name)]
       | none => .null)]

/-- A reaction. -/
def reactionToJson : Reaction (TransitionDescriptor Code) → Json
  | .event kind => .string kind
  | .transition t => transitionToJson t

/-- An invocation. -/
def invocationToJson (i : InvokeDescriptor Code) : Json :=
  .ofFields
    [("id", .string i.id),
     ("src", match i.source with
       | .service name => .string name
       | .factory _ => .null),
     ("data", match i.data with
       | some (.literal context) => .object context
       | _ => .null),
     ("on_done", orNull reactionToJson i.onDone),
     ("on_error", orNull reactionToJson i.onError)]

/-- Candidates under their keys. -/
def candidatesToJson (m : OrderedMap (List (TransitionDescriptor Code))) : Json :=
  pairsToJson (m.map fun ts => .array (ts.map transitionToJson))

mutual

/-- A state. -/
def stateToJson (key : String) : StateDescriptor Code → Json
  | ⟨kind, on, entry, exit, after, invoke, metadata, initial, ⟨states⟩⟩ =>
    .ofFields
      [("key", .string key), ("type", .string kind.name),
       ("final", .bool (decide (kind = .final))), ("initial", textOrNull initial),
       ("meta", metadata.getD .null), ("on", candidatesToJson on),
       ("after", candidatesToJson after), ("entry", .array (entry.map actionToJson)),
       ("exit", .array (exit.map actionToJson)),
       ("invoke", .array (invoke.map invocationToJson)),
       ("states", .array (statesToJson states))]

/-- States with their keys. -/
def statesToJson : List (String × StateDescriptor Code) → List Json
  | [] => []
  | (key, n) :: rest => stateToJson key n :: statesToJson rest

end

/-- A machine descriptor. -/
def descriptorToJson (d : MachineDescriptor Code) : Json :=
  .ofFields
    [("id", textOrNull d.id), ("initial", textOrNull d.initial),
     ("type", .string d.kind.name), ("parallel", .bool d.isParallel),
     ("meta", d.metadata.getD .null), ("context", pairsToJson d.context),
     ("states", .array (statesToJson d.states.entries))]

/-! ### Running machines -/

/-- A timer: its status, its delay, the time it has run, and the time that was left
when it was last paused. -/
def timerToJson (timing : Timing (Callback Code)) (id : Nat) : Json :=
  match timing.timers.get? id with
  | some t =>
    .array [.string (Description.timerStatus t.status), millisToJson t.delay,
      millisToJson (t.elapsedAt timing.now), millisToJson t.remaining]
  | none => .null

/-- An instance with its children, shown `depth` generations deep. -/
def instanceWithin (e : Engine Code) : Nat → Nat → Json
  | 0, _ => .null
  | depth + 1, i =>
    match e.get? i with
    | some x =>
      .ofFields
        [("status", .string (Description.status x.status)),
         ("value", .string x.snapshot.value.text),
         ("context", .object x.snapshot.context),
         ("timers",
           .array (x.timers.map fun a =>
             .array [.string a.key, timerToJson e.timing a.timer])),
         ("children",
           .array (x.children.entries.map fun c =>
             .array [.string c.1, instanceWithin e depth c.2]))]
    | none => .null

/-- An instance with its children. -/
def instanceToJson (e : Engine Code) (i : Nat) : Json :=
  instanceWithin e e.instances.next i

/-- An instance at a glance: its snapshot, its machine and its history. -/
def viewToJson (e : Engine Code) (x : Instance Code) : Json :=
  .ofFields
    [("state", snapshotToJson x.snapshot), ("machine_id", textOrNull x.machine.id),
     ("machine_meta", x.machine.metadata.getD .null), ("running", .bool x.isRunning),
     ("history",
       .array (x.history.records.map fun c =>
         texts [c.source.text, c.event, c.target.text])),
     ("path", texts (x.history.path.map StateValue.text)),
     ("live", .nat (e.timing.live x.pool))]

/-- What a receiver found. -/
def receiptName : Receipt → String
  | .message .fired => "Fired"
  | .message .cancelled => "Cancelled"
  | .empty => "Empty"
  | .disconnected => "Disconnected"

end Scenario

end Statechart
