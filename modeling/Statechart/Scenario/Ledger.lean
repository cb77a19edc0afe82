import Statechart.Engine
import Statechart.Json.Text
import Statechart.Scenario.Expression

/-!
# Scripts and the ledger of a scenario

The code of a scenario does nothing but report that it was called, and then perform
the operations of a script, a limited number of times.  What is reported goes into a
ledger, beside the counters of the calls.
-/

namespace Statechart

namespace Scenario

/-- Operations to be performed on each of the first `times` calls; the counter tells
how many calls there were. -/
structure Script where
  counter : Nat
  operations : List Json
  times : Nat

/-- The code of a scenario: effects, listeners, tasks and timer callbacks with a name
and a script; services with a name and a description; and the effects that put the
timers of a pool on standby and wake them. -/
inductive Code where
  | effect (name : String) (script : Script)
  | listener (name : String) (script : Script)
  | task (name : String) (script : Script)
  | fired (name : String) (script : Script)
  | service (name : String) (description : Json)
  | standby (pool : Nat)
  | wake (pool : Nat)

/-- The counters of calls, and what was reported since the last step. -/
structure Ledger where
  counters : Table Nat
  trace : Array Json

/-- What reports to the ledger. -/
abbrev Recording (α : Type) : Type := StateM Ledger α

namespace Ledger

/-- The ledger without counters and reports. -/
def empty : Ledger := ⟨.empty, #[]⟩

instance : Inhabited Ledger := ⟨empty⟩

/-- Adds a report. -/
def note (entry : Json) (l : Ledger) : Ledger := { l with trace := l.trace.push entry }

/-- The reports since the last step, and the ledger without them. -/
def takeTrace (l : Ledger) : Json × Ledger := (.array l.trace.toList, { l with trace := #[] })

/-- Counts a call of a script.  Answers the operations to be performed. -/
def call (s : Script) (l : Ledger) : List Json × Ledger :=
  let calls := (l.counters.get? s.counter).getD 0
  (if calls < s.times then s.operations else [],
    { l with counters := l.counters.modify s.counter (· + 1) })

end Ledger

/-! ### Reports -/

/-- A number of milliseconds; one that does not fit 64 bits is shown as the greatest
that does. -/
def millisToJson (ms : Nat) : Json := .nat (min ms maxNat64)

/-- The report of an evaluation. -/
def evaluationReport : Evaluation → Json
  | .guard name event metadata passed =>
    .ofFields [("t", .string "guard"), ("name", .string name), ("event", .string event.kind),
      ("meta", metadata.getD .null), ("r", .bool passed)]
  | .assign name event =>
    .ofFields [("t", .string "assign"), ("name", .string name), ("event", .string event.kind)]
  | .compute name key event =>
    .ofFields [("t", .string "compute"), ("name", .string name), ("key", .string key),
      ("event", .string event.kind)]
  | .delay name event metadata millis =>
    .ofFields [("t", .string "delay"), ("name", .string name), ("event", .string event.kind),
      ("meta", metadata.getD .null), ("ms", .nat millis)]
  | .derive event => .ofFields [("t", .string "derive"), ("event", .string event.kind)]

/-- The report of the call of a service. -/
def serviceReport (name : String) (context : Context) (event : Event) : Json :=
  .ofFields [("t", .string "service"), ("name", .string name),
    ("event", .string event.kind), ("ctx", .object context)]

/-- The report of the execution of an effect. -/
def effectReport (name : String) (context : Context) (event : Event)
    (metadata : Option Meta) : Json :=
  .ofFields [("t", .string "action"), ("name", .string name), ("event", event.toJson),
    ("ctx", .object context), ("meta", metadata.getD .null)]

/-- The report of a snapshot to a listener. -/
def listenerReport (name : String) (s : Snapshot Code) : Json :=
  .ofFields [("t", .string "listener"), ("name", .string name),
    ("value", .string s.value.text), ("ctx", .object s.context),
    ("actions", .array (s.actionNames.map .string)), ("changed", .bool s.changed)]

/-- The report of a task, or of a timer that fired. -/
def clockReport (kind name : String) (now : Nat) : Json :=
  .ofFields [("t", .string kind), ("name", .string name), ("now", millisToJson now)]

/-- The report of an operation of a script with its result. -/
def operationReport (operation : String) (result : Json) : Json :=
  .ofFields [("t", .string "do"), ("op", .string operation), ("r", result)]

/-! ### Recording -/

/-- Adds a report. -/
def note (entry : Json) : Recording Unit := modify (Ledger.note entry)

/-- The reports since the last step. -/
def takeTrace : Recording Json := modifyGet Ledger.takeTrace

/-- Adds the reports of evaluations. -/
def Ledger.observe (es : List Evaluation) (l : Ledger) : Ledger :=
  es.foldl (fun l e => l.note (evaluationReport e)) l

/-- The value that was evaluated; the evaluations are reported. -/
def observe {α : Type} (x : Evaluated α) : Recording α := fun l =>
  (x.value, l.observe x.evaluations)

/-- The script that a value describes, with a new counter. -/
def Script.ofJson (j : Json) : Recording Script := fun l =>
  (⟨l.counters.next, j.itemsAt "do", ((j.field "times").nat64?).getD 1⟩,
    { l with counters := l.counters.add 0 })

end Scenario

end Statechart
