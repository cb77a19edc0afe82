import Statechart.Engine
import Statechart.Text.Quoted

/-!
# One-line descriptions

The text by which values are shown to a developer: the name of the kind of value, and
its fields in braces or its parts in parentheses.  Code is never shown.
-/

namespace Statechart

namespace Description

/-- A record: its name and its fields. -/
def record (name : String) (fields : List (String × String)) : String :=
  name ++ " \x7b " ++ ", ".intercalate (fields.map fun f => f.1 ++ ": " ++ f.2) ++ " \x7d"

/-- A name with one part. -/
def tagged (name part : String) : String := name ++ "(" ++ part ++ ")"

/-- A list in brackets. -/
def list (items : List String) : String := "[" ++ ", ".intercalate items ++ "]"

/-- A map in braces. -/
def map (entries : List (String × String)) : String :=
  "\x7b" ++ ", ".intercalate (entries.map fun e => Quoted.encode e.1 ++ ": " ++ e.2) ++ "\x7d"

/-- A value that may be absent. -/
def option {α : Type} (f : α → String) : Option α → String
  | some a => tagged "Some" (f a)
  | none => "None"

/-- A list of strings. -/
def strings (items : List String) : String := list (items.map Quoted.encode)

/-- A truth value. -/
def bool (b : Bool) : String := if b then "true" else "false"

/-- Names in the order of their characters. -/
def sorted (names : List String) : List String := names.mergeSort fun a b => decide (a ≤ b)

/-- Three digits without trailing zeros. -/
def thousandths (n : Nat) : String :=
  let digits := Timestamp.padded 3 n
  String.ofList (digits.toList.reverse.dropWhile (fun c => c = '0')).reverse

/-- A time span: nothing in nanoseconds, less than a second in milliseconds, and all
else in seconds with up to three places. -/
def duration (ms : Nat) : String :=
  if ms = 0 then "0ns"
  else if ms < 1000 then toString ms ++ "ms"
  else if ms % 1000 = 0 then toString (ms / 1000) ++ "s"
  else toString (ms / 1000) ++ "." ++ thousandths (ms % 1000) ++ "s"

mutual

/-- A JSON value. -/
def json : Json → String
  | .null => "Null"
  | .bool b => tagged "Bool" (bool b)
  | .number n => tagged "Number" n.text
  | .string s => tagged "String" (Quoted.encode s)
  | .array items => "Array [" ++ jsonItems items ++ "]"
  | .object ⟨fields⟩ => "Object \x7b" ++ jsonFields fields ++ "\x7d"

/-- JSON items with commas between them. -/
def jsonItems : List Json → String
  | [] => ""
  | [item] => json item
  | item :: rest => json item ++ ", " ++ jsonItems rest

/-- JSON fields with commas between them. -/
def jsonFields : List (String × Json) → String
  | [] => ""
  | [(k, v)] => Quoted.encode k ++ ": " ++ json v
  | (k, v) :: rest => Quoted.encode k ++ ": " ++ json v ++ ", " ++ jsonFields rest

end

mutual

/-- A state value. -/
def value : StateValue → String
  | .leaf key => tagged "Leaf" (Quoted.encode key)
  | .regions ⟨parts⟩ => "Regions(\x7b" ++ valueParts parts ++ "\x7d)"

/-- Regions with commas between them. -/
def valueParts : List (String × StateValue) → String
  | [] => ""
  | [(k, v)] => Quoted.encode k ++ ": " ++ value v
  | (k, v) :: rest => Quoted.encode k ++ ": " ++ value v ++ ", " ++ valueParts rest

end

variable {κ : Type}

/-! ### Descriptors -/

/-- A kind. -/
def kind : Kind → String
  | .atomic => "Atomic"
  | .parallel => "Parallel"
  | .final => "Final"

/-- An assign: the keys of its properties, or nothing. -/
def assign : Assign → String
  | .transform _ => "Transform(..)"
  | .properties entries => tagged "Properties" (strings (entries.map Prod.fst))

/-- An action. -/
def action : Action κ → String
  | .named name => tagged "Named" (Quoted.encode name)
  | .inline name _ => tagged "Inline" (Quoted.encode name)
  | .assign change => tagged "Assign" (assign change)

/-- A guard. -/
def guard (_ : Guard) : String := "Guard(..)"

/-- A reference to a guard. -/
def guardRef : GuardRef → String
  | .named name => tagged "Named" (Quoted.encode name)
  | .inline g => tagged "Inline" (guard g)

/-- A transition. -/
def transition (t : TransitionDescriptor κ) : String :=
  record "TransitionConfig"
    [("target", option Quoted.encode t.target), ("actions", list (t.actions.map action)),
     ("cond", option guardRef t.guard)]

/-- A reaction. -/
def reaction : Reaction (TransitionDescriptor κ) → String
  | .event kind => tagged "Event" (Quoted.encode kind)
  | .transition t => tagged "Transition" (transition t)

/-- The source of a child. -/
def source : ChildSource κ → String
  | .service name => tagged "Service" (Quoted.encode name)
  | .factory _ => "Factory(..)"

/-- An invocation. -/
def invocation (i : InvokeDescriptor κ) : String :=
  record "InvokeConfig"
    [("id", Quoted.encode i.id), ("src", source i.source),
     ("on_done", option reaction i.onDone), ("on_error", option reaction i.onError)]

/-- A machine descriptor, without the insides of its states. -/
def descriptor (d : MachineDescriptor κ) : String :=
  record "MachineConfig"
    [("id", option Quoted.encode d.id), ("initial", option Quoted.encode d.initial),
     ("kind", kind d.kind), ("states", strings d.states.keys)]

/-- One item or many. -/
def itemOrList {α : Type} (f : α → String) : ItemOrList α → String
  | .item value => tagged "One" (f value)
  | .list values => tagged "Many" (list (values.map f))

/-! ### Bundles and machines -/

/-- The names of services. -/
def services (s : Services κ) : String := strings (sorted s.keys)

/-- The names of a bundle. -/
def bundle (b : Bundle κ) : String :=
  record "Implementations"
    [("actions", strings (sorted b.actions.keys)), ("guards", strings (sorted b.guards.keys)),
     ("delays", strings (sorted b.delays.keys)), ("services", services b.services)]

/-- A compiled machine. -/
def machine (m : Machine κ) : String :=
  record "Machine"
    [("id", option Quoted.encode m.id), ("parallel", bool m.isParallel),
     ("initial", value m.initial.value)]

/-- A pending effect. -/
def effect (a : PendingEffect κ) : String :=
  record "BoundAction" [("name", Quoted.encode a.name), ("meta", option json a.metadata)]

/-! ### Running machines and timers -/

/-- Whether an instance was started and stopped. -/
def status : Status → String
  | .notStarted => "NotStarted"
  | .running => "Running"
  | .stopped => "Stopped"

/-- The status of a timer. -/
def timerStatus : TimerStatus → String
  | .idle => "Idle"
  | .running => "Running"
  | .paused => "Paused"
  | .fired => "Fired"
  | .destroyed => "Destroyed"

/-- An instance, under the name of its session. -/
def running (session : String) (x : Instance κ) : String :=
  record "Interpreter"
    [("machine", option Quoted.encode x.machine.id), ("session", session),
     ("status", status x.status), ("value", value x.snapshot.value),
     ("children", strings x.children.keys)]

/-- A timer, as of its last pause. -/
def timer {τ : Type} (t : Timer τ) : String :=
  record "Timer"
    [("delay", duration t.delay), ("remaining", duration t.remaining),
     ("elapsed", duration t.elapsed), ("status", timerStatus t.status)]

/-- A timer pool. -/
def pool {τ : Type} (t : Timing τ) (pool : Nat) : String :=
  record "TimerCoordinator"
    [("paused", bool (t.isPaused pool)), ("live_timers", toString (t.live pool)),
     ("stashed", toString (t.stashed pool))]

/-- A registered listener. -/
def subscription (id : Nat) (active : Bool) : String :=
  record "Subscription" [("id", toString id), ("active", bool active)]

end Description

end Statechart
