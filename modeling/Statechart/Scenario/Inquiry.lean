import Statechart.Machine.Resolve
import Statechart.Scenario.Report

/-!
# Inquiries

Requests that start nothing: they ask what a descriptor says, where a machine goes on
an event, and how values, events, histories, assigns and bundles behave.
-/

namespace Statechart

namespace Scenario

/-- What reports to the ledger and may have no answer. -/
abbrev Inquiry (α : Type) : Type := ExceptT Failure (StateM Ledger) α

namespace Inquiry

/-- Goes on with an answer. -/
def ofAnswer {α : Type} (a : Answer α) : Inquiry α := ExceptT.mk (pure a)

/-- Records. -/
def record {α : Type} (x : Recording α) : Inquiry α := ExceptT.lift x

/-- Goes on with a decoded value. -/
def ofDecoded {α : Type} (failure : DecodeError → Failure) (d : Decoded α) : Inquiry α :=
  ofAnswer (d.mapError failure)

/-- Goes on with what an evaluation of a machine found. -/
def ofMachine {α : Type} (x : Evaluated (Except MachineError α)) : Inquiry α := do
  let found ← record (observe x)
  ofAnswer (found.mapError .machine)

/-! ### Decoding -/

/-- The event that a value describes: its kind, or its written form. -/
def eventOf (j : Json) : Inquiry Event :=
  match j with
  | .string kind => pure (.named kind)
  | j => ofDecoded .event (Event.ofJson j)

/-- The state value that a value describes. -/
def valueOf (j : Json) : Inquiry StateValue := ofDecoded .value (StateValue.ofJson j)

/-- The descriptor and the bundle of the machine that a value describes. -/
def sources (pool : Nat) (j : Json) : Inquiry (MachineDescriptor Code × Bundle Code) := do
  let found ← record (sourcesOf pool j)
  ofAnswer (found.mapError .descriptor)

/-- The machine that a value describes. -/
def machine (pool : Nat) (j : Json) : Inquiry (Machine Code) := do
  let (d, b) ← sources pool j
  let found ← record (observe (Machine.compile d b))
  ofAnswer (found.mapError .build)

/-- The answer with everything that was reported on the way. -/
def traced (fields : List (String × Json)) : Inquiry Json := do
  let trace ← record takeTrace
  return .ofFields (fields ++ [("trace", trace)])

/-! ### Descriptors and machines -/

/-- What a descriptor says. -/
def parse (j : Json) : Inquiry Json := do
  let found ← record (descriptorOf j)
  let d ← ofAnswer (found.mapError .descriptor)
  return descriptorToJson d

/-- What a compiled machine looks like. -/
def compile (pool : Nat) (j : Json) : Inquiry Json := do
  let m ← machine pool j
  traced
    [("id", textOrNull m.id), ("parallel", .bool m.isParallel),
     ("meta", m.metadata.getD .null), ("default_context", .object m.context),
     ("initial", snapshotToJson m.initial), ("final_states", texts m.finalStates),
     ("initial_is_final", .bool (m.isFinal m.initial.value)),
     ("services", .nat m.services.size)]

/-- The context at the key `context`, or the default one of a machine. -/
def contextAt (m : Machine Code) (j : Json) : Context :=
  match j.get? "context" with
  | some context => context.asFields
  | none => m.context

/-- Reports the execution of an effect of a snapshot. -/
def execute (s : Snapshot Code) (event : Event) (a : PendingEffect Code) : Recording Unit :=
  match a.code with
  | .effect name _ => note (effectReport name s.context event a.metadata)
  | _ => pure ()

/-- Performs one step at the current snapshot of a machine.  Answers the result, and the
snapshot that is current from then on. -/
def step (m : Machine Code) (current : Snapshot Code) (j : Json) :
    Inquiry (Json × Snapshot Code) :=
  match j.textAt "do" with
  | "next" => do
    let event ← eventOf (j.field "event")
    let s ← ofMachine (m.next current event)
    return (movedToJson s, s)
  | "transition" => do
    let value ← valueOf (j.field "value")
    let event ← eventOf (j.field "event")
    let s ← ofMachine (m.transition value (contextAt m j) event)
    return (movedToJson s, current)
  | "transition_from" => do
    let event ← eventOf (j.field "event")
    let s ← ofMachine (m.transitionFrom (j.textAt "state") event)
    return (movedToJson s, current)
  | "snapshot_at" => do
    let value ← valueOf (j.field "value")
    let s ← ofMachine (pure (m.snapshotAt value (contextAt m j)))
    return (movedToJson s, s)
  | "is_final" => do
    let value ← valueOf (j.field "value")
    return (.bool (m.isFinal value), current)
  | "matches" => return (.bool (current.matchesPath (j.textAt "key")), current)
  | "execute" => do
    let event ← eventOf (j.field "event")
    current.actions.forM fun a => record (execute current event a)
    return (texts current.actionNames, current)
  | word => ofAnswer (.error (.badRequest ("unknown step " ++ word)))

/-- One entry of the answer: a result and the reports since the last one. -/
def entry (result : Json) : Recording Json := do
  let trace ← takeTrace
  return .ofFields [("r", result), ("trace", trace)]

/-- Performs steps one after another; one that fails leaves the current snapshot. -/
def steps (m : Machine Code) : Snapshot Code → List Json → Recording (List Json)
  | _, [] => return []
  | current, j :: rest => do
    let found ← (step m current j).run
    let first ← entry (answerToJson (found.map Prod.fst))
    let others ← steps m ((found.toOption.map Prod.snd).getD current) rest
    return first :: others

/-- Where a machine goes, step by step from its initial snapshot. -/
def transition (pool : Nat) (j : Json) : Inquiry Json := do
  let m ← machine pool (j.field "machine")
  let first ← record (entry (snapshotToJson m.initial))
  let others ← record (steps m m.initial (j.itemsAt "steps"))
  return .ofFields [("steps", .array (first :: others))]

/-! ### Values, events and histories -/

/-- The value in question: one that is given, or regions with a value for each. -/
def subject (j : Json) : Inquiry StateValue :=
  match j.get? "regions" with
  | some regions => do
    let parts ← regions.asItems.mapM fun pair => do
      let value ← valueOf (Json.nth pair.asItems 1)
      return ((Json.nth pair.asItems 0).asText, value)
    return .ofParts parts
  | none => valueOf (j.field "value")

/-- How a state value is written, what it matches, and what it equals. -/
def value (j : Json) : Inquiry Json := do
  let v ← subject j
  let equals ← match j.present? "equals" with
    | some other => do
      let w ← valueOf other
      pure (Json.bool (v == w))
    | none => pure .null
  return .ofFields
    [("json", .string v.toJson.compact), ("text", .string v.text),
     ("leaf", textOrNull v.leaf?),
     ("matches", .array ((j.itemsAt "matches").map fun p => .bool (v.matchesPath p.asText))),
     ("region",
       .array ((j.itemsAt "region").map fun k =>
         textOrNull ((v.region? k.asText).map StateValue.text))),
     ("equals", equals)]

/-- The event that an engine makes: on entering, after a delay, or about a child. -/
def synthetic (parts : List Json) : Inquiry Event :=
  let first := (Json.nth parts 1).asText
  match (Json.nth parts 0).asText with
  | "init" => pure .init
  | "after" => pure (.after first)
  | "done_invoke" => pure (.doneInvoke first)
  | "invoke_error" => pure (.invokeError first (Json.nth parts 2).asText)
  | word => ofAnswer (.error (.badRequest ("unknown event " ++ word)))

/-- How an event is written, and whether it can be read back. -/
def event (j : Json) : Inquiry Json := do
  let e ← match j.get? "synthetic" with
    | some parts => synthetic parts.asItems
    | none => eventOf (j.field "event")
  let e := (j.itemsAt "with").foldl
    (fun e pair => Event.add e (Json.nth pair.asItems 0).asText (Json.nth pair.asItems 1)) e
  let text := e.toJson.compact
  let roundtrip := match Event.ofText text with
    | .ok again => again == e
    | .error _ => false
  return .ofFields
    [("kind", .string e.kind), ("payload", pairsToJson e.payload), ("json", .string text),
     ("roundtrip", .bool roundtrip),
     ("get", .array ((j.itemsAt "get").map fun k => (e.get? k.asText).getD .null))]

/-- Appends a record to a history.  Answers the length before, too. -/
def append (h : History) (j : Json) : Inquiry (Nat × History) := do
  let source ← valueOf (j.field "from")
  let target ← valueOf (j.field "to")
  let time := (j.field "at").int64?.getD 0
  return (h.size, h.record ⟨source, target, j.textAt "event", .ofMillis time⟩)

/-- Appends records to a history one after another.  Answers the lengths before each,
too. -/
def recordAll : History → List Json → Inquiry (List Nat × History)
  | h, [] => return ([], h)
  | h, j :: rest => do
    let (before, h) ← append h j
    let (others, h) ← recordAll h rest
    return (before :: others, h)

/-- How a history grows, and how it is written. -/
def history (j : Json) : Inquiry Json := do
  let start ← match j.present? "json" with
    | some text => ofDecoded .history (History.ofText text.asText)
    | none => pure History.empty
  let (before, h) ← recordAll start (j.itemsAt "records")
  let text := h.toJson.compact
  let roundtrip := match History.ofText text with
    | .ok again => again == h
    | .error _ => false
  return .ofFields
    [("len", .nat h.size), ("empty", .bool h.isEmpty), ("before", .array (before.map .nat)),
     ("path", texts (h.path.map StateValue.text)),
     ("events", texts (h.records.map Change.event)),
     ("duration_ms", orNull (fun ns => .nat (ns / 1000000)) h.duration?),
     ("json", .string text), ("roundtrip", .bool roundtrip)]

/-! ### Assigns and bundles -/

/-- The computations among evaluations. -/
def computations (es : List Evaluation) : List Evaluation :=
  es.filter fun e =>
    match e with
    | .compute _ _ _ => true
    | _ => false

/-- What an assign makes of a context.  Only computed properties are reported. -/
def assign (j : Json) : Inquiry Json := do
  let context := j.fieldsAt "context"
  let event ← eventOf (j.field "event")
  let change := (assignOf "props" (j.field "assigner")).getD (.properties [])
  let next := change.apply context event (j.present? "meta")
  let after ← record (observe ⟨next.value, computations next.evaluations⟩)
  traced [("next", pairsToJson after), ("original", pairsToJson context)]

/-- The initial snapshot of the machine that a service makes. -/
def callService (pool : Nat) (services : Services Code) (call : Json) : Recording Json :=
  match services.get? (Json.nth call.asItems 0).asText with
  | none => return .null
  | some code => do
    let made ← serveCode pool code (Json.nth call.asItems 1).asFields .init
    return answerToJson ((made.map fun m => snapshotToJson m.initial).mapError .invoke)

/-- Which names a bundle has, and what its services make. -/
def bundle (pool : Nat) (j : Json) : Inquiry Json := do
  let b ← record (bundleOf pool (j.field "impl"))
  let services := match j.present? "fallback" with
    | some fallback => b.services.withFallback (servicesOf fallback.asFields)
    | none => b.services
  let known (key : String) (contains : String → Bool) : String × Json :=
    (key, .array ((j.itemsAt key).map fun name => .bool (contains name.asText)))
  let calls ← record ((j.itemsAt "calls").mapM (callService pool services))
  traced
    [known "actions" b.actions.contains, known "guards" b.guards.contains,
     known "delays" b.delays.contains, known "services" services.contains,
     ("service_count", .nat services.size), ("services_empty", .bool services.isEmpty),
     ("calls", .array calls)]

/-- One step of a growing list. -/
def listStep (xs : ItemOrList (Action Code)) : Json :=
  .ofFields
    [("empty", .bool xs.toList.isEmpty), ("items", .array (xs.toList.map actionToJson)),
     ("debug", .string (Description.itemOrList Description.action xs))]

/-- Pushes actions to a list one after another.  Answers what the list is after each
one, and in the end. -/
def pushAll : ItemOrList (Action Code) → List Json →
    Recording (List Json × ItemOrList (Action Code))
  | xs, [] => return ([], xs)
  | xs, j :: rest => do
    let action ← actionOf j
    let xs := xs.push action
    let (others, last) ← pushAll xs rest
    return (listStep xs :: others, last)

/-- How a list of actions grows. -/
def list (j : Json) : Inquiry Json := do
  let start ← match j.get? "one", j.get? "json" with
    | some one, _ => do
      let action ← record (actionOf one)
      pure (ItemOrList.item action)
    | none, some v =>
      ofDecoded (fun e => .descriptor ⟨e, false⟩)
        (ItemOrList.decode Action.decode (.ofJson v))
    | none, none => pure .empty
  let (others, last) ← record (pushAll start (j.itemsAt "push"))
  return .ofFields
    [("steps", .array (listStep start :: others)),
     ("vec", .array (last.toList.map actionToJson))]

/-! ### Descriptions -/

/-- The one-line description of what a value describes. -/
def describe (pool : Nat) (j : Json) : Inquiry Json := do
  let of := j.field "of"
  let text ← match j.textAt "what" with
    | "config" => do
      let found ← record (descriptorOf of)
      let d ← ofAnswer (found.mapError .descriptor)
      pure (Description.descriptor d)
    | "machine" => do
      let m ← machine pool of
      pure (Description.machine m)
    | "impl" => do
      let b ← record (bundleOf pool of)
      pure (Description.bundle b)
    | "services" => pure (Description.services (servicesOf of.asFields))
    | "action" => do
      let action ← record (actionOf of)
      pure (Description.action action)
    | "transition" => do
      let t ← record (transitionOf of)
      pure (Description.transition t)
    | "invoke" => do
      let i ← record (invokeOf of)
      pure (Description.invocation i)
    | "guard" => pure (Description.guard (guardOf "guard" of))
    | "assigner" =>
      pure (Description.assign ((assignOf "props" of).getD (.properties [])))
    | word => ofAnswer (.error (.badRequest ("cannot describe " ++ word)))
  return .string text

end Inquiry

/-- The answer to an inquiry; none if a request is none. -/
def inquire? (pool : Nat) (j : Json) : Option (Inquiry Json) :=
  match j.textAt "op" with
  | "parse" => some (Inquiry.parse j)
  | "compile" => some (Inquiry.compile pool j)
  | "transition" => some (Inquiry.transition pool j)
  | "value" => some (Inquiry.value j)
  | "event" => some (Inquiry.event j)
  | "history" => some (Inquiry.history j)
  | "assign" => some (Inquiry.assign j)
  | "impl" => some (Inquiry.bundle pool j)
  | "list" => some (Inquiry.list j)
  | "debug" => some (Inquiry.describe pool j)
  | _ => none

end Scenario

end Statechart
