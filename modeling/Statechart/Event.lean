import Statechart.Json.Decoding

/-!
# Events

An event has a kind and a payload.  It is written as one object: the kind under
`type`, then the payload.
-/

namespace Statechart

/-- The extended state of a machine: named JSON values. -/
abbrev Context : Type := OrderedMap Json

/-- Free data attached to a machine or to a state. -/
abbrev Meta : Type := Json

/-- Something that happens, with data. -/
structure Event where
  kind : String
  payload : OrderedMap Json

namespace Event

instance : Inhabited Event := ⟨"", .empty⟩

/-- The event of a kind, without payload. -/
def named (kind : String) : Event := ⟨kind, .empty⟩

/-- Sets a payload field. -/
def add (e : Event) (key : String) (value : Json) : Event :=
  { e with payload := e.payload.insert key value }

/-- A payload field. -/
def get? (e : Event) (key : String) : Option Json := e.payload.get? key

/-- The event on which a machine enters its initial state. -/
def init : Event := named "statecraft.init"

/-- The event of a delayed transition. -/
def after (delay : String) : Event := named ("statecraft.after." ++ delay)

/-- The event of a child that completed. -/
def doneInvoke (id : String) : Event := named ("done.invoke." ++ id)

/-- The event of a child that could not be started. -/
def invokeError (id message : String) : Event :=
  (named ("error.invoke." ++ id)).add "message" (.string message)

/-- Events are equal when their kinds are and their payloads are up to order. -/
def same (a b : Event) : Bool :=
  a.kind == b.kind && Json.object a.payload == Json.object b.payload

instance : BEq Event := ⟨same⟩

/-! ### Wire form -/

/-- The written form: the kind, then the payload. -/
def toJson (e : Event) : Json := .object ⟨("type", .string e.kind) :: e.payload.entries⟩

/-- Reads the entries of an object; the kind must not be repeated. -/
def readEntries :
    List (String × Source) → Option String → OrderedMap Json →
      Decoded (Option String × OrderedMap Json)
  | [], kind, payload => .ok (kind, payload)
  | (k, s) :: rest, kind, payload =>
    if k = "type" then
      match kind with
      | some _ => .error (.data (.repeatedField "type"))
      | none => do
        let kind ← s.asString
        readEntries rest (some kind) payload
    else do
      let value ← s.asJson
      readEntries rest kind (payload.insert k value)

/-- Decodes an event written as an object. -/
def decode : Source → Decoded Event
  | .map entries ending => do
    let (kind, payload) ← readEntries entries none .empty
    Source.check ending.fault?
    match kind with
    | some kind => .ok ⟨kind, payload⟩
    | none => .error (.data (.missingField "type"))
  | s => .error (s.mismatch "struct Event")

/-- Decodes a finished JSON value. -/
def ofJson (j : Json) : Decoded Event := decode (.ofJson j)

/-- Decodes the text of an event. -/
def ofText (text : String) : Decoded Event := do
  let (source, trailing) := Source.ofText text
  let event ← decode source
  if trailing then .error (.broken .malformed) else .ok event

end Event

end Statechart
