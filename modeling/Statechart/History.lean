import Statechart.StateValue
import Statechart.Timestamp

/-!
# Transition histories

The record of the changes of value in a run: from which value to which, on which
event, and when.
-/

namespace Statechart

/-- One change of value. -/
structure Change where
  source : StateValue
  target : StateValue
  event : String
  time : Timestamp

namespace Change

/-- Records are equal when their values are up to the order of regions. -/
def same (a b : Change) : Bool :=
  a.source == b.source && a.target == b.target && a.event == b.event
    && decide (a.time = b.time)

instance : BEq Change := ⟨same⟩

/-- The written form of a record. -/
def toJson (r : Change) : Json :=
  .object ⟨[("from", r.source.toJson), ("to", r.target.toJson),
    ("event", .string r.event), ("timestamp", .string r.time.text)]⟩

/-- Decodes a timestamp. -/
def decodeTime (s : Source) : Decoded Timestamp := do
  let text ← s.asString
  match Timestamp.ofText text with
  | some t => .ok t
  | none => .error (.data (.invalid "not a point in time"))

/-- The fields of a record. -/
def fields : Source.Fields Change :=
  [("from", fun s r => do let value ← StateValue.decode s; return { r with source := value }),
   ("to", fun s r => do let value ← StateValue.decode s; return { r with target := value }),
   ("event", fun s r => do let event ← s.asString; return { r with event := event }),
   ("timestamp", fun s r => do let time ← decodeTime s; return { r with time := time })]

/-- Decodes a record, all of whose fields are required. -/
def decode (s : Source) : Decoded Change :=
  s.asRecord "a change" true ["from", "to", "event", "timestamp"] fields
    ⟨default, default, "", ⟨0⟩⟩

end Change

/-- The changes of value of a run, oldest first. -/
structure History where
  records : List Change

namespace History

/-- The history of a run that has not moved. -/
def empty : History := ⟨[]⟩

instance : Inhabited History := ⟨empty⟩

/-- Appends a change. -/
def record (h : History) (r : Change) : History := ⟨h.records ++ [r]⟩

/-- The number of changes. -/
def size (h : History) : Nat := h.records.length

/-- Whether there was no change. -/
def isEmpty (h : History) : Bool := h.records.isEmpty

/-- The values passed through: where the first change started, then where each one
led. -/
def path (h : History) : List StateValue :=
  match h.records with
  | [] => []
  | first :: _ => first.source :: h.records.map Change.target

/-- The time from the first change to the last in nanoseconds, unless it is
negative. -/
def duration? (h : History) : Option Nat :=
  match h.records.head?, h.records.getLast? with
  | some first, some last =>
    let span := last.time.nanos - first.time.nanos
    if 0 ≤ span then some span.toNat else none
  | _, _ => none

/-- Histories are equal when their records are. -/
def same (a b : History) : Bool := a.records == b.records

instance : BEq History := ⟨same⟩

/-- The written form of a history. -/
def toJson (h : History) : Json :=
  .object ⟨[("transitions", .array (h.records.map Change.toJson))]⟩

/-- Decodes a history. -/
def decode (s : Source) : Decoded History :=
  s.asRecord "a history" true ["transitions"]
    [("transitions", fun s _ => do
      let records ← s.asList Change.decode
      return ⟨records⟩)]
    empty

/-- Decodes the text of a history. -/
def ofText (text : String) : Decoded History := do
  let (source, trailing) := Source.ofText text
  let history ← decode source
  if trailing then .error (.broken .malformed) else .ok history

end History

end Statechart
