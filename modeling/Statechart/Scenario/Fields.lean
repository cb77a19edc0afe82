import Statechart.Json

/-!
# Reading fields

Scenarios are written in JSON.  A field that is absent, or holds a value of another
type than the one wanted, counts as empty: as the empty text, list or object, as zero,
or as `false`.
-/

namespace Statechart

namespace Json

/-- The text that a value is, or the empty one. -/
def asText (j : Json) : String := j.string?.getD ""

/-- The items that a value has. -/
def asItems (j : Json) : List Json := j.array?.getD []

/-- The fields that a value has. -/
def asFields (j : Json) : OrderedMap Json := j.object?.getD .empty

/-- The number that a value is, or zero. -/
def asNat (j : Json) : Nat := j.nat64?.getD 0

/-- Whether a value is `true`. -/
def asFlag (j : Json) : Bool := j.bool?.getD false

/-- The text at a key. -/
def textAt (j : Json) (key : String) : String := (j.field key).asText

/-- The items at a key. -/
def itemsAt (j : Json) (key : String) : List Json := (j.field key).asItems

/-- The fields at a key. -/
def fieldsAt (j : Json) (key : String) : OrderedMap Json := (j.field key).asFields

/-- The number at a key. -/
def natAt (j : Json) (key : String) : Nat := (j.field key).asNat

/-- Whether the value at a key is `true`. -/
def flagAt (j : Json) (key : String) : Bool := (j.field key).asFlag

/-- Whether a key is there. -/
def has (j : Json) (key : String) : Bool := (j.get? key).isSome

/-- The value at a key, unless it is null. -/
def present? (j : Json) (key : String) : Option Json :=
  match j.get? key with
  | some .null => none
  | found => found

/-- The item at a position of a list, or null. -/
def nth (items : List Json) (i : Nat) : Json := items[i]?.getD .null

mutual

/-- The nesting depth of a value. -/
def depth : Json → Nat
  | .array items => depthItems items + 1
  | .object ⟨fields⟩ => depthFields fields + 1
  | _ => 1

/-- The greatest depth in a list. -/
def depthItems : List Json → Nat
  | [] => 0
  | item :: rest => max (depth item) (depthItems rest)

/-- The greatest depth in fields. -/
def depthFields : List (String × Json) → Nat
  | [] => 0
  | (_, value) :: rest => max (depth value) (depthFields rest)

end

end Json

end Statechart
