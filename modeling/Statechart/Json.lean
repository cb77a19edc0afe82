import Statechart.Json.Binary64
import Statechart.OrderedMap

/-!
# JSON values

Values with exact integers and with objects that keep insertion order.  Equality of
values, `==`, ignores the order of object keys, at every depth.
-/

namespace Statechart

/-- The least integer of 64 bits with sign. -/
def minInt64 : Int := -9223372036854775808

/-- The greatest integer of 64 bits with sign. -/
def maxInt64 : Int := 9223372036854775807

/-- The greatest natural number of 64 bits. -/
def maxNat64 : Nat := 18446744073709551615

/-- A JSON number: an exact integer, or a floating-point number. -/
inductive Number where
  | int (value : Int)
  | float (value : Binary64)
deriving Repr, DecidableEq

namespace Number

/-- Numeric equality within a kind: an integer never equals a floating-point number. -/
def beq : Number → Number → Bool
  | .int a, .int b => decide (a = b)
  | .float a, .float b => a.beq b
  | _, _ => false

/-- The text of a number. -/
def text : Number → String
  | .int n => toString n
  | .float x => x.text

end Number

/-- A JSON value. -/
inductive Json where
  | null
  | bool (value : Bool)
  | number (value : Number)
  | string (value : String)
  | array (items : List Json)
  | object (fields : OrderedMap Json)

namespace Json

instance : Inhabited Json := ⟨null⟩

/-- An integer value. -/
def int (n : Int) : Json := .number (.int n)

/-- A natural number as a value. -/
def nat (n : Nat) : Json := .int n

/-- The object with the given fields, inserted in order. -/
def ofFields (fields : List (String × Json)) : Json := .object (.ofList fields)

mutual

/-- Equality that ignores the order of object keys. -/
def same : Json → Json → Bool
  | .null, .null => true
  | .bool a, .bool b => a == b
  | .number a, .number b => a.beq b
  | .string a, .string b => a == b
  | .array as, .array bs => sameItems as bs
  | .object ⟨as⟩, .object bs => as.length == bs.size && sameFields as bs
  | _, _ => false

/-- Equality of lists, item by item. -/
def sameItems : List Json → List Json → Bool
  | [], [] => true
  | a :: as, b :: bs => same a b && sameItems as bs
  | _, _ => false

/-- Whether every entry has an equal value in `bs`. -/
def sameFields : List (String × Json) → OrderedMap Json → Bool
  | [], _ => true
  | (k, a) :: as, bs =>
    (match bs.get? k with
      | some b => same a b
      | none => false) && sameFields as bs

end

instance : BEq Json := ⟨same⟩

/-! ### Views -/

/-- The value at a key of an object. -/
def get? : Json → String → Option Json
  | .object fields, k => fields.get? k
  | _, _ => none

/-- The integer, if the value is one that fits 64 bits with sign. -/
def int64? : Json → Option Int
  | .number (.int n) => if minInt64 ≤ n ∧ n ≤ maxInt64 then some n else none
  | _ => none

/-- The natural number, if the value is one that fits 64 bits. -/
def nat64? : Json → Option Nat
  | .number (.int n) => if 0 ≤ n ∧ n ≤ maxNat64 then some n.toNat else none
  | _ => none

/-- The text, if the value is a string. -/
def string? : Json → Option String
  | .string s => some s
  | _ => none

/-- The items, if the value is an array. -/
def array? : Json → Option (List Json)
  | .array items => some items
  | _ => none

/-- The fields, if the value is an object. -/
def object? : Json → Option (OrderedMap Json)
  | .object fields => some fields
  | _ => none

/-- The truth value, if the value is one. -/
def bool? : Json → Option Bool
  | .bool b => some b
  | _ => none

/-- The value at a key, or null. -/
def field (j : Json) (k : String) : Json := (j.get? k).getD .null

/-- Whether the value is null. -/
def isNull : Json → Bool
  | .null => true
  | _ => false

end Json

end Statechart
