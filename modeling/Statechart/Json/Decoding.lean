import Statechart.Json.Source
import Statechart.Text.Quoted

/-!
# Decoding typed data

Decoders read a `Source` from left to right and stop at the first mistake, which is
either a fault of the text or a problem with well-formed contents.  A record is
written as a map of its fields, or as a list of them in order.
-/

namespace Statechart

/-- What is wrong with contents that are well formed. -/
inductive Problem where
  | wrongType (found : String) (expected : String)
  | notVariant (found : String)
  | notVariantName
  | unknownVariant (found : String) (known : List String)
  | notSingleKey
  | noAlternative (union : String)
  | missingField (field : String)
  | repeatedField (field : String)
  | wrongLength (found : Nat) (expected : String)
  | excessItems (found : Nat)
  | invalid (reason : String)
deriving Repr, DecidableEq

/-- The first mistake met by a decoder. -/
inductive DecodeError where
  | broken (fault : Fault)
  | data (problem : Problem)
deriving Repr, DecidableEq

/-- The result of decoding. -/
abbrev Decoded (α : Type) : Type := Except DecodeError α

namespace Problem

/-- The wording of a problem. -/
def message : Problem → String
  | wrongType found expected => "invalid type: " ++ found ++ ", expected " ++ expected
  | notVariant found => "invalid type: " ++ found ++ ", expected string or map"
  | notVariantName => "invalid type, expected variant identifier"
  | unknownVariant found known =>
    "unknown variant `" ++ found ++ "`, expected one of "
      ++ ", ".intercalate (known.map fun k => "`" ++ k ++ "`")
  | notSingleKey => "invalid value: map, expected map with a single key"
  | noAlternative union => "data did not match any variant of untagged enum " ++ union
  | missingField field => "missing field `" ++ field ++ "`"
  | repeatedField field => "duplicate field `" ++ field ++ "`"
  | wrongLength found expected =>
    "invalid length " ++ toString found ++ ", expected " ++ expected
  | excessItems found =>
    "invalid length " ++ toString found ++ ", expected fewer elements in array"
  | invalid reason => reason

/-- Whether a reader of text sees the problem as a mistake in the syntax: it expects a
variant or the end of a list where something else stands. -/
def inSyntax : Problem → Bool
  | notVariant _ => true
  | notSingleKey => true
  | excessItems _ => true
  | _ => false

end Problem

namespace DecodeError

/-- The wording of a mistake in the contents; a fault of the text has none. -/
def message : DecodeError → String
  | broken _ => ""
  | data problem => problem.message

/-- The kind of mistake that a reader of text reports. -/
def category : DecodeError → String
  | broken .ended => "eof"
  | broken .malformed => "syntax"
  | data problem => if problem.inSyntax then "syntax" else "data"

end DecodeError

namespace Source

/-- The description of a value of the wrong type. -/
def found : Source → String
  | .null => "null"
  | .bool b => "boolean `" ++ toString b ++ "`"
  | .number (.int n) => "integer `" ++ toString n ++ "`"
  | .number (.float x) => "floating point `" ++ x.positional ++ "`"
  | .string s => "string " ++ Quoted.encode s
  | .list _ _ => "sequence"
  | .map _ _ => "map"
  | .defective _ => ""
  | .broken _ => ""

/-- The mistake of meeting a value where something else is expected. -/
def mismatch (s : Source) (expected : String) : DecodeError :=
  match s with
  | .broken fault => .broken fault
  | .defective _ => .broken .malformed
  | s => .data (.wrongType s.found expected)

/-- The mistake of a fault that has been met, if any. -/
def check (fault : Option Fault) : Decoded Unit :=
  match fault with
  | some fault => .error (.broken fault)
  | none => .ok ()

/-- A string. -/
def asString : Source → Decoded String
  | .string s => .ok s
  | s => .error (s.mismatch "a string")

/-- A value of any type. -/
def asJson (s : Source) : Decoded Json :=
  match s.toJson with
  | .ok value => .ok value
  | .error fault => .error (.broken fault)

/-- A value that may be absent, written as null. -/
def asOption {α : Type} (decode : Source → Decoded α) : Source → Decoded (Option α)
  | .null => .ok none
  | s => (decode s).map some

/-- The items of a list, decoded in order. -/
def decodeItems {α : Type} (decode : Source → Decoded α) : List Source → Decoded (List α)
  | [] => .ok []
  | item :: rest => do
    let value ← decode item
    let values ← decodeItems decode rest
    return value :: values

/-- A list. -/
def asList {α : Type} (decode : Source → Decoded α) : Source → Decoded (List α)
  | .list items ending => do
    let values ← decodeItems decode items
    check ending.fault?
    return values
  | s => .error (s.mismatch "a sequence")

/-- The entries of a map, decoded and inserted in order. -/
def decodeEntries {α : Type} (decode : Source → Decoded α) :
    List (String × Source) → OrderedMap α → Decoded (OrderedMap α)
  | [], acc => .ok acc
  | (k, v) :: rest, acc => do
    let value ← decode v
    decodeEntries decode rest (acc.insert k value)

/-- A map. -/
def asMap {α : Type} (decode : Source → Decoded α) : Source → Decoded (OrderedMap α)
  | .map entries ending => do
    let values ← decodeEntries decode entries .empty
    check ending.fault?
    return values
  | s => .error (s.mismatch "a map")

/-- A value read as a whole before it is looked at, by trying alternatives in order. -/
def asUnion {α : Type} (union : String) (alternatives : List (Source → Decoded α))
    (s : Source) : Decoded α := do
  check s.readFault?
  match alternatives.findSome? fun decode => (decode s).toOption with
  | some value => .ok value
  | none => .error (.data (.noAlternative union))

/-! ### Records -/

/-- The decoders of the fields of a record `ρ`, in order: each reads one field into a
record under construction. -/
abbrev Fields (ρ : Type) : Type := List (String × (Source → ρ → Decoded ρ))

/-- The decoder of a field, if there is such a field. -/
def Fields.find? {ρ : Type} (fields : Fields ρ) (name : String) :
    Option (Source → ρ → Decoded ρ) :=
  OrderedMap.find? name fields

/-- Reads the entries of a map as fields; unknown ones are passed over.  Answers the
names of the fields that were read, too. -/
def readFields {ρ : Type} (fields : Fields ρ) :
    List (String × Source) → List String → ρ → Decoded (ρ × List String)
  | [], seen, record => .ok (record, seen)
  | (name, value) :: rest, seen, record =>
    match fields.find? name with
    | none => do
      check value.skipFault?
      readFields fields rest seen record
    | some decode =>
      if seen.contains name then .error (.data (.repeatedField name))
      else do
        let record ← decode value record
        readFields fields rest (name :: seen) record

/-- Reads the items of a list as fields, by position. -/
def readPositions {ρ : Type} :
    Fields ρ → List Source → List String → ρ → Decoded (ρ × List String)
  | [], _, seen, record => .ok (record, seen)
  | _, [], seen, record => .ok (record, seen)
  | (name, decode) :: fields, item :: rest, seen, record => do
    let record ← decode item record
    readPositions fields rest (name :: seen) record

/-- A record written as a map, or as a list if `positional` holds.  The fields
`required` must be present. -/
def asRecord {ρ : Type} (expected : String) (positional : Bool) (required : List String)
    (fields : Fields ρ) (default : ρ) (s : Source) : Decoded ρ :=
  match s with
  | .map entries ending => do
    let (record, seen) ← readFields fields entries [] default
    check ending.fault?
    match required.find? fun name => !seen.contains name with
    | some name => .error (.data (.missingField name))
    | none => .ok record
  | .list items ending =>
    if positional then do
      let (record, seen) ← readPositions fields items [] default
      if fields.length < items.length then .error (.data (.excessItems items.length))
      else
        check ending.fault?
        match required.find? fun name => !seen.contains name with
        | some _ =>
          .error (.data (.wrongLength items.length
            (expected ++ " with " ++ toString fields.length ++ " elements")))
        | none => .ok record
    else .error (s.mismatch expected)
  | s => .error (s.mismatch expected)

end Source

end Statechart
