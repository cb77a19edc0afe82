import Statechart.Descriptor

/-!
# The wire form of descriptors

Machines, states and invocations are records; a transition is the key of its target
or an object; wherever a list is expected, a single item stands for the list of it.
A list is always tried first.  Descriptors read from the wire name their code and
never hold any.
-/

namespace Statechart

/-! ### Kinds -/

namespace Kind

/-- The written name of a kind. -/
def name : Kind → String
  | atomic => "atomic"
  | parallel => "parallel"
  | final => "final"

/-- The kind with a name. -/
def ofName (name : String) : Decoded Kind :=
  if name = "atomic" then .ok atomic
  else if name = "parallel" then .ok parallel
  else if name = "final" then .ok final
  else .error (.data (.unknownVariant name ["atomic", "parallel", "final"]))

/-- Decodes a kind: a name, or a map from the name to null. -/
def decode : Source → Decoded Kind
  | .string s => ofName s
  | .map [] (.keyless none) => .error (.data .notVariantName)
  | .map [] (.keyless (some fault)) => .error (.broken fault)
  | .map [] ending => do
    Source.check ending.fault?
    .error (.data .notSingleKey)
  | .map ((name, unit) :: more) ending => do
    if ending = .whole ∧ !more.isEmpty then throw (.data .notSingleKey)
    let kind ← ofName name
    match unit with
    | .null => pure ()
    | other => throw (other.mismatch "unit")
    if more.isEmpty then
      Source.check ending.fault?
      return kind
    else throw (.data .notSingleKey)
  | .broken fault => .error (.broken fault)
  | .defective _ => .error (.broken .malformed)
  | s => .error (.data (.notVariant s.found))

end Kind

variable {κ : Type}

/-! ### Lists and single items -/

namespace ItemOrList

/-- Decodes a list of items or a single item. -/
def decode {α : Type} (item : Source → Decoded α) (s : Source) : Decoded (ItemOrList α) :=
  s.asUnion "OneOrMany"
    [fun s => do let values ← s.asList item; return .list values,
     fun s => do let value ← item s; return .item value]

/-- Decodes a list of items or a single item as a list. -/
def decodeList {α : Type} (item : Source → Decoded α) (s : Source) : Decoded (List α) := do
  let items ← decode item s
  return items.toList

end ItemOrList

/-! ### Actions, guards and transitions -/

/-- Decodes an action, which is a name. -/
def Action.decode (s : Source) : Decoded (Action κ) := do
  let name ← s.asString
  return .named name

/-- Decodes a guard, which is a name. -/
def GuardRef.decode (s : Source) : Decoded GuardRef := do
  let name ← s.asString
  return .named name

namespace TransitionDescriptor

/-- The fields of a transition. -/
def fields : Source.Fields (TransitionDescriptor κ) :=
  [("target", fun s t => do
      let target ← s.asOption Source.asString
      return { t with target := target }),
   ("actions", fun s t => do
      let actions ← ItemOrList.decodeList Action.decode s
      return { t with actions := actions }),
   ("cond", fun s t => do
      let guard ← s.asOption GuardRef.decode
      return { t with guard := guard })]

/-- Decodes a transition: the key of its target, or an object. -/
def decode (s : Source) : Decoded (TransitionDescriptor κ) :=
  s.asUnion "Transition"
    [fun s => do let target ← s.asString; return .ofTarget target,
     fun s => s.asRecord "a transition" false [] fields targetless]

end TransitionDescriptor

/-! ### Invocations -/

/-- Decodes a reaction: the kind of an event, or a transition. -/
def Reaction.decode (s : Source) : Decoded (Reaction (TransitionDescriptor κ)) :=
  s.asUnion "Reaction"
    [fun s => do let kind ← s.asString; return .event kind,
     fun s => do let transition ← TransitionDescriptor.decode s; return .transition transition]

namespace InvokeDescriptor

/-- The fields of an invocation. -/
def fields : Source.Fields (InvokeDescriptor κ) :=
  [("id", fun s i => do
      let id ← s.asString
      return { i with id := id }),
   ("src", fun s i => do
      let name ← s.asString
      return { i with source := .service name }),
   ("data", fun s i => do
      let context ← s.asOption (Source.asMap Source.asJson)
      return { i with data := context.map .literal }),
   ("onDone", fun s i => do
      let reaction ← s.asOption Reaction.decode
      return { i with onDone := reaction }),
   ("onError", fun s i => do
      let reaction ← s.asOption Reaction.decode
      return { i with onError := reaction })]

/-- Decodes an invocation. -/
def decode (s : Source) : Decoded (InvokeDescriptor κ) :=
  s.asRecord "struct InvokeConfig" true ["id", "src"] fields (.ofService "" "")

end InvokeDescriptor

/-! ### States and machines -/

namespace StateDescriptor

/-- The fields of a state, given the decoder of the states within. -/
def fields (inner : Source → Decoded (StateDescriptor κ)) :
    Source.Fields (StateDescriptor κ) :=
  [("type", fun s n => do
      let kind ← Kind.decode s
      return { n with kind := kind }),
   ("on", fun s n => do
      let on ← s.asMap (ItemOrList.decodeList TransitionDescriptor.decode)
      return { n with on := on }),
   ("entry", fun s n => do
      let entry ← ItemOrList.decodeList Action.decode s
      return { n with entry := entry }),
   ("exit", fun s n => do
      let exit ← ItemOrList.decodeList Action.decode s
      return { n with exit := exit }),
   ("after", fun s n => do
      let after ← s.asMap (ItemOrList.decodeList TransitionDescriptor.decode)
      return { n with after := after }),
   ("invoke", fun s n => do
      let invoke ← ItemOrList.decodeList InvokeDescriptor.decode s
      return { n with invoke := invoke }),
   ("meta", fun s n => do
      let metadata ← s.asOption Source.asJson
      return { n with metadata := metadata }),
   ("initial", fun s n => do
      let initial ← s.asOption Source.asString
      return { n with initial := initial }),
   ("states", fun s n => do
      let states ← s.asMap inner
      return { n with states := states })]

/-- Decodes a state that is nested less than `depth` deep. -/
def decodeWithin : Nat → Source → Decoded (StateDescriptor κ)
  | 0, s => .error (s.mismatch "struct StateNodeConfig")
  | depth + 1, s =>
    s.asRecord "struct StateNodeConfig" true [] (fields (decodeWithin depth)) empty

end StateDescriptor

namespace Source

mutual

/-- The nesting depth of a source. -/
def depth : Source → Nat
  | .list items _ => depthItems items + 1
  | .map entries _ => depthEntries entries + 1
  | .defective inner => depth inner + 1
  | _ => 1

/-- The greatest depth in a list. -/
def depthItems : List Source → Nat
  | [] => 0
  | item :: rest => max (depth item) (depthItems rest)

/-- The greatest depth in entries. -/
def depthEntries : List (String × Source) → Nat
  | [] => 0
  | (_, value) :: rest => max (depth value) (depthEntries rest)

end

end Source

namespace StateDescriptor

/-- Decodes a state. -/
def decode (s : Source) : Decoded (StateDescriptor κ) := decodeWithin s.depth s

end StateDescriptor

namespace MachineDescriptor

/-- The fields of a machine. -/
def fields : Source.Fields (MachineDescriptor κ) :=
  [("id", fun s m => do
      let id ← s.asOption Source.asString
      return { m with id := id }),
   ("initial", fun s m => do
      let initial ← s.asOption Source.asString
      return { m with initial := initial }),
   ("type", fun s m => do
      let kind ← Kind.decode s
      return { m with kind := kind }),
   ("context", fun s m => do
      let context ← s.asMap Source.asJson
      return { m with context := context }),
   ("meta", fun s m => do
      let metadata ← s.asOption Source.asJson
      return { m with metadata := metadata }),
   ("states", fun s m => do
      let states ← s.asMap StateDescriptor.decode
      return { m with states := states })]

/-- Decodes a machine. -/
def decode (s : Source) : Decoded (MachineDescriptor κ) :=
  s.asRecord "struct MachineConfig" true [] fields empty

/-- Decodes a finished JSON value. -/
def ofJson (j : Json) : Decoded (MachineDescriptor κ) := decode (.ofJson j)

/-- Decodes the text of a machine. -/
def ofText (text : String) : Decoded (MachineDescriptor κ) := do
  let (source, trailing) := Source.ofText text
  let machine ← decode source
  if trailing then .error (.broken .malformed) else .ok machine

end MachineDescriptor

end Statechart
