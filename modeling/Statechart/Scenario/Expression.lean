import Statechart.Event
import Statechart.Scenario.Fields

/-!
# Expressions and conditions

The values and the tests from which scenarios make guards, assigns and delays.  Both
are functions of the context, the event and the metadata at hand.  An expression is
written as an object and told by its first key; the value of anything else is null, and
what is no condition never holds.
-/

namespace Statechart

namespace Scenario

/-- A value computed from context, event and metadata. -/
inductive Expression where
  | nothing
  | constant (value : Json)
  | contextKey (key : String)
  | payloadKey (key : String)
  | metadataKey (key : String)
  | metadata
  | eventKind
  | contextKeys
  | increment (key : String) (amount : Int)
  | append (key : String) (item : Expression)

/-- A test of context, event and metadata. -/
inductive Condition where
  | never
  | always
  | equal (a b : Expression)
  | greater (a b : Expression)
  | hasKey (key : String)
  | negation (c : Condition)
  | conjunction (cs : List Condition)
  | disjunction (cs : List Condition)

namespace Expression

/-! ### Reading -/

mutual

/-- The expression that a value describes. -/
def ofJson : Json → Expression
  | .object ⟨(key, argument) :: rest⟩ =>
    match key with
    | "const" => constant argument
    | "ctx" => contextKey argument.asText
    | "event" => payloadKey argument.asText
    | "meta" =>
      match argument with
      | .string key => metadataKey key
      | _ => metadata
    | "event_type" => eventKind
    | "keys" => contextKeys
    | "inc" =>
      let amount := ((OrderedMap.find? "by" rest).bind Json.int64?).getD 1
      increment argument.asText amount
    | "push" => append argument.asText (ofValue rest)
    | _ => nothing
  | _ => nothing

/-- The expression described at the key `value`. -/
def ofValue : List (String × Json) → Expression
  | [] => nothing
  | (key, j) :: rest => if key = "value" then ofJson j else ofValue rest

end

/-! ### Evaluation -/

/-- The nearest integer that fits 64 bits with sign. -/
def clamp (n : Int) : Int := max minInt64 (min n maxInt64)

/-- The value of an expression. -/
def eval (context : Context) (event : Event) (attached : Option Meta) : Expression → Json
  | nothing => .null
  | constant value => value
  | contextKey key => (context.get? key).getD .null
  | payloadKey key => (event.get? key).getD .null
  | metadataKey key => (attached.getD .null).field key
  | metadata => attached.getD .null
  | eventKind => .string event.kind
  | contextKeys => .array (context.keys.map .string)
  | increment key amount =>
    .int (clamp (((context.get? key).bind Json.int64?).getD 0 + amount))
  | append key item =>
    .array (((context.get? key).bind Json.array?).getD [] ++ [item.eval context event attached])

/-- Whether an expression is a constant, and which. -/
def constant? : Expression → Option Json
  | constant value => some value
  | _ => none

end Expression

namespace Condition

/-- The expression at a position of a list. -/
def operand (argument : Json) (i : Nat) : Expression :=
  Expression.ofJson (Json.nth argument.asItems i)

mutual

/-- The condition that a value describes. -/
def ofJson : Json → Condition
  | .bool b => if b then always else never
  | .object ⟨(key, argument) :: _⟩ =>
    match key with
    | "eq" => equal (operand argument 0) (operand argument 1)
    | "gt" => greater (operand argument 0) (operand argument 1)
    | "has" => hasKey argument.asText
    | "not" => negation (ofJson argument)
    | "and" =>
      match argument with
      | .array items => conjunction (ofItems items)
      | _ => conjunction []
    | "or" =>
      match argument with
      | .array items => disjunction (ofItems items)
      | _ => disjunction []
    | _ => never
  | _ => never

/-- The conditions that the items of a list describe. -/
def ofItems : List Json → List Condition
  | [] => []
  | item :: rest => ofJson item :: ofItems rest

end

mutual

/-- Whether a condition holds. -/
def holds (context : Context) (event : Event) (attached : Option Meta) : Condition → Bool
  | never => false
  | always => true
  | equal a b => a.eval context event attached == b.eval context event attached
  | greater a b =>
    match (a.eval context event attached).int64?, (b.eval context event attached).int64? with
    | some m, some n => decide (n < m)
    | _, _ => false
  | hasKey key => context.contains key
  | negation c => !c.holds context event attached
  | conjunction cs => holdsAll context event attached cs
  | disjunction cs => holdsAny context event attached cs

/-- Whether every condition of a list holds. -/
def holdsAll (context : Context) (event : Event) (attached : Option Meta) :
    List Condition → Bool
  | [] => true
  | c :: cs => c.holds context event attached && holdsAll context event attached cs

/-- Whether some condition of a list holds. -/
def holdsAny (context : Context) (event : Event) (attached : Option Meta) :
    List Condition → Bool
  | [] => false
  | c :: cs => c.holds context event attached || holdsAny context event attached cs

end

end Condition

/-! ### Keys with expressions -/

/-- Keys with an expression for each, as they are written. -/
abbrev Pairs : Type := List (String × Expression)

namespace Pairs

/-- The pairs that a list of two-item lists describes. -/
def ofJson (j : Json) : Pairs :=
  j.asItems.map fun pair =>
    ((Json.nth pair.asItems 0).asText, .ofJson (Json.nth pair.asItems 1))

/-- The context that has the value of each expression under its key. -/
def eval (pairs : Pairs) (context : Context) (event : Event) (attached : Option Meta) :
    Context :=
  .ofList (pairs.map fun p => (p.1, p.2.eval context event attached))

end Pairs

end Scenario

end Statechart
