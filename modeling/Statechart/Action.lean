import Statechart.Evaluation
import Statechart.StateValue

/-!
# Guards, assigns and actions

Guards decide whether a transition may be taken; assigns change the context; effects
are code of the embedding program, known here only by a label of type `κ`.
-/

namespace Statechart

/-- A predicate on context, event and metadata. -/
abbrev Guard : Type := Rule Bool

namespace Rule

/-- Evaluates a guard. -/
def check (g : Guard) (context : Context) (event : Event) (metadata : Option Meta) :
    Evaluated Bool :=
  let passed := g.run context event metadata
  .single passed (.guard g.name event metadata passed)

/-- A guard passes as its predicate says; the rest is the log. -/
@[simp]
theorem value_check (g : Guard) (context : Context) (event : Event)
    (metadata : Option Meta) :
  (check g context event metadata).value = g.run context event metadata
  := rfl

/-- Evaluates a delay, in milliseconds. -/
def millis (d : Rule Nat) (context : Context) (event : Event) (metadata : Option Meta) :
    Evaluated Nat :=
  let ms := d.run context event metadata
  .single ms (.delay d.name event metadata ms)

end Rule

/-! ### Assigns -/

/-- The new value of one context key: a constant, or computed from the context before
the assign. -/
inductive Property where
  | constant (value : Json)
  | computed (rule : Rule Json)

/-- A change of the context: a function of the whole context, or a list of keys with
their new values. -/
inductive Assign where
  | transform (rule : Rule Context)
  | properties (entries : List (String × Property))

namespace Property

/-- Evaluates the new value of `key` in a context. -/
def resolve (p : Property) (key : String) (context : Context) (event : Event)
    (metadata : Option Meta) : Evaluated Json :=
  match p with
  | constant value => pure value
  | computed rule =>
    .single (rule.run context event metadata) (.compute rule.name key event)

/-- The new value in a context. -/
def valueIn (p : Property) (context : Context) (event : Event) (metadata : Option Meta) :
    Json :=
  match p with
  | constant value => value
  | computed rule => rule.run context event metadata

/-- What a property evaluates to, without the log. -/
@[simp]
theorem value_resolve (p : Property) (key : String) (context : Context) (event : Event)
    (metadata : Option Meta) :
  (p.resolve key context event metadata).value = p.valueIn context event metadata
  := by
  cases p <;> rfl

end Property

namespace Assign

/-- Writes properties into `next` one after another; all of them read `context`. -/
def write (context : Context) (event : Event) (metadata : Option Meta) :
    List (String × Property) → Context → Evaluated Context
  | [], next => pure next
  | (key, p) :: rest, next => do
    let value ← p.resolve key context event metadata
    write context event metadata rest (next.insert key value)

/-- The context after an assign: what the assign gives is laid over what was there. -/
def apply (a : Assign) (context : Context) (event : Event) (metadata : Option Meta) :
    Evaluated Context :=
  match a with
  | transform rule =>
    .single (context.merge (rule.run context event metadata)) (.assign rule.name event)
  | properties entries => write context event metadata entries context

/-- The entries that an assign lays over the context. -/
def entriesIn (a : Assign) (context : Context) (event : Event)
    (metadata : Option Meta) : List (String × Json) :=
  match a with
  | transform rule => (rule.run context event metadata).entries
  | properties entries => entries.map fun e => (e.1, e.2.valueIn context event metadata)

/-- Properties are inserted in order, each computed from the context before the first of them.
-/
theorem value_write (context : Context) (event : Event) (metadata : Option Meta)
    (entries : List (String × Property)) (next : Context) :
  (write context event metadata entries next).value
    = next.insertAll (entries.map fun e => (e.1, e.2.valueIn context event metadata))
  := by
  induction entries generalizing next with
  | nil => rfl
  | cons e rest ih => simp [write, ih, OrderedMap.insertAll]

/-- An assign inserts its entries, in order. -/
theorem value_apply (a : Assign) (context : Context) (event : Event)
    (metadata : Option Meta) :
  (a.apply context event metadata).value
    = context.insertAll (a.entriesIn context event metadata)
  := by
  cases a with
  | transform rule => rfl
  | properties entries => exact value_write context event metadata entries context

end Assign

/-! ### Actions -/

/-- An action of a descriptor: a name to be looked up, an effect given in place, or an
assign. -/
inductive Action (κ : Type) where
  | named (name : String)
  | inline (name : String) (code : κ)
  | assign (change : Assign)

/-- An effect waiting to be executed, with the metadata of the state it belongs to. -/
structure PendingEffect (κ : Type) where
  name : String
  code : κ
  metadata : Option Meta

/-- The result of a transition.  `changed` says whether it was a change of state, or an
assign without a target; `assigned` says whether some assign ran, so that the context
is a new one. -/
structure Snapshot (κ : Type) where
  value : StateValue
  context : Context
  metadata : Option Meta
  actions : List (PendingEffect κ)
  changed : Bool
  assigned : Bool

namespace Snapshot

variable {κ : Type}

/-- A resting snapshot. -/
def resting (value : StateValue) (context : Context) (metadata : Option Meta) :
    Snapshot κ :=
  ⟨value, context, metadata, [], false, false⟩

/-- Whether a path is active. -/
def matchesPath (s : Snapshot κ) (path : String) : Bool := s.value.matchesPath path

/-- The names of the pending effects. -/
def actionNames (s : Snapshot κ) : List String := s.actions.map PendingEffect.name

end Snapshot

end Statechart
