import Statechart.Action

/-!
# Machine descriptors

The description of a machine before its names are looked up: states with transitions
on events and after delays, entry and exit actions, and the children invoked while a
state is active.  Code given in place is a label of type `κ`.
-/

namespace Statechart

/-- The kind of a machine or state. -/
inductive Kind where
  | atomic
  | parallel
  | final
deriving Repr, DecidableEq

/-- One item or a list of items, as it was written. -/
inductive ItemOrList (α : Type) where
  | item (value : α)
  | list (values : List α)

namespace ItemOrList

variable {α : Type}

/-- No items. -/
def empty : ItemOrList α := .list []

/-- The items. -/
def toList : ItemOrList α → List α
  | item value => [value]
  | list values => values

/-- Appends an item; the result is a list. -/
def push (xs : ItemOrList α) (value : α) : ItemOrList α := .list (xs.toList ++ [value])

/-- An item is pushed behind those that are there, however they were written. -/
@[simp]
theorem toList_push (xs : ItemOrList α) (value : α) :
  (xs.push value).toList = xs.toList ++ [value]
  := rfl

end ItemOrList

/-- A guard given by name or in place. -/
inductive GuardRef where
  | named (name : String)
  | inline (guard : Guard)

/-- A candidate transition; without target it stays in its state. -/
structure TransitionDescriptor (κ : Type) where
  target : Option String
  actions : List (Action κ)
  guard : Option GuardRef

/-- What is done about a child that completed or failed: an event is processed, or a
transition is taken. -/
inductive Reaction (τ : Type) where
  | event (kind : String)
  | transition (transition : τ)

/-- Where a child machine comes from: a service known by name, or code given in
place. -/
inductive ChildSource (κ : Type) where
  | service (name : String)
  | factory (code : κ)

/-- The context that is handed to a service: given, or derived from the context of the
invoking machine. -/
inductive ChildData where
  | literal (context : Context)
  | derived (rule : Context → Event → Context)

/-- A child that runs while a state is active. -/
structure InvokeDescriptor (κ : Type) where
  id : String
  source : ChildSource κ
  data : Option ChildData
  onDone : Option (Reaction (TransitionDescriptor κ))
  onError : Option (Reaction (TransitionDescriptor κ))

/-- A state, or a region when it stands directly in a parallel machine. -/
structure StateDescriptor (κ : Type) where
  kind : Kind
  on : OrderedMap (List (TransitionDescriptor κ))
  entry : List (Action κ)
  exit : List (Action κ)
  after : OrderedMap (List (TransitionDescriptor κ))
  invoke : List (InvokeDescriptor κ)
  metadata : Option Meta
  initial : Option String
  states : OrderedMap (StateDescriptor κ)

/-- A machine: its states, or its regions if it is parallel. -/
structure MachineDescriptor (κ : Type) where
  id : Option String
  initial : Option String
  kind : Kind
  context : Context
  metadata : Option Meta
  states : OrderedMap (StateDescriptor κ)

variable {κ : Type}

namespace TransitionDescriptor

/-- The transition without target, actions and guard. -/
def targetless : TransitionDescriptor κ := ⟨none, [], none⟩

instance : Inhabited (TransitionDescriptor κ) := ⟨targetless⟩

/-- The unconditional transition to a state. -/
def ofTarget (target : String) : TransitionDescriptor κ := ⟨some target, [], none⟩

end TransitionDescriptor

namespace InvokeDescriptor

/-- The invocation of a service. -/
def ofService (id name : String) : InvokeDescriptor κ := ⟨id, .service name, none, none, none⟩

/-- The invocation of code given in place. -/
def ofFactory (id : String) (code : κ) : InvokeDescriptor κ :=
  ⟨id, .factory code, none, none, none⟩

end InvokeDescriptor

namespace ChildData

/-- The context handed to a service, and the evaluation that gave it. -/
def resolve (d : ChildData) (context : Context) (event : Event) : Evaluated Context :=
  match d with
  | literal data => pure data
  | derived rule => .single (rule context event) (.derive event)

end ChildData

namespace StateDescriptor

/-- The atomic state without transitions. -/
def empty : StateDescriptor κ :=
  ⟨.atomic, .empty, [], [], .empty, [], none, none, .empty⟩

instance : Inhabited (StateDescriptor κ) := ⟨empty⟩

end StateDescriptor

namespace MachineDescriptor

/-- The machine without states. -/
def empty : MachineDescriptor κ := ⟨none, none, .atomic, .empty, none, .empty⟩

instance : Inhabited (MachineDescriptor κ) := ⟨empty⟩

/-- Whether the states of the machine are regions. -/
def isParallel (d : MachineDescriptor κ) : Bool := d.kind = .parallel

/-- Lays a context over the default one. -/
def withContext (d : MachineDescriptor κ) (context : Context) : MachineDescriptor κ :=
  { d with context := d.context.merge context }

end MachineDescriptor

end Statechart
