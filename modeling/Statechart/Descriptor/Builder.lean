import Statechart.Descriptor

/-!
# Descriptors built step by step

Operations that extend descriptors one declaration at a time.  Transitions for the
same event, and for the same delay, are appended to its candidates.
-/

namespace Statechart

variable {κ : Type}

/-- Appends a candidate to the list at a key. -/
def OrderedMap.append {α : Type} (m : OrderedMap (List α)) (key : String) (value : α) :
    OrderedMap (List α) :=
  m.insert key ((m.get? key).getD [] ++ [value])

/-! ### Transitions -/

namespace TransitionDescriptor

/-- Sets the target. -/
def toward (t : TransitionDescriptor κ) (target : String) : TransitionDescriptor κ :=
  { t with target := some target }

/-- Appends an action. -/
def act (t : TransitionDescriptor κ) (action : Action κ) : TransitionDescriptor κ :=
  { t with actions := t.actions ++ [action] }

/-- Sets the guard. -/
def guarded (t : TransitionDescriptor κ) (guard : GuardRef) : TransitionDescriptor κ :=
  { t with guard := some guard }

end TransitionDescriptor

/-! ### Invocations -/

namespace InvokeDescriptor

/-- Sets the data handed to the service. -/
def withData (i : InvokeDescriptor κ) (data : ChildData) : InvokeDescriptor κ :=
  { i with data := some data }

/-- Sets the reaction to completion. -/
def whenDone (i : InvokeDescriptor κ) (r : Reaction (TransitionDescriptor κ)) :
    InvokeDescriptor κ :=
  { i with onDone := some r }

/-- Sets the reaction to failure. -/
def whenFailed (i : InvokeDescriptor κ) (r : Reaction (TransitionDescriptor κ)) :
    InvokeDescriptor κ :=
  { i with onError := some r }

end InvokeDescriptor

/-! ### States -/

namespace StateDescriptor

/-- The final state. -/
def finalState : StateDescriptor κ := { empty with kind := .final }

/-- Appends a transition on an event. -/
def onEvent (n : StateDescriptor κ) (event : String) (t : TransitionDescriptor κ) :
    StateDescriptor κ :=
  { n with on := n.on.append event t }

/-- Appends an entry action. -/
def onEntry (n : StateDescriptor κ) (action : Action κ) : StateDescriptor κ :=
  { n with entry := n.entry ++ [action] }

/-- Appends an exit action. -/
def onExit (n : StateDescriptor κ) (action : Action κ) : StateDescriptor κ :=
  { n with exit := n.exit ++ [action] }

/-- Appends a transition after a delay: a number of milliseconds or a name. -/
def afterDelay (n : StateDescriptor κ) (delay : String) (t : TransitionDescriptor κ) :
    StateDescriptor κ :=
  { n with after := n.after.append delay t }

/-- Appends a transition after a number of milliseconds. -/
def afterMillis (n : StateDescriptor κ) (ms : Nat) (t : TransitionDescriptor κ) :
    StateDescriptor κ :=
  n.afterDelay (toString ms) t

/-- Appends an invocation. -/
def invoking (n : StateDescriptor κ) (i : InvokeDescriptor κ) : StateDescriptor κ :=
  { n with invoke := n.invoke ++ [i] }

/-- Sets the metadata. -/
def withMetadata (n : StateDescriptor κ) (metadata : Meta) : StateDescriptor κ :=
  { n with metadata := some metadata }

/-- Sets the initial state of a region. -/
def startingAt (n : StateDescriptor κ) (state : String) : StateDescriptor κ :=
  { n with initial := some state }

/-- Declares a state of a region. -/
def state (n : StateDescriptor κ) (key : String) (inner : StateDescriptor κ) :
    StateDescriptor κ :=
  { n with states := n.states.insert key inner }

end StateDescriptor

/-! ### Machines -/

namespace MachineDescriptor

/-- The machine with an identifier and nothing else. -/
def named (id : String) : MachineDescriptor κ := { empty with id := some id }

/-- Sets the initial state. -/
def startingAt (m : MachineDescriptor κ) (state : String) : MachineDescriptor κ :=
  { m with initial := some state }

/-- Makes the machine parallel. -/
def parallel (m : MachineDescriptor κ) : MachineDescriptor κ :=
  { m with kind := .parallel }

/-- Replaces the default context. -/
def inContext (m : MachineDescriptor κ) (context : Context) : MachineDescriptor κ :=
  { m with context := context }

/-- Sets a key of the default context. -/
def set (m : MachineDescriptor κ) (key : String) (value : Json) : MachineDescriptor κ :=
  { m with context := m.context.insert key value }

/-- Sets the metadata. -/
def withMetadata (m : MachineDescriptor κ) (metadata : Meta) : MachineDescriptor κ :=
  { m with metadata := some metadata }

/-- Declares a state or region. -/
def state (m : MachineDescriptor κ) (key : String) (inner : StateDescriptor κ) :
    MachineDescriptor κ :=
  { m with states := m.states.insert key inner }

end MachineDescriptor

end Statechart
