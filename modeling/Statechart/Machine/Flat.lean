import Statechart.Machine.Step

/-!
# Transitions of one chart

From a state, a context and an event to the next snapshot.  Nothing is executed: the
effects are collected in the snapshot.
-/

namespace Statechart

variable {κ : Type}

/-- The actions of a transition, and the state it enters if it has a target. -/
structure Plan (κ : Type) where
  steps : List (Step κ)
  target : Option (Node κ)

namespace Chart

/-- The plan of a transition from `source`: its exit actions, the actions of the
transition and the entry actions of the target; without target, the actions of the
transition alone.  Entry actions carry the metadata of the target, the others that of
the source. -/
def plan (c : Chart κ) (source : Node κ) (t : Candidate κ) :
    Except MachineError (Plan κ) :=
  match t.target with
  | none => .ok ⟨Step.all t.actions source.metadata, none⟩
  | some key =>
    match c.node key with
    | .error e => .error e
    | .ok target =>
      .ok ⟨Step.all source.exit source.metadata ++ Step.all t.actions source.metadata
        ++ Step.all target.entry target.metadata, some target⟩

/-- The state that a plan from `source` leads to. -/
def landing (source : Node κ) (p : Plan κ) : Node κ := p.target.getD source

/-- The snapshot after a plan from `source`: a change of state if there is a target,
and otherwise a change exactly if an assign ran. -/
def finish (source : Node κ) (p : Plan κ) (o : Outcome κ) : Snapshot κ where
  value := .leaf (landing source p).key
  context := o.context
  metadata := (landing source p).metadata
  actions := o.actions
  changed := p.target.isSome || o.assigned
  assigned := o.assigned

/-- Takes a transition that has been chosen. -/
def take (c : Chart κ) (source : Node κ) (t : Candidate κ) (context : Context)
    (event : Event) : Evaluated (Except MachineError (Snapshot κ)) :=
  match c.plan source t with
  | .error e => pure (.error e)
  | .ok p => do
    let o ← Step.run event p.steps context
    return .ok (finish source p o)

/-- The candidates of an event in a state. -/
def candidates (source : Node κ) (event : Event) : List (Candidate κ) :=
  (source.on.get? event.kind).getD []

/-- Takes the first candidate whose guard passes, if there is one. -/
def takeFirst (c : Chart κ) (source : Node κ) (ts : List (Candidate κ)) (context : Context)
    (event : Event) : Evaluated (Option (Except MachineError (Snapshot κ))) := do
  match ← Candidate.select context event source.metadata ts with
  | none => return none
  | some t =>
    let result ← c.take source t context event
    return some result

/-- The snapshot after an event in a state.  Without a transition nothing changes. -/
def resolve (c : Chart κ) (state : String) (context : Context) (event : Event) :
    Evaluated (Except MachineError (Snapshot κ)) :=
  match c.node state with
  | .error e => pure (.error e)
  | .ok source => do
    match ← c.takeFirst source (candidates source event) context event with
    | some result => return result
    | none => return .ok (.resting (.leaf state) context source.metadata)

end Chart

end Statechart
