import Statechart.Machine.Flat

/-!
# Transitions of several regions

Every region chooses a transition by itself, in the context before the event.  The
actions of all of them are carried out in the order of the regions, on one context.
-/

namespace Statechart

variable {κ : Type}

namespace Regions

/-- The active state of each region, in order. -/
def activeKeys (machine : String) (parts : OrderedMap StateValue) :
    List (Chart κ) → Except MachineError (List (Chart κ × String))
  | [] => .ok []
  | r :: rest =>
    match (parts.get? r.regionKey).bind StateValue.leaf? with
    | none => .error (.missingRegion machine r.regionKey)
    | some key =>
      match activeKeys machine parts rest with
      | .error e => .error e
      | .ok keys => .ok ((r, key) :: keys)

/-- The active state of each region of a value, which must have one for every region
and no others. -/
def active (machine : String) (regions : List (Chart κ)) (value : StateValue) :
    Except MachineError (List (Chart κ × String)) :=
  match value with
  | .leaf _ => .error (.unexpectedValue machine value)
  | .regions parts =>
    if parts.size = regions.length then activeKeys machine parts regions
    else .error (.unexpectedValue machine value)

/-- What a region does on an event: the state it is in, and its plan if it has a
transition. -/
structure Move (κ : Type) where
  region : String
  source : Node κ
  plan : Option (Plan κ)

namespace Move

/-- The state that the region is in afterwards. -/
def target (m : Move κ) : Node κ := ((m.plan.bind Plan.target).getD m.source)

/-- The actions of the region. -/
def steps (m : Move κ) : List (Step κ) :=
  match m.plan with
  | some p => p.steps
  | none => []

/-- Whether the region goes to another state. -/
def leaves (m : Move κ) : Bool := m.target.key ≠ m.source.key

end Move

/-- What one region does on an event. -/
def move (r : Chart κ) (key : String) (context : Context) (event : Event) :
    Evaluated (Except MachineError (Move κ)) :=
  match r.node key with
  | .error e => pure (.error e)
  | .ok source => do
    match ← Candidate.select context event source.metadata (Chart.candidates source event)
    with
    | none => return .ok ⟨r.regionKey, source, none⟩
    | some t =>
      match r.plan source t with
      | .error e => return .error e
      | .ok p => return .ok ⟨r.regionKey, source, some p⟩

/-- What the regions do on an event, in order, up to the first error. -/
def moves (context : Context) (event : Event) :
    List (Chart κ × String) → Evaluated (Except MachineError (List (Move κ)))
  | [] => pure (.ok [])
  | (r, key) :: rest => do
    match ← move r key context event with
    | .error e => return .error e
    | .ok m =>
      match ← moves context event rest with
      | .error e => return .error e
      | .ok ms => return .ok (m :: ms)

/-- The value after the moves of all regions. -/
def nextValue (ms : List (Move κ)) : StateValue :=
  .ofParts (ms.map fun m => (m.region, .leaf m.target.key))

/-- The snapshot after an event.  If no region has a transition nothing changes. -/
def resolve (machine : String) (regions : List (Chart κ)) (metadata : Option Meta)
    (value : StateValue) (context : Context) (event : Event) :
    Evaluated (Except MachineError (Snapshot κ)) :=
  match active machine regions value with
  | .error e => pure (.error e)
  | .ok keys => do
    match ← moves context event keys with
    | .error e => return .error e
    | .ok ms =>
      if ms.all fun m => m.plan.isNone then return .ok (.resting value context metadata)
      else
        let o ← Step.run event (ms.flatMap Move.steps) context
        return .ok
          { value := nextValue ms
            context := o.context
            metadata := metadata
            actions := o.actions
            changed := ms.any Move.leaves
            assigned := o.assigned }

/-- The initial state of every region, in order. -/
def initialNodes : List (Chart κ) → Except MachineError (List (String × Node κ))
  | [] => .ok []
  | r :: rest =>
    match r.node r.initial with
    | .error e => .error e
    | .ok n =>
      match initialNodes rest with
      | .error e => .error e
      | .ok ns => .ok ((r.regionKey, n) :: ns)

/-- Every region has the state it is said to be in. -/
def checkStates : List (Chart κ × String) → Except MachineError Unit
  | [] => .ok ()
  | (r, key) :: rest =>
    match r.node key with
    | .error e => .error e
    | .ok _ => checkStates rest

end Regions

end Statechart
