import Statechart.Machine.Compile

/-!
# Resolving events on a machine

The pure interface of a machine: where an event, a delay or a reaction leads, which
values are final, and resting snapshots at given values.
-/

namespace Statechart

variable {κ : Type}

namespace Machine

/-- The state key of the value of a flat machine. -/
def leaf (m : Machine κ) (value : StateValue) : Except MachineError String :=
  match value with
  | .leaf key => .ok key
  | .regions _ => .error (.unexpectedValue m.name value)

/-- The snapshot after an event at a value with a context. -/
def transition (m : Machine κ) (value : StateValue) (context : Context) (event : Event) :
    Evaluated (Except MachineError (Snapshot κ)) :=
  match m.topology with
  | .flat chart =>
    match m.leaf value with
    | .error e => pure (.error e)
    | .ok key => chart.resolve key context event
  | .parallel regions => Regions.resolve m.name regions m.metadata value context event

/-- The snapshot after an event at a snapshot. -/
def next (m : Machine κ) (s : Snapshot κ) (event : Event) :
    Evaluated (Except MachineError (Snapshot κ)) :=
  m.transition s.value s.context event

/-- The snapshot after an event at a state with the default context. -/
def transitionFrom (m : Machine κ) (state : String) (event : Event) :
    Evaluated (Except MachineError (Snapshot κ)) :=
  m.transition (.leaf state) m.context event

/-- The metadata that belongs to a value, if the value fits the machine. -/
def metadataAt (m : Machine κ) (value : StateValue) :
    Except MachineError (Option Meta) :=
  match m.topology with
  | .flat chart =>
    match m.leaf value with
    | .error e => .error e
    | .ok key =>
      match chart.node key with
      | .error e => .error e
      | .ok n => .ok n.metadata
  | .parallel regions =>
    match Regions.active m.name regions value with
    | .error e => .error e
    | .ok keys =>
      match Regions.checkStates keys with
      | .error e => .error e
      | .ok () => .ok m.metadata

/-- A resting snapshot at a value that fits the machine. -/
def snapshotAt (m : Machine κ) (value : StateValue) (context : Context) :
    Except MachineError (Snapshot κ) :=
  match m.metadataAt value with
  | .error e => .error e
  | .ok metadata => .ok (.resting value context metadata)

/-- Whether a value is complete: a final state, or one in every region. -/
def isFinal (m : Machine κ) (value : StateValue) : Bool :=
  match m.topology with
  | .flat chart =>
    match value with
    | .leaf key => chart.isFinalAt key
    | .regions _ => false
  | .parallel regions =>
    match Regions.active m.name regions value with
    | .ok keys => keys.all fun k => k.1.isFinalAt k.2
    | .error _ => false

/-- The snapshot after the delay `key` of a state, if one of its candidates may be
taken. -/
def fireAfter (m : Machine κ) (state key : String) (context : Context) (event : Event) :
    Evaluated (Except MachineError (Option (Snapshot κ))) :=
  match m.topology with
  | .parallel _ => pure (.ok none)
  | .flat chart =>
    match chart.node state with
    | .error e => pure (.error e)
    | .ok source =>
      match source.after? key with
      | none => pure (.ok none)
      | some d => do
        match ← chart.takeFirst source d.candidates context event with
        | none => return .ok none
        | some (.error e) => return .error e
        | some (.ok s) => return .ok (some s)

/-- The snapshot after a reaction of a state, if it may be taken. -/
def react (m : Machine κ) (state : String) (t : Candidate κ) (context : Context)
    (event : Event) : Evaluated (Except MachineError (Option (Snapshot κ))) :=
  match m.topology with
  | .parallel _ => pure (.ok none)
  | .flat chart =>
    match chart.node state with
    | .error e => pure (.error e)
    | .ok source => do
      if ← t.allows context event source.metadata then
        match ← chart.take source t context event with
        | .error e => return .error e
        | .ok s => return .ok (some s)
      else return .ok none

end Machine

/-- A delay in milliseconds. -/
def Delay.resolve (d : Delay) (context : Context) (event : Event) (metadata : Option Meta) :
    Evaluated Nat :=
  match d with
  | .fixed ms => pure ms
  | .ruled rule => rule.millis context event metadata

end Statechart
