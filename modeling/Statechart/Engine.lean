import Statechart.History
import Statechart.Machine.Resolve
import Statechart.Timing

/-!
# Running machines

An `Instance` is a running machine: its snapshot, the timers armed for its active
state, the children invoked by it, its listeners, and the mailbox in which work waits.
An `Engine` holds all instances together with the clock and the registries.  This
module has the operations that take effect at once and run no code of the embedding
program; those that do are in `Engine.Execution`.

Log lines and the names of sessions are left out: they have no part in what is done.
Changes are recorded at the time of the virtual clock.
-/

namespace Statechart

variable {κ : Type}

/-- Whether an instance was started and stopped.  `stopped` is for good. -/
inductive Status where
  | notStarted
  | running
  | stopped
deriving Repr, DecidableEq

/-- What a timer or task calls: code of the embedding program, or the delayed
transition `key` of a state of an instance.  The generation tells the arming. -/
inductive Callback (κ : Type) where
  | code (code : κ)
  | after (owner : Nat) (state key : String) (generation : Nat)

/-- A piece of work for an instance. -/
inductive Envelope where
  | start
  | event (event : Event)
  | after (state key : String) (generation : Nat)
  | childDone (id state : String)
  | invokeFailed (id state message : String)

/-- A timer armed for the active state, under the key of state and delay. -/
structure Armed where
  key : String
  timer : Nat
  generation : Nat
deriving Repr, DecidableEq

/-- The way from a child to the state that invoked it. -/
structure ParentLink where
  id : String
  state : String
  parent : Nat
deriving Repr, DecidableEq

/-- A running machine.  `services` are those of the machine over those of its parent;
`busy` says whether its mailbox is being emptied. -/
structure Instance (κ : Type) where
  machine : Machine κ
  services : Services κ
  pool : Nat
  parent : Option ParentLink
  snapshot : Snapshot κ
  status : Status
  timers : List Armed
  generation : Nat
  children : OrderedMap Nat
  history : History
  doneReported : Bool
  mailbox : List Envelope
  busy : Bool
  listeners : List (Nat × κ)
  nextListener : Nat

/-- Machines compiled once per identifier, and one instance for each of them. -/
structure Registry (κ : Type) where
  pool : Nat
  machines : OrderedMap (Machine κ)
  instances : OrderedMap Nat

/-- The instances with the clock and the registries. -/
structure Engine (κ : Type) where
  timing : Timing (Callback κ)
  instances : Table (Instance κ)
  registries : Table (Registry κ)

namespace Instance

/-- Whether the instance was started and not stopped. -/
def isRunning (x : Instance κ) : Bool := x.status = .running

/-- An instance of a machine, resting at its initial state. -/
def new (machine : Machine κ) (services : Services κ) (pool : Nat)
    (parent : Option ParentLink) : Instance κ where
  machine := machine
  services := services
  pool := pool
  parent := parent
  snapshot := machine.initial
  status := .notStarted
  timers := []
  generation := 0
  children := .empty
  history := .empty
  doneReported := false
  mailbox := []
  busy := false
  listeners := []
  nextListener := 0

/-- The timer armed under a key. -/
def armed? (x : Instance κ) (key : String) : Option Armed :=
  x.timers.find? fun a => a.key = key

/-- Whether a listener is registered. -/
def hasListener (x : Instance κ) (listener : Nat) : Bool :=
  x.listeners.any fun l => l.1 = listener

/-- The invocation `id` of a state, if that state is active. -/
def activeInvoke? (x : Instance κ) (id state : String) : Option (Invocation κ) :=
  if x.snapshot.value.leaf? = some state then
    match x.machine.flat? with
    | some chart => (chart.nodes.get? state).bind fun n => n.invoke? id
    | none => none
  else none

end Instance

/-- The key under which a delay of a state is armed. -/
def armedKey (state delay : String) : String := state ++ "_" ++ delay

namespace Engine

/-- An engine with a clock and nothing on it. -/
def empty : Engine κ := ⟨.empty, .empty, .empty⟩

instance : Inhabited (Engine κ) := ⟨empty⟩

/-- An instance. -/
def get? (r : Engine κ) (i : Nat) : Option (Instance κ) := r.instances.get? i

/-- Changes an instance. -/
def modify (r : Engine κ) (i : Nat) (f : Instance κ → Instance κ) : Engine κ :=
  { r with instances := r.instances.modify i f }

/-- Changes the timers. -/
def withTiming (r : Engine κ) (f : Timing (Callback κ) → Timing (Callback κ)) :
    Engine κ :=
  { r with timing := f r.timing }

/-- Whether an instance runs. -/
def isRunning (r : Engine κ) (i : Nat) : Bool :=
  match r.get? i with
  | some x => x.isRunning
  | none => false

/-- Makes a timer pool, under the number `r.timing.pools.next`. -/
def addPool (r : Engine κ) : Engine κ :=
  r.withTiming fun t => { t with pools := t.pools.add .empty }

/-- Makes an instance of a machine, under the number `r.instances.next`. -/
def create (r : Engine κ) (machine : Machine κ) (pool : Nat) : Engine κ :=
  { r with instances := r.instances.add (.new machine machine.services pool none) }

/-- The child of an instance with an invoke identifier. -/
def child? (r : Engine κ) (i : Nat) (id : String) : Option Nat :=
  (r.get? i).bind fun x => x.children.get? id

/-! ### Listeners -/

/-- Registers a listener, unless the instance is stopped.  It gets the next number
either way. -/
def addListener (r : Engine κ) (i : Nat) (listener : κ) : Engine κ :=
  r.modify i fun x =>
    { x with
      nextListener := x.nextListener + 1
      listeners :=
        if x.status = .stopped then x.listeners
        else x.listeners ++ [(x.nextListener, listener)] }

/-- Whether a listener is registered with an instance that is there. -/
def hasListener (r : Engine κ) (i listener : Nat) : Bool :=
  match r.get? i with
  | some x => x.hasListener listener
  | none => false

/-- Removes a listener. -/
def removeListener (r : Engine κ) (i listener : Nat) : Engine κ :=
  r.modify i fun x => { x with listeners := x.listeners.filter fun l => l.1 ≠ listener }

/-! ### Stopping -/

/-- Stops an instance and what it invoked, down to `depth` generations: its timers are
destroyed, and its listeners and its mailbox are dropped. -/
def stopWithin : Nat → Engine κ → Nat → Engine κ
  | 0, r, _ => r
  | depth + 1, r, i =>
    match r.get? i with
    | none => r
    | some x =>
      if x.status = .stopped then r
      else
        let halted := r.modify i fun x =>
          { x with
            status := .stopped, generation := x.generation + 1
            timers := [], children := .empty }
        let silent := halted.withTiming fun t => t.destroyEach (x.timers.map Armed.timer)
        let alone := x.children.values.foldl (stopWithin depth) silent
        alone.modify i fun x => { x with listeners := [], mailbox := [] }

/-- Stops an instance and, recursively, its children. -/
def stop (r : Engine κ) (i : Nat) : Engine κ := stopWithin r.instances.next r i

/-- Stops and forgets the children of an instance. -/
def stopChildren (r : Engine κ) (i : Nat) : Engine κ :=
  match r.get? i with
  | none => r
  | some x => x.children.values.foldl stop (r.modify i fun x => { x with children := .empty })

/-! ### Children -/

/-- Makes a child of an instance for the invocation `id` of a state, under the number
`r.instances.next`, and stores it with its parent. -/
def spawn (r : Engine κ) (i : Nat) (machine : Machine κ) (id state : String) : Engine κ :=
  match r.get? i with
  | none => r
  | some x =>
    let services := machine.services.withFallback x.services
    let link : ParentLink := ⟨id, state, i⟩
    let number := r.instances.next
    let grown := { r with instances := r.instances.add (.new machine services x.pool (some link)) }
    grown.modify i fun x => { x with children := x.children.insert id number }

/-! ### Timers of the active state -/

/-- The state of an arming: the clock, the timers of the last arming that are left
over, and those armed so far. -/
structure Arming (κ : Type) where
  timing : Timing (Callback κ)
  previous : List Armed
  armed : List Armed

/-- What an arming is for: the instance, its pool and context, the state with its
metadata, and the generation. -/
structure ArmingOf where
  owner : Nat
  pool : Nat
  context : Context
  state : String
  metadata : Option Meta
  generation : Nat

/-- Arms one delay.  A paused timer under its key is kept as it is; any other is
destroyed, and a new timer is made and started. -/
def armOne (o : ArmingOf) (a : Arming κ) (d : Delayed κ) : Evaluated (Arming κ) :=
  let key := armedKey o.state d.key
  let old := a.previous.find? fun p => p.key = key
  let previous := a.previous.filter fun p => p.key ≠ key
  let fresh (timing : Timing (Callback κ)) : Evaluated (Arming κ) := do
    let ms ← d.delay.resolve o.context (.after d.key) o.metadata
    let id := timing.timers.next
    let made := timing.newTimer o.pool ms (some (.after o.owner o.state d.key o.generation))
    return ⟨(made.start id).2, previous, a.armed ++ [⟨key, id, o.generation⟩]⟩
  match old with
  | some p =>
    if a.timing.status? p.timer = some .paused then
      pure { a with previous := previous, armed := a.armed ++ [p] }
    else fresh (a.timing.destroy p.timer)
  | none => fresh a.timing

/-- Arms delays one after another. -/
def armEach (o : ArmingOf) : List (Delayed κ) → Arming κ → Evaluated (Arming κ)
  | [], a => pure a
  | d :: rest, a => do
    let next ← armOne o a d
    armEach o rest next

/-- The delays of the active state of an instance, with the state and its metadata. -/
def activeDelays (x : Instance κ) :
    Except MachineError (Option (String × Option Meta) × List (Delayed κ)) :=
  match x.machine.flat?, x.snapshot.value.leaf? with
  | some chart, some state =>
    match chart.node state with
    | .error e => .error e
    | .ok n => .ok (some (state, n.metadata), n.after)
  | _, _ => .ok (none, [])

/-- Arms the timers of the active state of an instance and destroys all others. -/
def armTimers (r : Engine κ) (i : Nat) : Evaluated (Except MachineError (Engine κ)) :=
  match r.get? i with
  | none => pure (.ok r)
  | some x =>
    let generation := x.generation + 1
    match activeDelays x with
    | .error e =>
      pure (.error e)
    | .ok (active, delays) => do
      let o : ArmingOf :=
        { owner := i
          pool := x.pool
          context := x.snapshot.context
          state := (active.map Prod.fst).getD ""
          metadata := active.bind Prod.snd
          generation := generation }
      let a ← armEach o delays ⟨r.timing, x.timers, []⟩
      let timing := a.timing.destroyEach (a.previous.map Armed.timer)
      return .ok ({ r with timing := timing }.modify i fun x =>
        { x with timers := a.armed, generation := generation })

/-! ### Release -/

/-- The instances that the registries hold. -/
def registered (r : Engine κ) : List Nat :=
  r.registries.ids.flatMap fun id =>
    match r.registries.get? id with
    | some reg => reg.instances.values
    | none => []

/-- The children of instances. -/
def childrenOf (r : Engine κ) (ids : List Nat) : List Nat :=
  ids.flatMap fun i =>
    match r.get? i with
    | some x => x.children.values
    | none => []

/-- Everything reached from `ids` through `depth` generations of children. -/
def reach (r : Engine κ) : Nat → List Nat → List Nat
  | 0, ids => ids
  | depth + 1, ids =>
    let next := (r.childrenOf ids).filter fun i => !ids.contains i
    if next.isEmpty then ids else reach r depth (ids ++ next.eraseDups)

/-- Lets go of an instance: its timers are destroyed. -/
def letGo (r : Engine κ) (i : Nat) : Engine κ :=
  match r.get? i with
  | none => r
  | some x =>
    { r with
      timing := r.timing.destroyEach (x.timers.map Armed.timer)
      instances := r.instances.erase i }

/-- Lets go of every instance that is reached neither from `held` nor from a
registry. -/
def release (r : Engine κ) (held : List Nat) : Engine κ :=
  let reached := r.reach r.instances.next (held ++ r.registered).eraseDups
  (r.instances.ids.filter fun i => !reached.contains i).foldl letGo r

/-! ### Registries -/

/-- Makes a registry on a pool, under the number `r.registries.next`. -/
def addRegistry (r : Engine κ) (pool : Nat) : Engine κ :=
  { r with registries := r.registries.add ⟨pool, .empty, .empty⟩ }

/-- Changes a registry. -/
def modifyRegistry (r : Engine κ) (registry : Nat) (f : Registry κ → Registry κ) :
    Engine κ :=
  { r with registries := r.registries.modify registry f }

/-- The machine registered under the identifier of a descriptor; the first time it is
compiled. -/
def register (r : Engine κ) (registry : Nat) (d : MachineDescriptor κ) (b : Bundle κ) :
    Evaluated (Except BuildError (Machine κ) × Engine κ) :=
  match d.id with
  | none => pure (.error .missingMachineId, r)
  | some id =>
    match (r.registries.get? registry).bind fun reg => reg.machines.get? id with
    | some machine => pure (.ok machine, r)
    | none => do
      match ← Machine.compile d b with
      | .error e => return (.error e, r)
      | .ok machine =>
        return (.ok machine, r.modifyRegistry registry fun reg =>
          { reg with machines := reg.machines.insert id machine })

/-- The instance registered under the identifier of a machine; the first time it is
made. -/
def interpret (r : Engine κ) (registry : Nat) (machine : Machine κ) :
    Except BuildError Nat × Engine κ :=
  match machine.id, r.registries.get? registry with
  | none, _ => (.error .missingMachineId, r)
  | _, none => (.error .missingMachineId, r)
  | some id, some reg =>
    match reg.instances.get? id with
    | some i => (.ok i, r)
    | none =>
      let i := r.instances.next
      (.ok i, (r.create machine reg.pool).modifyRegistry registry fun reg =>
        { reg with instances := reg.instances.insert id i })

/-- Forgets one identifier, or all. -/
def clear (r : Engine κ) (registry : Nat) (id : Option String) : Engine κ :=
  r.modifyRegistry registry fun reg =>
    match id with
    | some id =>
      { reg with machines := reg.machines.erase id, instances := reg.instances.erase id }
    | none => { reg with machines := .empty, instances := .empty }

end Engine

end Statechart
