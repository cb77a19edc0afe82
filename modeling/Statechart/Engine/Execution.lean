import Statechart.Engine

/-!
# Execution

An engine calls code of the embedding program, the *host*: effects, listeners, timer
callbacks and tasks.  That code may call the engine in turn, at any time.  A
`Configuration` therefore holds, beside the engine and the memory of the host, a stack
of activities that are under way, innermost first, and `Configuration.step?` performs
one small step of the innermost one.  A run is a sequence of such steps; it is over
when the stack is empty.

Work for an instance waits in its mailbox while another piece of work for it is under
way, so that pieces of work for one instance never overlap.
-/

namespace Statechart

/-! ### The host -/

/-- What the host may ask of an engine.  To yield is to ask for nothing. -/
inductive Call (κ : Type) where
  | yield
  | create (machine : Machine κ) (pool : Nat)
  | start (owner : Nat)
  | startAt (owner : Nat) (value : StateValue)
  | startWith (owner : Nat) (value : StateValue) (context : Context)
  | send (owner : Nat) (event : Event)
  | stop (owner : Nat)
  | subscribe (owner : Nat) (listener : κ)
  | unsubscribe (owner listener : Nat)
  | advance (millis : Nat)
  | schedule (millis : Nat) (task : κ)
  | cancel (task : Nat)
  | newTimer (pool millis : Nat) (callback : Option κ)
  | startTimer (timer : Nat)
  | pauseTimer (timer : Nat)
  | restartTimer (timer : Nat)
  | destroyTimer (timer : Nat)
  | completion (timer : Nat)
  | receive (channel : Nat)
  | pauseAll (pool : Nat)
  | startAll (pool : Nat)
  | standby (pool : Nat)
  | wake (pool : Nat)
  | destroyAll (pool : Nat)
  | register (registry : Nat) (descriptor : MachineDescriptor κ) (bundle : Bundle κ)
  | interpret (registry : Nat) (machine : Machine κ)
  | clear (registry : Nat) (id : Option String)

/-- What an engine answers. -/
inductive Reply (κ : Type) where
  | done
  | flag (value : Bool)
  | number (value : Nat)
  | subscribed (listener : Nat) (active : Bool)
  | outcome (result : Except MachineError Unit)
  | channel (result : Except TimerError Nat)
  | receipt (receipt : Receipt)
  | machine (result : Except BuildError (Machine κ))
  | owner (result : Except BuildError Nat)

/-- The next thing that code of the host does: it ends, or it makes a call and goes on
from a point `π` with the reply. -/
inductive Next (κ π : Type) where
  | done
  | call (call : Call κ) (point : π)

/-- The code of the embedding program behind labels `κ`, with points of control `π` and
a memory `σ`.  It may look at the engine; it changes it by calls alone. -/
structure Host (κ π σ : Type) where
  /-- Executes an effect. -/
  execute : κ → Context → Event → Option Meta → Engine κ → σ → Next κ π × σ
  /-- Tells a listener about a snapshot. -/
  notify : κ → Snapshot κ → Engine κ → σ → Next κ π × σ
  /-- Calls a timer callback or a task. -/
  invoke : κ → Engine κ → σ → Next κ π × σ
  /-- Goes on with the reply to a call. -/
  resume : π → Reply κ → Engine κ → σ → Next κ π × σ
  /-- Makes a child machine from a context and the event. -/
  build : κ → Context → Event → σ → Except InvokeError (Machine κ) × σ
  /-- Takes note of evaluations that the engine made. -/
  observe : List Evaluation → σ → σ
  /-- The instances that the host holds on to. -/
  held : σ → List Nat

/-! ### Configurations -/

/-- What is left to do of a piece of work for an instance. -/
inductive Phase (κ : Type) where
  | perform (actions : List (PendingEffect κ)) (context : Context) (event : Event)
  | stopChildren
  | startChildren
  | invoke (state : String) (context : Context) (rest : List (Invocation κ))
  | publish (snapshot : Snapshot κ)
  | notify (snapshot : Snapshot κ) (rest : List (Nat × κ))
  | rearm
  | report (value : StateValue)

/-- An activity that is under way: code of the host waiting for a reply; the clock on
its way to a time; a timer that has fired, whose completion is to be announced after
its callback; an instance emptying its mailbox, with what is left of the current piece
of work and the first error so far; an instance telling a new listener about its
snapshot. -/
inductive Frame (κ π : Type) where
  | waiting (point : π)
  | advancing (target : Nat)
  | fired (channel : Option Nat)
  | working (owner : Nat) (outcome : Except MachineError Unit) (phases : List (Phase κ))
  | replaying (owner listener : Nat)

/-- Where control is: code of the host has chosen what to do next, or the innermost
activity goes on, with the reply of one that has just ended. -/
inductive Control (κ π : Type) where
  | host (next : Next κ π)
  | back (reply : Reply κ)

/-- An engine in execution. -/
structure Configuration (κ π σ : Type) where
  engine : Engine κ
  memory : σ
  stack : List (Frame κ π)
  control : Control κ π

variable {κ π σ : Type}

/-- The instance that an activity keeps alive. -/
def Frame.owner? : Frame κ π → Option Nat
  | working owner _ _ => some owner
  | replaying owner _ => some owner
  | _ => none

namespace Configuration

/-- An engine in which nothing is under way. -/
def idle (engine : Engine κ) (memory : σ) : Configuration κ π σ :=
  ⟨engine, memory, [], .back .done⟩

/-- Lets go of the instances that neither the host, nor a registry, nor an activity
holds. -/
def settle (H : Host κ π σ) (c : Configuration κ π σ) : Configuration κ π σ :=
  { c with engine := c.engine.release (H.held c.memory ++ c.stack.filterMap Frame.owner?) }

/-- Goes on with the reply of an activity that has ended. -/
def back (c : Configuration κ π σ) (reply : Reply κ) : Configuration κ π σ :=
  { c with control := .back reply }

/-- Replaces the engine. -/
def withEngine (c : Configuration κ π σ) (r : Engine κ) : Configuration κ π σ :=
  { c with engine := r }

/-- Replaces the stack. -/
def withStack (c : Configuration κ π σ) (stack : List (Frame κ π)) :
    Configuration κ π σ :=
  { c with stack := stack }

/-- Lets the host take note of evaluations. -/
def observe (H : Host κ π σ) (c : Configuration κ π σ) (es : List Evaluation) :
    Configuration κ π σ :=
  { c with memory := H.observe es c.memory }

/-- Runs code of the host on top of the stack. -/
def enter (H : Host κ π σ) (c : Configuration κ π σ)
    (code : Engine κ → σ → Next κ π × σ) : Configuration κ π σ :=
  let (next, memory) := code c.engine c.memory
  settle H { c with memory := memory, control := .host next }

/-! ### Delivery -/

/-- Puts an envelope into the mailbox of an instance; unless the instance is already
at work, it begins to empty its mailbox. -/
def deliver (c : Configuration κ π σ) (i : Nat) (e : Envelope) : Configuration κ π σ :=
  match c.engine.get? i with
  | none => c.back (.outcome (.ok ()))
  | some x =>
    let queued := c.engine.modify i fun x => { x with mailbox := x.mailbox ++ [e], busy := true }
    if x.busy then (c.withEngine queued).back (.outcome (.ok ()))
    else
      ((c.withEngine queued).withStack (.working i (.ok ()) [] :: c.stack)).back .done

/-- Starts an instance that was never started. -/
def start (c : Configuration κ π σ) (i : Nat) : Configuration κ π σ :=
  match c.engine.get? i with
  | none => c.back (.outcome (.ok ()))
  | some x =>
    if x.status = .notStarted then
      (c.withEngine (c.engine.modify i fun x => { x with status := .running })).deliver i .start
    else c.back (.outcome (.ok ()))

/-- Starts an instance that was never started at a value with a context. -/
def startWith (c : Configuration κ π σ) (i : Nat) (value : StateValue) (context : Context) :
    Configuration κ π σ :=
  match c.engine.get? i with
  | none => c.back (.outcome (.ok ()))
  | some x =>
    if x.status = .notStarted then
      match x.machine.snapshotAt value context with
      | .error e => c.back (.outcome (.error e))
      | .ok s => (c.withEngine (c.engine.modify i fun x => { x with snapshot := s })).start i
    else c.back (.outcome (.ok ()))

/-- Starts an instance that was never started at a value with the default context. -/
def startAt (c : Configuration κ π σ) (i : Nat) (value : StateValue) :
    Configuration κ π σ :=
  match c.engine.get? i with
  | none => c.back (.outcome (.ok ()))
  | some x => c.startWith i value x.machine.context

/-- Sends an event to an instance; without effect unless it runs. -/
def send (c : Configuration κ π σ) (i : Nat) (event : Event) : Configuration κ π σ :=
  if c.engine.isRunning i then c.deliver i (.event event)
  else c.back (.outcome (.ok ()))

/-- Registers a listener and tells it about the current snapshot at once. -/
def subscribe (H : Host κ π σ) (c : Configuration κ π σ) (i : Nat) (listener : κ) :
    Configuration κ π σ :=
  match c.engine.get? i with
  | none => c.back (.subscribed 0 false)
  | some x =>
    enter H
      ((c.withEngine (c.engine.addListener i listener)).withStack
        (.replaying i x.nextListener :: c.stack))
      (H.notify listener x.snapshot)

/-! ### Calls -/

/-- Performs an operation on timers that ends at once. -/
def timed (c : Configuration κ π σ) (f : Timing (Callback κ) → Timing (Callback κ)) :
    Configuration κ π σ :=
  (c.withEngine (c.engine.withTiming f)).back .done

/-- Performs an operation on timers that ends at once with a flag. -/
def timedFlag (c : Configuration κ π σ)
    (f : Timing (Callback κ) → Bool × Timing (Callback κ)) : Configuration κ π σ :=
  let (flag, timing) := f c.engine.timing
  (c.withEngine { c.engine with timing := timing }).back (.flag flag)

/-- Performs a call of the host. -/
def perform (H : Host κ π σ) (c : Configuration κ π σ) : Call κ → Configuration κ π σ
  | .yield => c.back .done
  | .create machine pool =>
    (c.withEngine (c.engine.create machine pool)).back (.number c.engine.instances.next)
  | .start i => c.start i
  | .startAt i value => c.startAt i value
  | .startWith i value context => c.startWith i value context
  | .send i event => c.send i event
  | .stop i => (c.withEngine (c.engine.stop i)).back .done
  | .subscribe i listener => subscribe H c i listener
  | .unsubscribe i listener =>
    (c.withEngine (c.engine.removeListener i listener)).back
      (.flag (c.engine.hasListener i listener))
  | .advance ms => (c.withStack (.advancing (c.engine.timing.now + ms) :: c.stack)).back .done
  | .schedule ms task =>
    (c.withEngine (c.engine.withTiming fun t => t.schedule ms (.code task))).back
      (.number c.engine.timing.scheduler.nextId)
  | .cancel task => c.timedFlag fun t => t.cancel task
  | .newTimer pool ms callback =>
    (c.withEngine (c.engine.withTiming fun t => t.newTimer pool ms (callback.map .code))).back
      (.number c.engine.timing.timers.next)
  | .startTimer timer => c.timedFlag fun t => t.start timer
  | .pauseTimer timer => c.timed fun t => t.pause timer
  | .restartTimer timer => c.timedFlag fun t => t.restart timer
  | .destroyTimer timer => c.timed fun t => t.destroy timer
  | .completion timer =>
    let (result, timing) := c.engine.timing.completion timer
    (c.withEngine { c.engine with timing := timing }).back (.channel result)
  | .receive channel =>
    let (receipt, timing) := c.engine.timing.receive channel
    (c.withEngine { c.engine with timing := timing }).back (.receipt receipt)
  | .pauseAll pool => c.timed fun t => t.pauseAll pool
  | .startAll pool => c.timed fun t => t.startAll pool
  | .standby pool => c.timed fun t => t.standby pool
  | .wake pool => c.timed fun t => t.wake pool
  | .destroyAll pool => c.timed fun t => t.destroyAll pool
  | .register registry d b =>
    let result := c.engine.register registry d b
    ((c.observe H result.evaluations).withEngine result.value.2).back
      (.machine result.value.1)
  | .interpret registry machine =>
    let (result, r) := c.engine.interpret registry machine
    (c.withEngine r).back (.owner result)
  | .clear registry id => settle H ((c.withEngine (c.engine.clear registry id)).back .done)

/-! ### Work of an instance -/

/-- Puts the rest of the current piece of work back on the stack. -/
def work (c : Configuration κ π σ) (i : Nat) (outcome : Except MachineError Unit)
    (phases : List (Phase κ)) (below : List (Frame κ π)) : Configuration κ π σ :=
  c.withStack (.working i outcome phases :: below)

/-- The first of two errors. -/
def firstError (a b : Except MachineError Unit) : Except MachineError Unit :=
  match a with
  | .error e => .error e
  | .ok () => b

/-- Whether after-timers are armed again after every transition, or only after a change
of value. -/
inductive Rearm where
  | always
  | onChange
deriving Repr, DecidableEq

/-- The phases that follow a transition: the effects, the children if the value has
changed, the listeners, the timers, and the report of completion. -/
def phasesOf (next : Snapshot κ) (event : Event) (changed : Bool) (rearm : Rearm) :
    List (Phase κ) :=
  [.perform next.actions next.context event]
    ++ (if changed then [.stopChildren, .startChildren] else [])
    ++ [.publish next]
    ++ (if rearm = .always || changed then [.rearm] else [])
    ++ [.report next.value]

/-- The instance after a transition: the snapshot is stored, and a change of value is
recorded. -/
def commitTo (x : Instance κ) (next : Snapshot κ) (event : Event) (now : Nat) : Instance κ :=
  { x with
    snapshot := next
    history :=
      if x.snapshot.value == next.value then x.history
      else x.history.record ⟨x.snapshot.value, next.value, event.kind, .ofMillis now⟩ }

/-- Commits a transition of an instance. -/
def commit (c : Configuration κ π σ) (i : Nat) (x : Instance κ)
    (outcome : Except MachineError Unit) (below : List (Frame κ π))
    (next : Snapshot κ) (event : Event) (rearm : Rearm) : Configuration κ π σ :=
  let changed := !(x.snapshot.value == next.value)
  let now := c.engine.timing.now
  (c.withEngine (c.engine.modify i fun x => commitTo x next event now)).work i outcome
    (phasesOf next event changed rearm) below

/-- Commits the transition that was found, if there is one. -/
def settleTransition (H : Host κ π σ) (c : Configuration κ π σ) (i : Nat) (x : Instance κ)
    (outcome : Except MachineError Unit) (below : List (Frame κ π)) (event : Event)
    (rearm : Rearm) (found : Evaluated (Except MachineError (Option (Snapshot κ)))) :
    Configuration κ π σ :=
  let c := c.observe H found.evaluations
  match found.value with
  | .error e => c.work i (firstError outcome (.error e)) [] below
  | .ok none => c.work i outcome [] below
  | .ok (some next) => c.commit i x outcome below next event rearm

/-- Processes an event. -/
def processEvent (H : Host κ π σ) (c : Configuration κ π σ) (i : Nat) (x : Instance κ)
    (outcome : Except MachineError Unit) (below : List (Frame κ π)) (event : Event) :
    Configuration κ π σ :=
  settleTransition H c i x outcome below event .always
    ((fun r => r.map some) <$> x.machine.transition x.snapshot.value x.snapshot.context event)

/-- Carries out a reaction: the event is processed with the payload of `event`, or the
transition is taken with `event`. -/
def react (H : Host κ π σ) (c : Configuration κ π σ) (i : Nat) (x : Instance κ)
    (outcome : Except MachineError Unit) (below : List (Frame κ π)) (state : String)
    (event : Event) : Option (Reaction (Candidate κ)) → Configuration κ π σ
  | none => c.work i outcome [] below
  | some (.event kind) => processEvent H c i x outcome below ⟨kind, event.payload⟩
  | some (.transition t) =>
    settleTransition H c i x outcome below event .always
      (x.machine.react state t x.snapshot.context event)

/-- Whether a delayed firing is still meant: its state is active, and its arming is the
last one under its key. -/
def isFresh (x : Instance κ) (state key : String) (generation : Nat) : Bool :=
  x.snapshot.value.leaf? = some state
    && (match x.armed? (armedKey state key) with
      | some a => a.generation = generation
      | none => false)

/-- Processes an envelope; without effect unless the instance runs. -/
def process (H : Host κ π σ) (c : Configuration κ π σ) (i : Nat) (x : Instance κ)
    (outcome : Except MachineError Unit) (below : List (Frame κ π)) (e : Envelope) :
    Configuration κ π σ :=
  if !x.isRunning then c.work i outcome [] below
  else
    match e with
    | .start =>
      let s := x.snapshot
      c.work i outcome
        [.perform s.actions s.context .init, .startChildren, .rearm, .report s.value] below
    | .event event => processEvent H c i x outcome below event
    | .after state key generation =>
      if isFresh x state key generation then
        settleTransition H c i x outcome below (.after key) .onChange
          (x.machine.fireAfter state key x.snapshot.context (.after key))
      else c.work i outcome [] below
    | .childDone id state =>
      match x.activeInvoke? id state with
      | some v =>
        if x.children.contains id then
          react H c i x outcome below state (.doneInvoke id) v.onDone
        else c.work i outcome [] below
      | none => c.work i outcome [] below
    | .invokeFailed id state message =>
      match x.activeInvoke? id state with
      | some v => react H c i x outcome below state (.invokeError id message) v.onError
      | none => c.work i outcome [] below

/-- The machine of an invocation.  Code given in place gets the context of the invoking
machine; a service gets the data of the invocation, or an empty context. -/
def resolveChild (H : Host κ π σ) (c : Configuration κ π σ) (x : Instance κ)
    (v : Invocation κ) (context : Context) :
    Except InvokeError (Machine κ) × Configuration κ π σ :=
  match v.source with
  | .factory code =>
    let (result, memory) := H.build code context .init c.memory
    (result, { c with memory := memory })
  | .service name =>
    match x.services.get? name with
    | none => (.error (.unknownService name), c)
    | some code =>
      let data : Evaluated Context :=
        match v.data with
        | some d => d.resolve context .init
        | none => pure .empty
      let c := c.observe H data.evaluations
      let (result, memory) := H.build code data.value .init c.memory
      (result, { c with memory := memory })

/-- Starts the child of an invocation, unless there is one with its identifier.  A
failure is put into the mailbox of the invoking instance. -/
def startChild (H : Host κ π σ) (c : Configuration κ π σ) (i : Nat) (x : Instance κ)
    (state : String) (context : Context) (v : Invocation κ) : Configuration κ π σ :=
  if x.children.contains v.id then c
  else
    match resolveChild H c x v context with
    | (.ok machine, c) =>
      let child := c.engine.instances.next
      (c.withEngine (c.engine.spawn i machine v.id state)).start child
    | (.error e, c) =>
      c.withEngine (c.engine.modify i fun x =>
        { x with mailbox := x.mailbox ++ [.invokeFailed v.id state e.message] })

/-- Reports to its parent that an instance has reached a final value, once. -/
def report (c : Configuration κ π σ) (i : Nat) (x : Instance κ) (value : StateValue) :
    Configuration κ π σ :=
  if x.isRunning && x.machine.isFinal value && !x.doneReported then
    let c := c.withEngine (c.engine.modify i fun x => { x with doneReported := true })
    match x.parent with
    | some link => c.deliver link.parent (.childDone link.id link.state)
    | none => c
  else c

/-- The invocations of the active state of an instance. -/
def activeInvocations (x : Instance κ) :
    Except MachineError (Option (String × List (Invocation κ))) :=
  match x.machine.flat?, x.snapshot.value.leaf? with
  | some chart, some state =>
    match chart.node state with
    | .error e => .error e
    | .ok n => .ok (some (state, n.invoke))
  | _, _ => .ok none

/-- One small step of a phase of work.  Work of an instance that was stopped on the way
is dropped, except that a round of notifications is finished. -/
def stepPhase (H : Host κ π σ) (c : Configuration κ π σ) (i : Nat) (x : Instance κ)
    (outcome : Except MachineError Unit) (rest : List (Phase κ)) (below : List (Frame κ π)) :
    Phase κ → Configuration κ π σ
  | .perform [] _ _ => c.work i outcome rest below
  | .perform (a :: more) context event =>
    if x.isRunning then
      enter H (c.work i outcome (.perform more context event :: rest) below)
        (H.execute a.code context event a.metadata)
    else c.work i outcome [] below
  | .stopChildren =>
    (c.withEngine (c.engine.stopChildren i)).work i outcome rest below
  | .startChildren =>
    if x.isRunning then
      match activeInvocations x with
      | .error e => c.work i (firstError outcome (.error e)) [] below
      | .ok none => c.work i outcome rest below
      | .ok (some (state, vs)) =>
        c.work i outcome (.invoke state x.snapshot.context vs :: rest) below
    else c.work i outcome rest below
  | .invoke _ _ [] => c.work i outcome rest below
  | .invoke state context (v :: more) =>
    if x.isRunning then
      startChild H (c.work i outcome (.invoke state context more :: rest) below) i x state
        context v
    else c.work i outcome rest below
  | .publish s =>
    if x.isRunning then c.work i outcome (.notify s x.listeners :: rest) below
    else c.work i outcome [] below
  | .notify _ [] => c.work i outcome rest below
  | .notify s (l :: more) =>
    enter H (c.work i outcome (.notify s more :: rest) below) (H.notify l.2 s)
  | .rearm =>
    if x.isRunning then
      let armed := c.engine.armTimers i
      let c := c.observe H armed.evaluations
      match armed.value with
      | .error e => c.work i (firstError outcome (.error e)) [] below
      | .ok r => (c.withEngine r).work i outcome rest below
    else c.work i outcome rest below
  | .report value => (c.work i outcome rest below).report i x value

/-- Takes the next envelope of an instance that has finished a piece of work, or ends
its activity when the mailbox is empty. -/
def nextEnvelope (H : Host κ π σ) (c : Configuration κ π σ) (i : Nat) (x : Instance κ)
    (outcome : Except MachineError Unit) (below : List (Frame κ π)) :
    Configuration κ π σ :=
  match x.mailbox with
  | [] =>
    settle H
      (((c.withEngine (c.engine.modify i fun x => { x with busy := false })).withStack
        below).back (.outcome outcome))
  | e :: more =>
    process H (c.withEngine (c.engine.modify i fun x => { x with mailbox := more })) i
      { x with mailbox := more } outcome below e

/-! ### The clock -/

/-- Calls a callback. -/
def call (H : Host κ π σ) (c : Configuration κ π σ) : Callback κ → Configuration κ π σ
  | .code code => enter H c (H.invoke code)
  | .after i state key generation => c.deliver i (.after state key generation)

/-- Runs a job that the clock has taken off its queue. -/
def runJob (H : Host κ π σ) (c : Configuration κ π σ) : Job (Callback κ) →
    Configuration κ π σ
  | .task callback => call H c callback
  | .timer id =>
    match c.engine.timing.fire id with
    | (none, timing) => c.withEngine { c.engine with timing := timing }
    | (some (callback, channel), timing) =>
      let c := (c.withEngine { c.engine with timing := timing }).withStack
        (.fired channel :: c.stack)
      match callback with
      | some callback => call H c callback
      | none => c

/-- One small step of the clock on its way to `target`. -/
def stepClock (H : Host κ π σ) (c : Configuration κ π σ) (target : Nat)
    (below : List (Frame κ π)) : Configuration κ π σ :=
  match c.engine.timing.scheduler.takeDue target with
  | none =>
    ((c.withEngine (c.engine.withTiming fun t =>
      { t with scheduler := t.scheduler.settle target })).withStack below).back .done
  | some (p, scheduler) =>
    runJob H (c.withEngine (c.engine.withTiming fun t => { t with scheduler := scheduler }))
      p.task

/-! ### Steps and runs -/

/-- One small step; none if nothing is under way. -/
def step? (H : Host κ π σ) (c : Configuration κ π σ) : Option (Configuration κ π σ) :=
  match c.control with
  | .host .done => some (c.back .done)
  | .host (.call call point) =>
    some (perform H (c.withStack (.waiting point :: c.stack)) call)
  | .back reply =>
    match c.stack with
    | [] => none
    | .waiting point :: below => some (enter H (c.withStack below) (H.resume point reply))
    | .advancing target :: below => some (stepClock H c target below)
    | .fired channel :: below =>
      some (((c.withEngine
        (c.engine.withTiming fun t => t.announce channel .fired)).withStack below).back .done)
    | .working i outcome phases :: below =>
      match c.engine.get? i with
      | none => some ((c.withStack below).back (.outcome outcome))
      | some x =>
        match phases with
        | [] => some (nextEnvelope H c i x outcome below)
        | p :: rest => some (stepPhase H c i x outcome rest below p)
    | .replaying i listener :: below =>
      let active := c.engine.hasListener i listener
      some (settle H ((c.withStack below).back (.subscribed listener active)))

/-- Performs steps until nothing is under way, at most `fuel` of them. -/
def run (H : Host κ π σ) : Nat → Configuration κ π σ → Configuration κ π σ
  | 0, c => c
  | fuel + 1, c =>
    match step? H c with
    | none => c
    | some next => run H fuel next

end Configuration

end Statechart
