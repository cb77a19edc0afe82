import Statechart.Scheduler
import Statechart.Table

/-!
# Timers

One-shot delays that can be paused and resumed without losing progress, the pools that
own them, and the channels on which their completion is announced.  All of them share
one clock.  Nothing here runs a callback: `fire` says which one is to be run.  Times
are in milliseconds; callbacks are of type `τ`.
-/

namespace Statechart

/-- The life of a timer: idle, then running, perhaps paused, and in the end fired or
destroyed. -/
inductive TimerStatus where
  | idle
  | running
  | paused
  | fired
  | destroyed
deriving Repr, DecidableEq

/-- Whether a timer in this status is over. -/
def TimerStatus.isFinished : TimerStatus → Bool
  | fired => true
  | destroyed => true
  | _ => false

/-- How a timer ended: its whole delay ran, or it was destroyed before that. -/
inductive Completion where
  | fired
  | cancelled
deriving Repr, DecidableEq

/-- A timer can no longer fire. -/
inductive TimerError where
  | destroyed
  | alreadyFired
deriving Repr, DecidableEq

/-- The wording of an error. -/
def TimerError.message : TimerError → String
  | destroyed => "The timer has been destroyed and cannot be started"
  | alreadyFired => "The timer has already fired"

/-- A one-shot delay.  `elapsed` and `remaining` are as of the last pause; while the
timer runs, `startedAt` is the time of its start and `task` its task on the clock. -/
structure Timer (τ : Type) where
  pool : Nat
  delay : Nat
  remaining : Nat
  elapsed : Nat
  startedAt : Option Nat
  task : Option Nat
  status : TimerStatus
  callback : Option τ
  channel : Option Nat

/-- The owner of timers: those it made that may still be unfinished, in order, and
those put on standby.  While it is paused none of its timers starts. -/
structure TimerPool where
  paused : Bool
  timers : List Nat
  stash : List Nat
deriving Repr

/-- The pool without timers. -/
def TimerPool.empty : TimerPool := ⟨false, [], []⟩

/-- What a receiver of a completion finds. -/
inductive Receipt where
  | message (completion : Completion)
  | empty
  | disconnected
deriving Repr, DecidableEq

/-- A channel for one completion: the message waiting on it, and whether it still has
a sender. -/
structure Channel where
  message : Option Completion
  isOpen : Bool
deriving Repr, DecidableEq

/-- What the clock calls: a timer, or a task scheduled by itself. -/
inductive Job (τ : Type) where
  | timer (id : Nat)
  | task (code : τ)

/-- A clock with the timers, pools and channels on it. -/
structure Timing (τ : Type) where
  scheduler : Scheduler (Job τ)
  timers : Table (Timer τ)
  pools : Table TimerPool
  channels : Table Channel

namespace Timer

variable {τ : Type}

/-- The time a timer has run since it was last started, at time `now`. -/
def session (timer : Timer τ) (now : Nat) : Nat :=
  match timer.startedAt with
  | some start => now - start
  | none => 0

/-- The time a timer has run in all, at time `now`. -/
def elapsedAt (timer : Timer τ) (now : Nat) : Nat := timer.elapsed + timer.session now

/-- Adds the time since the last start to the elapsed time. -/
def fold (timer : Timer τ) (now : Nat) : Timer τ :=
  { timer with elapsed := timer.elapsedAt now, startedAt := none }

end Timer

namespace Timing

variable {τ : Type}

/-- A clock without timers. -/
def empty : Timing τ := ⟨.empty, .empty, .empty, .empty⟩

instance : Inhabited (Timing τ) := ⟨empty⟩

/-- The reading of the clock. -/
def now (t : Timing τ) : Nat := t.scheduler.now

/-- The status of a timer. -/
def status? (t : Timing τ) (id : Nat) : Option TimerStatus :=
  (t.timers.get? id).map Timer.status

/-- Whether a timer runs. -/
def isRunning (t : Timing τ) (id : Nat) : Bool := t.status? id = some .running

/-- Whether a timer is over, or not there. -/
def isFinished (t : Timing τ) (id : Nat) : Bool :=
  match t.status? id with
  | some status => status.isFinished
  | none => true

/-- Changes a timer. -/
def updateTimer (t : Timing τ) (id : Nat) (f : Timer τ → Timer τ) : Timing τ :=
  { t with timers := t.timers.modify id f }

/-- Changes a pool. -/
def updatePool (t : Timing τ) (pool : Nat) (f : TimerPool → TimerPool) : Timing τ :=
  { t with pools := t.pools.modify pool f }

/-- Whether a pool is paused. -/
def isPaused (t : Timing τ) (pool : Nat) : Bool :=
  match t.pools.get? pool with
  | some p => p.paused
  | none => false

/-! ### Channels -/

/-- Opens a channel, under the number `t.channels.next`. -/
def openChannel (t : Timing τ) : Timing τ :=
  { t with channels := t.channels.add ⟨none, true⟩ }

/-- Sends a completion on a channel and closes it. -/
def announce (t : Timing τ) (channel : Option Nat) (completion : Completion) : Timing τ :=
  match channel with
  | none => t
  | some c => { t with channels := t.channels.modify c fun _ => ⟨some completion, false⟩ }

/-- Closes a channel without a message. -/
def disconnect (t : Timing τ) (channel : Option Nat) : Timing τ :=
  match channel with
  | none => t
  | some c => { t with channels := t.channels.modify c fun ch => { ch with isOpen := false } }

/-- What a receiver finds on a channel; a message is taken off. -/
def receive (t : Timing τ) (channel : Nat) : Receipt × Timing τ :=
  match t.channels.get? channel with
  | none => (.disconnected, t)
  | some ch =>
    match ch.message with
    | some completion =>
      (.message completion,
        { t with channels := t.channels.modify channel fun ch => { ch with message := none } })
    | none => (if ch.isOpen then .empty else .disconnected, t)

/-! ### One timer -/

/-- Takes the task of a timer off the clock. -/
def cancelTask (t : Timing τ) (timer : Timer τ) : Timing τ :=
  match timer.task with
  | some task => { t with scheduler := t.scheduler.cancel task }
  | none => t

/-- Makes an idle timer of a pool, under the number `t.timers.next`.  The pool forgets
its finished timers. -/
def newTimer (t : Timing τ) (pool delay : Nat) (callback : Option τ) : Timing τ :=
  let id := t.timers.next
  let kept (p : TimerPool) : TimerPool :=
    { p with timers := p.timers.filter (fun i => !t.isFinished i) ++ [id] }
  { t with
    timers := t.timers.add ⟨pool, delay, delay, 0, none, none, .idle, callback, none⟩
    pools := t.pools.modify pool kept }

/-- Whether a timer can be started: it is idle or paused, and its pool is not
paused. -/
def canStart (t : Timing τ) (timer : Timer τ) : Bool :=
  !t.isPaused timer.pool && (timer.status = .idle || timer.status = .paused)

/-- Starts a timer for its remaining time, if it can be started. -/
def start (t : Timing τ) (id : Nat) : Bool × Timing τ :=
  match t.timers.get? id with
  | none => (false, t)
  | some timer =>
    if t.canStart timer then
      let task := t.scheduler.nextId
      let running (x : Timer τ) : Timer τ :=
        { x with startedAt := some t.now, task := some task, status := .running }
      (true,
        { t with
          scheduler := t.scheduler.schedule timer.remaining (.timer id)
          timers := t.timers.modify id running })
    else (false, t)

/-- Suspends a running timer. -/
def pause (t : Timing τ) (id : Nat) : Timing τ :=
  match t.timers.get? id with
  | none => t
  | some timer =>
    if timer.status = .running then
      let spent := timer.session t.now
      let paused (x : Timer τ) : Timer τ :=
        { x.fold t.now with
          remaining := x.remaining - spent, task := none, status := .paused }
      (t.cancelTask timer).updateTimer id paused
    else t

/-- Ends a timer for good, announcing that it is cancelled unless it has fired. -/
def destroy (t : Timing τ) (id : Nat) : Timing τ :=
  match t.timers.get? id with
  | none => t
  | some timer =>
    if timer.status = .destroyed then t
    else
      let ended (x : Timer τ) : Timer τ :=
        { x.fold t.now with
          task := none, status := .destroyed, callback := none, channel := none }
      ((t.cancelTask timer).updateTimer id ended).announce timer.channel .cancelled

/-- Destroys timers one after another. -/
def destroyEach (t : Timing τ) (ids : List Nat) : Timing τ := ids.foldl destroy t

/-- Starts a timer again from its full delay, if it is not over. -/
def restart (t : Timing τ) (id : Nat) : Bool × Timing τ :=
  let t := t.pause id
  if t.isFinished id then (false, t)
  else
    (t.updateTimer id fun x => { x with elapsed := 0, remaining := x.delay }).start id

/-- Attaches a new channel to a timer and starts it; the channel that was attached
loses its sender.  The number of the channel is `t.channels.next`. -/
def completion (t : Timing τ) (id : Nat) : Except TimerError Nat × Timing τ :=
  match t.timers.get? id with
  | none => (.error .destroyed, t)
  | some timer =>
    match timer.status with
    | .destroyed => (.error .destroyed, t)
    | .fired => (.error .alreadyFired, t)
    | _ =>
      let channel := t.channels.next
      let t := (t.disconnect timer.channel).openChannel
      let t := t.updateTimer id fun x => { x with channel := some channel }
      (.ok channel, (t.start id).2)

/-- Marks a running timer as fired, and says which callback is to be run and on which
channel the completion is to be announced after that. -/
def fire (t : Timing τ) (id : Nat) : Option (Option τ × Option Nat) × Timing τ :=
  match t.timers.get? id with
  | none => (none, t)
  | some timer =>
    if timer.status = .running then
      let fired (x : Timer τ) : Timer τ :=
        { x.fold t.now with
          remaining := 0, task := none, status := .fired, callback := none, channel := none }
      (some (timer.callback, timer.channel), t.updateTimer id fired)
    else (none, t)

/-! ### Pools -/

/-- The timers of a pool. -/
def timersOf (t : Timing τ) (pool : Nat) : List Nat :=
  match t.pools.get? pool with
  | some p => p.timers
  | none => []

/-- The timers of a pool that are stashed. -/
def stashOf (t : Timing τ) (pool : Nat) : List Nat :=
  match t.pools.get? pool with
  | some p => p.stash
  | none => []

/-- Starts timers one after another. -/
def startEach (t : Timing τ) (ids : List Nat) : Timing τ :=
  ids.foldl (fun t id => (t.start id).2) t

/-- Pauses timers one after another. -/
def pauseEach (t : Timing τ) (ids : List Nat) : Timing τ := ids.foldl pause t

/-- Pauses a pool and every timer of it. -/
def pauseAll (t : Timing τ) (pool : Nat) : Timing τ :=
  (t.updatePool pool fun p => { p with paused := true }).pauseEach (t.timersOf pool)

/-- Ends the pause of a pool and starts every timer of it. -/
def startAll (t : Timing τ) (pool : Nat) : Timing τ :=
  (t.updatePool pool fun p => { p with paused := false }).startEach (t.timersOf pool)

/-- The number of timers of a pool that are not over. -/
def live (t : Timing τ) (pool : Nat) : Nat :=
  ((t.timersOf pool).filter fun id => !t.isFinished id).length

/-- The number of stashed timers that are not over. -/
def stashed (t : Timing τ) (pool : Nat) : Nat :=
  ((t.stashOf pool).filter fun id => !t.isFinished id).length

/-- Whether some timer waits for `wake`. -/
def inStandby (t : Timing τ) (pool : Nat) : Bool := 0 < t.stashed pool

/-- Pauses and stashes the running timers of a pool, unless some timer is stashed
already. -/
def standby (t : Timing τ) (pool : Nat) : Timing τ :=
  let pruned := t.updatePool pool fun p =>
    { p with stash := p.stash.filter fun id => !t.isFinished id }
  if t.inStandby pool then pruned
  else
    let running := (t.timersOf pool).filter t.isRunning
    (pruned.pauseEach running).updatePool pool fun p => { p with stash := p.stash ++ running }

/-- Starts the stashed timers of a pool, the last one first, and empties the stash. -/
def wake (t : Timing τ) (pool : Nat) : Timing τ :=
  (t.updatePool pool fun p => { p with stash := [] }).startEach (t.stashOf pool).reverse

/-- Destroys the timers of a pool and forgets them. -/
def destroyAll (t : Timing τ) (pool : Nat) : Timing τ :=
  (t.updatePool pool fun p => { p with timers := [], stash := [] }).destroyEach
    (t.timersOf pool)

/-! ### Tasks -/

/-- Schedules a task, under the number `t.scheduler.nextId`. -/
def schedule (t : Timing τ) (delay : Nat) (code : τ) : Timing τ :=
  { t with scheduler := t.scheduler.schedule delay (.task code) }

/-- Takes a task off the clock, and says whether it was waiting. -/
def cancel (t : Timing τ) (task : Nat) : Bool × Timing τ :=
  (t.scheduler.isPending task, { t with scheduler := t.scheduler.cancel task })

end Timing

end Statechart
