import Statechart.Proofs.Accuracy
import Statechart.Proofs.Arming
import Statechart.Proofs.Move

/-!
# Impulses

What the host asks for, and what the clock does, comes first in a step: its impulse
(`Configuration.impulse`).  The rest the engine does by itself, in a few ways, and a relation
that covers these relates what the impulse leaves behind to what the step does
(`Configuration.Covers.step`).
-/

namespace Statechart

variable {κ π σ : Type}

/-- The machine and the listeners of an instance stay, and it stays stopped. -/
structure Instance.Retains (x y : Instance κ) : Prop where
  listeners : y.listeners = x.listeners
  stopped : x.status = .stopped → y.status = .stopped
  machine : y.machine = x.machine

/-- Whether an activity is the callback of a timer that has fired. -/
def Frame.isFired : Frame κ π → Bool
  | fired _ => true
  | _ => false

/-! ### What comes first -/

/-- The operation on timers that a call of the host is. -/
def Call.operation? : Call κ → Option (Timing (Callback κ) → Timing (Callback κ))
  | .schedule ms task => some fun t => t.schedule ms (.code task)
  | .cancel task => some fun t => (t.cancel task).2
  | .newTimer pool ms callback => some fun t => t.newTimer pool ms (callback.map .code)
  | .startTimer timer => some fun t => (t.start timer).2
  | .pauseTimer timer => some fun t => t.pause timer
  | .restartTimer timer => some fun t => (t.restart timer).2
  | .destroyTimer timer => some fun t => t.destroy timer
  | .completion timer => some fun t => (t.completion timer).2
  | .receive channel => some fun t => (t.receive channel).2
  | .pauseAll pool => some fun t => t.pauseAll pool
  | .startAll pool => some fun t => t.startAll pool
  | .standby pool => some fun t => t.standby pool
  | .wake pool => some fun t => t.wake pool
  | .destroyAll pool => some fun t => t.destroyAll pool
  | _ => none

/-- The engine after the effect that a call of the host has at once. -/
def Call.impulse (r : Engine κ) (call : Call κ) : Engine κ :=
  match call.operation? with
  | some f => r.withTiming f
  | none =>
    match call with
    | .subscribe i listener =>
      match r.get? i with
      | some _ => r.addListener i listener
      | none => r
    | .unsubscribe i listener => r.removeListener i listener
    | .register registry d b => (r.register registry d b).value.2
    | .interpret registry machine => (r.interpret registry machine).2
    | .clear registry id => r.clear registry id
    | _ => r

namespace Engine

/-- The clock stands still while a machine is registered. -/
theorem timing_register (r : Engine κ) (registry : Nat) (d : MachineDescriptor κ)
    (b : Bundle κ) :
  (r.register registry d b).value.2.timing = r.timing
  := by
  rw [register]
  split
  · rfl
  · split
    · rfl
    · simp only [Evaluated.value_bind]
      split <;> rfl

/-- The clock stands still while the instance of a machine is looked up or made. -/
theorem timing_interpret (r : Engine κ) (registry : Nat) (machine : Machine κ) :
  (r.interpret registry machine).2.timing = r.timing
  := by
  rw [interpret.eq_def]
  split
  · rfl
  · rfl
  · split <;> rfl

end Engine

/-- The clock stands still unless the call is an operation on timers. -/
theorem Call.timing_impulse (r : Engine κ) (call : Call κ) :
  (call.impulse r).timing
    = match call.operation? with
      | some f => f r.timing
      | none => r.timing
  := by
  cases call with
  | subscribe i listener =>
    rw [impulse.eq_def]
    simp only [operation?]
    split <;> rfl
  | register registry d b => exact Engine.timing_register r registry d b
  | interpret registry machine => exact Engine.timing_interpret r registry machine
  | _ => rfl

/-- The channel of the timer that fires next on the way to `target`, if one does. -/
def Timing.firesOn? {τ : Type} (t : Timing τ) (target : Nat) : Option (Option Nat) :=
  match t.scheduler.takeDue target with
  | some (p, scheduler) =>
    match p.task with
    | .timer id => (Timing.fire { t with scheduler := scheduler } id).1.map Prod.snd
    | .task _ => none
  | none => none

namespace Configuration

/-- What the next step does first to the engine and to the stack: the effect of a call of the
host; what the clock does before it calls anything; the announcement that a timer has fired. -/
def impulse (c : Configuration κ π σ) : Engine κ × List (Frame κ π) :=
  match c.control, c.stack with
  | .host (.call call _), st => (call.impulse c.engine, st)
  | .back _, .advancing target :: below =>
    (c.engine.withTiming fun t => t.tick target,
      match c.engine.timing.firesOn? target with
      | some channel => .fired channel :: .advancing target :: below
      | none => .advancing target :: below)
  | .back _, .fired channel :: below =>
    (c.engine.withTiming fun t => t.announce channel .fired, below)
  | _, st => (c.engine, st)

/-- Nothing is asked for when nothing is under way. -/
theorem impulse_of_isIdle {c : Configuration κ π σ} (h : c.IsIdle) :
  c.impulse = (c.engine, c.stack)
  := by
  obtain ⟨hst, reply, hcontrol⟩ := h
  rw [impulse, hcontrol, hst]

/-- A relation between engines and stacks that covers what engines do by themselves: activities
begin and end, other than callbacks of timers that have fired; instances are made, changed,
stopped and let go, and their timers are armed. -/
structure Covers (R : Engine κ → List (Frame κ π) → Engine κ → List (Frame κ π) → Prop) :
    Prop where
  refl : ∀ r st, R r st r st
  trans : ∀ {r r' r'' st st' st''}, R r st r' st' → R r' st' r'' st'' → R r st r'' st''
  push : ∀ {f : Frame κ π} r st, f.isFired = false → R r st r (f :: st)
  pop : ∀ {f : Frame κ π} r st, f.isFired = false → R r (f :: st) r st
  add : ∀ {x : Instance κ} r st, x.listeners = [] →
    R r st { r with instances := r.instances.add x } st
  modify : ∀ {r : Engine κ} {i x} (f : Instance κ → Instance κ) st, r.get? i = some x →
    x.Retains (f x) → R r st (r.modify i f) st
  stop : ∀ r st i, R r st (r.stop i) st
  release : ∀ r st held, R r st (r.release held) st
  rearm : ∀ {r r' : Engine κ} {i x} st, r.get? i = some x → (r.armTimers i).value = .ok r' →
    R r st r' st

namespace Covers

variable {R : Engine κ → List (Frame κ π) → Engine κ → List (Frame κ π) → Prop}
  {H : Host κ π σ} {c d : Configuration κ π σ} {r : Engine κ} {st below : List (Frame κ π)}
  {i : Nat} {x : Instance κ} {o : Except MachineError Unit}

/-- Two relations that are covered one by one are covered together. -/
theorem and {R' : Engine κ → List (Frame κ π) → Engine κ → List (Frame κ π) → Prop}
    (hR : Covers R) (hR' : Covers R') :
  Covers fun r st r' st' => R r st r' st' ∧ R' r st r' st'
  where
  refl r st := ⟨hR.refl r st, hR'.refl r st⟩
  trans h h' := ⟨hR.trans h.1 h'.1, hR'.trans h.2 h'.2⟩
  push r st hf := ⟨hR.push r st hf, hR'.push r st hf⟩
  pop r st hf := ⟨hR.pop r st hf, hR'.pop r st hf⟩
  add r st hx := ⟨hR.add r st hx, hR'.add r st hx⟩
  modify f st hx hf := ⟨hR.modify f st hx hf, hR'.modify f st hx hf⟩
  stop r st i := ⟨hR.stop r st i, hR'.stop r st i⟩
  release r st held := ⟨hR.release r st held, hR'.release r st held⟩
  rearm st hx harmed := ⟨hR.rearm st hx harmed, hR'.rearm st hx harmed⟩

/-! ### Delivery and calls -/

/-- Posting changes the mailbox of an instance, which may begin to work. -/
theorem deliver (hR : Covers R) (h : R r st c.engine c.stack) (i : Nat) (e : Envelope) :
  R r st (c.deliver i e).engine (c.deliver i e).stack
  := by
  rw [Configuration.deliver]
  cases hx : c.engine.get? i with
  | none => exact h
  | some x =>
    have hqueued := hR.trans h (hR.modify
      (fun x => { x with mailbox := x.mailbox ++ [e], busy := true }) c.stack hx ⟨rfl, id, rfl⟩)
    simp only
    split
    · exact hqueued
    · exact hR.trans hqueued (hR.push _ _ rfl)

/-- A start is a change of one instance and a delivery. -/
theorem start (hR : Covers R) (h : R r st c.engine c.stack) (i : Nat) :
  R r st (c.start i).engine (c.start i).stack
  := by
  rw [Configuration.start]
  cases hx : c.engine.get? i with
  | none => exact h
  | some x =>
    simp only
    split
    · next hnot =>
      exact hR.deliver (c := c.withEngine _) (hR.trans h (hR.modify
        (fun x => { x with status := .running }) c.stack hx ⟨rfl, by simp [hnot], rfl⟩)) i .start
    · exact h

/-- A start from a state sets it first. -/
theorem startWith (hR : Covers R) (h : R r st c.engine c.stack) (i : Nat) (value : StateValue)
    (context : Context) :
  R r st (c.startWith i value context).engine (c.startWith i value context).stack
  := by
  rw [Configuration.startWith]
  cases hx : c.engine.get? i with
  | none => exact h
  | some x =>
    simp only
    split
    · split
      · exact h
      · next s _ =>
        exact hR.start (c := c.withEngine _) (hR.trans h (hR.modify
          (fun x => { x with snapshot := s }) c.stack hx ⟨rfl, id, rfl⟩)) i
    · exact h

theorem startAt (hR : Covers R) (h : R r st c.engine c.stack) (i : Nat) (value : StateValue) :
  R r st (c.startAt i value).engine (c.startAt i value).stack
  := by
  rw [Configuration.startAt]
  cases c.engine.get? i with
  | none => exact h
  | some x => exact hR.startWith h i value x.machine.context

/-- An event is delivered to an instance that runs. -/
theorem send (hR : Covers R) (h : R r st c.engine c.stack) (i : Nat) (event : Event) :
  R r st (c.send i event).engine (c.send i event).stack
  := by
  rw [Configuration.send]
  split
  · exact hR.deliver h i _
  · exact h

/-- A host lets go of what it does not hold. -/
theorem settle (hR : Covers R) (h : R r st c.engine c.stack) :
  R r st (Configuration.settle H c).engine (Configuration.settle H c).stack
  := hR.trans h (hR.release _ _ _)

/-- Code of the host changes nothing of the engine by itself. -/
theorem enter (hR : Covers R) (h : R r st c.engine c.stack)
    (code : Engine κ → σ → Next κ π × σ) :
  R r st (Configuration.enter H c code).engine (Configuration.enter H c code).stack
  := hR.settle (c := { c with
    memory := (code c.engine c.memory).2, control := .host (code c.engine c.memory).1 }) h

/-- After its impulse a call of the host does what engines do by themselves. -/
theorem perform (hR : Covers R) {call : Call κ} (h : R r st (call.impulse c.engine) c.stack) :
  R r st (Configuration.perform H c call).engine (Configuration.perform H c call).stack
  := by
  cases call with
  | create machine pool => exact hR.trans h (hR.add _ _ rfl)
  | start i => exact hR.start h i
  | startAt i value => exact hR.startAt h i value
  | startWith i value context => exact hR.startWith h i value context
  | send i event => exact hR.send h i event
  | stop i => exact hR.trans h (hR.stop _ _ i)
  | subscribe i listener =>
    simp only [Call.impulse, Call.operation?] at h
    rw [Configuration.perform, subscribe]
    cases hx : c.engine.get? i with
    | none => rwa [hx] at h
    | some x =>
      rw [hx] at h
      exact hR.enter (c := (c.withEngine (c.engine.addListener i listener)).withStack
        (.replaying i x.nextListener :: c.stack)) (hR.trans h (hR.push _ _ rfl)) _
  | advance ms => exact hR.trans h (hR.push _ _ rfl)
  | clear registry id =>
    exact hR.settle (c := (c.withEngine (c.engine.clear registry id)).back .done) h
  | _ => exact h

/-! ### Work of an instance -/

/-- A piece of work goes on where there was one. -/
theorem work (hR : Covers R) (h : R r st c.engine below) (i : Nat) (o : Except MachineError Unit)
    (phases : List (Phase κ)) :
  R r st (c.work i o phases below).engine (c.work i o phases below).stack
  := hR.trans h (hR.push _ _ rfl)

/-- The phases of a transition take the place of its envelope. -/
theorem settleTransition (hR : Covers R) (h : R r st c.engine below)
    (hx : c.engine.get? i = some x) {event : Event} {rearm : Rearm}
    {found : Evaluated (Except MachineError (Option (Snapshot κ)))} :
  R r st (Configuration.settleTransition H c i x o below event rearm found).engine
    (Configuration.settleTransition H c i x o below event rearm found).stack
  := by
  rw [Configuration.settleTransition]
  split
  · exact hR.work (c := c.observe H found.evaluations) h i _ _
  · exact hR.work (c := c.observe H found.evaluations) h i _ _
  · next next _ =>
    exact hR.trans (hR.trans h (hR.modify
      (fun x => commitTo x next event c.engine.timing.now) _ hx ⟨rfl, id, rfl⟩))
      (hR.push _ _ rfl)

/-- An envelope is processed by what it resolves to. -/
theorem process (hR : Covers R) (h : R r st c.engine below) (hx : c.engine.get? i = some x)
    (e : Envelope) :
  R r st (Configuration.process H c i x o below e).engine
    (Configuration.process H c i x o below e).stack
  := by
  rw [process_eq]
  split
  · exact hR.work h i o []
  · exact hR.work h i o _
  · exact hR.settleTransition h hx

/-- An envelope is taken out of the mailbox, or the work of the instance ends. -/
theorem nextEnvelope (hR : Covers R) (h : R r st c.engine below)
    (hx : c.engine.get? i = some x) :
  R r st (Configuration.nextEnvelope H c i x o below).engine
    (Configuration.nextEnvelope H c i x o below).stack
  := by
  rw [Configuration.nextEnvelope]
  split
  · exact hR.settle (c := ((c.withEngine (c.engine.modify i fun x =>
      { x with busy := false })).withStack below).back (.outcome o))
      (hR.trans h (hR.modify _ _ hx ⟨rfl, id, rfl⟩))
  · next e more _ =>
    have hsets := Engine.sets_modify hx fun x => { x with mailbox := more }
    exact hR.process (c := c.withEngine _)
      (hR.trans h (hR.modify _ _ hx ⟨rfl, id, rfl⟩)) hsets.get?_self e

/-- A child is spawned and started. -/
theorem startChild (hR : Covers R) (h : R r st c.engine c.stack)
    (hx : c.engine.get? i = some x) (state : String) (context : Context) (v : Invocation κ) :
  R r st (Configuration.startChild H c i x state context v).engine
    (Configuration.startChild H c i x state context v).stack
  := by
  rw [Configuration.startChild]
  split
  · exact h
  · have hengine : (resolveChild H c x v context).2.engine = c.engine
        ∧ (resolveChild H c x v context).2.stack = c.stack := by
      rw [snd_resolveChild]
      exact ⟨rfl, rfl⟩
    split
    · next machine c' heq =>
      rw [heq] at hengine
      obtain ⟨hengine, hstack⟩ := hengine
      rw [← hengine, ← hstack] at h
      rw [← hengine] at hx
      apply hR.start (c := c'.withEngine (c'.engine.spawn i machine v.id state))
      simp only [Engine.spawn, hx, withEngine]
      have hadded := hR.trans h (hR.add (x := .new machine
        (machine.services.withFallback x.services) x.pool (some ⟨v.id, state, i⟩)) _ _ rfl)
      refine hR.trans hadded (hR.modify _ _ (x := x) ?_ ⟨rfl, id, rfl⟩)
      have hne := Nat.ne_of_lt (Engine.lt_next_of_get? hx)
      rw [Engine.get?, Table.get?_add, if_neg hne]
      exact hx
    · next e c' heq =>
      rw [heq] at hengine
      obtain ⟨hengine, hstack⟩ := hengine
      rw [← hengine, ← hstack] at h
      rw [← hengine] at hx
      exact hR.trans h (hR.modify _ _ hx ⟨rfl, id, rfl⟩)

/-- A report is noted with the instance and delivered to its parent. -/
theorem report (hR : Covers R) (h : R r st c.engine c.stack) (hx : c.engine.get? i = some x)
    (value : StateValue) :
  R r st (c.report i x value).engine (c.report i x value).stack
  := by
  rw [Configuration.report]
  split
  · have hmarked := hR.trans h (hR.modify
      (fun x => { x with doneReported := true }) c.stack hx ⟨rfl, id, rfl⟩)
    split
    · exact hR.deliver (c := c.withEngine _) hmarked _ _
    · exact hmarked
  · exact h

/-- Children are stopped and forgotten by their parent. -/
theorem stopChildren (hR : Covers R) (h : R r st c.engine below)
    (hx : c.engine.get? i = some x) :
  R r st (c.engine.stopChildren i) below
  := by
  rw [Engine.stopChildren, hx]
  have hstops (children : List Nat) (r' : Engine κ) (h : R r st r' below) :
      R r st (children.foldl Engine.stop r') below := by
    induction children generalizing r' with
    | nil => exact h
    | cons child rest ih => exact ih _ (hR.trans h (hR.stop _ _ child))
  exact hstops _ _ (hR.trans h (hR.modify _ _ hx ⟨rfl, id, rfl⟩))

/-- A phase is carried out by changes that the relation covers. -/
theorem stepPhase (hR : Covers R) (h : R r st c.engine below) (hx : c.engine.get? i = some x)
    (rest : List (Phase κ)) (p : Phase κ) :
  R r st (Configuration.stepPhase H c i x o rest below p).engine
    (Configuration.stepPhase H c i x o rest below p).stack
  := by
  have hwork (o : Except MachineError Unit) (phases : List (Phase κ)) :
      R r st (c.work i o phases below).engine (c.work i o phases below).stack :=
    hR.work h i o phases
  cases p with
  | perform actions context event =>
    cases actions with
    | nil => exact hwork o rest
    | cons a more =>
      rw [Configuration.stepPhase]
      split
      · exact hR.enter (hwork o (.perform more context event :: rest)) _
      · exact hwork o []
  | stopChildren =>
    exact hR.work (c := c.withEngine (c.engine.stopChildren i)) (hR.stopChildren h hx) i o rest
  | startChildren =>
    rw [Configuration.stepPhase]
    split
    · split
      · exact hwork _ []
      · exact hwork o rest
      · exact hwork o _
    · exact hwork o rest
  | invoke state context vs =>
    cases vs with
    | nil => exact hwork o rest
    | cons v more =>
      rw [Configuration.stepPhase]
      split
      · exact hR.startChild (c := c.work i o (.invoke state context more :: rest) below)
          (hwork o _) hx state context v
      · exact hwork o rest
  | publish s =>
    rw [Configuration.stepPhase]
    split
    · exact hwork o _
    · exact hwork o []
  | notify s ls =>
    cases ls with
    | nil => exact hwork o rest
    | cons l more => exact hR.enter (hwork o (.notify s more :: rest)) _
  | rearm =>
    rw [Configuration.stepPhase]
    split
    · simp only
      split
      · exact hwork _ []
      · next armed harmed =>
        exact hR.work (c := (c.observe H (c.engine.armTimers i).evaluations).withEngine armed)
          (hR.trans h (hR.rearm _ hx harmed)) i o rest
    · exact hwork o rest
  | report value =>
    rw [Configuration.stepPhase]
    exact hR.report (c := c.work i o rest below) (hwork o rest) hx value

/-! ### Steps -/

/-- A callback of the clock makes a delivery, or runs code of the host. -/
theorem call (hR : Covers R) (h : R r st c.engine c.stack) (cb : Callback κ) :
  R r st (Configuration.call H c cb).engine (Configuration.call H c cb).stack
  := by
  cases cb with
  | code code => exact hR.enter h _
  | after i state key generation => exact hR.deliver h i _

/-- After its impulse the clock calls what was due. -/
theorem stepClock (hR : Covers R) {target : Nat} (hst : c.stack = .advancing target :: below)
    (h : R r st (c.engine.withTiming fun t => t.tick target)
      (match c.engine.timing.firesOn? target with
      | some channel => .fired channel :: c.stack
      | none => c.stack)) :
  R r st (Configuration.stepClock H c target below).engine
    (Configuration.stepClock H c target below).stack
  := by
  rw [Timing.firesOn?] at h
  simp only [Timing.tick, Engine.withTiming] at h
  rw [Configuration.stepClock]
  cases hdue : c.engine.timing.scheduler.takeDue target with
  | none =>
    simp only [hdue] at h
    rw [hst] at h
    exact hR.trans h (hR.pop _ _ rfl)
  | some taken =>
    obtain ⟨p, scheduler⟩ := taken
    simp only [hdue] at h ⊢
    cases htask : p.task with
    | task callback =>
      simp only [htask] at h
      exact hR.call
        (c := c.withEngine (c.engine.withTiming fun t => { t with scheduler := scheduler })) h
        callback
    | timer id =>
      simp only [htask] at h
      simp only [runJob, Engine.withTiming, withEngine]
      generalize Timing.fire { c.engine.timing with scheduler := scheduler } id = fired at h ⊢
      obtain ⟨result, timing⟩ := fired
      cases result with
      | none => exact h
      | some called =>
        obtain ⟨callback, channel⟩ := called
        cases callback with
        | none => exact h
        | some callback =>
          exact hR.call (c := (c.withEngine { c.engine with timing := timing }).withStack
            (.fired channel :: c.stack)) h callback

/-- A step goes on from its impulse in the ways in which engines go on by themselves. -/
theorem step (hR : Covers R) (h : step? H c = some d) :
  R c.impulse.1 c.impulse.2 d.engine d.stack
  := by
  rw [step?] at h
  rw [impulse]
  cases hcontrol : c.control with
  | host next =>
    cases next with
    | done =>
      simp only [hcontrol, Option.some.injEq] at h
      subst h
      exact hR.refl _ _
    | call call point =>
      simp only [hcontrol, Option.some.injEq] at h
      subst h
      exact hR.perform (c := c.withStack (.waiting point :: c.stack)) (hR.push _ _ rfl)
  | back reply =>
    simp only [hcontrol] at h
    cases hst : c.stack with
    | nil => simp [hst] at h
    | cons f below =>
      rw [hst] at h
      cases f with
      | waiting point =>
        obtain rfl := Option.some.inj h
        exact hR.enter (c := c.withStack below) (hR.pop _ _ rfl) _
      | advancing target =>
        obtain rfl := Option.some.inj h
        refine hR.stepClock hst ?_
        rw [hst]
        exact hR.refl _ _
      | fired channel =>
        obtain rfl := Option.some.inj h
        exact hR.refl _ _
      | working i o phases =>
        have hpopped : R c.engine (.working i o phases :: below) c.engine below :=
          hR.pop _ _ rfl
        cases hx : c.engine.get? i with
        | none =>
          simp only [hx, Option.some.injEq] at h
          subst h
          exact hpopped
        | some x =>
          simp only [hx] at h
          cases phases with
          | nil =>
            obtain rfl := Option.some.inj h
            exact hR.nextEnvelope hpopped hx
          | cons p rest =>
            obtain rfl := Option.some.inj h
            exact hR.stepPhase hpopped hx rest p
      | replaying i listener =>
        obtain rfl := Option.some.inj h
        exact hR.settle (c := (c.withStack below).back _) (hR.pop _ _ rfl)

end Covers

end Configuration

/-! ### Listeners -/

/-- Instances that are not stopped keep their listeners. -/
structure Engine.Retains (r r' : Engine κ) : Prop where
  next_le : r.instances.next ≤ r'.instances.next
  instances : ∀ {i y}, i < r.instances.next → r'.get? i = some y →
    ∃ x, r.get? i = some x ∧ (x.status = .stopped → y.status = .stopped)
      ∧ (y.status ≠ .stopped → y.listeners = x.listeners)

namespace Engine

variable {r r' r'' : Engine κ}

/-- If of the instances that were there some are gone and none has changed, all is retained. -/
theorem Retains.of_get? (hnext : r.instances.next ≤ r'.instances.next)
    (h : ∀ i y, i < r.instances.next → r'.get? i = some y → r.get? i = some y) :
  Retains r r'
  where
  next_le := hnext
  instances {i y} hlt hy := ⟨y, h i y hlt hy, id, fun _ => rfl⟩

/-- What is retained twice is retained. -/
theorem Retains.trans (h : Retains r r') (h' : Retains r' r'') :
  Retains r r''
  where
  next_le := Nat.le_trans h.next_le h'.next_le
  instances {i z} hlt hz := by
    obtain ⟨y, hy, hstopped', hkept'⟩ := h'.instances (Nat.lt_of_lt_of_le hlt h.next_le) hz
    obtain ⟨x, hx, hstopped, hkept⟩ := h.instances hlt hy
    refine ⟨x, hx, fun hs => hstopped' (hstopped hs), fun hs => ?_⟩
    exact (hkept' hs).trans (hkept fun hy => hs (hstopped' hy))

/-- A change of one instance that retains these retains them for all. -/
theorem Sets.retains {i : Nat} {x y : Instance κ} (h : Sets r r' i y) (hx : r.get? i = some x)
    (hy : x.Retains y) :
  Retains r r'
  where
  next_le := Nat.le_of_eq h.next.symm
  instances {j z} _ hz := by
    rw [h.get?] at hz
    split at hz
    · next hj =>
      subst hj
      obtain rfl := Option.some.inj hz
      exact ⟨x, hx, hy.stopped, fun _ => hy.listeners⟩
    · exact ⟨z, hz, id, fun _ => rfl⟩

/-- Registering a machine makes no instance. -/
theorem instances_register (r : Engine κ) (registry : Nat) (d : MachineDescriptor κ)
    (b : Bundle κ) :
  (r.register registry d b).value.2.instances = r.instances
  := by
  rw [register]
  split
  · rfl
  · split
    · rfl
    · rw [Evaluated.value_bind]
      split <;> rfl

/-- Stopping instances keeps their machines, and they stay stopped. -/
theorem Halts.retains (h : Halts r r') :
  Retains r r'
  where
  next_le := Nat.le_of_eq h.next.symm
  instances {i y} _ hy := by
    obtain ⟨x, hx, rfl | ⟨-, rfl, -⟩⟩ := h.exists_get? hy
    · exact ⟨y, hx, id, fun _ => rfl⟩
    · exact ⟨x, hx, fun _ => rfl, fun hnot => absurd rfl hnot⟩

end Engine

namespace Configuration

variable {H : Host κ π σ} {c d : Configuration κ π σ}

/-- Machines and listeners change by calls of the host only. -/
theorem covers_retains :
  Covers (π := π) fun (r : Engine κ) _ r' _ => r.Retains r'
  where
  refl r _ := .of_get? (Nat.le_refl _) fun _ _ _ hy => hy
  trans h h' := h.trans h'
  push r _ _ := .of_get? (Nat.le_refl _) fun _ _ _ hy => hy
  pop r _ _ := .of_get? (Nat.le_refl _) fun _ _ _ hy => hy
  add {x} r _ _ := by
    have hadds : Engine.Adds r { r with instances := r.instances.add x } x :=
      Engine.adds_create rfl rfl
    refine .of_get? (Nat.le_of_lt (Nat.lt_of_lt_of_eq (Nat.lt_succ_self _) hadds.next.symm)) ?_
    intro i y hlt hy
    rwa [hadds.get?, if_neg (Nat.ne_of_gt hlt)] at hy
  modify f _ hx hf := (Engine.sets_modify hx f).retains hx hf
  stop r _ i := (Engine.halts_stop r i).retains
  release r _ held :=
    have hreleases := Engine.releases_release r held
    .of_get? (Nat.le_of_eq hreleases.next.symm) fun _ _ _ hy => hreleases.get?_of_get? hy
  rearm _ hx harmed := by
    obtain ⟨r₁, timers, generation, hsame, hx₁, hsets⟩ := Engine.exists_sets_of_armTimers hx harmed
    refine .trans (.of_get? (Nat.le_of_eq hsame.next.symm) fun i y _ hy => hsame.get? i ▸ hy) ?_
    exact hsets.retains hx₁ ⟨rfl, id, rfl⟩

/-- Listeners of instances come and go by what the host asks for alone, until their instance is
stopped. -/
theorem retains_step (h : step? H c = some d) :
  c.impulse.1.Retains d.engine
  := covers_retains.step h

end Configuration

end Statechart
