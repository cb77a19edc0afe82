import Statechart.Proofs.Holding

/-!
# What work rests on

Work that is under way on top of other activities does not look at them: it only keeps their
instances alive.  A step on top of other activities is therefore a step without them, by a host
that holds on to their instances as well (`Configuration.step?_onto`).
-/

namespace Statechart

variable {κ π σ : Type}

/-! ### Releases -/

namespace Engine

variable {r : Engine κ} {ids ids' held held' : List Nat}

/-- The children of some instances do not depend on the order of these. -/
theorem mem_childrenOf_congr (h : ∀ i, i ∈ ids ↔ i ∈ ids') (i : Nat) :
  i ∈ r.childrenOf ids ↔ i ∈ r.childrenOf ids'
  := by
  simp only [childrenOf, List.mem_flatMap, h]

/-- What is reached does not depend on the order of what it is reached from. -/
theorem mem_reach_congr {depth : Nat} (h : ∀ i, i ∈ ids ↔ i ∈ ids') (i : Nat) :
  i ∈ r.reach depth ids ↔ i ∈ r.reach depth ids'
  := by
  induction depth generalizing ids ids' with
  | zero => exact h i
  | succ depth ih =>
    have hnext : ∀ j, j ∈ (r.childrenOf ids).filter (fun i => !ids.contains i)
        ↔ j ∈ (r.childrenOf ids').filter fun i => !ids'.contains i := by
      intro j
      simp only [List.mem_filter, mem_childrenOf_congr h, List.contains_eq_mem, h]
    have hempty : ((r.childrenOf ids).filter fun i => !ids.contains i).isEmpty
        = ((r.childrenOf ids').filter fun i => !ids'.contains i).isEmpty := by
      rw [Bool.eq_iff_iff, List.isEmpty_iff, List.isEmpty_iff, List.eq_nil_iff_forall_not_mem,
        List.eq_nil_iff_forall_not_mem]
      simp only [hnext]
    rw [reach, reach]
    simp only [hempty]
    split
    · exact h i
    · apply ih
      intro j
      simp only [List.mem_append, List.mem_eraseDups, h, hnext]

/-- A release does not depend on the order of what is held. -/
theorem release_congr (h : ∀ i, i ∈ held ↔ i ∈ held') :
  r.release held = r.release held'
  := by
  have hreached (i : Nat) : i ∈ r.reach r.instances.next (held ++ r.registered).eraseDups
      ↔ i ∈ r.reach r.instances.next (held' ++ r.registered).eraseDups := by
    apply mem_reach_congr
    intro j
    simp only [List.mem_eraseDups, List.mem_append, h]
  rw [release, release]
  congr 1
  apply List.filter_congr
  intro i _
  simp only [List.contains_eq_mem, hreached]

end Engine

/-- The host that holds on to some instances more. -/
def Host.holding (H : Host κ π σ) (ids : List Nat) : Host κ π σ :=
  { H with held := fun memory => H.held memory ++ ids }

namespace Configuration

variable {H : Host κ π σ} {c : Configuration κ π σ} {w below : List (Frame κ π)} {i : Nat}
  {x : Instance κ} {o : Except MachineError Unit}

/-- A configuration on top of activities that are under way. -/
def onto (c : Configuration κ π σ) (w : List (Frame κ π)) : Configuration κ π σ :=
  c.withStack (c.stack ++ w)

@[simp]
theorem engine_onto (c : Configuration κ π σ) (w : List (Frame κ π)) :
  (c.onto w).engine = c.engine
  := rfl

@[simp]
theorem control_onto (c : Configuration κ π σ) (w : List (Frame κ π)) :
  (c.onto w).control = c.control
  := rfl

@[simp]
theorem stack_onto (c : Configuration κ π σ) (w : List (Frame κ π)) :
  (c.onto w).stack = c.stack ++ w
  := rfl

/-! ### Code of the host -/

/-- A release on top of other work spares what the host would hold for this work. -/
theorem settle_onto (H : Host κ π σ) (c : Configuration κ π σ) (w : List (Frame κ π)) :
  settle H (c.onto w) = (settle (H.holding (owners w)) c).onto w
  := by
  have hrelease : c.engine.release (H.held c.memory ++ owners (c.stack ++ w))
      = c.engine.release ((H.held c.memory ++ owners w) ++ owners c.stack) := by
    apply Engine.release_congr
    intro i
    simp only [owners, List.filterMap_append, List.mem_append]
    tauto
  rw [settle, settle, onto, onto]
  simp only [withStack]
  rw [← owners, ← owners, hrelease]
  rfl

/-- Code of the host does not see the work below it; only the release after it does. -/
theorem enter_onto (H : Host κ π σ) (c : Configuration κ π σ) (w : List (Frame κ π))
    (code : Engine κ → σ → Next κ π × σ) :
  enter H (c.onto w) code = (enter (H.holding (owners w)) c code).onto w
  := settle_onto H { c with
    memory := (code c.engine c.memory).2, control := .host (code c.engine c.memory).1 } w

/-! ### Deliveries -/

/-- An envelope is posted or begins work in the same way on top of other work. -/
theorem deliver_onto (c : Configuration κ π σ) (w : List (Frame κ π)) (i : Nat) (e : Envelope) :
  (c.onto w).deliver i e = (c.deliver i e).onto w
  := by
  rw [deliver, deliver, engine_onto]
  cases c.engine.get? i with
  | none => rfl
  | some x =>
    simp only
    cases x.busy <;> rfl

/-- Starting an instance does not look at the work below. -/
theorem start_onto (c : Configuration κ π σ) (w : List (Frame κ π)) (i : Nat) :
  (c.onto w).start i = (c.start i).onto w
  := by
  rw [start, start, engine_onto]
  cases c.engine.get? i with
  | none => rfl
  | some x =>
    simp only
    split
    · exact deliver_onto (c.withEngine _) w i .start
    · rfl

/-- Starting an instance with a value and a context does not look at the work below, also when
the value is refused. -/
theorem startWith_onto (c : Configuration κ π σ) (w : List (Frame κ π)) (i : Nat)
    (value : StateValue) (context : Context) :
  (c.onto w).startWith i value context = (c.startWith i value context).onto w
  := by
  rw [startWith, startWith, engine_onto]
  cases c.engine.get? i with
  | none => rfl
  | some x =>
    simp only
    split
    · cases x.machine.snapshotAt value context with
      | error e => rfl
      | ok s => exact start_onto (c.withEngine _) w i
    · rfl

/-- Starting an instance at a value does not look at the work below. -/
theorem startAt_onto (c : Configuration κ π σ) (w : List (Frame κ π)) (i : Nat)
    (value : StateValue) :
  (c.onto w).startAt i value = (c.startAt i value).onto w
  := by
  rw [startAt, startAt, engine_onto]
  cases c.engine.get? i with
  | none => rfl
  | some x => exact startWith_onto c w i value _

/-- Sending an event does not look at the work below: what decides is whether the receiver
itself is busy. -/
theorem send_onto (c : Configuration κ π σ) (w : List (Frame κ π)) (i : Nat) (event : Event) :
  (c.onto w).send i event = (c.send i event).onto w
  := by
  rw [send, send, engine_onto]
  split
  · exact deliver_onto c w i _
  · rfl

/-- A replay to a new listener goes on top of the work below. -/
theorem subscribe_onto (H : Host κ π σ) (c : Configuration κ π σ) (w : List (Frame κ π))
    (i : Nat) (listener : κ) :
  subscribe H (c.onto w) i listener = (subscribe (H.holding (owners w)) c i listener).onto w
  := by
  rw [subscribe, subscribe, engine_onto]
  cases c.engine.get? i with
  | none => rfl
  | some x =>
    exact enter_onto H ((c.withEngine (c.engine.addListener i listener)).withStack
      (.replaying i x.nextListener :: c.stack)) w (H.notify listener x.snapshot)

/-! ### Calls -/

/-- Every call of the host is carried out on top of other work as without it. -/
theorem perform_onto (H : Host κ π σ) (c : Configuration κ π σ) (w : List (Frame κ π))
    (call : Call κ) :
  perform H (c.onto w) call = (perform (H.holding (owners w)) c call).onto w
  := by
  cases call with
  | start i => exact start_onto c w i
  | startAt i value => exact startAt_onto c w i value
  | startWith i value context => exact startWith_onto c w i value context
  | send i event => exact send_onto c w i event
  | subscribe i listener => exact subscribe_onto H c w i listener
  | clear registry id => exact settle_onto H ((c.withEngine _).back .done) w
  | _ => rfl

/-- A callback of the clock is run on top of other work as without it. -/
theorem call_onto (H : Host κ π σ) (c : Configuration κ π σ) (w : List (Frame κ π))
    (cb : Callback κ) :
  call H (c.onto w) cb = (call (H.holding (owners w)) c cb).onto w
  := by
  cases cb with
  | code code => exact enter_onto H c w _
  | after i state key generation => exact deliver_onto c w i _

/-- A task of the clock, or the end of a timer, is run on top of other work as without it. -/
theorem runJob_onto (H : Host κ π σ) (c : Configuration κ π σ) (w : List (Frame κ π))
    (job : Job (Callback κ)) :
  runJob H (c.onto w) job = (runJob (H.holding (owners w)) c job).onto w
  := by
  cases job with
  | task cb => exact call_onto H c w cb
  | timer id =>
    rw [runJob, runJob, engine_onto]
    obtain ⟨fired, timing⟩ := c.engine.timing.fire id
    cases fired with
    | none => rfl
    | some fired =>
      obtain ⟨callback, channel⟩ := fired
      cases callback with
      | none => rfl
      | some callback =>
        exact call_onto H ((c.withEngine { c.engine with timing := timing }).withStack
          (.fired channel :: c.stack)) w callback

/-! ### Work of an instance -/

/-- The phases that follow a transition are put on top of the work below. -/
theorem settleTransition_onto (H : Host κ π σ) (c : Configuration κ π σ) (w : List (Frame κ π))
    (event : Event) (rearm : Rearm)
    (found : Evaluated (Except MachineError (Option (Snapshot κ)))) :
  settleTransition H (c.onto w) i x o (below ++ w) event rearm found
    = (settleTransition (H.holding (owners w)) c i x o below event rearm found).onto w
  := by
  rw [settleTransition, settleTransition]
  cases found.value with
  | error e => rfl
  | ok next? => cases next? <;> rfl

/-- Processing an envelope reads the instance and not the work below. -/
theorem process_onto (H : Host κ π σ) (c : Configuration κ π σ) (w : List (Frame κ π))
    (e : Envelope) :
  process H (c.onto w) i x o (below ++ w) e
    = (process (H.holding (owners w)) c i x o below e).onto w
  := by
  rw [process_eq, process_eq]
  cases x.resolution e with
  | ignore => rfl
  | begin => rfl
  | attempt event rearm found => exact settleTransition_onto H c w event rearm found

/-- Work goes on with the next envelope, and ends at an empty mailbox, as without the work
below. -/
theorem nextEnvelope_onto (H : Host κ π σ) (c : Configuration κ π σ) (w : List (Frame κ π)) :
  nextEnvelope H (c.onto w) i x o (below ++ w)
    = (nextEnvelope (H.holding (owners w)) c i x o below).onto w
  := by
  rw [nextEnvelope, nextEnvelope]
  cases x.mailbox with
  | nil =>
    exact settle_onto H (((c.withEngine (c.engine.modify i fun x =>
      { x with busy := false })).withStack below).back (.outcome o)) w
  | cons e more => exact process_onto H (c.withEngine _) w e

/-- A child is resolved, made and started as without the work below. -/
theorem startChild_onto (H : Host κ π σ) (c : Configuration κ π σ) (w : List (Frame κ π))
    (state : String) (context : Context) (v : Invocation κ) :
  startChild H (c.onto w) i x state context v
    = (startChild (H.holding (owners w)) c i x state context v).onto w
  := by
  have hresolve : resolveChild H (c.onto w) x v context
      = ((resolveChild (H.holding (owners w)) c x v context).1,
        (resolveChild (H.holding (owners w)) c x v context).2.onto w) := by
    rw [resolveChild.eq_def, resolveChild.eq_def]
    cases v.source with
    | factory code => rfl
    | service name =>
      simp only
      cases x.services.get? name <;> rfl
  rw [startChild, startChild, hresolve]
  split
  · rfl
  · obtain ⟨result, c'⟩ := resolveChild (H.holding (owners w)) c x v context
    cases result with
    | ok machine => exact start_onto (c'.withEngine _) w _
    | error e => rfl

/-- A report to the parent does not look at the work below. -/
theorem report_onto (c : Configuration κ π σ) (w : List (Frame κ π)) (value : StateValue) :
  (c.onto w).report i x value = (c.report i x value).onto w
  := by
  rw [report, report]
  split
  · cases x.parent with
    | none => rfl
    | some link => exact deliver_onto (c.withEngine _) w link.parent _
  · rfl

/-- Every phase of a transition is carried out on top of other work as without it. -/
theorem stepPhase_onto (H : Host κ π σ) (c : Configuration κ π σ) (w : List (Frame κ π))
    (rest : List (Phase κ)) (p : Phase κ) :
  stepPhase H (c.onto w) i x o rest (below ++ w) p
    = (stepPhase (H.holding (owners w)) c i x o rest below p).onto w
  := by
  cases p with
  | perform actions context event =>
    cases actions with
    | nil => rfl
    | cons a more =>
      rw [stepPhase, stepPhase]
      split
      · exact enter_onto H (c.work i o (.perform more context event :: rest) below) w _
      · rfl
  | stopChildren => rfl
  | startChildren =>
    rw [stepPhase, stepPhase]
    split
    · cases activeInvocations x with
      | error e => rfl
      | ok found => cases found <;> rfl
    · rfl
  | invoke state context vs =>
    cases vs with
    | nil => rfl
    | cons v more =>
      rw [stepPhase, stepPhase]
      split
      · exact startChild_onto H (c.work i o (.invoke state context more :: rest) below) w _ _ v
      · rfl
  | publish s =>
    rw [stepPhase, stepPhase]
    split <;> rfl
  | notify s listeners =>
    cases listeners with
    | nil => rfl
    | cons l more => exact enter_onto H (c.work i o (.notify s more :: rest) below) w _
  | rearm =>
    rw [stepPhase, stepPhase, engine_onto]
    split
    · simp only
      cases (c.engine.armTimers i).value <;> rfl
    · rfl
  | report value => exact report_onto (c.work i o rest below) w value

/-! ### Steps -/

/-- The clock takes the same tasks while it advances on top of other work. -/
theorem stepClock_onto (H : Host κ π σ) (c : Configuration κ π σ) (w : List (Frame κ π))
    (target : Nat) :
  stepClock H (c.onto w) target (below ++ w)
    = (stepClock (H.holding (owners w)) c target below).onto w
  := by
  rw [stepClock, stepClock, engine_onto]
  cases c.engine.timing.scheduler.takeDue target with
  | none => rfl
  | some taken => exact runJob_onto H (c.withEngine _) w taken.1.task

/-- A step on top of other activities is a step without them, by a host that holds on to their
instances as well. -/
theorem step?_onto (hc : c.control.isBack = true → c.stack ≠ []) (w : List (Frame κ π)) :
  step? H (c.onto w) = (step? (H.holding (owners w)) c).map fun d => d.onto w
  := by
  rw [step?, step?, control_onto]
  cases hcontrol : c.control with
  | host next =>
    cases next with
    | done => rfl
    | call call point =>
      exact congrArg some (perform_onto H (c.withStack (.waiting point :: c.stack)) w call)
  | back reply =>
    cases hstack : c.stack with
    | nil => exact absurd hstack (hc (by rw [hcontrol]; rfl))
    | cons f below =>
      simp only [stack_onto, hstack, List.cons_append]
      cases f with
      | waiting point => exact congrArg some (enter_onto H (c.withStack below) w _)
      | advancing target => exact congrArg some (stepClock_onto H c w target)
      | fired channel => rfl
      | working j o ps =>
        simp only [engine_onto]
        cases c.engine.get? j with
        | none => rfl
        | some x =>
          cases ps with
          | nil => exact congrArg some (nextEnvelope_onto H c w)
          | cons p rest => exact congrArg some (stepPhase_onto H c w rest p)
      | replaying j listener =>
        exact congrArg some (settle_onto H ((c.withStack below).back _) w)

end Configuration

end Statechart
