import Statechart.Engine.Execution
import Statechart.Scenario.Inquiry

/-!
# Operations of a session

A session gives names to machines, instances, timers, receivers, tasks and
subscriptions, and performs operations on them.  An operation makes exactly one call to
the engine, if only to yield; its `Conclusion` tells how the reply becomes its result.
-/

namespace Statechart

namespace Scenario

/-- What a session knows by name, with its ledger and the result of its last
operation.  A subscription is an instance and the number of a listener of it. -/
structure Memory where
  ledger : Ledger
  machines : OrderedMap (Machine Code)
  instances : OrderedMap Nat
  timers : OrderedMap Nat
  receivers : OrderedMap Nat
  tasks : OrderedMap Nat
  subscriptions : OrderedMap (Nat × Nat)
  result : Json

/-- The memory of a session that has not begun. -/
def Memory.empty : Memory :=
  ⟨.empty, .empty, .empty, .empty, .empty, .empty, .empty, .null⟩

/-- The timer pool of a session. -/
def sessionPool : Nat := 0

/-- The registry of a session. -/
def sessionRegistry : Nat := 0

/-- What becomes of the reply to the call of an operation. -/
inductive Conclusion where
  | known (value : Json)
  | nothing
  | flag
  | outcome
  | receipt
  | bindInstance (name : String)
  | bindRegistered (name : String)
  | bindMachine (name : String)
  | bindTimer (name : String)
  | bindReceiver (name : String)
  | bindTask (name : String)
  | bindSubscription (name : String) (owner : Nat)

/-- A call, and what becomes of its reply. -/
structure Request where
  call : Call Code
  conclusion : Conclusion

/-- What works on the memory of a session and may fail. -/
abbrev Operating (α : Type) : Type := ExceptT Failure (StateM Memory) α

namespace Operating

/-- Goes on with an answer. -/
def ofAnswer {α : Type} (a : Answer α) : Operating α := ExceptT.mk (pure a)

/-- Fails. -/
def fail {α : Type} (failure : Failure) : Operating α := ofAnswer (.error failure)

/-- Makes an inquiry. -/
def inquire {α : Type} (x : Inquiry α) : Operating α := ExceptT.mk fun m =>
  let (answer, ledger) := x.run m.ledger
  (answer, { m with ledger := ledger })

/-- Records. -/
def record {α : Type} (x : Recording α) : Operating α := inquire (Inquiry.record x)

/-- Changes the memory. -/
def update (f : Memory → Memory) : Operating Unit := ExceptT.lift (modify f)

/-- The memory. -/
def memory : Operating Memory := ExceptT.lift get

/-! ### Names -/

/-- What a name stands for among the names of a kind. -/
def known {α : Type} (what : String) (names : OrderedMap α) (name : String) :
    Operating α :=
  match names.get? name with
  | some a => pure a
  | none => fail (.notFound what name)

/-- The instance that a path leads to: a name, then identifiers of children. -/
def instancePath? (e : Engine Code) (m : Memory) (path : String) : Option Nat :=
  match path.splitOn "/" with
  | [] => none
  | name :: ids =>
    ids.foldl (fun i id => i.bind fun i => e.child? i id) (m.instances.get? name)

/-- The instance that is meant by a path. -/
def owner (e : Engine Code) (path : String) : Operating Nat := do
  let m ← memory
  match instancePath? e m path with
  | some i => return i
  | none => fail (.notFound "interpreter" path)

/-- The instance that is meant by a path, with its contents. -/
def ownerWith (e : Engine Code) (path : String) : Operating (Instance Code) := do
  let i ← owner e path
  match e.get? i with
  | some x => return x
  | none => fail (.notFound "interpreter" path)

/-- The timer with a name. -/
def timer (name : String) : Operating Nat := do
  let m ← memory
  known "timer" m.timers name

/-- The subscription with a name. -/
def subscription (name : String) : Operating (Nat × Nat) := do
  let m ← memory
  known "subscription" m.subscriptions name

/-- The machine that is meant: one with a name, or one that is described. -/
def machine (j : Json) : Operating (Machine Code) :=
  match j with
  | .string name => do
    let m ← memory
    known "machine" m.machines name
  | j => inquire (Inquiry.machine sessionPool j)

/-! ### Kinds of operations -/

/-- An operation that calls the engine. -/
def calling (call : Call Code) (conclusion : Conclusion) : Operating Request :=
  pure ⟨call, conclusion⟩

/-- An operation with a result that is known at once. -/
def knowing (result : Json) : Operating Request := calling .yield (.known result)

/-! ### Looking -/

/-- Which paths an instance matches. -/
def matchesOf (x : Instance Code) (j : Json) : Json :=
  .array ((j.itemsAt "keys").map fun k => .bool (x.snapshot.matchesPath k.asText))

/-- What is to be said about a timer. -/
def timerInfo (e : Engine Code) (id : Nat) : Json :=
  let finished := e.timing.isFinished id
  .ofFields
    [("running", .bool (e.timing.isRunning id)), ("finished", .bool finished),
     ("terminal", .bool finished)]

/-- The pool of the registry of a session. -/
def registryPool (e : Engine Code) : Nat :=
  match e.registries.get? sessionRegistry with
  | some reg => reg.pool
  | none => sessionPool

/-- What is to be said about an identifier in the registry of a session, and about the
pool of the registry. -/
def registryInfo (e : Engine Code) (id : String) : Json :=
  let reg := (e.registries.get? sessionRegistry).getD ⟨sessionPool, .empty, .empty⟩
  let machine := (reg.machines.get? id).map fun m => m.initial.value.text
  let current := (reg.instances.get? id).bind fun i =>
    (e.get? i).map fun x => x.snapshot.value.text
  .ofFields
    [("len", .nat reg.machines.size), ("empty", .bool reg.machines.isEmpty),
     ("machine", textOrNull machine), ("interpreter", textOrNull current),
     ("paused", .bool (e.timing.isPaused reg.pool)), ("live", .nat (e.timing.live reg.pool)),
     ("stashed", .nat (e.timing.stashed reg.pool))]

/-- The one-line description of something with a name. -/
def describe (e : Engine Code) (j : Json) : Operating Json := do
  let of := j.textAt "of"
  let text ← match j.textAt "what" with
    | "machine" => do
      let m ← machine (j.field "of")
      pure (Description.machine m)
    | "interpreter" => do
      let x ← ownerWith e of
      pure (Description.running "SESSION" x)
    | "timer" => do
      let id ← timer of
      match e.timing.timers.get? id with
      | some t => pure (Description.timer t)
      | none => fail (.notFound "timer" of)
    | "subscription" => do
      let (owner, listener) ← subscription of
      pure (Description.subscription listener (e.hasListener owner listener))
    | "coordinator" => pure (Description.pool e.timing sessionPool)
    | "actions" => do
      let x ← ownerWith e of
      pure (Description.list (x.snapshot.actions.map Description.effect))
    | word => fail (.badRequest ("cannot describe " ++ word))
  return .string text

/-! ### Timer pools -/

/-- An operation on a timer pool, if a word names one. -/
def poolOperation? (e : Engine Code) (pool : Nat) (word : String) :
    Option (Operating Request) :=
  match word with
  | "pause_all" => some (calling (.pauseAll pool) .nothing)
  | "start_all" => some (calling (.startAll pool) .nothing)
  | "standby" => some (calling (.standby pool) .nothing)
  | "wake" => some (calling (.wake pool) .nothing)
  | "destroy_all" => some (calling (.destroyAll pool) .nothing)
  | "scheduler_now" => some (knowing (millisToJson e.timing.now))
  | _ => none

/-! ### Instances -/

/-- An operation on machines and instances, if a word names one. -/
def instanceOperation? (e : Engine Code) (j : Json) (word : String) :
    Option (Operating Request) :=
  let of := j.textAt "of"
  let name := j.textAt "as"
  match word with
  | "compile" => some do
    let m ← machine (j.field "machine")
    update fun s => { s with machines := s.machines.insert name m }
    knowing (snapshotToJson m.initial)
  | "new" => some do
    let m ← machine (j.field "machine")
    calling (.create m sessionPool) (.bindInstance name)
  | "start" => some do
    let i ← owner e of
    calling (.start i) .outcome
  | "start_at" => some do
    let i ← owner e of
    let value ← inquire (Inquiry.valueOf (j.field "value"))
    calling (.startAt i value) .outcome
  | "start_with" => some do
    let i ← owner e of
    let value ← inquire (Inquiry.valueOf (j.field "value"))
    calling (.startWith i value (j.fieldsAt "context")) .outcome
  | "send" => some do
    let i ← owner e of
    let event ← inquire (Inquiry.eventOf (j.field "event"))
    calling (.send i event) .outcome
  | "stop" => some do
    let i ← owner e of
    calling (.stop i) .nothing
  | "forget" => some do
    let m ← memory
    update fun s => { s with instances := s.instances.erase of }
    knowing (.bool (m.instances.contains of))
  | "grab" => some do
    let i ← owner e of
    update fun s => { s with instances := s.instances.insert name i }
    knowing .null
  | "grab_timer" => some do
    let x ← ownerWith e of
    let key := j.textAt "key"
    match x.armed? key with
    | some a => do
      update fun s => { s with timers := s.timers.insert name a.timer }
      knowing .null
    | none => fail (.notFound "timer" key)
  | "same" => some do
    let a ← owner e (j.textAt "a")
    let b ← owner e (j.textAt "b")
    knowing (.bool (a == b))
  | "same_session" => some do
    let a ← owner e (j.textAt "a")
    let b ← owner e (j.textAt "b")
    knowing (.bool (a == b))
  | "view" => some do
    let x ← ownerWith e of
    knowing (viewToJson e x)
  | "matches" => some do
    let x ← ownerWith e of
    knowing (matchesOf x j)
  | "subscribe" => some do
    let i ← owner e of
    let script ← record (Script.ofJson j)
    calling (.subscribe i (.listener name script)) (.bindSubscription name i)
  | "unsubscribe" => some do
    let (i, listener) ← subscription of
    update fun s => { s with subscriptions := s.subscriptions.erase of }
    calling (.unsubscribe i listener) .flag
  | "sub_active" => some do
    let (i, listener) ← subscription of
    knowing (.bool (e.hasListener i listener))
  | _ => none

/-! ### Registries -/

/-- An operation on the registry of a session, if a word names one. -/
def registryOperation? (e : Engine Code) (j : Json) (word : String) :
    Option (Operating Request) :=
  match word with
  | "reg_create" => some do
    let (d, b) ← inquire (Inquiry.sources sessionPool (j.field "machine"))
    calling (.register sessionRegistry d b) (.bindMachine (j.textAt "as"))
  | "reg_interpret" => some do
    let m ← machine (j.field "machine")
    calling (.interpret sessionRegistry m) (.bindRegistered (j.textAt "as"))
  | "reg_clear" =>
    some (calling (.clear sessionRegistry ((j.present? "id").map Json.asText)) .nothing)
  | "reg_info" => some (knowing (registryInfo e (j.textAt "id")))
  | "reg_coord" =>
    some ((poolOperation? e (registryPool e) (j.textAt "call")).getD
      (fail (.badRequest ("unknown operation " ++ j.textAt "call"))))
  | _ => none

/-! ### The clock and single timers -/

/-- An operation on the clock or on a timer, if a word names one. -/
def timerOperation? (e : Engine Code) (j : Json) (word : String) :
    Option (Operating Request) :=
  let name := j.textAt "as"
  match word with
  | "advance" => some (calling (.advance (j.natAt "ms")) .nothing)
  | "schedule" => some do
    let script ← record (Script.ofJson j)
    calling (.schedule (j.natAt "ms") (.task name script)) (.bindTask name)
  | "cancel" => some do
    let m ← memory
    let task ← known "task" m.tasks (j.textAt "task")
    calling (.cancel task) .flag
  | "timer" => some do
    let script ← record (Script.ofJson j)
    let callback := if j.flagAt "silent" then none else some (Code.fired name script)
    calling (.newTimer sessionPool (j.natAt "ms") callback) (.bindTimer name)
  | "t_start" => some do
    let id ← timer (j.textAt "timer")
    calling (.startTimer id) .flag
  | "t_restart" => some do
    let id ← timer (j.textAt "timer")
    calling (.restartTimer id) .flag
  | "t_pause" => some do
    let id ← timer (j.textAt "timer")
    calling (.pauseTimer id) .nothing
  | "t_destroy" => some do
    let id ← timer (j.textAt "timer")
    calling (.destroyTimer id) .nothing
  | "t_info" => some do
    let id ← timer (j.textAt "timer")
    knowing (timerInfo e id)
  | "same_timer" => some do
    let a ← timer (j.textAt "a")
    let b ← timer (j.textAt "b")
    knowing (.bool (a == b))
  | "t_completion" => some do
    let id ← timer (j.textAt "timer")
    calling (.completion id) (.bindReceiver name)
  | "recv" => some do
    let m ← memory
    let channel ← known "receiver" m.receivers (j.textAt "of")
    calling (.receive channel) .receipt
  | _ => none

/-! ### All operations -/

/-- The operation that a value describes. -/
def begin (e : Engine Code) (j : Json) : Operating Request :=
  let word := j.textAt "op"
  if word = "debug" then do
    let text ← describe e j
    knowing text
  else
    (instanceOperation? e j word
      <|> registryOperation? e j word
      <|> timerOperation? e j word
      <|> poolOperation? e sessionPool word).getD
        (fail (.badRequest ("unknown operation " ++ word)))

end Operating

/-- The call of the operation that a value describes, and what becomes of the reply. -/
def beginOperation (e : Engine Code) (j : Json) (m : Memory) : Request × Memory :=
  match (Operating.begin e j).run m with
  | (.ok operation, m) => (operation, m)
  | (.error failure, m) => (⟨.yield, .known failure.toJson⟩, m)

namespace Conclusion

/-- The answer of a machine to a call. -/
def ofOutcome : Except MachineError Unit → Json
  | .ok () => .null
  | .error e => (Failure.machine e).toJson

/-- The result of an operation from the reply to its call; new names are bound in the
memory. -/
def conclude (m : Memory) : Conclusion → Reply Code → Json × Memory
  | known value, _ => (value, m)
  | nothing, _ => (.null, m)
  | flag, .flag value => (.bool value, m)
  | outcome, .outcome result => (ofOutcome result, m)
  | receipt, .receipt found => (.string (receiptName found), m)
  | bindInstance name, .number i => (.null, { m with instances := m.instances.insert name i })
  | bindRegistered name, .owner (.ok i) =>
    (.null, { m with instances := m.instances.insert name i })
  | bindRegistered _, .owner (.error error) => ((Failure.build error).toJson, m)
  | bindMachine name, .machine (.ok machine) =>
    (snapshotToJson machine.initial, { m with machines := m.machines.insert name machine })
  | bindMachine _, .machine (.error error) => ((Failure.build error).toJson, m)
  | bindTimer name, .number id => (.null, { m with timers := m.timers.insert name id })
  | bindReceiver name, .channel (.ok channel) =>
    (.null, { m with receivers := m.receivers.insert name channel })
  | bindReceiver _, .channel (.error error) => ((Failure.timer error).toJson, m)
  | bindTask name, .number id => (.null, { m with tasks := m.tasks.insert name id })
  | bindSubscription name owner, .subscribed listener active =>
    (.bool active, { m with subscriptions := m.subscriptions.insert name (owner, listener) })
  | _, _ => (.null, m)

end Conclusion

end Scenario

end Statechart
