import Statechart.Scenario.Operation

/-!
# Sessions

A session performs operations one after another, from outside and from the scripts of
its code.  The answer to each one from outside has its result, the reports that were
made on the way, and the state of the session after it.
-/

namespace Statechart

namespace Scenario

/-! ### The code of a session -/

/-- Where an operation was begun: outside, or in a script with more operations to
come. -/
inductive Site where
  | outside
  | script (rest : List Json)

/-- Where code of a session goes on after a call. -/
inductive Point where
  | finish
  | conclude (word : String) (conclusion : Conclusion) (site : Site)
  | proceed (rest : List Json)

/-- What code of a session does next. -/
abbrev NextStep : Type := Next Code Point

/-- Begins an operation. -/
def beginAt (site : Site) (j : Json) (e : Engine Code) (m : Memory) : NextStep × Memory :=
  let (request, m) := beginOperation e j m
  (.call request.call (.conclude (j.textAt "op") request.conclusion site), m)

/-- Begins the first of the operations of a script. -/
def proceed (operations : List Json) (e : Engine Code) (m : Memory) : NextStep × Memory :=
  match operations with
  | [] => (.done, m)
  | j :: rest => beginAt (.script rest) j e m

/-- Reports a call of code, and begins its script. -/
def report (entry : Json) (script : Script) (e : Engine Code) (m : Memory) :
    NextStep × Memory :=
  let (operations, ledger) := (m.ledger.note entry).call script
  proceed operations e { m with ledger := ledger }

/-- Executes an effect. -/
def executeCode (code : Code) (context : Context) (event : Event) (metadata : Option Meta)
    (e : Engine Code) (m : Memory) : NextStep × Memory :=
  match code with
  | .effect name script => report (effectReport name context event metadata) script e m
  | .standby pool => (.call (.standby pool) .finish, m)
  | .wake pool => (.call (.wake pool) .finish, m)
  | _ => (.done, m)

/-- Tells a listener about a snapshot. -/
def notifyCode (code : Code) (s : Snapshot Code) (e : Engine Code) (m : Memory) :
    NextStep × Memory :=
  match code with
  | .listener name script => report (listenerReport name s) script e m
  | _ => (.done, m)

/-- Calls a task or a timer callback. -/
def invokeCode (code : Code) (e : Engine Code) (m : Memory) : NextStep × Memory :=
  match code with
  | .task name script => report (clockReport "task" name e.timing.now) script e m
  | .fired name script => report (clockReport "fired" name e.timing.now) script e m
  | _ => (.done, m)

/-- Goes on with the reply to a call.  A script yields between its operations. -/
def resumeCode (point : Point) (reply : Reply Code) (e : Engine Code) (m : Memory) :
    NextStep × Memory :=
  match point with
  | .finish => (.done, m)
  | .proceed rest => proceed rest e m
  | .conclude word conclusion site =>
    let (result, m) := conclusion.conclude m reply
    match site with
    | .outside => (.done, { m with result := result })
    | .script rest =>
      (.call .yield (.proceed rest),
        { m with ledger := m.ledger.note (operationReport word result) })

/-- Makes a child machine. -/
def buildCode (code : Code) (context : Context) (event : Event) (m : Memory) :
    Except InvokeError (Machine Code) × Memory :=
  let (made, ledger) := serveCode sessionPool code context event m.ledger
  (made, { m with ledger := ledger })

/-- The code of sessions. -/
def host : Host Code Point Memory where
  execute := executeCode
  notify := notifyCode
  invoke := invokeCode
  resume := resumeCode
  build := buildCode
  observe es m := { m with ledger := m.ledger.observe es }
  held m := m.instances.values

/-! ### The state of a session -/

/-- The entries of a map with names in the order of their characters. -/
def inOrder {α : Type} (names : OrderedMap α) : List (String × α) :=
  names.entries.mergeSort fun a b => decide (a.1 ≤ b.1)

/-- The state of a session: its clock and pool, its instances and its timers. -/
def stateOfSession (e : Engine Code) (m : Memory) : Json :=
  .ofFields
    [("now", millisToJson e.timing.now), ("pending", .nat e.timing.scheduler.pending),
     ("paused", .bool (e.timing.isPaused sessionPool)),
     ("live", .nat (e.timing.live sessionPool)),
     ("stashed", .nat (e.timing.stashed sessionPool)),
     ("standby", .bool (e.timing.inStandby sessionPool)),
     ("interps", .ofFields ((inOrder m.instances).map fun i => (i.1, instanceToJson e i.2))),
     ("timers", .ofFields ((inOrder m.timers).map fun t => (t.1, timerToJson e.timing t.2)))]

/-! ### Running a session -/

/-- The engine of a session, whose registry shares the pool of the session or has one
of its own on the same clock. -/
def engineOfSession (ownPool : Bool) : Engine Code :=
  let e := Engine.empty.addPool
  if ownPool then
    let pool := e.timing.pools.next
    e.addPool.addRegistry pool
  else e.addRegistry sessionPool

/-- Performs one operation from outside, in at most `fuel` steps. -/
def perform (fuel : Nat) (j : Json) (e : Engine Code) (m : Memory) :
    Engine Code × Memory :=
  let c : Configuration Code Point Memory :=
    (Configuration.idle e m).enter host (beginAt .outside j)
  let c := c.run host fuel
  (c.engine, c.memory)

/-- Performs operations one after another. -/
def performAll (fuel : Nat) : List Json → Engine Code → Memory → List Json
  | [], _, _ => []
  | j :: rest, e, m =>
    let (e, m) := perform fuel j e m
    let (trace, ledger) := m.ledger.takeTrace
    let answer : Json :=
      .ofFields [("r", m.result), ("trace", trace), ("s", stateOfSession e m)]
    answer :: performAll fuel rest e { m with ledger := ledger }

/-- The answer to the operations of a session. -/
def session (fuel : Nat) (j : Json) : Json :=
  .ofFields
    [("steps",
      .array (performAll fuel (j.itemsAt "ops") (engineOfSession (j.flagAt "own_registry"))
        .empty))]

/-- The answer to a request: a session or an inquiry. -/
def answer (fuel : Nat) (j : Json) : Json :=
  if j.textAt "op" = "session" then session fuel j
  else
    match inquire? sessionPool j with
    | some inquiry => answerToJson (inquiry.run .empty).1
    | none => (Failure.badRequest ("unknown request " ++ j.textAt "op")).toJson

end Scenario

end Statechart
