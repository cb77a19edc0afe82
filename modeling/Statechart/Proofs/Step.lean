import Statechart.Proofs.Move

/-!
# Steps

Every step is a move followed by a release (`Configuration.Evolves.reaches`), so that a
property is kept by all runs when every rule of `Move` keeps it and letting go keeps it.
-/

namespace Statechart

variable {κ π σ : Type}

namespace Configuration

variable {H : Host κ π σ} {r : Engine κ} {st : List (Frame κ π)} {s : Signal κ}
  {c d : Configuration κ π σ}

/-- A move from an engine and a stack leads to a configuration, but for letting go.
Nothing is let go in a move that stops an instance or arms a timer. -/
def Reaches (s : Signal κ) (r : Engine κ) (st : List (Frame κ π))
    (c : Configuration κ π σ) : Prop :=
  ∃ mid, Move s r st mid c.stack ∧ Engine.Releases (owners c.stack) mid c.engine
    ∧ (mid = c.engine ∨ Engine.Gentle r mid)
    ∧ (mid = c.engine ∨ ∃ held, c.engine = mid.release held)

/-- A move may let nothing go. -/
theorem Reaches.of_move (h : Move s r st c.engine c.stack) :
  Reaches s r st c
  := ⟨c.engine, h, .refl _, .inl rfl, .inl rfl⟩

/-- After a gentle move the host is asked what it holds, and the rest is let go. -/
theorem Reaches.settle (h : Move s r st c.engine c.stack)
    (hgentle : Engine.Gentle r c.engine) :
  Reaches s r st (settle H c)
  := by
  refine ⟨c.engine, h, ?_, .inr hgentle, .inr ⟨_, rfl⟩⟩
  apply (Engine.releases_release _ _).mono
  exact List.subset_append_right _ _

/-- After a gentle move code of the host is run, and what it does not hold is let go. -/
theorem Reaches.enter {code : Engine κ → σ → Next κ π × σ}
    (h : Move s r st c.engine c.stack) (hgentle : Engine.Gentle r c.engine) :
  Reaches s r st (enter H c code)
  := Reaches.settle (c := { c with memory := _, control := .host _ }) h hgentle

/-! ### Delivery -/

/-- A delivery to an instance that is gone does nothing. -/
theorem deliver_of_none {i : Nat} (hx : c.engine.get? i = none) (e : Envelope) :
  c.deliver i e = c.back (.outcome (.ok ()))
  := by
  rw [deliver, hx]

/-- A delivery puts the envelope into the mailbox and wakes the instance. -/
theorem deliver_of_some {i : Nat} {x : Instance κ} (hx : c.engine.get? i = some x)
    (e : Envelope) :
  Engine.Sets c.engine (c.deliver i e).engine i (x.enqueued e)
    ∧ (c.deliver i e).stack = wake x.busy i c.stack
  := by
  rw [deliver, hx, wake]
  simp only
  split
  · exact ⟨Engine.sets_modify hx _, rfl⟩
  · exact ⟨Engine.sets_modify hx _, rfl⟩

/-- An instance that was not started runs, with its start in the mailbox. -/
theorem start_of_notStarted {i : Nat} {x : Instance κ} (hx : c.engine.get? i = some x)
    (hstatus : x.status = .notStarted) :
  Engine.Sets c.engine (c.start i).engine i
      (Instance.enqueued { x with status := .running } .start)
    ∧ (c.start i).stack = wake x.busy i c.stack
  := by
  rw [start, hx]
  simp only
  rw [if_pos hstatus]
  have hsets := Engine.sets_modify hx fun x => { x with status := .running }
  obtain ⟨h, hstack⟩ := deliver_of_some
    (c := c.withEngine (c.engine.modify i fun x => { x with status := .running }))
    hsets.get?_self .start
  exact ⟨hsets.trans h, hstack⟩

/-- A second start does nothing. -/
theorem start_of_started {i : Nat} {x : Instance κ} (hx : c.engine.get? i = some x)
    (hstatus : x.status ≠ .notStarted) :
  c.start i = c.back (.outcome (.ok ()))
  := by
  rw [start, hx]
  simp only
  rw [if_neg hstatus]

/-! ### Calls -/

section

variable {i : Nat}

/-- To start an instance is to make it run and to wake it. -/
theorem reaches_start (hst : Shift st c.stack) :
  Reaches (Call.signal c.engine (.start i)) c.engine st (c.start i)
  := by
  apply Reaches.of_move
  rw [Call.signal]
  cases hx : c.engine.get? i with
  | none =>
    rw [start, hx]
    exact .quiet (.refl _) (.refl _) hst
  | some x =>
    by_cases hstatus : x.status = .notStarted
    · simp only [if_pos hstatus]
      obtain ⟨hsets, hstack⟩ := start_of_notStarted hx hstatus
      rw [hstack]
      exact .call hx (.start hstatus) hsets hst
    · simp only [if_neg hstatus]
      rw [start_of_started hx hstatus]
      exact .quiet (.refl _) (.refl _) hst

/-- To start an instance from a state is to set this state and to start it, unless the state is
refused. -/
theorem reaches_startWith (hst : Shift st c.stack) (value : StateValue) (context : Context) :
  Reaches (Call.signal c.engine (.startWith i value context)) c.engine st
    (c.startWith i value context)
  := by
  apply Reaches.of_move
  rw [Call.signal, startWith]
  cases hx : c.engine.get? i with
  | none => exact .quiet (.refl _) (.refl _) hst
  | some x =>
    by_cases hstatus : x.status = .notStarted
    · simp only [if_pos hstatus]
      cases hs : x.machine.snapshotAt value context with
      | error e => exact .quiet (.refl _) (.refl _) hst
      | ok s =>
        have hsets := Engine.sets_modify hx fun x => { x with snapshot := s }
        obtain ⟨h, hstack⟩ := start_of_notStarted
          (c := c.withEngine (c.engine.modify i fun x => { x with snapshot := s }))
          hsets.get?_self hstatus
        simp only [hstack]
        exact .call hx (.startAt hstatus hs) (hsets.trans h) hst
    · simp only [if_neg hstatus]
      exact .quiet (.refl _) (.refl _) hst

/-- To start an instance at a value is to start it there with its own context. -/
theorem reaches_startAt (hst : Shift st c.stack) (value : StateValue) :
  Reaches (Call.signal c.engine (.startAt i value)) c.engine st (c.startAt i value)
  := by
  rw [startAt]
  cases hx : c.engine.get? i with
  | none =>
    apply Reaches.of_move
    rw [Call.signal, hx]
    exact .quiet (.refl _) (.refl _) hst
  | some x =>
    have h := reaches_startWith (i := i) hst value x.machine.context
    simp only [Call.signal, hx] at h ⊢
    exact h

/-- To send an event is to deliver it to an instance that runs, and nothing otherwise. -/
theorem reaches_send (hst : Shift st c.stack) (event : Event) :
  Reaches (Call.signal c.engine (.send i event)) c.engine st (c.send i event)
  := by
  apply Reaches.of_move
  rw [Call.signal, send]
  cases hrunning : c.engine.isRunning i with
  | false => exact .quiet (.refl _) (.refl _) hst
  | true =>
    simp only [if_true]
    rw [Engine.isRunning] at hrunning
    cases hx : c.engine.get? i with
    | none => simp [hx] at hrunning
    | some x =>
      rw [hx] at hrunning
      obtain ⟨hsets, hstack⟩ := deliver_of_some hx (.event event)
      rw [hstack]
      exact .call hx (.event event hrunning) hsets hst

end

/-- To subscribe is to add a listener, which is told at once. -/
theorem reaches_subscribe (hst : Shift st c.stack) (i : Nat) (listener : κ) :
  Reaches {} c.engine st (subscribe H c i listener)
  := by
  rw [subscribe]
  cases hx : c.engine.get? i with
  | none => exact .of_move (.quiet (.refl _) (.refl _) hst)
  | some x =>
    have hsets := Engine.sets_modify hx fun x =>
      { x with
        nextListener := x.nextListener + 1
        listeners :=
          if x.status = .stopped then x.listeners
          else x.listeners ++ [(x.nextListener, listener)] }
    refine .enter (.listen hx ?_ hsets (.push rfl hst)) (hsets.gentle hx rfl)
    split
    · next hstopped => exact .pass hstopped
    · next hstopped => exact .add listener hstopped

/-- An operation on timers only. -/
theorem reaches_timing (hst : Shift st c.stack) {timing : Timing (Callback κ)}
    (htiming : c.engine.timing.Follows (fun _ cb => ∃ code, cb = .code code)
      (fun cb => ∃ code, cb = .code code) timing) (reply : Reply κ) :
  Reaches {} c.engine st ((c.withEngine { c.engine with timing := timing }).back reply)
  := .of_move (.quiet ⟨rfl, fun _ => rfl⟩ htiming hst)

theorem reaches_register (hst : Shift st c.stack) (registry : Nat) (d : MachineDescriptor κ)
    (b : Bundle κ) :
  Reaches {} c.engine st (perform H c (.register registry d b))
  := by
  apply Reaches.of_move
  have hengine : Engine.Same c.engine (c.engine.register registry d b).value.2
      ∧ (c.engine.register registry d b).value.2.timing = c.engine.timing := by
    rw [Engine.register]
    cases d.id with
    | none => exact ⟨.refl _, rfl⟩
    | some id =>
      simp only
      split
      · exact ⟨.refl _, rfl⟩
      · rw [Evaluated.value_bind]
        split
        · exact ⟨.refl _, rfl⟩
        · exact ⟨⟨rfl, fun _ => rfl⟩, rfl⟩
  refine .quiet hengine.1 ?_ hst
  rw [Engine.Quiet]
  simp only [perform, back, withEngine]
  rw [hengine.2]
  exact .refl _

/-- To interpret a machine is to look its instance up, or to make it from the machine handed
over. -/
theorem reaches_interpret (hst : Shift st c.stack) (registry : Nat) (machine : Machine κ) :
  Reaches { handed := some machine } c.engine st (perform H c (.interpret registry machine))
  := by
  apply Reaches.of_move
  simp only [perform, back, withEngine]
  rw [Engine.interpret.eq_def]
  split
  · exact .interpret (.refl _) (.refl _) hst
  · exact .interpret (.refl _) (.refl _) hst
  · split
    · exact .interpret (.refl _) (.refl _) hst
    · exact .create (Engine.adds_create rfl rfl) hst

/-- A call of the host is a move. -/
theorem reaches_perform (hst : Shift st c.stack) (call : Call κ) :
  Reaches (call.signal c.engine) c.engine st (perform H c call)
  := by
  cases call with
  | yield => exact .of_move (.quiet (.refl _) (.refl _) hst)
  | create machine pool => exact .of_move (.create (Engine.adds_create rfl rfl) hst)
  | start i => exact reaches_start hst
  | startAt i value => exact reaches_startAt hst value
  | startWith i value context => exact reaches_startWith hst value context
  | send i event => exact reaches_send hst event
  | stop i => exact .of_move (.stop i hst)
  | subscribe i listener => exact reaches_subscribe hst i listener
  | unsubscribe i listener =>
    apply Reaches.of_move
    cases hx : c.engine.get? i with
    | none =>
      have hsame : Engine.Same c.engine (c.engine.removeListener i listener) := by
        constructor
        · exact Engine.next_modify _ _ _
        · intro j
          rw [Engine.removeListener, Engine.get?_modify]
          split
          · next hj => rw [← hj, hx, Option.map_none]
          · rfl
      exact .quiet hsame (.refl _) hst
    | some x =>
      exact .listen hx (.remove listener) (Engine.sets_modify hx _) hst
  | advance ms => exact .of_move (.quiet (.refl _) (.refl _) (.push rfl hst))
  | schedule ms task => exact reaches_timing hst (Timing.follows_schedule _ _ ⟨task, rfl⟩) _
  | cancel task => exact reaches_timing hst (Timing.follows_cancel _ _) _
  | newTimer pool ms callback =>
    apply reaches_timing hst
    apply Timing.follows_newTimer
    intro cb hcb
    obtain ⟨code, -, rfl⟩ := Option.map_eq_some_iff.mp hcb
    exact ⟨code, rfl⟩
  | startTimer timer => exact reaches_timing hst (Timing.follows_start _ _) _
  | pauseTimer timer => exact reaches_timing hst (Timing.follows_pause _ _) _
  | restartTimer timer => exact reaches_timing hst (Timing.follows_restart _ _) _
  | destroyTimer timer => exact reaches_timing hst (Timing.follows_destroy _ _) _
  | completion timer => exact reaches_timing hst (Timing.follows_completion _ _) _
  | receive channel => exact reaches_timing hst (Timing.follows_receive _ _) _
  | pauseAll pool => exact reaches_timing hst (Timing.follows_pauseAll _ _) _
  | startAll pool => exact reaches_timing hst (Timing.follows_startAll _ _) _
  | standby pool => exact reaches_timing hst (Timing.follows_standby _ _) _
  | wake pool => exact reaches_timing hst (Timing.follows_wake _ _) _
  | destroyAll pool => exact reaches_timing hst (Timing.follows_destroyAll _ _) _
  | register registry d b => exact reaches_register hst registry d b
  | interpret registry machine => exact reaches_interpret hst registry machine
  | clear registry id =>
    have hsame : Engine.Same c.engine (c.engine.clear registry id) := ⟨rfl, fun _ => rfl⟩
    exact .settle (.quiet hsame (.refl _) hst) (hsame.gentle (.refl _))

/-! ### The clock -/

/-- A callback that is due sends an envelope to the instance that armed it. -/
theorem reaches_callback (hsame : Engine.Same r c.engine) (hquiet : Engine.Quiet r c.engine)
    (hst : Shift st c.stack) {cb : Callback κ} (hdue : r.Due cb) :
  Reaches (cb.signal r) r st (Configuration.call H c cb)
  := by
  cases cb with
  | code code => exact .enter (.quiet hsame hquiet hst) (hsame.gentle hquiet)
  | after i state key generation =>
    apply Reaches.of_move
    rw [Callback.signal, Configuration.call]
    cases hx : c.engine.get? i with
    | none =>
      rw [← hsame.get? i, hx, deliver_of_none hx]
      exact .quiet hsame hquiet hst
    | some x =>
      rw [← hsame.get? i, hx]
      obtain ⟨hsets, hstack⟩ := deliver_of_some hx (.after state key generation)
      rw [hstack]
      exact .fire (hsame.get? i ▸ hx) hdue hsame hquiet hsets hst

/-- What the clock calls is due. -/
theorem due_of_due? {target : Nat} {cb : Callback κ} {timer : Option Nat}
    (h : r.due? target = some (cb, timer)) :
  r.Due cb
  := by
  rw [Engine.due?] at h
  cases hdue : r.timing.scheduler.takeDue target with
  | none => simp [hdue] at h
  | some taken =>
    obtain ⟨p, scheduler⟩ := taken
    obtain ⟨hp, -⟩ := Timing.follows_takeDue (P := fun _ _ => True) (Q := fun _ => True) _ hdue
    simp only [hdue] at h
    cases htask : p.task with
    | task callback =>
      rw [htask] at h
      obtain ⟨rfl, -⟩ := Prod.mk.inj (Option.some.inj h)
      exact .inl ⟨p, hp, htask⟩
    | timer id =>
      rw [htask] at h
      simp only at h
      split at h
      · next callback channel hfire =>
        obtain ⟨rfl, -⟩ := Prod.mk.inj (Option.some.inj h)
        obtain ⟨t, ht, hstatus, hcallback⟩ := Timing.fire_eq_some hfire
        exact .inr ⟨id, t, ht, hstatus, hcallback⟩
      · cases h

/-- The clock fires the next timer that is due, or it arrives. -/
theorem reaches_stepClock {target : Nat} {below : List (Frame κ π)}
    (hst : c.stack = .advancing target :: below) :
  Reaches (clockSignal c.engine target) c.engine c.stack (stepClock H c target below)
  := by
  rw [stepClock]
  cases hdue : c.engine.timing.scheduler.takeDue target with
  | none =>
    have hnone : c.engine.due? target = none := by
      simp only [Engine.due?, hdue]
    rw [clockSignal, hnone, hst]
    apply Reaches.of_move
    refine .quiet ⟨rfl, fun _ => rfl⟩ ?_ (.pop rfl .same)
    exact Timing.follows_of_subset rfl fun _ hp => hp
  | some taken =>
    obtain ⟨p, scheduler⟩ := taken
    have hfollows := (Timing.follows_takeDue (P := fun _ cb => ∃ code, cb = .code code)
      (Q := fun cb : Callback κ => ∃ code, cb = .code code) _ hdue).2
    simp only
    cases htask : p.task with
    | task callback =>
      have hsome : c.engine.due? target = some (callback, none) := by
        simp only [Engine.due?, hdue, htask]
      rw [clockSignal, hsome]
      exact reaches_callback (r := c.engine)
        (c := c.withEngine (c.engine.withTiming fun t => { t with scheduler := scheduler }))
        ⟨rfl, fun _ => rfl⟩ hfollows .same (due_of_due? hsome)
    | timer id =>
      have hfire := hfollows.trans (Timing.follows_fire { c.engine.timing with
        scheduler := scheduler } id)
      simp only [runJob, Engine.withTiming, withEngine]
      cases hfired : Timing.fire { c.engine.timing with scheduler := scheduler } id with
      | mk result timing =>
        rw [hfired] at hfire
        cases result with
        | none =>
          have hnone : c.engine.due? target = none := by
            simp only [Engine.due?, hdue, htask, hfired]
          rw [clockSignal, hnone]
          exact .of_move (.quiet ⟨rfl, fun _ => rfl⟩ hfire .same)
        | some call =>
          obtain ⟨callback, channel⟩ := call
          cases callback with
          | none =>
            have hnone : c.engine.due? target = none := by
              simp only [Engine.due?, hdue, htask, hfired]
            rw [clockSignal, hnone]
            exact .of_move (.quiet ⟨rfl, fun _ => rfl⟩ hfire (.push rfl .same))
          | some callback =>
            have hsome : c.engine.due? target = some (callback, some id) := by
              simp only [Engine.due?, hdue, htask, hfired]
            rw [clockSignal, hsome]
            exact reaches_callback (r := c.engine)
              (c := (c.withEngine { c.engine with timing := timing }).withStack _)
              ⟨rfl, fun _ => rfl⟩ hfire (.push rfl .same) (due_of_due? hsome)

/-! ### Work -/

section

variable {i : Nat} {x : Instance κ} {o : Except MachineError Unit} {below : List (Frame κ π)}

/-- An attempt takes its envelope and sets out on the phases of the transition that was found.
-/
theorem reaches_settleTransition (hst : c.stack = .working i o [] :: below)
    (hx : c.engine.get? i = some x) {e : Envelope} {more : List Envelope}
    (hmailbox : x.mailbox = e :: more) {event : Event} {rearm : Rearm}
    {found : Evaluated (Except MachineError (Option (Snapshot κ)))}
    (hres : x.resolution e = .attempt event rearm found) :
  Reaches { taken := some (i, e) } c.engine c.stack
    (settleTransition H
      (c.withEngine (c.engine.modify i fun x => { x with mailbox := more })) i
      { x with mailbox := more } o below event rearm found)
  := by
  apply Reaches.of_move
  have hsets := Engine.sets_modify hx fun x => { x with mailbox := more }
  rw [hst, settleTransition]
  cases hfound : found.value with
  | error error => exact .stumble hx hmailbox hres hfound hsets
  | ok result =>
    cases result with
    | none => exact .ignore hx hmailbox (.inr ⟨event, rearm, found, hres, hfound⟩) hsets
    | some next =>
      have hcommit := Engine.sets_modify hsets.get?_self fun x =>
        commitTo x next event c.engine.timing.now
      exact .commit (x := x) hx hmailbox hres hfound (hsets.trans hcommit)

/-- An instance that has no phases left takes its next envelope, or it is done. -/
theorem reaches_nextEnvelope (hst : c.stack = .working i o [] :: below)
    (hx : c.engine.get? i = some x) :
  Reaches
    (match x.mailbox with
      | [] => {}
      | e :: _ => { taken := some (i, e) })
    c.engine c.stack (nextEnvelope H c i x o below)
  := by
  rw [nextEnvelope]
  cases hmailbox : x.mailbox with
  | nil =>
    rw [hst]
    have hsets := Engine.sets_modify hx fun x => { x with busy := false }
    exact .settle (.finish hx hmailbox hsets) (hsets.gentle hx rfl)
  | cons e more =>
    have hsets := Engine.sets_modify hx fun x => { x with mailbox := more }
    have hresolution : Instance.resolution { x with mailbox := more } e = x.resolution e := by
      cases e <;> rfl
    simp only
    rw [process_eq, hresolution]
    cases hres : x.resolution e with
    | ignore =>
      rw [hst]
      exact .of_move (.ignore hx hmailbox (.inl hres) hsets)
    | begin =>
      rw [hst]
      exact .of_move (.begin (x := x) hx hmailbox hres hsets)
    | attempt event rearm found => exact reaches_settleTransition hst hx hmailbox hres

/-- A child is made, stored and started. -/
theorem spawns_start (hx : c.engine.get? i = some x) (machine : Machine κ) (id state : String) :
  Engine.Spawns c.engine
      ((c.withEngine (c.engine.spawn i machine id state)).start c.engine.instances.next).engine i
      { x with children := x.children.insert id c.engine.instances.next }
      (.newborn machine (machine.services.withFallback x.services) x.pool ⟨id, state, i⟩)
    ∧ ((c.withEngine (c.engine.spawn i machine id state)).start c.engine.instances.next).stack
      = .working c.engine.instances.next (.ok ()) [] :: c.stack
  := by
  let child : Instance κ :=
    .new machine (machine.services.withFallback x.services) x.pool (some ⟨id, state, i⟩)
  let grown : Engine κ := { c.engine with instances := c.engine.instances.add child }
  have hadds : Engine.Adds c.engine grown child := Engine.adds_create rfl rfl
  have hparent : grown.get? i = some x := hadds.get?_of_get? hx
  have hsets : Engine.Sets grown (c.engine.spawn i machine id state) i
      { x with children := x.children.insert id c.engine.instances.next } := by
    rw [Engine.spawn, hx]
    exact Engine.sets_modify hparent _
  have hchild : (c.engine.spawn i machine id state).get? c.engine.instances.next
      = some child := by
    rw [hsets.get?, if_neg (Nat.ne_of_lt (Engine.lt_next_of_get? hx)), hadds.get?, if_pos rfl]
  obtain ⟨hstart, hstack⟩ := start_of_notStarted
    (c := c.withEngine (c.engine.spawn i machine id state)) hchild rfl
  constructor
  · constructor
    · rw [hstart.next]
      exact hsets.next.trans hadds.next
    · rw [hstart.timing]
      exact hsets.timing.trans hadds.timing
    · intro j
      rw [hstart.get?]
      simp only [withEngine, hsets.get?, hadds.get?]
      split
      · rfl
      · rfl
  · exact hstack

/-- A child is made and started, or the failure is put into the mailbox of the parent. -/
theorem reaches_startChild {rest : List (Phase κ)} {state : String} {context : Context}
    {v : Invocation κ} {more : List (Invocation κ)}
    (hst : st = .working i o (.invoke state context (v :: more) :: rest) :: below)
    (hd : d.stack = .working i o (.invoke state context more :: rest) :: below)
    (hengine : d.engine = c.engine) (hmemory : d.memory = c.memory)
    (hx : c.engine.get? i = some x) (hrunning : x.isRunning = true) :
  Reaches (phaseSignal H c i x (.invoke state context (v :: more))) c.engine st
    (startChild H d i x state context v)
  := by
  apply Reaches.of_move
  rw [hst, phaseSignal, if_pos hrunning, startChild]
  cases hchild : x.children.contains v.id with
  | true =>
    simp only [if_true, hd, hengine]
    exact .advance hx (.invoke state context v more)
  | false =>
    have hnone : x.children.get? v.id = none := by
      rwa [OrderedMap.contains, ← Bool.not_eq_true, Option.not_isSome_iff_eq_none] at hchild
    have hresolve : (resolveChild H d x v context).1 = (resolveChild H c x v context).1
        ∧ (resolveChild H d x v context).2.engine = c.engine
        ∧ (resolveChild H d x v context).2.stack = d.stack := by
      rw [resolveChild_of_memory hmemory]
      exact ⟨rfl, hengine, rfl⟩
    obtain ⟨hresult, hengine', hstack'⟩ := hresolve
    rw [← hresult]
    generalize resolveChild H d x v context = resolved at hengine' hstack'
    obtain ⟨result, b⟩ := resolved
    simp only at hengine' hstack'
    cases result with
    | ok machine =>
      obtain ⟨hspawns, hstack⟩ := spawns_start (c := b) (hengine' ▸ hx) machine v.id state
      simp only [Bool.false_eq_true, if_false, hstack, hstack', hd]
      rw [hengine'] at hspawns ⊢
      exact .spawn hx hrunning hnone hspawns
    | error e =>
      simp only [Bool.false_eq_true, if_false, hengine', withEngine, hstack', hd]
      exact .missing hx hrunning hnone (Engine.sets_modify hx _)

/-- A completed instance reports to its parent, once. -/
theorem reaches_report {rest : List (Phase κ)} {value : StateValue}
    (hx : c.engine.get? i = some x) :
  Reaches (phaseSignal H c i x (.report value)) c.engine
    (.working i o (.report value :: rest) :: below) ((c.work i o rest below).report i x value)
  := by
  apply Reaches.of_move
  rw [phaseSignal, report]
  split
  · next hreports =>
    have hsets := Engine.sets_modify hx fun x => { x with doneReported := true }
    cases hlink : x.parent with
    | none => exact .conclude hx hsets
    | some link =>
      simp only
      have hrunning : x.isRunning = true := by
        simp only [Bool.and_eq_true] at hreports
        exact hreports.1.1
      cases hparent : c.engine.get? link.parent with
      | none =>
        have hnone : (c.engine.modify i fun x => { x with doneReported := true }).get?
            link.parent = none := by
          rw [Engine.get?_modify, hparent]
          split <;> rfl
        rw [deliver_of_none hnone]
        exact .conclude hx hsets
      | some y =>
        obtain ⟨z, hz⟩ : ∃ z, (c.engine.modify i fun x => { x with doneReported := true }).get?
            link.parent = some z := by
          rw [Engine.get?_modify, hparent]
          split <;> exact ⟨_, rfl⟩
        obtain ⟨hdeliver, hstack⟩ := deliver_of_some
          (c := (c.work i o rest below).withEngine
            ((c.work i o rest below).engine.modify i fun x => { x with doneReported := true }))
          hz (.childDone link.id link.state)
        rw [hstack]
        exact .report hx hrunning hlink hsets hz hdeliver
  · exact .advance hx (.report value)

/-- Timers cannot be armed only if the active state is not there. -/
theorem activeDelays_of_armTimers (hx : r.get? i = some x) {e : MachineError}
    (h : (r.armTimers i).value = .error e) :
  Engine.activeDelays x = .error e
  := by
  rw [Engine.armTimers, hx] at h
  simp only at h
  split at h
  · next e' he =>
    obtain rfl : e' = e := by simpa using h
    exact he
  · simp at h

/-- A step of a phase is a move. -/
theorem reaches_stepPhase {p : Phase κ} {rest : List (Phase κ)}
    (hst : c.stack = .working i o (p :: rest) :: below) (hx : c.engine.get? i = some x) :
  Reaches (phaseSignal H c i x p) c.engine c.stack (stepPhase H c i x o rest below p)
  := by
  rw [hst, stepPhase.eq_def]
  cases hrunning : x.isRunning with
  | true =>
    cases p with
    | perform actions context event =>
      cases actions with
      | nil => exact .of_move (.advance hx (.performed context event))
      | cons a more =>
        exact .enter (.advance hx (.perform a more context event)) (.refl _)
    | stopChildren => exact .of_move (.stopChildren hx)
    | startChildren =>
      simp only [if_true]
      cases hactive : activeInvocations x with
      | error e => exact .of_move (.fail hx (.inl hactive))
      | ok active =>
        cases active with
        | none => exact .of_move (.advance hx .noChildren)
        | some active =>
          obtain ⟨state, vs⟩ := active
          exact .of_move (.advance hx (.startChildren x.snapshot.context hactive))
    | invoke state context vs =>
      cases vs with
      | nil => exact .of_move (.advance hx (.invoked state context []))
      | cons v more => exact reaches_startChild rfl rfl rfl rfl hx hrunning
    | publish s => exact .of_move (.advance hx (.publish s))
    | notify s ls =>
      cases ls with
      | nil => exact .of_move (.advance hx (.notified s))
      | cons l more =>
        exact .enter (.advance hx (.notify s l more)) (.refl _)
    | rearm =>
      apply Reaches.of_move
      simp only [if_true]
      cases harmed : (c.engine.armTimers i).value with
      | error e => exact .fail hx (.inr (activeDelays_of_armTimers hx harmed))
      | ok r => exact .rearm hx hrunning harmed
    | report value => exact reaches_report hx
  | false =>
    cases p with
    | perform actions context event =>
      cases actions with
      | nil => exact .of_move (.advance hx (.performed context event))
      | cons a more => exact .of_move (.drop hx hrunning)
    | stopChildren => exact .of_move (.stopChildren hx)
    | startChildren => exact .of_move (.advance hx .noChildren)
    | invoke state context vs =>
      cases vs with
      | nil => exact .of_move (.advance hx (.invoked state context []))
      | cons v more =>
        rw [phaseSignal, hrunning]
        exact .of_move (.advance hx (.invoked state context (v :: more)))
    | publish s => exact .of_move (.drop hx hrunning)
    | notify s ls =>
      cases ls with
      | nil => exact .of_move (.advance hx (.notified s))
      | cons l more =>
        exact .enter (.advance hx (.notify s l more)) (.refl _)
    | rearm => exact .of_move (.advance hx (.rearm hrunning))
    | report value => exact reaches_report hx

end

/-- A step is a move. -/
theorem reaches_step (h : step? H c = some d) :
  Reaches (signal H c) c.engine c.stack d
  := by
  rw [step?] at h
  rw [signal]
  cases hcontrol : c.control with
  | host next =>
    cases next with
    | done =>
      simp only [hcontrol, Option.some.injEq] at h
      subst h
      exact .of_move (.quiet (.refl _) (.refl _) .same)
    | call call point =>
      simp only [hcontrol, Option.some.injEq] at h
      subst h
      exact reaches_perform (c := c.withStack (.waiting point :: c.stack)) (.push rfl .same) call
  | back reply =>
    simp only [hcontrol] at h
    cases hst : c.stack with
    | nil => simp [hst] at h
    | cons f below =>
      rw [hst] at h
      cases f with
      | waiting point =>
        obtain rfl := Option.some.inj h
        exact .enter (.quiet (.refl _) (.refl _) (.pop rfl .same)) (.refl _)
      | advancing target =>
        obtain rfl := Option.some.inj h
        have hreaches := reaches_stepClock (H := H) hst
        rw [hst] at hreaches
        exact hreaches
      | fired channel =>
        obtain rfl := Option.some.inj h
        apply Reaches.of_move
        exact .quiet ⟨rfl, fun _ => rfl⟩ (Timing.follows_announce _ _ _) (.pop rfl .same)
      | working i o phases =>
        cases hx : c.engine.get? i with
        | none =>
          simp only [hx, Option.some.injEq] at h ⊢
          subst h
          exact .of_move (.vanish hx)
        | some x =>
          simp only [hx] at h ⊢
          cases phases with
          | nil =>
            obtain rfl := Option.some.inj h
            have hreaches := reaches_nextEnvelope (H := H) hst hx
            rw [hst] at hreaches
            exact hreaches
          | cons p rest =>
            obtain rfl := Option.some.inj h
            have hreaches := reaches_stepPhase (H := H) hst hx
            rw [hst] at hreaches
            exact hreaches
      | replaying i listener =>
        obtain rfl := Option.some.inj h
        exact .settle (.quiet (.refl _) (.refl _) (.pop rfl .same)) (.refl _)

/-- However a run goes on, it does so by a move and by letting go. -/
theorem Evolves.reaches (h : Evolves H c d) :
  Reaches (signal H c) c.engine c.stack d
    ∧ ∀ m, (signal H c).handed = some m → m.IsCompiled
  := by
  have hidle : ∀ c : Configuration κ π σ, c.IsIdle → signal H c = {} := by
    rintro c ⟨hst, reply, hcontrol⟩
    rw [signal, hcontrol, hst]
  cases h with
  | step handed hstep => exact ⟨reaches_step hstep, handed⟩
  | enter memory code h =>
    rw [hidle c h, h.1]
    refine ⟨?_, by simp⟩
    exact .enter (.quiet (.refl _) (.refl _) .same) (.refl _)
  | addPool h =>
    rw [hidle c h, h.1]
    refine ⟨.of_move ?_, by simp⟩
    exact .quiet ⟨rfl, fun _ => rfl⟩ (Timing.follows_of_subset rfl fun _ hp => hp) .same
  | addRegistry pool h =>
    rw [hidle c h, h.1]
    refine ⟨.of_move ?_, by simp⟩
    exact .quiet ⟨rfl, fun _ => rfl⟩ (.refl _) .same

end Configuration

end Statechart
