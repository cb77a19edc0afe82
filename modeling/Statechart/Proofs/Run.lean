import Statechart.Engine.Execution
import Statechart.Proofs.Soundness

/-!
# Runs

A run starts with an empty engine and goes on by small steps; while nothing is under way
code of the host may be entered anew, with any memory, and pools and registries may be
made.  The signal of a configuration tells which machine the host hands over in the
next step, which instance it stops, and which envelope is posted or taken in it.
-/

namespace Statechart

variable {κ π σ : Type}

/-! ### Signals -/

/-- An envelope on its way to an instance, and the instance that reports, if one does. -/
structure Post where
  owner : Nat
  envelope : Envelope
  sender : Option Nat

/-- What can be seen of a step from outside. -/
structure Signal (κ : Type) where
  handed : Option (Machine κ) := none
  stopped : Option Nat := none
  posted : Option Post := none
  taken : Option (Nat × Envelope) := none

/-- The signal of a call of the host. -/
def Call.signal (r : Engine κ) : Call κ → Signal κ
  | .create machine _ => { handed := some machine }
  | .interpret _ machine => { handed := some machine }
  | .stop i => { stopped := some i }
  | .start i =>
    match r.get? i with
    | some x => if x.status = .notStarted then { posted := some ⟨i, .start, none⟩ } else {}
    | none => {}
  | .startAt i value =>
    match r.get? i with
    | some x =>
      if x.status = .notStarted then
        match x.machine.snapshotAt value x.machine.context with
        | .ok _ => { posted := some ⟨i, .start, none⟩ }
        | .error _ => {}
      else {}
    | none => {}
  | .startWith i value context =>
    match r.get? i with
    | some x =>
      if x.status = .notStarted then
        match x.machine.snapshotAt value context with
        | .ok _ => { posted := some ⟨i, .start, none⟩ }
        | .error _ => {}
      else {}
    | none => {}
  | .send i event =>
    if r.isRunning i then { posted := some ⟨i, .event event, none⟩ } else {}
  | _ => {}

/-- The callback of the job that the clock takes off its queue next, on its way to
`target`, with the timer it belongs to. -/
def Engine.due? (r : Engine κ) (target : Nat) : Option (Callback κ × Option Nat) :=
  match r.timing.scheduler.takeDue target with
  | none => none
  | some (p, scheduler) =>
    match p.task with
    | .task callback => some (callback, none)
    | .timer id =>
      match (Timing.fire { r.timing with scheduler := scheduler } id).1 with
      | some (some callback, _) => some (callback, some id)
      | _ => none

/-- The signal of a callback. -/
def Callback.signal (r : Engine κ) : Callback κ → Signal κ
  | .code _ => {}
  | .after i state key generation =>
    match r.get? i with
    | some _ => { posted := some ⟨i, .after state key generation, none⟩ }
    | none => {}

/-- Whether control is with the engine. -/
def Control.isBack : Control κ π → Bool
  | .back _ => true
  | .host _ => false

theorem Control.exists_of_isBack {k : Control κ π} (h : k.isBack = true) :
  ∃ reply, k = .back reply
  := by
  cases k with
  | host next => cases h
  | back reply => exact ⟨reply, rfl⟩

namespace Configuration

/-- The signal of the clock on its way to `target`. -/
def clockSignal (r : Engine κ) (target : Nat) : Signal κ :=
  match r.due? target with
  | some (callback, _) => callback.signal r
  | none => {}

/-- The signal of the next phase of a piece of work. -/
def phaseSignal (H : Host κ π σ) (c : Configuration κ π σ) (i : Nat) (x : Instance κ) :
    Phase κ → Signal κ
  | .invoke state context (v :: _) =>
    if x.isRunning then
      if x.children.contains v.id then {}
      else
        match (resolveChild H c x v context).1 with
        | .ok machine =>
          { handed := some machine
            posted := some ⟨c.engine.instances.next, .start, none⟩ }
        | .error e => { posted := some ⟨i, .invokeFailed v.id state e.message, none⟩ }
    else {}
  | .report value =>
    if x.isRunning && x.machine.isFinal value && !x.doneReported then
      match x.parent with
      | some link =>
        match c.engine.get? link.parent with
        | some _ => { posted := some ⟨link.parent, .childDone link.id link.state, some i⟩ }
        | none => {}
      | none => {}
    else {}
  | _ => {}

/-- The signal of the next step. -/
def signal (H : Host κ π σ) (c : Configuration κ π σ) : Signal κ :=
  match c.control with
  | .host .done => {}
  | .host (.call call _) => call.signal c.engine
  | .back _ =>
    match c.stack with
    | .advancing target :: _ => clockSignal c.engine target
    | .working i _ phases :: _ =>
      match c.engine.get? i with
      | none => {}
      | some x =>
        match phases with
        | [] =>
          match x.mailbox with
          | [] => {}
          | e :: _ => { taken := some (i, e) }
        | p :: _ => phaseSignal H c i x p
    | _ => {}

/-- The signals of a configuration case by case, with what each of them tells of it. -/
inductive Signals (H : Host κ π σ) (c : Configuration κ π σ) : Signal κ → Prop where
  | silent : Signals H c {}
  | create {machine : Machine κ} {pool : Nat} {point : π} :
    c.control = .host (.call (.create machine pool) point) →
    Signals H c { handed := some machine }
  | interpret {registry : Nat} {machine : Machine κ} {point : π} :
    c.control = .host (.call (.interpret registry machine) point) →
    Signals H c { handed := some machine }
  | stop {i : Nat} {point : π} :
    c.control = .host (.call (.stop i) point) → Signals H c { stopped := some i }
  | start {i : Nat} {point : π} {x : Instance κ} :
    c.control = .host (.call (.start i) point) → c.engine.get? i = some x →
    x.status = .notStarted → Signals H c { posted := some ⟨i, .start, none⟩ }
  | startAt {i : Nat} {value : StateValue} {point : π} {x : Instance κ} {s : Snapshot κ} :
    c.control = .host (.call (.startAt i value) point) → c.engine.get? i = some x →
    x.status = .notStarted → x.machine.snapshotAt value x.machine.context = .ok s →
    Signals H c { posted := some ⟨i, .start, none⟩ }
  | startWith {i : Nat} {value : StateValue} {context : Context} {point : π} {x : Instance κ}
      {s : Snapshot κ} :
    c.control = .host (.call (.startWith i value context) point) → c.engine.get? i = some x →
    x.status = .notStarted → x.machine.snapshotAt value context = .ok s →
    Signals H c { posted := some ⟨i, .start, none⟩ }
  | send {i : Nat} {event : Event} {point : π} :
    c.control = .host (.call (.send i event) point) → c.engine.isRunning i = true →
    Signals H c { posted := some ⟨i, .event event, none⟩ }
  | after {reply : Reply κ} {target i generation : Nat} {state key : String}
      {timer : Option Nat} {below : List (Frame κ π)} :
    c.control = .back reply → c.stack = .advancing target :: below →
    c.engine.due? target = some (.after i state key generation, timer) →
    Signals H c { posted := some ⟨i, .after state key generation, none⟩ }
  | take {reply : Reply κ} {i : Nat} {o : Except MachineError Unit} {below : List (Frame κ π)}
      {x : Instance κ} {e : Envelope} {more : List Envelope} :
    c.control = .back reply → c.stack = .working i o [] :: below →
    c.engine.get? i = some x → x.mailbox = e :: more → Signals H c { taken := some (i, e) }
  | invoke {reply : Reply κ} {i : Nat} {o : Except MachineError Unit} {state : String}
      {context : Context} {v : Invocation κ} {vs : List (Invocation κ)} {rest : List (Phase κ)}
      {below : List (Frame κ π)} {x : Instance κ} {machine : Machine κ} :
    c.control = .back reply →
    c.stack = .working i o (.invoke state context (v :: vs) :: rest) :: below →
    c.engine.get? i = some x → x.isRunning = true → x.children.contains v.id = false →
    (resolveChild H c x v context).1 = .ok machine →
    Signals H c
      { handed := some machine, posted := some ⟨c.engine.instances.next, .start, none⟩ }
  | fail {reply : Reply κ} {i : Nat} {o : Except MachineError Unit} {state : String}
      {context : Context} {v : Invocation κ} {vs : List (Invocation κ)} {rest : List (Phase κ)}
      {below : List (Frame κ π)} {x : Instance κ} {e : InvokeError} :
    c.control = .back reply →
    c.stack = .working i o (.invoke state context (v :: vs) :: rest) :: below →
    c.engine.get? i = some x → x.isRunning = true → x.children.contains v.id = false →
    (resolveChild H c x v context).1 = .error e →
    Signals H c { posted := some ⟨i, .invokeFailed v.id state e.message, none⟩ }
  | report {reply : Reply κ} {i : Nat} {o : Except MachineError Unit} {value : StateValue}
      {rest : List (Phase κ)} {below : List (Frame κ π)} {x y : Instance κ} {link : ParentLink} :
    c.control = .back reply → c.stack = .working i o (.report value :: rest) :: below →
    c.engine.get? i = some x → x.isRunning = true → x.machine.isFinal value = true →
    x.doneReported = false → x.parent = some link → c.engine.get? link.parent = some y →
    Signals H c { posted := some ⟨link.parent, .childDone link.id link.state, some i⟩ }

variable {H : Host κ π σ} {c : Configuration κ π σ}

/-- The signal of a call is one of the cases. -/
theorem Signals.of_call {call : Call κ} {point : π}
    (hcontrol : c.control = .host (.call call point)) :
  Signals H c (call.signal c.engine)
  := by
  cases call with
  | create => exact .create hcontrol
  | interpret => exact .interpret hcontrol
  | stop => exact .stop hcontrol
  | start i =>
    rw [Call.signal]
    split
    · next x hx =>
      split
      · next hnot => exact .start hcontrol hx hnot
      · exact .silent
    · exact .silent
  | startAt i value =>
    rw [Call.signal]
    split
    · next x hx =>
      split
      · next hnot =>
        split
        · next s hs => exact .startAt hcontrol hx hnot hs
        · exact .silent
      · exact .silent
    · exact .silent
  | startWith i value context =>
    rw [Call.signal]
    split
    · next x hx =>
      split
      · next hnot =>
        split
        · next s hs => exact .startWith hcontrol hx hnot hs
        · exact .silent
      · exact .silent
    · exact .silent
  | send i event =>
    rw [Call.signal]
    split
    · next hrunning => exact .send hcontrol hrunning
    · exact .silent
  | _ => exact .silent

/-- The signal of the clock is one of the cases. -/
theorem Signals.of_clock {reply : Reply κ} {target : Nat} {below : List (Frame κ π)}
    (hcontrol : c.control = .back reply) (hstack : c.stack = .advancing target :: below) :
  Signals H c (clockSignal c.engine target)
  := by
  rw [clockSignal]
  split
  · next callback timer hdue =>
    cases callback with
    | code => exact .silent
    | after i state key generation =>
      rw [Callback.signal]
      split
      · exact .after hcontrol hstack hdue
      · exact .silent
  · exact .silent

/-- The signal of a phase is one of the cases. -/
theorem Signals.of_phase {reply : Reply κ} {i : Nat} {o : Except MachineError Unit}
    {p : Phase κ} {rest : List (Phase κ)} {below : List (Frame κ π)} {x : Instance κ}
    (hcontrol : c.control = .back reply) (hstack : c.stack = .working i o (p :: rest) :: below)
    (hx : c.engine.get? i = some x) :
  Signals H c (phaseSignal H c i x p)
  := by
  rw [phaseSignal.eq_def]
  split
  · next state context v vs =>
    split
    · next hrunning =>
      split
      · exact .silent
      · next hnew =>
        have hnew := Bool.not_eq_true _ ▸ hnew
        split
        · next machine hmachine => exact .invoke hcontrol hstack hx hrunning hnew hmachine
        · next e hfails => exact .fail hcontrol hstack hx hrunning hnew hfails
    · exact .silent
  · next value =>
    split
    · next hcond =>
      simp only [Bool.and_eq_true, Bool.not_eq_true'] at hcond
      obtain ⟨⟨hrunning, hfinal⟩, hfirst⟩ := hcond
      split
      · next link hlink =>
        split
        · next y hy => exact .report hcontrol hstack hx hrunning hfinal hfirst hlink hy
        · exact .silent
      · exact .silent
    · exact .silent
  · exact .silent

/-- Whatever a configuration signals is one of the cases. -/
theorem signals (H : Host κ π σ) (c : Configuration κ π σ) :
  Signals H c (signal H c)
  := by
  rw [signal]
  split
  · exact .silent
  · next call point hcontrol => exact .of_call hcontrol
  · next reply hcontrol =>
    split
    · next target below hstack => exact .of_clock hcontrol hstack
    · next i o phases below hstack =>
      split
      · exact .silent
      · next x hx =>
        split
        · split
          · exact .silent
          · next e more hmail => exact .take hcontrol hstack hx hmail
        · next p rest => exact .of_phase hcontrol hstack hx
    · exact .silent

/-! ### Runs -/

/-- Nothing is under way. -/
def IsIdle (c : Configuration κ π σ) : Prop :=
  c.stack = [] ∧ ∃ reply, c.control = .back reply

instance (c : Configuration κ π σ) : Decidable c.IsIdle :=
  decidable_of_iff (c.stack.isEmpty = true ∧ c.control.isBack = true) (by
    rw [IsIdle, List.isEmpty_iff]
    cases hcontrol : c.control <;> simp [Control.isBack])

/-- How one configuration leads to the next.  The host hands over machines that
compilation gives. -/
inductive Evolves (H : Host κ π σ) : Configuration κ π σ → Configuration κ π σ → Prop where
  | step {c c' : Configuration κ π σ}
      (handed : ∀ m, (signal H c).handed = some m → m.IsCompiled) :
    step? H c = some c' → Evolves H c c'
  | enter {c : Configuration κ π σ} (memory : σ) (code : Engine κ → σ → Next κ π × σ) :
    c.IsIdle → Evolves H c ((idle c.engine memory).enter H code)
  | addPool {c : Configuration κ π σ} :
    c.IsIdle → Evolves H c (idle c.engine.addPool c.memory)
  | addRegistry {c : Configuration κ π σ} (pool : Nat) :
    c.IsIdle → Evolves H c (idle (c.engine.addRegistry pool) c.memory)

/-- A run: the configurations that were passed, in order, and the last one. -/
inductive Run (H : Host κ π σ) : List (Configuration κ π σ) → Configuration κ π σ → Prop where
  | start (memory : σ) : Run H [] (idle .empty memory)
  | next {cs : List (Configuration κ π σ)} {c c' : Configuration κ π σ} :
    Run H cs c → Evolves H c c' → Run H (cs ++ [c]) c'

variable {cs : List (Configuration κ π σ)} {c' : Configuration κ π σ}

/-- While something is under way, a run goes on by steps. -/
theorem Evolves.step?_of_not_idle (h : Evolves H c c') (hnot : ¬c.IsIdle) :
  step? H c = some c'
  := by
  cases h with
  | step _ hstep => exact hstep
  | enter _ _ hidle | addPool hidle | addRegistry _ hidle => exact absurd hidle hnot

theorem Evolves.step?_of_host (h : Evolves H c c') {next : Next κ π}
    (hcontrol : c.control = .host next) :
  step? H c = some c'
  := by
  apply h.step?_of_not_idle
  rintro ⟨-, reply, hback⟩
  rw [hcontrol] at hback
  cases hback

/-- A call that the host makes is carried out in the next step. -/
theorem Evolves.eq_perform (h : Evolves H c c') {call : Call κ} {point : π}
    (hcontrol : c.control = .host (.call call point)) :
  c' = perform H (c.withStack (.waiting point :: c.stack)) call
  := by
  have hstep := h.step?_of_host hcontrol
  rw [step?, hcontrol] at hstep
  exact (Option.some.inj hstep).symm

theorem Evolves.step?_of_stack (h : Evolves H c c') {f : Frame κ π} {below : List (Frame κ π)}
    (hstack : c.stack = f :: below) :
  step? H c = some c'
  := by
  apply h.step?_of_not_idle
  rintro ⟨hnil, -⟩
  rw [hstack] at hnil
  cases hnil

/-- What holds at the start and is kept by every step holds throughout a run. -/
theorem Run.invariant {p : Configuration κ π σ → Prop} (h : Run H cs c)
    (start : ∀ memory, p (idle .empty memory))
    (next : ∀ {c c'}, p c → Evolves H c c' → p c') :
  p c
  := by
  induction h with
  | start memory => exact start memory
  | next _ hstep ih => exact next ih hstep

/-- A run up to one of the configurations it passes. -/
theorem Run.of_append {before after : List (Configuration κ π σ)} {a : Configuration κ π σ}
    (h : Run H (before ++ a :: after) c) :
  Run H before a
  := by
  generalize hcs : before ++ a :: after = cs at h
  induction h generalizing after with
  | start memory => simp at hcs
  | @next cs c c' hrun hstep ih =>
    obtain rfl | ⟨rest, last, rfl⟩ := List.eq_nil_or_concat after
    · obtain ⟨rfl, hlast⟩ := List.append_inj' hcs rfl
      obtain rfl := List.head_eq_of_cons_eq hlast
      exact hrun
    · rw [List.concat_eq_append, ← List.cons_append, ← List.append_assoc] at hcs
      exact ih (List.append_inj' hcs rfl).1

/-- The last step of a run. -/
theorem Run.evolves (h : Run H (cs ++ [c]) c') :
  Evolves H c c'
  := by
  generalize hcs : cs ++ [c] = passed at h
  cases h with
  | start memory => simp at hcs
  | next _ hstep =>
    obtain ⟨-, hlast⟩ := List.append_inj' hcs rfl
    obtain rfl := List.head_eq_of_cons_eq hlast
    exact hstep

/-- The step from one of the configurations that a run passes. -/
theorem Run.exists_evolves {before after : List (Configuration κ π σ)} {a : Configuration κ π σ}
    (h : Run H (before ++ a :: after) c) :
  ∃ d, Evolves H a d
  := by
  cases after with
  | nil => exact ⟨c, h.evolves⟩
  | cons d after =>
    rw [List.append_cons] at h
    exact ⟨d, h.of_append.evolves⟩

/-- What holds at a configuration of a run, when nothing has been passed since, and is kept
by every step, with what has been passed since, holds at the end. -/
theorem Run.since {before after : List (Configuration κ π σ)} {a : Configuration κ π σ}
    {p : List (Configuration κ π σ) → Configuration κ π σ → Prop}
    (h : Run H (before ++ a :: after) c) (start : p [] a)
    (next : ∀ {rest c d}, Run H (before ++ rest) c → Evolves H c d → p rest c →
      p (rest ++ [c]) d) :
  p (a :: after) c
  := by
  generalize hcs : before ++ a :: after = cs at h
  induction h generalizing after with
  | start memory => simp at hcs
  | @next cs c d hrun hstep ih =>
    obtain rfl | ⟨rest, last, rfl⟩ := List.eq_nil_or_concat after
    · obtain ⟨rfl, hlast⟩ := List.append_inj' hcs rfl
      obtain rfl := List.head_eq_of_cons_eq hlast
      rw [← List.nil_append [a]]
      exact @next [] _ _ (by rwa [List.append_nil]) hstep start
    · rw [List.concat_eq_append, ← List.cons_append, ← List.append_assoc] at hcs
      obtain ⟨rfl, hlast⟩ := List.append_inj' hcs rfl
      obtain rfl := List.head_eq_of_cons_eq hlast
      rw [List.concat_eq_append, ← List.cons_append]
      exact next hrun hstep (ih rfl)

/-- What holds after the step from a configuration and is kept by every later step, with what
has been passed since, holds at the end. -/
theorem Run.after {before after : List (Configuration κ π σ)} {a : Configuration κ π σ}
    {p : List (Configuration κ π σ) → Configuration κ π σ → Prop}
    (h : Run H (before ++ a :: after) c)
    (first : ∀ {d}, Run H before a → Evolves H a d → p [] d)
    (next : ∀ {rest c d}, Run H (before ++ a :: rest) c → Evolves H c d → p rest c →
      p (rest ++ [c]) d) :
  p after c
  := by
  refine h.since (p := fun passed b => (passed = [] ∧ b = a)
    ∨ ∃ rest, passed = a :: rest ∧ p rest b) (.inl ⟨rfl, rfl⟩) ?_ |>.elim ?_ ?_
  · rintro passed b d hrun hstep (⟨rfl, rfl⟩ | ⟨rest, rfl, hp⟩)
    · rw [List.append_nil] at hrun
      exact .inr ⟨[], rfl, first hrun hstep⟩
    · exact .inr ⟨rest ++ [b], rfl, next hrun hstep hp⟩
  · rintro ⟨hnil, -⟩
    cases hnil
  · rintro ⟨rest, heq, hp⟩
    obtain rfl := List.tail_eq_of_cons_eq heq
    exact hp

/-- What relates consecutive configurations and is transitive relates every
configuration of a run to the last one. -/
theorem Run.related {p : Configuration κ π σ → Configuration κ π σ → Prop}
    (h : Run H cs c) (next : ∀ {cs c c'}, Run H cs c → Evolves H c c' → p c c')
    (trans : ∀ {a b c}, p a b → p b c → p a c) {a : Configuration κ π σ} (ha : a ∈ cs) :
  p a c
  := by
  induction h with
  | start memory => cases ha
  | next hrun hstep ih =>
    obtain ha | ha := List.mem_append.mp ha
    · exact trans (ih ha) (next hrun hstep)
    · obtain rfl := List.mem_singleton.mp ha
      exact next hrun hstep

end Configuration

end Statechart
