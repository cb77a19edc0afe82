import Statechart.Proofs.Armed
import Statechart.Proofs.Descent

/-!
# Instances that were stopped

An instance that was stopped stays so, with the snapshot and the history that it had; it
has neither children nor timers nor listeners, and no mail once nothing is under way.  No
more effects of it are executed, or of what descends from it, and the timers that any of
them ever had are destroyed (`Configuration.Run.inert`).
-/

namespace Statechart

variable {κ π σ : Type}

/-! ### Effects -/

namespace Configuration

variable {H : Host κ π σ} {cs : List (Configuration κ π σ)} {c d : Configuration κ π σ}
  {mid : Engine κ} {i j : Nat} {x : Instance κ}

/-- The effect that is executed in the next step, if one is: the instance that executes it,
the effect, and what it gets. -/
def executes? (c : Configuration κ π σ) : Option (Nat × PendingEffect κ × Context × Event) :=
  match c.control, c.stack with
  | .back _, .working i _ (.perform (a :: _) context event :: _) :: _ =>
    if c.engine.isRunning i then some (i, a, context, event) else none
  | _, _ => none

/-- An effect that is executed runs code of the host. -/
theorem step?_of_executes? {a : PendingEffect κ} {context : Context} {event : Event}
    (h : executes? c = some (i, a, context, event)) :
  ∃ b, step? H c = some (enter H b (H.execute a.code context event a.metadata))
    ∧ b.engine = c.engine
  := by
  rw [executes?.eq_def] at h
  split at h
  · next reply k outcome a' more context' event' rest below hcontrol hstack =>
    split at h
    · next hrunning =>
      simp only [Option.some.injEq, Prod.mk.injEq] at h
      obtain ⟨rfl, rfl, rfl, rfl⟩ := h
      rw [Engine.isRunning] at hrunning
      cases hx : c.engine.get? k with
      | none => simp [hx] at hrunning
      | some x =>
        rw [hx] at hrunning
        refine ⟨c.work k outcome (.perform more context' event' :: rest) below, ?_, rfl⟩
        rw [step?, hcontrol]
        simp only [hstack, hx, stepPhase, if_pos hrunning]
    · cases h
  · cases h

/-- A phase runs the code of effects only if it has effects to perform, and the instance
runs. -/
theorem stepPhase_execute {o : Except MachineError Unit} {rest : List (Phase κ)}
    {below : List (Frame κ π)} {p : Phase κ}
    (h : x.isRunning = true → ∀ a more context event, p ≠ .perform (a :: more) context event)
    (f : κ → Context → Event → Option Meta → Engine κ → σ → Next κ π × σ) :
  stepPhase { H with execute := f } c i x o rest below p = stepPhase H c i x o rest below p
  := by
  cases p with
  | perform actions context event =>
    cases actions with
    | nil => rfl
    | cons a more =>
      have hnot : ¬x.isRunning = true := fun hrunning => h hrunning a more context event rfl
      rw [stepPhase, stepPhase, if_neg hnot, if_neg hnot]
  | invoke state context vs => cases vs <;> rfl
  | notify s ls => cases ls <;> rfl
  | _ => rfl

/-- A step does not depend on what effects and listeners do if neither the call that the host
makes nor the phase that is carried out does. -/
theorem step?_congr (f : κ → Context → Event → Option Meta → Engine κ → σ → Next κ π × σ)
    (g : κ → Snapshot κ → Engine κ → σ → Next κ π × σ)
    (hcall : ∀ call point, c.control = .host (.call call point) →
      perform { H with execute := f, notify := g } (c.withStack (.waiting point :: c.stack)) call
        = perform H (c.withStack (.waiting point :: c.stack)) call)
    (hphase : ∀ {reply i o p rest below x}, c.control = .back reply →
      c.stack = .working i o (p :: rest) :: below → c.engine.get? i = some x →
      stepPhase { H with execute := f, notify := g } c i x o rest below p
        = stepPhase H c i x o rest below p) :
  step? { H with execute := f, notify := g } c = step? H c
  := by
  rw [step?, step?]
  cases hcontrol : c.control with
  | host next =>
    cases next with
    | done => rfl
    | call call point => exact congrArg some (hcall call point hcontrol)
  | back reply =>
    cases hstack : c.stack with
    | nil => rfl
    | cons frame below =>
      cases frame with
      | working i o phases =>
        cases hx : c.engine.get? i with
        | none => simp only [hx]
        | some x =>
          cases phases with
          | nil =>
            simp only [hx]
            rfl
          | cons p rest => simp only [hx, hphase hcontrol hstack hx]
      | _ => rfl

/-- A step in which no effect is executed does not depend on what effects do. -/
theorem step?_execute (h : executes? c = none)
    (f : κ → Context → Event → Option Meta → Engine κ → σ → Next κ π × σ) :
  step? { H with execute := f } c = step? H c
  := by
  refine step?_congr f H.notify (fun call _ _ => by cases call <;> rfl) ?_
  intro reply i o p rest below x hcontrol hstack hx
  apply stepPhase_execute
  rintro hrunning a more context event rfl
  simp [executes?, hcontrol, hstack, Engine.isRunning, hx, hrunning] at h

/-- An instance that executes an effect runs. -/
theorem isRunning_of_executes? {a : PendingEffect κ} {context : Context} {event : Event}
    (h : executes? c = some (i, a, context, event)) :
  c.engine.isRunning i = true
  := by
  rw [executes?.eq_def] at h
  split at h
  · split at h
    · next hrunning =>
      obtain ⟨rfl, -⟩ := Prod.mk.inj (Option.some.inj h)
      exact hrunning
    · cases h
  · cases h

end Configuration

/-! ### Instances that stay stopped -/

/-- An instance that is stopped keeps its snapshot and its history in every turn. -/
theorem Turn.of_stopped {i : Nat} {r r' : Engine κ} {x y : Instance κ}
    {w w' : Option (List (Phase κ))} (h : Turn i r r' x w y w') (hx : x.status = .stopped) :
  y.status = .stopped ∧ y.snapshot = x.snapshot ∧ y.history = x.history
  := by
  have hnot : ¬x.isRunning = true := by
    simp [Instance.isRunning_of_stopped hx]
  cases h with
  | start hstatus =>
    rw [hx] at hstatus
    cases hstatus
  | begin hrunning => exact absurd hrunning hnot
  | commit hrunning _ _ => exact absurd hrunning hnot
  | halt _ _ => exact ⟨rfl, rfl, rfl⟩
  | _ => exact ⟨hx, rfl, rfl⟩

/-- An instance that is stopped has no listeners. -/
def Instance.Silent (x : Instance κ) : Prop := x.status = .stopped → x.listeners = []

theorem Turn.silent {i : Nat} {r r' : Engine κ} {x y : Instance κ}
    {w w' : Option (List (Phase κ))} (h : Turn i r r' x w y w') (hx : x.Silent) :
  y.Silent
  := by
  cases h with
  | keep _ hlistens =>
    intro hstopped
    have hnil := hx hstopped
    cases hlistens with
    | add _ hnot => exact absurd hstopped hnot
    | remove listener =>
      simp only [hnil]
      rfl
    | _ => exact hnil
  | start _ => exact nofun
  | halt _ _ => exact fun _ => rfl
  | _ => exact hx

/-! ### Stopping -/

namespace Configuration

variable {H : Host κ π σ} {cs : List (Configuration κ π σ)} {c d : Configuration κ π σ}
  {mid : Engine κ} {i j : Nat} {x y : Instance κ}

/-- An instance is stopped by a call of the host. -/
theorem control_of_stopped (h : (signal H c).stopped = some i) :
  ∃ point, c.control = .host (.call (.stop i) point)
  := by
  have hsignals := signals H c
  generalize signal H c = s at h hsignals
  cases hsignals with
  | stop hcontrol =>
    obtain rfl := Option.some.inj h
    exact ⟨_, hcontrol⟩
  | _ => cases h

/-- A call that stops an instance does so at once. -/
theorem Evolves.stops (h : Evolves H c d) (hcall : (signal H c).stopped = some i)
    (hx : c.engine.get? i = some x) :
  ∃ y, d.engine.get? i = some y ∧ y.status = .stopped ∧ y.snapshot = x.snapshot
    ∧ y.history = x.history
  := by
  obtain ⟨point, hcontrol⟩ := control_of_stopped hcall
  obtain rfl := h.eq_perform hcontrol
  have hhalts := Engine.halts_stop c.engine i
  obtain ⟨y, hy⟩ := hhalts.exists_halted hx
  refine ⟨y, hy, Engine.status_stop hy, ?_⟩
  obtain ⟨z, hz, rfl | ⟨-, rfl, -⟩⟩ := hhalts.exists_get? hy
  · obtain rfl := Option.some.inj (hx.symm.trans hz)
    exact ⟨rfl, rfl⟩
  · obtain rfl := Option.some.inj (hx.symm.trans hz)
    exact ⟨rfl, rfl⟩

/-! ### After the stop -/

/-- An instance that was stopped has kept its snapshot and its history since. -/
theorem Run.unchanged (h : Run H cs c) (hd : d ∈ cs ++ [c]) (hx : d.engine.get? i = some x)
    (hstopped : x.status = .stopped) (hy : c.engine.get? i = some y) :
  y.status = .stopped ∧ y.snapshot = x.snapshot ∧ y.history = x.history
  := by
  obtain hd | hd := List.mem_append.mp hd
  · obtain ⟨before, after, rfl⟩ := List.append_of_mem hd
    -- The induction is on the steps since; the number of the instance is not given again.
    have hsince := h.since
      (p := fun _ c => i < c.engine.instances.next ∧ ∀ y, c.engine.get? i = some y →
        y.status = .stopped ∧ y.snapshot = x.snapshot ∧ y.history = x.history)
      ⟨Engine.lt_next_of_get? hx, ?_⟩ ?_
    · exact hsince.2 y hy
    · intro z hz
      rw [hx] at hz
      obtain rfl := Option.some.inj hz
      exact ⟨hstopped, rfl, rfl⟩
    · intro rest c d hrun hstep ih
      obtain ⟨mid, hgoes⟩ := hrun.goes hstep
      apply hgoes.kept ih
      rintro w z hw hmid ⟨hstopped, hsnapshot, hhistory⟩
      obtain ⟨hstatus, hsnapshot', hhistory'⟩ := (hgoes.turn hw hmid).of_stopped hstopped
      exact ⟨hstatus, hsnapshot'.trans hsnapshot, hhistory'.trans hhistory⟩
  · obtain rfl := List.mem_singleton.mp hd
    obtain rfl := Option.some.inj (hx.symm.trans hy)
    exact ⟨hstopped, rfl, rfl⟩

/-- In a run an instance that is stopped has no listeners. -/
theorem Run.silent (h : Run H cs c) (hx : c.engine.get? i = some x) :
  x.Silent
  := by
  refine h.each (p := fun _ x _ => x.Silent) ?_ (fun _ hturn => hturn.silent) hx
  intro s r i y w harrives _
  cases harrives with
  | created _ _ => exact nofun
  | spawned _ _ _ _ _ => exact nofun

/-- An instance that was stopped does not execute effects. -/
theorem Run.not_executes (h : Run H cs c) (hi : StoppedIn (cs ++ [c]) i)
    (a : PendingEffect κ) (context : Context) (event : Event) :
  executes? c ≠ some (i, a, context, event)
  := by
  intro hexecutes
  have hrunning := isRunning_of_executes? hexecutes
  rw [Engine.isRunning] at hrunning
  cases hx : c.engine.get? i with
  | none => simp [hx] at hrunning
  | some x =>
    rw [hx] at hrunning
    have hstatus := Instance.status_of_isRunning hrunning
    rw [h.status_of_stoppedIn hi hx] at hstatus
    cases hstatus

/-- The timers that an instance ever had are destroyed when it has been stopped. -/
theorem Run.destroyed (h : Run H cs c) (hi : StoppedIn (cs ++ [c]) i) (hd : d ∈ cs ++ [c])
    (hx : d.engine.get? i = some x) {e : Armed} (he : e ∈ x.timers) :
  c.engine.timing.status? e.timer = some .destroyed
  := by
  have hholds : c.engine.Holds i e.timer := by
    have hholds : d.engine.Holds i e.timer := .inl ⟨x, hx, e, he, rfl⟩
    obtain hd | hd := List.mem_append.mp hd
    · exact h.holds hd hholds
    · obtain rfl := List.mem_singleton.mp hd
      exact hholds
  obtain ⟨y, hy, e', he', -⟩ | hdestroyed := hholds
  · rw [(h.empty_of_stopped hy (h.status_of_stoppedIn hi hy)).2] at he'
    cases he'
  · exact hdestroyed

/-- A call that stops an instance takes effect in its step, and leaves the snapshot and the
history.  An instance that was stopped, by a call or with an ancestor, stays so with the
snapshot and the history that it had; no child, timer or listener is stored with it, and no
mail when nothing is under way.  Neither it nor what descends from it executes an effect in
the next step, and all timers that one of them ever had are destroyed. -/
theorem Run.inert (h : Run H cs c) :
  (∀ d i x, Evolves H c d → (signal H c).stopped = some i → c.engine.get? i = some x →
      ∃ y, d.engine.get? i = some y ∧ y.status = .stopped ∧ y.snapshot = x.snapshot
        ∧ y.history = x.history)
    ∧ ∀ d ∈ cs ++ [c], ∀ i x, d.engine.get? i = some x → x.status = .stopped →
      (∀ y, c.engine.get? i = some y →
          y.status = .stopped ∧ y.snapshot = x.snapshot ∧ y.history = x.history
            ∧ y.children = .empty ∧ y.timers = [] ∧ y.listeners = []
            ∧ (c.IsIdle → y.mailbox = []))
        ∧ ∀ j, j = i ∨ Descends (cs ++ [c]) i j →
          (∀ a context event, executes? c ≠ some (j, a, context, event))
            ∧ ∀ b ∈ cs ++ [c], ∀ z, b.engine.get? j = some z → ∀ e ∈ z.timers,
              c.engine.timing.status? e.timer = some .destroyed
  := by
  refine ⟨fun d i x hstep hcall hx => hstep.stops hcall hx, ?_⟩
  intro d hd i x hx hstopped
  constructor
  · intro y hy
    obtain ⟨hstatus, hsnapshot, hhistory⟩ := h.unchanged hd hx hstopped hy
    obtain ⟨hchildren, htimers⟩ := h.empty_of_stopped hy hstatus
    refine ⟨hstatus, hsnapshot, hhistory, hchildren, htimers, h.silent hy hstatus, ?_⟩
    rintro ⟨hstack, -⟩
    by_contra hne
    have hworks := h.orderly.mail i y hy hne
    rw [hstack] at hworks
    cases hworks
  · have hi : StoppedIn (cs ++ [c]) i := ⟨d, hd, x, hx, hstopped⟩
    intro j hj
    have hj' : StoppedIn (cs ++ [c]) j := by
      obtain rfl | hj := hj
      · exact hi
      · exact h.stoppedIn_of_descends hi hj
    exact ⟨h.not_executes hj', fun b hb z hz e he => h.destroyed hj' hb hz he⟩

/-- The first `n` steps after the parent is made: it is started, is sent away and back, and is
stopped with its last child. -/
def endedRun (n : Nat) : List (Configuration Unit (Script Unit) Unit)
    × Configuration Unit (Script Unit) Unit :=
  played (fun _ => upset) (fun _ => .ok kid) 1 guardian
    [.start 0, .send 0 (.named "GO"), .stop 0] n

/-- Nothing is left of the parent that was stopped, and its last child is stopped with it. -/
theorem guardian_inert :
  Run guardianHost (endedRun 82).1 (endedRun 82).2 ∧ (endedRun 82).2.IsIdle
    ∧ Invoked ((endedRun 82).1 ++ [(endedRun 82).2]) 0 2
    ∧ (∀ a context event, executes? (endedRun 82).2 ≠ some (2, a, context, event))
    ∧ ∃ y, (endedRun 82).2.engine.get? 0 = some y ∧ y.status = .stopped
      ∧ y.children = .empty ∧ y.timers = [] ∧ y.listeners = [] ∧ y.mailbox = []
  := by
  have hrun : Run guardianHost (endedRun 82).1 (endedRun 82).2 := by
    refine run_played isCompiled_guardian ?_ (by decide +kernel)
    rintro _ m ⟨⟩
    exact isCompiled_kid
  have hidle : (endedRun 82).2.IsIdle := by decide +kernel
  have hinvoked : Invoked ((endedRun 82).1 ++ [(endedRun 82).2]) 0 2 := by decide +kernel
  have hstopped : (endedRun 82).2.engine.hasStopped 0 = true := by decide +kernel
  obtain ⟨y, hy, hstatus⟩ := Engine.hasStopped_iff.mp hstopped
  obtain ⟨hself, hbelow⟩ := hrun.inert.2 _ (by simp) 0 y hy hstatus
  obtain ⟨-, -, -, hchildren, htimers, hlisteners, hmailbox⟩ := hself y hy
  exact ⟨hrun, hidle, hinvoked, (hbelow 2 (.inr (.single hinvoked))).1, y, hy, hstatus,
    hchildren, htimers, hlisteners, hmailbox hidle⟩

end Configuration

end Statechart
