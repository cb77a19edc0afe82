import Statechart.Proofs.Delays
import Statechart.Proofs.Operation

/-!
# Timers in runs

Throughout a run in which the host cancels no task of a timer, the clock is accurate, and
the elapsed time of a timer is the time for which it was seen running since it was made or
last started again.  A timer fires at most once, when this time reaches its delay
(`Configuration.Run.accounting`).
-/

namespace Statechart

variable {κ π σ : Type}

/-- What engines do by themselves are operations on timers. -/
theorem Timing.covers_operates :
  Timing.Covers (Timing.Operates (τ := Callback κ))
  where
  refl _ := .refl
  trans := .trans
  arm t _ _ _ := .trans (.single (.newTimer t _ _ _)) (.single (.start _ _))
  destroy t id := .single (.destroy t id)
  announce t channel completion := .single (Timing.acts_announce t channel completion)

namespace Configuration

variable {H : Host κ π σ} {cs : List (Configuration κ π σ)} {c d : Configuration κ π σ}

/-! ### Steps -/

/-- The timer that the host starts again in the next step. -/
def restarted? (c : Configuration κ π σ) : Option Nat :=
  match c.control with
  | .host (.call (.restartTimer id) _) => some id
  | _ => none

/-- The timer that fires in the next step. -/
def firing? (c : Configuration κ π σ) : Option Nat :=
  match c.control, c.stack with
  | .back _, .advancing target :: _ => c.engine.timing.dueTimer? target
  | _, _ => none

/-- The host does not cancel the task of a timer in the next step.  The numbers of these
tasks are not given out: a host that cancels its own tasks alone spares them. -/
def spares (c : Configuration κ π σ) : Bool :=
  match c.control with
  | .host (.call (.cancel task) _) =>
    c.engine.timing.scheduler.queue.all fun p => p.id ≠ task || p.task.timer?.isNone
  | _ => true

theorem restarted?_of_operation? (h : c.operation? = none) :
  c.restarted? = none
  := by
  rw [operation?] at h
  rw [restarted?]
  split
  · next id point hcontrol => simp [hcontrol, Call.operation?] at h
  · rfl

theorem firing?_eq (c : Configuration κ π σ) :
  c.firing? = c.target?.bind c.engine.timing.dueTimer?
  := by
  rw [firing?, target?]
  cases c.control with
  | host next => rfl
  | back reply =>
    cases c.stack with
    | nil => rfl
    | cons f below => cases f <;> rfl

/-- What the host asks for operates on timers, unless it is to start one again. -/
theorem operates_of_operation? {f : Timing (Callback κ) → Timing (Callback κ)}
    (hf : c.operation? = some f) (hspares : c.spares = true) (hcall : c.restarted? = none) :
  c.engine.timing.Operates (f c.engine.timing)
  := by
  rw [operation?] at hf
  split at hf
  · next call point hcontrol =>
    cases call with
    | schedule ms task =>
      cases hf
      exact .single (.schedule _ _ _)
    | cancel task =>
      cases hf
      refine .single (.cancel _ ?_)
      intro p hp hid id htask
      rw [spares, hcontrol] at hspares
      have := List.all_eq_true.mp hspares p hp
      simp [hid, htask, Job.timer?] at this
    | newTimer pool ms callback =>
      cases hf
      exact .single (.newTimer _ _ _ _)
    | startTimer timer =>
      cases hf
      exact .single (.start _ _)
    | pauseTimer timer =>
      cases hf
      exact .single (.pause _ _)
    | restartTimer timer =>
      rw [restarted?, hcontrol] at hcall
      cases hcall
    | destroyTimer timer =>
      cases hf
      exact .single (.destroy _ _)
    | completion timer =>
      cases hf
      exact Timing.operates_completion _ _
    | receive channel =>
      cases hf
      exact .single (Timing.acts_receive _ _)
    | pauseAll pool =>
      cases hf
      exact Timing.operates_pauseAll _ _
    | startAll pool =>
      cases hf
      exact Timing.operates_startAll _ _
    | standby pool =>
      cases hf
      exact Timing.operates_standby _ _
    | wake pool =>
      cases hf
      exact Timing.operates_wake _ _
    | destroyAll pool =>
      cases hf
      exact Timing.operates_destroyAll _ _
    | _ => cases hf
  · cases hf

/-- In a step that neither starts a timer again nor is one of the clock, timers are operated
on. -/
theorem step_cases (h : step? H c = some d) (hspares : c.spares = true) :
  (∃ id, c.restarted? = some id ∧ c.firing? = none
      ∧ d.engine.timing = (c.engine.timing.restart id).2)
    ∨ (∃ target, c.restarted? = none ∧ c.firing? = c.engine.timing.dueTimer? target
      ∧ (c.engine.timing.tick target).Operates d.engine.timing)
    ∨ (c.restarted? = none ∧ c.firing? = none ∧ c.engine.timing.Operates d.engine.timing)
  := by
  rw [firing?_eq]
  obtain ⟨f, hf, htarget, htiming⟩ | ⟨target, hnone, htarget, hoperates⟩
    | ⟨hnone, htarget, hoperates⟩ := Timing.covers_operates.step h
  · rw [htarget, htiming]
    cases hcall : c.restarted? with
    | none => exact .inr (.inr ⟨rfl, rfl, operates_of_operation? hf hspares hcall⟩)
    | some id =>
      refine .inl ⟨id, rfl, rfl, ?_⟩
      rw [restarted?] at hcall
      split at hcall
      · next id' point hcontrol =>
        rw [operation?, hcontrol] at hf
        obtain rfl := Option.some.inj hf
        obtain rfl := Option.some.inj hcall
        rfl
      · cases hcall
  · rw [htarget]
    exact .inr (.inl ⟨target, restarted?_of_operation? hnone, rfl, hoperates⟩)
  · rw [htarget]
    exact .inr (.inr ⟨restarted?_of_operation? hnone, rfl, hoperates⟩)

/-! ### Runs -/

/-- However a run goes on, the clock keeps accurate, and its timers go on. -/
theorem Evolves.passes (h : Evolves H c d) (hspares : c.spares = true)
    (haccurate : c.engine.timing.Accurate) :
  d.engine.timing.Accurate
    ∧ Timing.Passes c.restarted? c.firing? c.engine.timing d.engine.timing
  := by
  have hidle : c.IsIdle → c.engine.timing.Operates d.engine.timing →
      d.engine.timing.Accurate
        ∧ Timing.Passes c.restarted? c.firing? c.engine.timing d.engine.timing := by
    rintro ⟨hst, reply, hcontrol⟩ hoperates
    obtain ⟨haccurate', hsteady⟩ := haccurate.operates hoperates
    have hrestarted : c.restarted? = none := by rw [restarted?, hcontrol]
    have hfiring : c.firing? = none := by rw [firing?, hcontrol, hst]
    rw [hrestarted, hfiring]
    exact ⟨haccurate', hsteady.passes nofun⟩
  cases h with
  | enter memory code h =>
    exact hidle h (Timing.covers_operates.enter (c := idle c.engine memory) .refl code)
  | addPool h => exact hidle h (.single (.frame rfl rfl))
  | addRegistry pool h => exact hidle h .refl
  | step handed hstep =>
    obtain ⟨id, hrestarted, hfiring, htiming⟩ | ⟨target, hrestarted, hfiring, hoperates⟩
      | ⟨hrestarted, hfiring, hoperates⟩ := step_cases hstep hspares
    · rw [hrestarted, hfiring, htiming]
      exact haccurate.restart id
    · obtain ⟨hticked, hpasses⟩ := haccurate.tick target
      obtain ⟨haccurate', hsteady⟩ := hticked.operates hoperates
      rw [hrestarted, hfiring]
      exact ⟨haccurate', hpasses.steady hsteady⟩
    · obtain ⟨haccurate', hsteady⟩ := haccurate.operates hoperates
      rw [hrestarted, hfiring]
      exact ⟨haccurate', hsteady.passes nofun⟩

/-- What holds of an accurate clock at the start and is kept as its timers go on holds
throughout a run in which the tasks of timers are spared. -/
theorem Run.spared {p : List (Configuration κ π σ) → Configuration κ π σ → Prop}
    (h : Run H cs c) (hspares : ∀ d ∈ cs, d.spares = true)
    (start : ∀ memory, p [] (idle .empty memory))
    (next : ∀ {cs c d}, c.engine.timing.Accurate → d.engine.timing.Accurate →
      Timing.Passes c.restarted? c.firing? c.engine.timing d.engine.timing →
      p cs c → p (cs ++ [c]) d) :
  c.engine.timing.Accurate ∧ p cs c
  := by
  induction h with
  | start memory => exact ⟨Timing.accurate_empty, start memory⟩
  | @next cs c d hrun hstep ih =>
    have hbefore : ∀ d ∈ cs, d.spares = true :=
      fun d hd => hspares d (List.mem_append_left _ hd)
    have hlast : c.spares = true := hspares c (List.mem_append_right _ (List.mem_singleton_self c))
    obtain ⟨haccurate, hp⟩ := ih hbefore
    obtain ⟨haccurate', hpasses⟩ := hstep.passes hlast haccurate
    exact ⟨haccurate', next haccurate haccurate' hpasses hp⟩

theorem Run.accurate (h : Run H cs c) (hspares : ∀ d ∈ cs, d.spares = true) :
  c.engine.timing.Accurate
  := (h.spared (p := fun _ _ => True) hspares (fun _ => trivial) fun _ _ _ _ => trivial).1

/-! ### Running time -/

/-- A timer that has fired is over ever since, and its whole delay has elapsed. -/
theorem Run.over_of_firing? (h : Run H cs c) (hspares : ∀ d ∈ cs, d.spares = true)
    (hd : d ∈ cs) {id : Nat} (hfiring : d.firing? = some id)
    (hthere : ∃ x, d.engine.timing.timers.get? id = some x) :
  ∃ y, c.engine.timing.timers.get? id = some y ∧ y.status.isFinished = true
    ∧ y.elapsedAt c.engine.timing.now = y.delay
  := by
  refine (h.spared (p := fun cs c => d ∈ cs →
    ∃ y, c.engine.timing.timers.get? id = some y ∧ y.status.isFinished = true
      ∧ y.elapsedAt c.engine.timing.now = y.delay) hspares nofun ?_).2 hd
  intro cs b c haccurate _ hpasses ih hd
  obtain hd | hd := List.mem_append.mp hd
  · obtain ⟨y, hy, hfinished, hfull⟩ := ih hd
    obtain ⟨z, hz, hlasts, helapsed, -, -⟩ := hpasses.kept id y hy
    have hresting : y.status ≠ .running := by
      intro hrunning
      rw [hrunning] at hfinished
      cases hfinished
    refine ⟨z, hz, hlasts.finished hfinished, ?_⟩
    rw [helapsed, hlasts.delay, if_neg (by simp [hfinished]), if_neg hresting, Nat.add_zero,
      hfull]
  · obtain rfl := List.mem_singleton.mp hd
    obtain ⟨x, hx⟩ := hthere
    obtain ⟨y, hy, hlasts, -, -, hfires⟩ := hpasses.kept id x hx
    obtain ⟨-, hfinished, hfull⟩ := hfires hfiring
    exact ⟨y, hy, hfinished, hfull.trans hlasts.delay.symm⟩

/-- A timer that fires is there. -/
theorem Run.exists_timer_of_firing? (h : Run H cs c) (hspares : ∀ d ∈ cs, d.spares = true)
    (hd : d ∈ cs) {id : Nat} (hfiring : d.firing? = some id) :
  ∃ x, d.engine.timing.timers.get? id = some x
  := by
  obtain ⟨before, after, rfl⟩ := List.append_of_mem hd
  have haccurate := h.of_append.accurate fun b hb => hspares b (List.mem_append_left _ hb)
  rw [firing?_eq, Option.bind_eq_some_iff] at hfiring
  obtain ⟨target, -, hdue⟩ := hfiring
  rw [Timing.dueTimer?] at hdue
  split at hdue
  · next p scheduler htake =>
    obtain ⟨x, hx, -⟩ := haccurate.of_takeDue htake (Job.timer?_eq_some_iff.mp hdue)
    exact ⟨x, hx⟩
  · cases hdue

end Configuration

end Statechart
