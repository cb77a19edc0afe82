import Statechart.Proofs.Operation
import Statechart.Proofs.Turn

/-!
# Runs without pauses

In a run in which the host asks for no pause, no pool is paused and neither is any timer
(`Configuration.Run.unpaused`).
-/

namespace Statechart

variable {κ π σ τ : Type}

namespace Timing

/-- Pausing a timer leaves pools alone. -/
theorem pools_pause (t : Timing τ) (id : Nat) :
  (t.pause id).pools = t.pools
  := by
  rw [pause]
  split
  · rfl
  · next x _ =>
    split
    · rw [updateTimer, cancelTask]
      split <;> rfl
    · rfl

/-- Pausing a timer leaves every other one. -/
theorem get?_pause_of_ne (t : Timing τ) {id id' : Nat} (h : id ≠ id') :
  (t.pause id).timers.get? id' = t.timers.get? id'
  := by
  rw [pause]
  split
  · rfl
  · split
    · rw [updateTimer, timers_cancelTask, Table.get?_modify, if_neg h]
    · rfl

/-- No pool is paused, and no timer is. -/
structure Unpaused (t : Timing τ) : Prop where
  pools : ∀ pool p, t.pools.get? pool = some p → p.paused = false
  timers : ∀ id x, t.timers.get? id = some x → x.status ≠ .paused

namespace Unpaused

variable {t t' : Timing τ}

theorem empty :
  (Timing.empty : Timing τ).Unpaused
  where
  pools pool p h := by
    rw [Timing.empty, Table.get?_empty] at h
    cases h
  timers id x h := by
    rw [Timing.empty, Table.get?_empty] at h
    cases h

/-- No timer has the status of a paused one. -/
theorem status?_ne (h : t.Unpaused) (id : Nat) :
  t.status? id ≠ some .paused
  := by
  intro hpaused
  obtain ⟨x, hx, hstatus⟩ := Option.map_eq_some_iff.mp hpaused
  exact h.timers id x hx hstatus

/-- The same pools and timers. -/
theorem congr (h : t.Unpaused) (hpools : t'.pools = t.pools) (htimers : t'.timers = t.timers) :
  t'.Unpaused
  := ⟨hpools ▸ h.pools, htimers ▸ h.timers⟩

/-- A timer changes, and it is not paused. -/
theorem updateTimer (h : t.Unpaused) (id : Nat) {f : Timer τ → Timer τ}
    (hf : ∀ x, t.timers.get? id = some x → (f x).status ≠ .paused) :
  (t.updateTimer id f).Unpaused
  where
  pools := h.pools
  timers id' y hy := by
    simp only [Timing.updateTimer, Table.get?_modify] at hy
    split at hy
    · next heq =>
      obtain ⟨x, hx, rfl⟩ := Option.map_eq_some_iff.mp hy
      exact hf x (heq ▸ hx)
    · exact h.timers id' y hy

/-- A pool changes, and it is not paused. -/
theorem updatePool (h : t.Unpaused) (pool : Nat) {f : TimerPool → TimerPool}
    (hf : ∀ p, p.paused = false → (f p).paused = false) :
  (t.updatePool pool f).Unpaused
  where
  pools pool' q hq := by
    simp only [Timing.updatePool, Table.get?_modify] at hq
    split at hq
    · obtain ⟨p, hp, rfl⟩ := Option.map_eq_some_iff.mp hq
      exact hf p (h.pools pool' p hp)
    · exact h.pools pool' q hq
  timers := h.timers

/-- A new timer is idle. -/
theorem newTimer (h : t.Unpaused) (pool delay : Nat) (callback : Option τ) :
  (t.newTimer pool delay callback).Unpaused
  where
  pools :=
    (h.updatePool pool (f := fun p =>
      { p with timers := p.timers.filter (fun i => !t.isFinished i) ++ [t.timers.next] })
      fun _ hp => hp).pools
  timers id x hx := by
    rw [Timing.newTimer, Table.get?_add] at hx
    split at hx
    · obtain rfl := Option.some.inj hx
      rintro ⟨⟩
    · exact h.timers id x hx

theorem cancelTask (h : t.Unpaused) (x : Timer τ) :
  (t.cancelTask x).Unpaused
  := by
  rw [Timing.cancelTask]
  split
  · exact h.congr rfl rfl
  · exact h

theorem announce (h : t.Unpaused) (channel : Option Nat) (completion : Completion) :
  (t.announce channel completion).Unpaused
  := by
  cases channel <;> exact h.congr rfl rfl

/-- A timer is started where no other is paused. -/
theorem start_of_others {id : Nat}
    (hpools : ∀ pool p, t.pools.get? pool = some p → p.paused = false)
    (hothers : ∀ id' x, id ≠ id' → t.timers.get? id' = some x → x.status ≠ .paused) :
  (t.start id).2.Unpaused
  := by
  rw [Timing.start]
  split
  · next hnone =>
    refine ⟨hpools, fun id' x hx => hothers id' x ?_ hx⟩
    rintro rfl
    rw [hnone] at hx
    cases hx
  · next x hx =>
    split
    · refine ⟨hpools, fun id' y hy => ?_⟩
      simp only [Table.get?_modify] at hy
      split at hy
      · obtain ⟨z, -, rfl⟩ := Option.map_eq_some_iff.mp hy
        rintro ⟨⟩
      · next hne => exact hothers id' y hne hy
    · next hstart =>
      refine ⟨hpools, fun id' y hy hpaused => ?_⟩
      by_cases heq : id = id'
      · subst heq
        obtain rfl := Option.some.inj (hx.symm.trans hy)
        have hpool : t.isPaused x.pool = false := by
          rw [isPaused]
          split
          · next p hp => exact hpools x.pool p hp
          · rfl
        simp [canStart, hpool, hpaused] at hstart
      · exact hothers id' y heq hy hpaused

/-- A timer that is started runs, or stays as it is. -/
theorem start (h : t.Unpaused) (id : Nat) :
  (t.start id).2.Unpaused
  := start_of_others h.pools fun id' x _ => h.timers id' x

/-- A timer that is destroyed is not paused. -/
theorem destroy (h : t.Unpaused) (id : Nat) :
  (t.destroy id).Unpaused
  := by
  rw [Timing.destroy]
  split
  · exact h
  · next x _ =>
    split
    · exact h
    · refine announce (updateTimer (h.cancelTask x) id ?_) _ _
      rintro _ _ ⟨⟩

/-- A timer that has fired is not paused. -/
theorem fire (h : t.Unpaused) (id : Nat) :
  (t.fire id).2.Unpaused
  := by
  rw [Timing.fire]
  split
  · exact h
  · split
    · exact h.updateTimer id (by rintro _ _ ⟨⟩)
    · exact h

/-- A timer that is paused in order to be started again is started. -/
theorem restart (h : t.Unpaused) (id : Nat) :
  (t.restart id).2.Unpaused
  := by
  simp only [Timing.restart]
  split
  · next hfinished =>
    rw [Timing.pause]
    split
    · exact h
    · next x hx =>
      split
      · next hrunning =>
        obtain ⟨y, hy, -, hsame⟩ := exists_pause hx
        rw [isFinished, status?, hy] at hfinished
        simp only [Option.map_some, hsame, hrunning] at hfinished
        cases hfinished
      · exact h
  · refine start_of_others ?_ fun id' x hne hx => ?_
    · exact (pools_pause t id).symm ▸ h.pools
    · simp only [Timing.updateTimer, Table.get?_modify, if_neg hne] at hx
      exact h.timers id' x (get?_pause_of_ne t hne ▸ hx)

/-- A timer is started to get a completion, and not paused. -/
theorem completion (h : t.Unpaused) (id : Nat) :
  (t.completion id).2.Unpaused
  := by
  rw [Timing.completion]
  split
  · exact h
  · next x hx =>
    split
    · exact h
    · exact h
    · have hopen : ((t.disconnect x.channel).openChannel).Unpaused := by
        cases x.channel <;> exact h.congr rfl rfl
      refine start (updateTimer hopen id ?_) id
      exact fun y hy => hopen.timers id y hy

/-- Taking a message off a channel pauses nothing. -/
theorem receive (h : t.Unpaused) (channel : Nat) :
  (t.receive channel).2.Unpaused
  := by
  rw [Timing.receive]
  split
  · exact h
  · split
    · exact h.congr rfl rfl
    · exact h

/-- Operations on one timer after another that pause none. -/
theorem foldl {f : Timing τ → Nat → Timing τ}
    (hf : ∀ t : Timing τ, t.Unpaused → ∀ id, (f t id).Unpaused) (h : t.Unpaused)
    (ids : List Nat) :
  (ids.foldl f t).Unpaused
  := List.foldlRecOn ids f (motive := Unpaused) h fun t h id _ => hf t h id

theorem startEach (h : t.Unpaused) (ids : List Nat) :
  (t.startEach ids).Unpaused
  := foldl (fun _ h => h.start) h ids

/-- The clock fires timers and pauses none. -/
theorem tick (h : t.Unpaused) (target : Nat) :
  (t.tick target).Unpaused
  := by
  rw [Timing.tick]
  split
  · next p scheduler _ =>
    have htaken : Unpaused { t with scheduler := scheduler } := h.congr rfl rfl
    split
    · exact htaken.fire _
    · exact htaken
  · exact h.congr rfl rfl

/-- What engines do by themselves pauses no timer. -/
theorem covers :
  Covers fun t t' : Timing τ => t.Unpaused → t'.Unpaused
  where
  refl _ h := h
  trans h h' := h' ∘ h
  arm _ pool delay callback h := (h.newTimer pool delay callback).start _
  destroy _ id h := h.destroy id
  announce _ channel completion h := h.announce channel completion

end Unpaused

end Timing

/-! ### Runs -/

/-- Whether a call asks for a pause. -/
def Call.pauses : Call κ → Bool
  | .pauseTimer _ => true
  | .pauseAll _ => true
  | .standby _ => true
  | _ => false

/-- An operation of the host that is no pause pauses no timer. -/
theorem Call.unpaused {call : Call κ} (hcall : call.pauses = false)
    {f : Timing (Callback κ) → Timing (Callback κ)} (hf : call.operation? = some f)
    {t : Timing (Callback κ)} (h : t.Unpaused) :
  (f t).Unpaused
  := by
  cases call with
  | pauseTimer | pauseAll | standby => cases hcall
  | schedule | cancel =>
    cases hf
    exact h.congr rfl rfl
  | newTimer =>
    cases hf
    exact h.newTimer _ _ _
  | startTimer =>
    cases hf
    exact h.start _
  | restartTimer =>
    cases hf
    exact h.restart _
  | destroyTimer =>
    cases hf
    exact h.destroy _
  | completion =>
    cases hf
    exact h.completion _
  | receive =>
    cases hf
    exact h.receive _
  | startAll pool =>
    cases hf
    exact (h.updatePool pool fun _ _ => rfl).startEach _
  | wake pool =>
    cases hf
    exact (h.updatePool pool (f := fun p => { p with stash := [] }) fun _ hp => hp).startEach _
  | destroyAll pool =>
    cases hf
    exact Timing.Unpaused.covers.destroyEach _ _
      (h.updatePool pool (f := fun p => { p with timers := [], stash := [] }) fun _ hp => hp)
  | _ => cases hf

namespace Configuration

variable {H : Host κ π σ} {cs : List (Configuration κ π σ)} {c d : Configuration κ π σ}

/-- Whether the host asks for a pause in the next step. -/
def pauses (c : Configuration κ π σ) : Bool :=
  match c.control with
  | .host (.call call _) => call.pauses
  | _ => false

/-- Only the host pauses, since an instance never does so with its own timers. -/
theorem Evolves.unpaused (h : Evolves H c d) (hpauses : c.pauses = false)
    (hc : c.engine.timing.Unpaused) :
  d.engine.timing.Unpaused
  := by
  cases h with
  | step _ hstep =>
    obtain ⟨f, hf, -, htiming⟩ | ⟨target, -, -, hkept⟩ | ⟨-, -, hkept⟩ :=
      Timing.Unpaused.covers.step hstep
    · rw [htiming]
      rw [operation?] at hf
      rw [pauses] at hpauses
      split at hf
      · next call point hcontrol =>
        rw [hcontrol] at hpauses
        exact Call.unpaused hpauses hf hc
      · cases hf
    · exact hkept (hc.tick target)
    · exact hkept hc
  | enter memory code =>
    exact Timing.Unpaused.covers.enter (c := idle c.engine memory)
      (Timing.Unpaused.covers.refl _) code hc
  | addPool =>
    refine ⟨fun pool p hp => ?_, hc.timers⟩
    simp only [idle, Engine.addPool, Engine.withTiming, Table.get?_add] at hp
    split at hp
    · obtain rfl := Option.some.inj hp
      rfl
    · exact hc.pools pool p hp
  | addRegistry => exact hc

/-- In a run in which the host asks for no pause, no timer is paused. -/
theorem Run.unpaused (h : Run H cs c) (hpauses : ∀ b ∈ cs, b.pauses = false) :
  c.engine.timing.Unpaused
  := by
  induction h with
  | start => exact .empty
  | @next cs c d _ hstep ih =>
    exact hstep.unpaused (hpauses c (List.mem_append_right _ (List.mem_singleton_self c)))
      (ih fun b hb => hpauses b (List.mem_append_left _ hb))

end Configuration

end Statechart
