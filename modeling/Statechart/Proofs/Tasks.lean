import Statechart.Proofs.Operation

/-!
# Operations on tasks

What timers do leaves the tasks of the host on their queue (`Timing.Keeps`).  Tasks leave it
when the host cancels them, or when the clock takes the first one off, at the time at which it
falls due (`Timing.Serves`).
-/

namespace Statechart

variable {κ τ : Type}

namespace Timing

variable {t t' t'' : Timing τ}

/-! ### The clock stands still -/

/-- Tasks wait in their order, and what a timer takes for its task is none of the host. -/
structure Tasked (t : Timing τ) : Prop where
  ordered : t.scheduler.Ordered
  own : ∀ id x task, t.timers.get? id = some x → x.task = some task →
    task < t.scheduler.nextId ∧ ∀ p ∈ t.scheduler.queue, p.id = task → p.task.timer? ≠ none

/-- A clock without tasks is in order. -/
theorem tasked_empty :
  (empty : Timing τ).Tasked
  := ⟨Scheduler.ordered_empty, by simp [empty]⟩

/-- The clock stands still.  Tasks are put on the queue under new numbers, and those of timers
may be taken off it. -/
structure Keeps (t t' : Timing τ) : Prop where
  tasked : t'.Tasked
  now : t'.now = t.now
  next_le : t.scheduler.nextId ≤ t'.scheduler.nextId
  origin : ∀ p ∈ t'.scheduler.queue, p ∈ t.scheduler.queue ∨ t.scheduler.nextId ≤ p.id
  kept : ∀ p ∈ t.scheduler.queue, p.task.timer? = none → p ∈ t'.scheduler.queue

namespace Keeps

theorem refl (h : t.Tasked) :
  t.Keeps t
  := ⟨h, rfl, Nat.le_refl _, fun _ => .inl, fun _ hp _ => hp⟩

/-- Nothing of the host is lost on two stretches if it is not on each. -/
theorem trans (h : t.Keeps t') (h' : t'.Keeps t'') :
  t.Keeps t''
  where
  tasked := h'.tasked
  now := h'.now.trans h.now
  next_le := Nat.le_trans h.next_le h'.next_le
  origin p hp := by
    obtain hp | hnew := h'.origin p hp
    · exact h.origin p hp
    · exact .inr (Nat.le_trans h.next_le hnew)
  kept p hp htask := h'.kept p (h.kept p hp htask) htask

/-- The tasks stay, and no timer takes another one for its own. -/
theorem of_scheduler_eq (h : t.Tasked) (hscheduler : t'.scheduler = t.scheduler)
    (htask : ∀ id y task, t'.timers.get? id = some y → y.task = some task →
      ∃ x, t.timers.get? id = some x ∧ x.task = some task) :
  t.Keeps t'
  where
  tasked := by
    refine ⟨hscheduler ▸ h.ordered, ?_⟩
    intro id y task hy hyt
    obtain ⟨x, hx, hxt⟩ := htask id y task hy hyt
    rw [hscheduler]
    exact h.own id x task hx hxt
  now := congrArg Scheduler.now hscheduler
  next_le := Nat.le_of_eq (congrArg Scheduler.nextId hscheduler.symm)
  origin p hp := .inl (hscheduler ▸ hp)
  kept p hp _ := hscheduler ▸ hp

/-- What changes neither queue nor timers keeps tasks. -/
theorem of_timers_eq (h : t.Tasked) (hscheduler : t'.scheduler = t.scheduler)
    (htimers : t'.timers = t.timers) :
  t.Keeps t'
  := of_scheduler_eq h hscheduler fun _ y _ hy htask => ⟨y, htimers ▸ hy, htask⟩

/-- A timer changes that gets no new task. -/
theorem updateTimer (h : t.Tasked) (id : Nat) {f : Timer τ → Timer τ}
    (hf : ∀ x task, (f x).task = some task → x.task = some task) :
  t.Keeps (t.updateTimer id f)
  := by
  refine of_scheduler_eq h rfl ?_
  intro id' y task hy htask
  simp only [Timing.updateTimer, Table.get?_modify] at hy
  split at hy
  · obtain ⟨x, hx, rfl⟩ := Option.map_eq_some_iff.mp hy
    exact ⟨x, hx, hf x task htask⟩
  · exact ⟨y, hy, htask⟩

/-- A change of a pool keeps tasks. -/
theorem updatePool (h : t.Tasked) (pool : Nat) (f : TimerPool → TimerPool) :
  t.Keeps (t.updatePool pool f)
  := of_timers_eq h rfl rfl

/-- A new timer has no task. -/
theorem newTimer (h : t.Tasked) (pool delay : Nat) (callback : Option τ) :
  t.Keeps (t.newTimer pool delay callback)
  := by
  refine of_scheduler_eq h rfl ?_
  intro id y task hy htask
  rw [Timing.newTimer, Table.get?_add] at hy
  split at hy
  · obtain rfl := Option.some.inj hy
    cases htask
  · exact ⟨y, hy, htask⟩

/-- An announcement keeps tasks. -/
theorem announce (h : t.Tasked) (channel : Option Nat) (completion : Completion) :
  t.Keeps (t.announce channel completion)
  := of_timers_eq h (scheduler_announce t channel completion) (timers_announce t channel completion)

/-- Only the task of the timer is taken off the queue, since its number is none of a task of the
host. -/
theorem cancelTask (h : t.Tasked) {id : Nat} {x : Timer τ} (hx : t.timers.get? id = some x) :
  t.Keeps (t.cancelTask x)
  := by
  rw [Timing.cancelTask]
  cases htask : x.task with
  | none => exact refl h
  | some task =>
    simp only
    constructor
    · refine ⟨h.ordered.cancel task, ?_⟩
      intro id' y task' hy hyt
      obtain ⟨hlt, hown⟩ := h.own id' y task' hy hyt
      rw [Scheduler.nextId_cancel]
      exact ⟨hlt, fun p hp => hown p (h.ordered.mem_cancel.mp hp).1⟩
    · exact Scheduler.now_cancel _ _
    · exact Nat.le_of_eq (Scheduler.nextId_cancel _ _).symm
    · exact fun p hp => .inl (h.ordered.mem_cancel.mp hp).1
    · intro p hp hcode
      refine h.ordered.mem_cancel.mpr ⟨hp, ?_⟩
      intro hid
      exact (h.own id x task hx htask).2 p hp hid hcode

/-- A task is scheduled that belongs to a timer. -/
theorem start (h : t.Tasked) (id : Nat) :
  t.Keeps (t.start id).2
  := by
  rw [Timing.start]
  split
  · exact refl h
  · next x hx =>
    split
    · constructor
      · refine ⟨h.ordered.schedule _ _, ?_⟩
        intro id' y task hy htask
        simp only [Scheduler.nextId_schedule]
        simp only [Table.get?_modify] at hy
        -- The timer that starts has the new task.
        split at hy
        · obtain ⟨x', -, rfl⟩ := Option.map_eq_some_iff.mp hy
          obtain rfl := Option.some.inj htask
          refine ⟨Nat.lt_succ_self _, ?_⟩
          intro p hp hid
          obtain rfl | hp := (Scheduler.mem_enqueue _ _ _).mp hp
          · rintro ⟨⟩
          · exact absurd hid (Nat.ne_of_lt (h.ordered.fresh p hp))
        · obtain ⟨hlt, hown⟩ := h.own id' y task hy htask
          refine ⟨Nat.lt_succ_of_lt hlt, ?_⟩
          intro p hp hid
          obtain rfl | hp := (Scheduler.mem_enqueue _ _ _).mp hp
          · rintro ⟨⟩
          · exact hown p hp hid
      · rfl
      · exact Nat.le_of_lt (by simp)
      · intro p hp
        obtain rfl | hp := (Scheduler.mem_enqueue _ _ _).mp hp
        · exact .inr (Nat.le_refl _)
        · exact .inl hp
      · exact fun p hp _ => (Scheduler.mem_enqueue _ _ _).mpr (.inr hp)
    · exact refl h

/-- The host schedules a task. -/
theorem schedule (h : t.Tasked) (delay : Nat) (code : τ) :
  t.Keeps (t.schedule delay code)
  where
  tasked := by
    refine ⟨h.ordered.schedule _ _, ?_⟩
    intro id x task hx htask
    obtain ⟨hlt, hown⟩ := h.own id x task hx htask
    simp only [Timing.schedule, Scheduler.nextId_schedule]
    refine ⟨Nat.lt_succ_of_lt hlt, ?_⟩
    intro p hp hid
    obtain rfl | hp := (Scheduler.mem_enqueue _ _ _).mp hp
    · exact absurd hid (Nat.ne_of_gt hlt)
    · exact hown p hp hid
  now := rfl
  next_le := Nat.le_of_lt (by simp [Timing.schedule])
  origin p hp := by
    obtain rfl | hp := (Scheduler.mem_enqueue _ _ _).mp hp
    · exact .inr (Nat.le_refl _)
    · exact .inl hp
  kept p hp _ := (Scheduler.mem_enqueue _ _ _).mpr (.inr hp)

/-- A pause takes the task of the timer off the queue at most. -/
theorem pause (h : t.Tasked) (id : Nat) :
  t.Keeps (t.pause id)
  := by
  rw [Timing.pause]
  split
  · exact refl h
  · next x hx =>
    split
    · have hcancel := cancelTask h hx
      refine hcancel.trans (updateTimer hcancel.tasked id ?_)
      rintro _ _ ⟨⟩
    · exact refl h

/-- A timer that is destroyed takes its own task along at most. -/
theorem destroy (h : t.Tasked) (id : Nat) :
  t.Keeps (t.destroy id)
  := by
  rw [Timing.destroy]
  split
  · exact refl h
  · next x hx =>
    split
    · exact refl h
    · have hcancel := cancelTask h hx
      refine hcancel.trans ?_
      have hended := updateTimer hcancel.tasked id (f := fun x => { x.fold t.now with
        task := none, status := .destroyed, callback := none, channel := none })
        (by rintro _ _ ⟨⟩)
      exact hended.trans (announce hended.tasked _ _)

/-- A restart puts the task of a timer on the queue under a new number. -/
theorem restart (h : t.Tasked) (id : Nat) :
  t.Keeps (t.restart id).2
  := by
  have hpause := pause h id
  rw [Timing.restart]
  split
  · exact hpause
  · have hreset := updateTimer hpause.tasked id
      (f := fun x => { x with elapsed := 0, remaining := x.delay }) fun _ _ htask => htask
    exact (hpause.trans hreset).trans (start hreset.tasked id)

/-- A completion may start the timer, which puts its task on the queue. -/
theorem completion (h : t.Tasked) (id : Nat) :
  t.Keeps (t.completion id).2
  := by
  rw [Timing.completion]
  split
  · exact refl h
  · next x hx =>
    split
    · exact refl h
    · exact refl h
    · have hopen : t.Keeps ((t.disconnect x.channel).openChannel) := by
        cases x.channel <;> exact of_timers_eq h rfl rfl
      have hattach := updateTimer hopen.tasked id
        (f := fun x => { x with channel := some t.channels.next }) fun _ _ htask => htask
      exact (hopen.trans hattach).trans (start hattach.tasked id)

theorem receive (h : t.Tasked) (channel : Nat) :
  t.Keeps (t.receive channel).2
  := by
  rw [Timing.receive]
  split
  · exact refl h
  · split
    · exact of_timers_eq h rfl rfl
    · exact refl h

/-- One timer is operated on after another. -/
theorem foldl {f : Timing τ → Nat → Timing τ}
    (hf : ∀ t : Timing τ, t.Tasked → ∀ id, t.Keeps (f t id)) (h : t.Tasked) (ids : List Nat) :
  t.Keeps (ids.foldl f t)
  := List.foldlRecOn ids f (motive := t.Keeps) (refl h) fun t' h id _ => h.trans (hf t' h.tasked id)

/-- What engines do by themselves. -/
theorem covers :
  Covers fun t t' : Timing τ => t.Tasked → t.Keeps t'
  where
  refl _ h := refl h
  trans h h' ht := (h ht).trans (h' (h ht).tasked)
  arm _ pool delay callback h :=
    (newTimer h pool delay callback).trans (start (newTimer h pool delay callback).tasked _)
  destroy _ id h := destroy h id
  announce _ channel completion h := announce h channel completion

/-- A pool changes, and then its timers are operated on one after another. -/
theorem updatePool_foldl {f : Timing τ → Nat → Timing τ}
    (hf : ∀ t : Timing τ, t.Tasked → ∀ id, t.Keeps (f t id)) (h : t.Tasked) (pool : Nat)
    (g : TimerPool → TimerPool) (ids : List Nat) :
  t.Keeps (ids.foldl f (t.updatePool pool g))
  := (updatePool h pool g).trans (foldl hf (updatePool h pool g).tasked ids)

theorem standby (h : t.Tasked) (pool : Nat) :
  t.Keeps (t.standby pool)
  := by
  rw [Timing.standby]
  simp only
  split
  · exact updatePool h pool _
  · have hpaused := updatePool_foldl (fun _ => pause) h pool
      (fun p => { p with stash := p.stash.filter fun id => !t.isFinished id })
      ((t.timersOf pool).filter t.isRunning)
    exact hpaused.trans (updatePool hpaused.tasked pool _)

end Keeps

/-! ### The clock goes on -/

/-- The task that the clock takes off its queue next, on its way to `target`. -/
def dueTask? (t : Timing τ) (target : Nat) : Option (Pending (Job τ)) :=
  (t.scheduler.takeDue target).map Prod.fst

/-- The clock may go on.  One task at most is started, the first one, when it falls due, and
one at most is cancelled by the host; these are taken off the queue, and so may be those of
timers.  Tasks are put on it under new numbers. -/
structure Serves (started : Option (Pending (Job τ))) (cancelled : Option Nat)
    (t t' : Timing τ) : Prop where
  tasked : t'.Tasked
  now_le : t.now ≤ t'.now
  next_le : t.scheduler.nextId ≤ t'.scheduler.nextId
  first : ∀ p, started = some p → p ∈ t.scheduler.queue ∧ p.due ≤ t'.now
    ∧ ∀ q ∈ t.scheduler.queue, q ≠ p → p.Before q
  origin : ∀ p ∈ t'.scheduler.queue,
    (p ∈ t.scheduler.queue ∧ started ≠ some p ∧ cancelled ≠ some p.id)
      ∨ t.scheduler.nextId ≤ p.id
  kept : ∀ p ∈ t.scheduler.queue, p.task.timer? = none → started ≠ some p →
    cancelled ≠ some p.id → p ∈ t'.scheduler.queue

/-- While the clock stands still no task is started or cancelled. -/
theorem Keeps.serves (h : t.Keeps t') :
  Serves none none t t'
  where
  tasked := h.tasked
  now_le := Nat.le_of_eq h.now.symm
  next_le := h.next_le
  first := by rintro _ ⟨⟩
  origin p hp := (h.origin p hp).imp_left fun hp =>
    ⟨hp, (Option.some_ne_none _).symm, (Option.some_ne_none _).symm⟩
  kept p hp htask _ _ := h.kept p hp htask

/-- The clock goes on and then stands still. -/
theorem Serves.keeps {started : Option (Pending (Job τ))} {cancelled : Option Nat}
    (h : Serves started cancelled t t') (h' : t'.Keeps t'') :
  Serves started cancelled t t''
  where
  tasked := h'.tasked
  now_le := h'.now ▸ h.now_le
  next_le := Nat.le_trans h.next_le h'.next_le
  first p hp := h'.now ▸ h.first p hp
  origin p hp := by
    obtain hp | hnew := h'.origin p hp
    · exact h.origin p hp
    · exact .inr (Nat.le_trans h.next_le hnew)
  kept p hp htask hstarted hcancelled := h'.kept p (h.kept p hp htask hstarted hcancelled) htask

/-- The host cancels a task. -/
theorem Tasked.cancel (h : t.Tasked) (task : Nat) :
  Serves none (some task) t (t.cancel task).2
  where
  tasked := by
    refine ⟨h.ordered.cancel task, ?_⟩
    intro id x task' hx htask
    obtain ⟨hlt, hown⟩ := h.own id x task' hx htask
    simp only [Timing.cancel, Scheduler.nextId_cancel]
    exact ⟨hlt, fun p hp => hown p (h.ordered.mem_cancel.mp hp).1⟩
  now_le := Nat.le_of_eq (Scheduler.now_cancel _ _).symm
  next_le := Nat.le_of_eq (Scheduler.nextId_cancel _ _).symm
  first := by rintro _ ⟨⟩
  origin p hp := by
    obtain ⟨hp, hid⟩ := h.ordered.mem_cancel.mp hp
    exact .inl ⟨hp, (Option.some_ne_none _).symm, fun heq => hid (Option.some.inj heq).symm⟩
  kept p hp _ _ hcancelled :=
    h.ordered.mem_cancel.mpr ⟨hp, fun hid => hcancelled (congrArg some hid.symm)⟩

/-- The clock takes a task off its queue. -/
theorem Tasked.takeDue (h : t.Tasked) {target : Nat} {p : Pending (Job τ)}
    {scheduler : Scheduler (Job τ)} (htake : t.scheduler.takeDue target = some (p, scheduler)) :
  Serves (some p) none t { t with scheduler := scheduler }
  := by
  have hnext := Scheduler.nextId_of_takeDue htake
  obtain ⟨hordered, -, hqueue, hnow⟩ := h.ordered.takeDue htake
  have hold : ∀ q ∈ scheduler.queue, q ∈ t.scheduler.queue :=
    fun q hq => hqueue ▸ List.mem_cons_of_mem p hq
  have hsorted := h.ordered.sorted
  have hdistinct := h.ordered.distinct
  rw [hqueue] at hsorted hdistinct
  constructor
  · refine ⟨hordered, ?_⟩
    intro id x task hx htask
    obtain ⟨hlt, hown⟩ := h.own id x task hx htask
    exact ⟨hnext ▸ hlt, fun q hq => hown q (hold q hq)⟩
  · exact le_now_of_takeDue h.ordered htake
  · exact Nat.le_of_eq hnext.symm
  · rintro _ ⟨⟩
    refine ⟨hqueue ▸ List.mem_cons_self, Nat.le_of_eq hnow.symm, ?_⟩
    intro q hq hne
    rw [hqueue] at hq
    exact (List.pairwise_cons.mp hsorted).1 q ((List.mem_cons.mp hq).resolve_left hne)
  · intro q hq
    refine .inl ⟨hold q hq, ?_, (Option.some_ne_none _).symm⟩
    rintro ⟨⟩
    rw [List.map_cons, List.nodup_cons] at hdistinct
    exact hdistinct.1 (List.mem_map_of_mem hq)
  · intro q hq _ hne _
    rw [hqueue] at hq
    exact (List.mem_cons.mp hq).resolve_left fun heq => hne (congrArg some heq.symm)

/-- A timer that fires has no task any more. -/
theorem Keeps.fire (h : t.Tasked) (id : Nat) :
  t.Keeps (t.fire id).2
  := by
  rw [Timing.fire]
  split
  · exact refl h
  · split
    · exact updateTimer h id (by rintro _ _ ⟨⟩)
    · exact refl h

/-- The clock goes on its way. -/
theorem Tasked.tick (h : t.Tasked) (target : Nat) :
  Serves (t.dueTask? target) none t (t.tick target)
  := by
  rw [Timing.tick, dueTask?]
  cases htake : t.scheduler.takeDue target with
  | none =>
    exact {
      tasked := ⟨h.ordered.settle htake, h.own⟩
      now_le := Nat.le_max_left _ _
      next_le := Nat.le_refl _
      first := by rintro _ ⟨⟩
      origin := fun p hp => .inl
        ⟨hp, (Option.some_ne_none _).symm, (Option.some_ne_none _).symm⟩
      kept := fun p hp _ _ _ => hp }
  | some taken =>
    obtain ⟨p, scheduler⟩ := taken
    have htaken := h.takeDue htake
    simp only
    cases p.task with
    | timer id => exact htaken.keeps (Keeps.fire htaken.tasked id)
    | task code => exact htaken

end Timing

/-- An operation of the host on timers, unless it is to cancel a task. -/
theorem Call.keeps {call : Call κ} {f : Timing (Callback κ) → Timing (Callback κ)}
    (hf : call.operation? = some f) (hcancel : ∀ task, call ≠ .cancel task)
    {t : Timing (Callback κ)} (h : t.Tasked) :
  t.Keeps (f t)
  := by
  cases call with
  | schedule ms code =>
    cases hf
    exact .schedule h _ _
  | cancel task => exact absurd rfl (hcancel task)
  | newTimer =>
    cases hf
    exact .newTimer h _ _ _
  | startTimer =>
    cases hf
    exact .start h _
  | pauseTimer =>
    cases hf
    exact .pause h _
  | restartTimer =>
    cases hf
    exact .restart h _
  | destroyTimer =>
    cases hf
    exact .destroy h _
  | completion =>
    cases hf
    exact .completion h _
  | receive =>
    cases hf
    exact .receive h _
  | pauseAll pool =>
    cases hf
    exact .updatePool_foldl (fun _ => .pause) h pool _ _
  | startAll pool =>
    cases hf
    exact .updatePool_foldl (fun _ => .start) h pool _ _
  | standby =>
    cases hf
    exact .standby h _
  | wake pool =>
    cases hf
    exact .updatePool_foldl (fun _ => .start) h pool _ _
  | destroyAll pool =>
    cases hf
    exact .updatePool_foldl (fun _ => .destroy) h pool _ _
  | _ => cases hf

end Statechart
