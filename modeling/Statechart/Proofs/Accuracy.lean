import Mathlib.Data.List.Nodup
import Mathlib.Logic.Relation
import Statechart.Proofs.Timing

/-!
# Timers in step with their clock

Progress of a timer is spread over the time it has run before, the rest of its delay, the
time of its last start and a task on the clock.  On an accurate clock these agree: tasks
wait in the order in which they fall due, and none in the past; a running timer has one
task, which falls due when the rest of its delay has run, and no other timer has a task.

Every operation on timers keeps the clock accurate, and leaves the elapsed time of every
timer as it is (`Timing.Accurate.acts`); as the clock moves, the elapsed time of running
timers grows with it, and a timer fires when its delay has run
(`Timing.Accurate.tick_cases`).
-/

namespace Statechart

variable {τ : Type}

/-! ### Queues -/

namespace Pending

/-- The order of tasks is transitive. -/
theorem Before.trans {p q r : Pending τ} (hpq : p.Before q) (hqr : q.Before r) :
  p.Before r
  := by
  simp only [Before] at *
  omega

/-- Of two tasks with different numbers one is before the other. -/
theorem before_of_not_before {p q : Pending τ} (h : ¬q.Before p) (hne : p.id ≠ q.id) :
  p.Before q
  := by
  simp only [Before] at *
  omega

end Pending

namespace Scheduler

/-- Tasks are in their order, under different numbers that were given out, none of them is
late, and the index has the due times of exactly these tasks. -/
structure Ordered (s : Scheduler τ) : Prop where
  sorted : s.queue.Pairwise Pending.Before
  distinct : (s.queue.map Pending.id).Nodup
  fresh : ∀ p ∈ s.queue, p.id < s.nextId
  due : ∀ p ∈ s.queue, s.now ≤ p.due
  index : ∀ id due, s.due.get? id = some due ↔ ∃ p ∈ s.queue, p.id = id ∧ p.due = due

theorem ordered_empty :
  (empty : Scheduler τ).Ordered
  := ⟨.nil, .nil, by simp [empty], by simp [empty], by simp [empty]⟩

/-- The queue has the new task and those that were in it, each once. -/
theorem perm_enqueue (p : Pending τ) (ps : List (Pending τ)) :
  (enqueue p ps).Perm (p :: ps)
  := by
  induction ps with
  | nil => exact .refl _
  | cons q rest ih =>
    rw [enqueue]
    split
    · exact (ih.cons q).trans (.swap p q rest)
    · exact .refl _

/-- A task with a number of its own is queued at its place. -/
theorem sorted_enqueue (p : Pending τ) {ps : List (Pending τ)}
    (h : ps.Pairwise Pending.Before) (hp : ∀ q ∈ ps, p.id ≠ q.id) :
  (enqueue p ps).Pairwise Pending.Before
  := by
  induction ps with
  | nil => exact List.pairwise_singleton _ p
  | cons q rest ih =>
    obtain ⟨hq, hrest⟩ := List.pairwise_cons.mp h
    rw [enqueue]
    split
    · next hbefore =>
      refine List.pairwise_cons.mpr
        ⟨?_, ih hrest fun r hr => hp r (List.mem_cons_of_mem q hr)⟩
      intro r hr
      obtain rfl | hr := (mem_enqueue p r rest).mp hr
      · exact hbefore
      · exact hq r hr
    · next hnot =>
      have hbefore := Pending.before_of_not_before hnot (hp q List.mem_cons_self)
      refine List.pairwise_cons.mpr ⟨?_, h⟩
      intro r hr
      obtain rfl | hr := List.mem_cons.mp hr
      · exact hbefore
      · exact hbefore.trans (hq r hr)

namespace Ordered

variable {s : Scheduler τ}

/-- A task is known by its number. -/
theorem eq_of_id_eq (h : s.Ordered) {p q : Pending τ} (hp : p ∈ s.queue) (hq : q ∈ s.queue)
    (hid : p.id = q.id) :
  p = q
  := List.inj_on_of_nodup_map h.distinct hp hq hid

/-- A queue stays in order when a task is scheduled. -/
theorem schedule (h : s.Ordered) (delay : Nat) (task : τ) :
  (s.schedule delay task).Ordered
  where
  sorted := by
    refine sorted_enqueue _ h.sorted fun p hp => ?_
    exact Nat.ne_of_gt (h.fresh p hp)
  distinct := by
    have hperm := (perm_enqueue ⟨s.now + delay, s.nextId, task⟩ s.queue).map Pending.id
    apply hperm.nodup_iff.mpr
    refine List.nodup_cons.mpr ⟨?_, h.distinct⟩
    intro hmem
    obtain ⟨p, hp, hid⟩ := List.mem_map.mp hmem
    exact absurd (h.fresh p hp) (by simp only [hid]; omega)
  fresh p hp := by
    rw [nextId_schedule]
    obtain rfl | hp := (mem_enqueue _ _ _).mp hp
    · exact Nat.lt_succ_self _
    · exact Nat.lt_succ_of_lt (h.fresh p hp)
  due p hp := by
    obtain rfl | hp := (mem_enqueue _ _ _).mp hp
    · exact Nat.le_add_right _ _
    · exact h.due p hp
  index id due := by
    simp only [Scheduler.schedule, Table.get?_add, mem_enqueue, or_and_right, exists_or,
      exists_eq_left]
    split
    · next hid =>
      -- No waiting task has the number that is given out.
      have hnone : ¬∃ p ∈ s.queue, p.id = id ∧ p.due = due := by
        rintro ⟨p, hp, hpid, -⟩
        exact absurd (h.fresh p hp) (by rw [hpid, hid]; exact Nat.lt_irrefl _)
      rw [or_iff_left hnone, Option.some.injEq]
      exact (and_iff_right hid.symm).symm
    · next hid =>
      rw [h.index, or_iff_right]
      exact fun heq => hid heq.1.symm

/-- The tasks that are left when one is cancelled are the others. -/
theorem mem_cancel (h : s.Ordered) {id : Nat} {p : Pending τ} :
  p ∈ (s.cancel id).queue ↔ p ∈ s.queue ∧ p.id ≠ id
  := by
  rw [Scheduler.cancel]
  split
  · next due hdue =>
    obtain ⟨q, hq, rfl, rfl⟩ := (h.index id due).mp hdue
    simp only [List.mem_filter, Bool.not_eq_true', Bool.and_eq_false_iff,
      decide_eq_false_iff_not, and_congr_right_iff]
    intro hp
    refine ⟨?_, .inr⟩
    rintro hne hid
    rw [h.eq_of_id_eq hp hq hid] at hne
    simp at hne
  · next hnone =>
    refine ⟨fun hp => ⟨hp, ?_⟩, And.left⟩
    rintro rfl
    rw [(h.index _ _).mpr ⟨p, hp, rfl, rfl⟩] at hnone
    cases hnone

/-- A queue stays in order when a task is cancelled. -/
theorem cancel (h : s.Ordered) (id : Nat) :
  (s.cancel id).Ordered
  := by
  have hmem := @mem_cancel _ _ h id
  rw [Scheduler.cancel] at hmem ⊢
  split
  · next due hdue =>
    rw [hdue] at hmem
    constructor
    · exact h.sorted.filter _
    · exact ((List.filter_sublist).map Pending.id).nodup h.distinct
    · intro p hp
      rw [nextId, Table.next_erase]
      exact h.fresh p (List.mem_filter.mp hp).1
    · exact fun p hp => h.due p (List.mem_filter.mp hp).1
    · intro id' due'
      simp only [Table.get?_erase, hmem]
      split
      · next heq =>
        refine iff_of_false (Option.some_ne_none _).symm ?_
        rintro ⟨p, ⟨-, hne⟩, hid, -⟩
        exact hne (hid.trans heq.symm)
      · next hne =>
        rw [h.index]
        refine exists_congr fun p => and_congr_left fun heq => ?_
        exact (and_iff_left (heq.1 ▸ Ne.symm hne)).symm
  · exact h

/-- A task waits if and only if the queue has one with its number. -/
theorem isPending_iff (h : s.Ordered) (id : Nat) :
  s.isPending id = true ↔ ∃ p ∈ s.queue, p.id = id
  := by
  rw [isPending]
  split
  · next due hdue =>
    obtain ⟨p, hp, hid, hpdue⟩ := (h.index id due).mp hdue
    refine iff_of_true ?_ ⟨p, hp, hid⟩
    exact List.any_eq_true.mpr ⟨p, hp, by simp [hid, hpdue]⟩
  · next hnone =>
    refine iff_of_false Bool.false_ne_true ?_
    rintro ⟨p, hp, rfl⟩
    rw [(h.index _ _).mpr ⟨p, hp, rfl, rfl⟩] at hnone
    cases hnone

/-- The task that is taken off the queue is the first one, and the clock moves to it. -/
theorem takeDue (h : s.Ordered) {target : Nat} {p : Pending τ} {s' : Scheduler τ}
    (htake : s.takeDue target = some (p, s')) :
  s'.Ordered ∧ p.due ≤ target ∧ s.queue = p :: s'.queue ∧ s'.now = p.due
  := by
  rw [Scheduler.takeDue] at htake
  cases hqueue : s.queue with
  | nil => simp [hqueue] at htake
  | cons q rest =>
    simp only [hqueue] at htake
    split at htake
    · next hdue =>
      obtain ⟨rfl, rfl⟩ := Prod.mk.inj (Option.some.inj htake)
      have hsorted := h.sorted
      have hdistinct := h.distinct
      rw [hqueue] at hsorted hdistinct
      rw [List.map_cons, List.nodup_cons] at hdistinct
      obtain ⟨hfirst, hrest⟩ := List.pairwise_cons.mp hsorted
      refine ⟨?_, hdue, rfl, rfl⟩
      constructor
      · exact hrest
      · exact hdistinct.2
      · intro r hr
        rw [nextId, Table.next_erase]
        exact h.fresh r (hqueue ▸ List.mem_cons_of_mem q hr)
      · intro r hr
        have := hfirst r hr
        simp only [Pending.Before] at this
        simp only
        omega
      · intro id due
        simp only [Table.get?_erase]
        split
        · next heq =>
          refine iff_of_false (Option.some_ne_none _).symm ?_
          rintro ⟨r, hr, hid, -⟩
          exact hdistinct.1 (List.mem_map.mpr ⟨r, hr, hid.trans heq.symm⟩)
        · next hne =>
          rw [h.index, hqueue]
          simp [hne]
    · cases htake

/-- When no task is due by a time, all that wait are due later. -/
theorem lt_due (h : s.Ordered) {target : Nat} (htake : s.takeDue target = none)
    {p : Pending τ} (hp : p ∈ s.queue) :
  target < p.due
  := by
  have hsorted := h.sorted
  rw [Scheduler.takeDue] at htake
  cases hqueue : s.queue with
  | nil => simp [hqueue] at hp
  | cons q rest =>
    simp only [hqueue] at htake
    split at htake
    · cases htake
    · rw [hqueue] at hp hsorted
      obtain rfl | hp := List.mem_cons.mp hp
      · omega
      · have := (List.pairwise_cons.mp hsorted).1 p hp
        simp only [Pending.Before] at this
        omega

/-- The clock moves to a time at which no task has fallen due. -/
theorem settle (h : s.Ordered) {target : Nat} (htake : s.takeDue target = none) :
  (s.settle target).Ordered
  where
  sorted := h.sorted
  distinct := h.distinct
  fresh := h.fresh
  due p hp := by
    have hnow := h.due p hp
    have htarget := h.lt_due htake hp
    simp only [Scheduler.settle]
    omega
  index := h.index

end Ordered

end Scheduler

/-! ### Accurate clocks -/

/-- The timer that a job belongs to. -/
def Job.timer? : Job τ → Option Nat
  | timer id => some id
  | task _ => none

/-- The timer that a task is for. -/
@[simp]
theorem Job.timer?_eq_some_iff {job : Job τ} {id : Nat} :
  job.timer? = some id ↔ job = .timer id
  := by
  cases job <;> simp [timer?]

/-- The tasks of a timer that wait in the queue. -/
def Timing.tasksOf (t : Timing τ) (id : Nat) : List (Pending (Job τ)) :=
  t.scheduler.queue.filter fun p => p.task.timer? = some id

/-- A timer agrees with the clock.  While it may still fire, what has elapsed and what
remains make up its delay; when it has fired its whole delay has elapsed.  If it runs, its
task falls due when what remains has passed since its start.  A timer that is over calls
nothing. -/
structure Timer.InStep (x : Timer τ) (s : Scheduler (Job τ)) (id : Nat) : Prop where
  balance : x.status.isFinished = false → x.elapsed + x.remaining = x.delay
  bounded : x.elapsed ≤ x.delay
  fired : x.status = .fired → x.elapsed = x.delay
  running : x.status = .running → ∃ start, ∃ p ∈ s.queue, x.startedAt = some start
    ∧ start ≤ s.now ∧ p.task = .timer id ∧ x.task = some p.id ∧ p.due = start + x.remaining
  resting : x.status ≠ .running → x.startedAt = none ∧ x.task = none
  silent : x.status.isFinished = true → x.callback = none

/-- The queue is in order, every timer agrees with the clock, and every task of a timer
belongs to one that runs. -/
structure Timing.Accurate (t : Timing τ) : Prop where
  ordered : t.scheduler.Ordered
  timer : ∀ id x, t.timers.get? id = some x → x.InStep t.scheduler id
  task : ∀ p ∈ t.scheduler.queue, ∀ id, p.task = .timer id →
    ∃ x, t.timers.get? id = some x ∧ x.status = .running ∧ x.task = some p.id

/-- Without timers all readings are accurate. -/
theorem Timing.accurate_empty :
  (empty : Timing τ).Accurate
  where
  ordered := Scheduler.ordered_empty
  timer id x h := by simp [empty] at h
  task p hp := by simp [empty, Scheduler.empty] at hp

namespace Timer.InStep

variable {x : Timer τ} {s s' : Scheduler (Job τ)} {id : Nat}

/-- A timer that waits for a start agrees with every clock. -/
theorem of_waiting (status : x.status = .idle ∨ x.status = .paused)
    (balance : x.elapsed + x.remaining = x.delay) (startedAt : x.startedAt = none)
    (task : x.task = none) :
  x.InStep s id
  := by
  refine ⟨fun _ => balance, ?_, ?_, ?_, fun _ => ⟨startedAt, task⟩, ?_⟩
  · rw [← balance]
    exact Nat.le_add_right _ _
  all_goals
    obtain hs | hs := status <;> rw [hs] <;> rintro ⟨⟩

/-- A timer that is over agrees with every clock. -/
theorem of_finished (status : x.status.isFinished = true) (bounded : x.elapsed ≤ x.delay)
    (fired : x.status = .fired → x.elapsed = x.delay) (startedAt : x.startedAt = none)
    (task : x.task = none) (callback : x.callback = none) :
  x.InStep s id
  := by
  refine ⟨?_, bounded, fired, ?_, fun _ => ⟨startedAt, task⟩, fun _ => callback⟩
  · intro hunfinished
    rw [status] at hunfinished
    cases hunfinished
  · intro hrunning
    rw [hrunning] at status
    cases status

/-- A timer goes on agreeing while its tasks stay in the queue. -/
theorem mono (h : x.InStep s id) (hnow : s.now ≤ s'.now)
    (htasks : ∀ p ∈ s.queue, p.task = .timer id → p ∈ s'.queue) :
  x.InStep s' id
  := by
  refine { h with running := ?_ }
  intro hstatus
  obtain ⟨start, p, hp, hstart, hle, htask, hid, hdue⟩ := h.running hstatus
  exact ⟨start, p, htasks p hp htask, hstart, Nat.le_trans hle hnow, htask, hid, hdue⟩

/-- A timer that does not run has the elapsed time of its last pause. -/
theorem elapsedAt_resting (h : x.InStep s id) (hstatus : x.status ≠ .running) (now : Nat) :
  x.elapsedAt now = x.elapsed
  := by
  rw [elapsedAt, session, (h.resting hstatus).1, Nat.add_zero]

/-- The elapsed time never exceeds the delay. -/
theorem elapsedAt_le (h : x.InStep s id) (hdue : ∀ p ∈ s.queue, s.now ≤ p.due) :
  x.elapsedAt s.now ≤ x.delay
  := by
  by_cases hstatus : x.status = .running
  · obtain ⟨start, p, hp, hstart, -, -, -, hpdue⟩ := h.running hstatus
    have hbalance := h.balance (by rw [hstatus]; rfl)
    have hnow := hdue p hp
    rw [elapsedAt, session, hstart]
    simp only
    omega
  · rw [h.elapsedAt_resting hstatus]
    exact h.bounded

end Timer.InStep

namespace Timing

variable {t t' t'' : Timing τ}

/-- A running timer has one task, and any other timer has none. -/
theorem Accurate.tasksOf_eq (h : t.Accurate) {id : Nat} {x : Timer τ}
    (hx : t.timers.get? id = some x) :
  (x.status = .running → ∃ start p, x.startedAt = some start ∧ t.tasksOf id = [p]
      ∧ p.due = start + x.remaining ∧ t.now ≤ p.due)
    ∧ (x.status ≠ .running → t.tasksOf id = [])
  := by
  have hmem : ∀ q, q ∈ t.tasksOf id ↔ q ∈ t.scheduler.queue ∧ q.task = .timer id := by
    intro q
    rw [tasksOf, List.mem_filter, decide_eq_true_eq, Job.timer?_eq_some_iff]
  have htask : ∀ q ∈ t.tasksOf id, x.status = .running ∧ x.task = some q.id := by
    intro q hq
    obtain ⟨hqueue, htask⟩ := (hmem q).mp hq
    obtain ⟨y, hy, hrunning, hid⟩ := h.task q hqueue id htask
    rw [hx] at hy
    obtain rfl := Option.some.inj hy
    exact ⟨hrunning, hid⟩
  constructor
  · intro hrunning
    obtain ⟨start, p, hp, hstart, -, hptask, hpid, hdue⟩ := (h.timer id x hx).running hrunning
    refine ⟨start, p, hstart, ?_, hdue, h.ordered.due p hp⟩
    -- All tasks of the timer have one number, and numbers are different.
    have hall : ∀ q ∈ t.tasksOf id, q = p := by
      intro q hq
      obtain ⟨-, hqid⟩ := htask q hq
      rw [hpid] at hqid
      exact h.ordered.eq_of_id_eq ((hmem q).mp hq).1 hp (Option.some.inj hqid).symm
    have hnodup : (t.tasksOf id).Nodup :=
      (h.ordered.distinct.of_map).filter _
    have hsingle : ∀ q, q ∈ t.tasksOf id ↔ q ∈ [p] := by
      intro q
      rw [List.mem_singleton]
      refine ⟨hall q, ?_⟩
      rintro rfl
      exact (hmem q).mpr ⟨hp, hptask⟩
    exact List.perm_singleton.mp
      ((List.perm_ext_iff_of_nodup hnodup (List.nodup_singleton p)).mpr hsingle)
  · intro hresting
    rw [List.eq_nil_iff_forall_not_mem]
    intro q hq
    exact hresting (htask q hq).1

/-- An operation that changes at most one timer and its tasks keeps the clock accurate if
that timer agrees with the clock afterwards. -/
theorem Accurate.of_changed (h : t.Accurate) (changed : Option Nat) (hnow : t.now ≤ t'.now)
    (ordered : t'.scheduler.Ordered)
    (others : ∀ id, changed ≠ some id → t'.timers.get? id = t.timers.get? id)
    (tasks : ∀ p id, p.task = .timer id → changed ≠ some id →
      (p ∈ t'.scheduler.queue ↔ p ∈ t.scheduler.queue))
    (timer : ∀ id y, changed = some id → t'.timers.get? id = some y →
      y.InStep t'.scheduler id)
    (task : ∀ p ∈ t'.scheduler.queue, ∀ id, changed = some id → p.task = .timer id →
      ∃ y, t'.timers.get? id = some y ∧ y.status = .running ∧ y.task = some p.id) :
  t'.Accurate
  where
  ordered := ordered
  timer id y hy := by
    by_cases hid : changed = some id
    · exact timer id y hid hy
    · rw [others id hid] at hy
      apply (h.timer id y hy).mono hnow
      intro p hp htask
      exact (tasks p id htask hid).mpr hp
  task p hp id htask := by
    by_cases hid : changed = some id
    · exact task p hp id hid htask
    · rw [others id hid]
      exact h.task p ((tasks p id htask hid).mp hp) id htask

/-- Taking the task of a timer off the clock leaves the tasks that are not of the timer. -/
theorem Accurate.mem_cancelTask (h : t.Accurate) {id : Nat} {x : Timer τ}
    (hx : t.timers.get? id = some x) (p : Pending (Job τ)) :
  p ∈ (t.cancelTask x).scheduler.queue ↔ p ∈ t.scheduler.queue ∧ p.task ≠ .timer id
  := by
  by_cases hstatus : x.status = .running
  · obtain ⟨-, q, hq, -, -, htask, hid, -⟩ := (h.timer id x hx).running hstatus
    have hcancel : t.cancelTask x = { t with scheduler := t.scheduler.cancel q.id } := by
      rw [cancelTask, hid]
    rw [hcancel, h.ordered.mem_cancel, and_congr_right_iff, not_iff_not]
    intro hp
    constructor
    · intro heq
      rw [h.ordered.eq_of_id_eq hp hq heq, htask]
    · intro hpid
      obtain ⟨y, hy, -, hyid⟩ := h.task p hp id hpid
      rw [hx] at hy
      obtain rfl := Option.some.inj hy
      rw [hid] at hyid
      exact (Option.some.inj hyid).symm
  · have hcancel : t.cancelTask x = t := by
      rw [cancelTask, ((h.timer id x hx).resting hstatus).2]
    rw [hcancel]
    constructor
    · intro hp
      refine ⟨hp, ?_⟩
      intro htask
      obtain ⟨y, hy, hrunning, -⟩ := h.task p hp id htask
      rw [hx] at hy
      obtain rfl := Option.some.inj hy
      exact hstatus hrunning
    · exact And.left

theorem ordered_cancelTask (h : t.scheduler.Ordered) (x : Timer τ) :
  (t.cancelTask x).scheduler.Ordered
  := by
  rw [cancelTask]
  split
  · exact h.cancel _
  · exact h

/-- No time passes when the task of a timer is cancelled. -/
theorem now_cancelTask (t : Timing τ) (x : Timer τ) :
  (t.cancelTask x).scheduler.now = t.scheduler.now
  := by
  rw [cancelTask]
  split
  · exact Scheduler.now_cancel _ _
  · rfl

/-! ### Elementary operations -/

/-- An elementary operation on timers, during which the clock stands still. -/
inductive Acts : Timing τ → Timing τ → Prop where
  | newTimer (t : Timing τ) (pool delay : Nat) (callback : Option τ) :
    Acts t (t.newTimer pool delay callback)
  | start (t : Timing τ) (id : Nat) : Acts t (t.start id).2
  | pause (t : Timing τ) (id : Nat) : Acts t (t.pause id)
  | destroy (t : Timing τ) (id : Nat) : Acts t (t.destroy id)
  | attach (t : Timing τ) (id : Nat) (channel : Option Nat) :
    Acts t (t.updateTimer id fun x => { x with channel := channel })
  | schedule (t : Timing τ) (delay : Nat) (code : τ) : Acts t (t.schedule delay code)
  | cancel (t : Timing τ) {task : Nat}
    (own : ∀ p ∈ t.scheduler.queue, p.id = task → ∀ id, p.task ≠ .timer id) :
    Acts t (t.cancel task).2
  | frame {t t' : Timing τ} (scheduler : t'.scheduler = t.scheduler)
    (timers : t'.timers = t.timers) : Acts t t'

end Timing

/-- What a timer keeps: its delay, and its callback unless it is over; and once over it
stays so. -/
structure Timer.Lasts (x y : Timer τ) : Prop where
  delay : y.delay = x.delay
  finished : x.status.isFinished = true → y.status.isFinished = true
  callback : y.status.isFinished = false → y.callback = x.callback

/-- What operations do to a timer while the clock stands at `now`: its elapsed time stays,
and it does not fire. -/
structure Timer.Rests (now : Nat) (x y : Timer τ) : Prop extends x.Lasts y where
  elapsed : y.elapsedAt now = x.elapsedAt now
  fired : y.status = .fired → x.status = .fired

namespace Timer

variable {now : Nat} {x y z : Timer τ}

theorem Lasts.refl (x : Timer τ) :
  x.Lasts x
  := ⟨rfl, fun h => h, fun _ => rfl⟩

/-- A timer that lasts through two stretches lasts through both together. -/
theorem Lasts.trans (hxy : x.Lasts y) (hyz : y.Lasts z) :
  x.Lasts z
  where
  delay := hyz.delay.trans hxy.delay
  finished h := hyz.finished (hxy.finished h)
  callback h := by
    have hy : y.status.isFinished = false := by
      by_contra hfinished
      rw [hyz.finished (by simpa using hfinished)] at h
      cases h
    rw [hyz.callback h, hxy.callback hy]

theorem Rests.refl (now : Nat) (x : Timer τ) :
  x.Rests now x
  := ⟨.refl x, rfl, fun h => h⟩

/-- A timer that rests on two stretches rests on both together. -/
theorem Rests.trans (hxy : x.Rests now y) (hyz : y.Rests now z) :
  x.Rests now z
  := ⟨hxy.toLasts.trans hyz.toLasts, hyz.elapsed.trans hxy.elapsed,
    fun h => hxy.fired (hyz.fired h)⟩

end Timer

namespace Timing

variable {t t' t'' : Timing τ}

/-- The clock stands still, its timers rest, and new ones have not run. -/
structure Steady (t t' : Timing τ) : Prop where
  now : t'.now = t.now
  kept : ∀ id x, t.timers.get? id = some x →
    ∃ y, t'.timers.get? id = some y ∧ x.Rests t.now y
  fresh : ∀ id y, t.timers.get? id = none → t'.timers.get? id = some y →
    y.elapsedAt t.now = 0 ∧ y.status ≠ .fired

namespace Steady

theorem refl (t : Timing τ) :
  t.Steady t
  where
  now := rfl
  kept _ x hx := ⟨x, hx, .refl _ x⟩
  fresh _ _ hnone hy := by
    rw [hnone] at hy
    cases hy

/-- A clock that is steady on two stretches is so on both together. -/
theorem trans (h : t.Steady t') (h' : t'.Steady t'') :
  t.Steady t''
  where
  now := h'.now.trans h.now
  kept id x hx := by
    obtain ⟨y, hy, hxy⟩ := h.kept id x hx
    obtain ⟨z, hz, hyz⟩ := h'.kept id y hy
    rw [h.now] at hyz
    exact ⟨z, hz, hxy.trans hyz⟩
  fresh id z hnone hz := by
    cases hy : t'.timers.get? id with
    | none =>
      rw [← h.now]
      exact h'.fresh id z hy hz
    | some y =>
      obtain ⟨hzero, hfired⟩ := h.fresh id y hnone hy
      obtain ⟨z', hz', hyz⟩ := h'.kept id y hy
      rw [hz] at hz'
      obtain rfl := Option.some.inj hz'
      rw [h.now] at hyz
      exact ⟨hyz.elapsed.trans hzero, fun hf => hfired (hyz.fired hf)⟩

/-- The clock stands still, and one timer changes at most. -/
theorem of_changed (changed : Option Nat) (now : t'.now = t.now)
    (others : ∀ id, changed ≠ some id → t'.timers.get? id = t.timers.get? id)
    (kept : ∀ id x, changed = some id → t.timers.get? id = some x →
      ∃ y, t'.timers.get? id = some y ∧ x.Rests t.now y)
    (fresh : ∀ id y, changed = some id → t.timers.get? id = none →
      t'.timers.get? id = some y → y.elapsedAt t.now = 0 ∧ y.status ≠ .fired) :
  t.Steady t'
  where
  now := now
  kept id x hx := by
    by_cases hid : changed = some id
    · exact kept id x hid hx
    · exact ⟨x, by rw [others id hid, hx], .refl _ x⟩
  fresh id y hnone hy := by
    by_cases hid : changed = some id
    · exact fresh id y hid hnone hy
    · rw [others id hid, hnone] at hy
      cases hy

end Steady

/-- A timer is changed into one that agrees with the clock, after which its tasks are those
that it says it has. -/
theorem Accurate.of_modified (h : t.Accurate) {id : Nat} {y : Timer τ}
    (hget : ∀ id', t'.timers.get? id' = if id = id' then some y else t.timers.get? id')
    (now : t'.now = t.now) (ordered : t'.scheduler.Ordered)
    (tasks : ∀ p id', p.task = .timer id' → id ≠ id' →
      (p ∈ t'.scheduler.queue ↔ p ∈ t.scheduler.queue))
    (timer : y.InStep t'.scheduler id)
    (task : ∀ p ∈ t'.scheduler.queue, p.task = .timer id →
      y.status = .running ∧ y.task = some p.id) :
  t'.Accurate
  := by
  have hself : t'.timers.get? id = some y := by rw [hget, if_pos rfl]
  apply h.of_changed (some id) (Nat.le_of_eq now.symm) ordered
  · intro id' hne
    rw [hget, if_neg (by simpa using hne)]
  · intro p id' htask hne
    exact tasks p id' htask (by simpa using hne)
  · rintro _ y' ⟨⟩ hy'
    rw [hself] at hy'
    obtain rfl := Option.some.inj hy'
    exact timer
  · rintro p hp _ ⟨⟩ htask
    exact ⟨y, hself, task p hp htask⟩

/-- A timer is changed into one that rests. -/
theorem Steady.of_modified {id : Nat} {x y : Timer τ} (hx : t.timers.get? id = some x)
    (hrests : x.Rests t.now y)
    (hget : ∀ id', t'.timers.get? id' = if id = id' then some y else t.timers.get? id')
    (now : t'.now = t.now) :
  t.Steady t'
  := by
  apply of_changed (some id) now
  · intro id' hne
    rw [hget, if_neg (by simpa using hne)]
  · rintro _ x' ⟨⟩ hx'
    rw [hx] at hx'
    obtain rfl := Option.some.inj hx'
    exact ⟨y, by rw [hget, if_pos rfl], hrests⟩
  · rintro _ y' ⟨⟩ hnone
    rw [hx] at hnone
    cases hnone

/-- The timers after a change of one of them. -/
theorem get?_modify_timer {timers : Table (Timer τ)} {id : Nat} {x : Timer τ}
    (hx : timers.get? id = some x) (f : Timer τ → Timer τ) (id' : Nat) :
  (timers.modify id f).get? id' = if id = id' then some (f x) else timers.get? id'
  := by
  rw [Table.get?_modify]
  split
  · next heq => rw [← heq, hx, Option.map_some]
  · rfl

/-- Other timers and tasks that are not of timers leave the clock accurate. -/
theorem Accurate.of_tasks (h : t.Accurate)
    (timers : ∀ id, t'.timers.get? id = t.timers.get? id) (now : t'.now = t.now)
    (ordered : t'.scheduler.Ordered)
    (tasks : ∀ p id, p.task = .timer id →
      (p ∈ t'.scheduler.queue ↔ p ∈ t.scheduler.queue)) :
  t'.Accurate ∧ t.Steady t'
  := by
  constructor
  · apply h.of_changed none (Nat.le_of_eq now.symm) ordered
    · intro id _
      exact timers id
    · intro p id htask _
      exact tasks p id htask
    · intro _ _ hnone
      cases hnone
    · intro _ _ _ hnone
      cases hnone
  · apply Steady.of_changed none now
    · intro id _
      exact timers id
    · intro _ _ hnone
      cases hnone
    · intro _ _ hnone
      cases hnone

/-- A new timer has run for no time. -/
theorem Accurate.newTimer (h : t.Accurate) (pool delay : Nat) (callback : Option τ) :
  (t.newTimer pool delay callback).Accurate ∧ t.Steady (t.newTimer pool delay callback)
  := by
  have hothers : ∀ id, some t.timers.next ≠ some id →
      (t.newTimer pool delay callback).timers.get? id = t.timers.get? id := by
    intro id hne
    rw [Timing.newTimer, Table.get?_add, if_neg (by simpa using hne.symm)]
  have hself : (t.newTimer pool delay callback).timers.get? t.timers.next
      = some ⟨pool, delay, delay, 0, none, none, .idle, callback, none⟩ := by
    rw [Timing.newTimer, Table.get?_add, if_pos rfl]
  constructor
  · refine h.of_changed (some _) (by exact Nat.le_refl _) (by exact h.ordered) hothers ?_ ?_ ?_
    · intro p id _ _
      exact Iff.rfl
    · rintro _ y ⟨⟩ hy
      rw [hself] at hy
      obtain rfl := Option.some.inj hy
      exact .of_waiting (.inl rfl) (Nat.zero_add _) rfl rfl
    · -- Tasks belong to timers that were made before.
      rintro p hp _ ⟨⟩ htask
      obtain ⟨x, hx, -⟩ := h.task p hp _ htask
      exact absurd (Table.lt_next_of_get? hx) (Nat.lt_irrefl _)
  · refine Steady.of_changed (some _) (by rfl) hothers ?_ ?_
    · rintro _ x ⟨⟩ hx
      exact absurd (Table.lt_next_of_get? hx) (Nat.lt_irrefl _)
    · rintro _ y ⟨⟩ - hy
      rw [hself] at hy
      obtain rfl := Option.some.inj hy
      exact ⟨rfl, by rintro ⟨⟩⟩

/-- A timer that is started counts on from what has elapsed, and its task is due when the rest
has. -/
theorem Accurate.start (h : t.Accurate) (id : Nat) :
  (t.start id).2.Accurate ∧ t.Steady (t.start id).2
  := by
  rw [Timing.start]
  cases hx : t.timers.get? id with
  | none => exact ⟨h, .refl t⟩
  | some x =>
    simp only
    split
    · next hcan =>
      have hstep := h.timer id x hx
      have hidle : x.status = .idle ∨ x.status = .paused := by
        simp only [canStart, Bool.and_eq_true, Bool.or_eq_true, decide_eq_true_eq] at hcan
        exact hcan.2
      have hunfinished : x.status.isFinished = false := by
        obtain hs | hs := hidle <;> rw [hs] <;> rfl
      have hresting : x.status ≠ .running := by
        obtain hs | hs := hidle <;> rw [hs] <;> decide
      have hget := get?_modify_timer hx fun x => { x with
        startedAt := some t.now, task := some t.scheduler.nextId, status := .running }
      constructor
      · refine h.of_modified hget (by rfl) (by exact h.ordered.schedule _ _) ?_ ?_ ?_
        · intro p id' htask hne
          rw [Scheduler.schedule, Scheduler.mem_enqueue, or_iff_right_iff_imp]
          rintro rfl
          exact absurd (Job.timer.inj htask) hne
        · refine ⟨fun _ => hstep.balance hunfinished, hstep.bounded, by rintro ⟨⟩, ?_, ?_,
            by rintro ⟨⟩⟩
          · intro _
            refine ⟨t.now, _, (Scheduler.mem_enqueue _ _ _).mpr (.inl rfl), rfl, ?_, rfl, rfl,
              rfl⟩
            exact Nat.le_refl _
          · intro hne
            exact absurd rfl hne
        · intro p hp htask
          obtain rfl | hp := (Scheduler.mem_enqueue _ _ _).mp hp
          · exact ⟨rfl, rfl⟩
          · obtain ⟨y, hy, hrunning, -⟩ := h.task p hp id htask
            rw [hx] at hy
            obtain rfl := Option.some.inj hy
            exact absurd hrunning hresting
      · refine .of_modified hx ?_ hget (by rfl)
        refine ⟨⟨rfl, ?_, fun _ => rfl⟩, ?_, by rintro ⟨⟩⟩
        · rw [hunfinished]
          rintro ⟨⟩
        · rw [hstep.elapsedAt_resting hresting]
          simp [Timer.elapsedAt, Timer.session]
    · exact ⟨h, .refl t⟩

/-- A timer is taken off the clock and changed into one that agrees with the clock without
a task. -/
theorem Accurate.of_cancelled (h : t.Accurate) {id : Nat} {x : Timer τ}
    (hx : t.timers.get? id = some x) {f : Timer τ → Timer τ} (hrests : x.Rests t.now (f x))
    (timer : (f x).InStep (t.cancelTask x).scheduler id) :
  ((t.cancelTask x).updateTimer id f).Accurate
    ∧ t.Steady ((t.cancelTask x).updateTimer id f)
  := by
  have hget : ∀ id', ((t.cancelTask x).updateTimer id f).timers.get? id'
      = if id = id' then some (f x) else t.timers.get? id' := by
    rw [updateTimer, timers_cancelTask]
    exact get?_modify_timer hx f
  constructor
  · refine h.of_modified hget (now_cancelTask t x) (ordered_cancelTask h.ordered x) ?_ timer ?_
    · intro p id' htask hne
      apply (h.mem_cancelTask hx p).trans
      rw [and_iff_left_iff_imp]
      intro _ htask'
      rw [htask] at htask'
      exact hne (Job.timer.inj htask').symm
    · intro p hp htask
      exact absurd htask ((h.mem_cancelTask hx p).mp hp).2
  · exact .of_modified hx hrests hget (now_cancelTask t x)

/-- A timer that is paused keeps what has elapsed, and its task is taken off. -/
theorem Accurate.pause (h : t.Accurate) (id : Nat) :
  (t.pause id).Accurate ∧ t.Steady (t.pause id)
  := by
  rw [Timing.pause]
  cases hx : t.timers.get? id with
  | none => exact ⟨h, .refl t⟩
  | some x =>
    simp only
    split
    · next hstatus =>
      have hstep := h.timer id x hx
      have hle := hstep.elapsedAt_le h.ordered.due
      have hbalance := hstep.balance (by rw [hstatus]; rfl)
      apply h.of_cancelled hx
      · refine ⟨⟨rfl, ?_, fun _ => rfl⟩, Nat.add_zero _, by rintro ⟨⟩⟩
        rw [hstatus]
        rintro ⟨⟩
      · refine .of_waiting (.inr rfl) ?_ rfl rfl
        rw [Timer.elapsedAt] at hle
        change x.elapsed + x.session t.now + (x.remaining - x.session t.now) = x.delay
        have hle' : x.elapsed + x.session t.now ≤ x.delay := hle
        omega
    · exact ⟨h, .refl t⟩

/-- Announcing changes nothing of timers and tasks. -/
theorem scheduler_announce (t : Timing τ) (channel : Option Nat) (completion : Completion) :
  (t.announce channel completion).scheduler = t.scheduler
  := by
  cases channel <;> rfl

/-- The same timers and tasks. -/
theorem Accurate.frame (h : t.Accurate) (scheduler : t'.scheduler = t.scheduler)
    (timers : t'.timers = t.timers) :
  t'.Accurate ∧ t.Steady t'
  := by
  refine h.of_tasks ?_ ?_ ?_ ?_
  · intro id
    rw [timers]
  · rw [now, now, scheduler]
  · rw [scheduler]
    exact h.ordered
  · intro p id _
    rw [scheduler]

/-- The task of a timer that is destroyed is taken off. -/
theorem Accurate.destroy (h : t.Accurate) (id : Nat) :
  (t.destroy id).Accurate ∧ t.Steady (t.destroy id)
  := by
  rw [Timing.destroy]
  cases hx : t.timers.get? id with
  | none => exact ⟨h, .refl t⟩
  | some x =>
    simp only
    split
    · exact ⟨h, .refl t⟩
    · have hstep := h.timer id x hx
      obtain ⟨haccurate, hsteady⟩ := h.of_cancelled hx
        (f := fun x => { x.fold t.now with
          task := none, status := .destroyed, callback := none, channel := none })
        ⟨⟨rfl, fun _ => rfl, by rintro ⟨⟩⟩, Nat.add_zero _, by rintro ⟨⟩⟩
        (.of_finished rfl (hstep.elapsedAt_le h.ordered.due) (by rintro ⟨⟩) rfl rfl rfl)
      obtain ⟨haccurate', hsteady'⟩ := haccurate.frame
        (scheduler_announce _ x.channel .cancelled) (timers_announce _ x.channel .cancelled)
      exact ⟨haccurate', hsteady.trans hsteady'⟩

/-- A channel is of no importance to the clock. -/
theorem Accurate.attach (h : t.Accurate) (id : Nat) (channel : Option Nat) :
  (t.updateTimer id fun x => { x with channel := channel }).Accurate
    ∧ t.Steady (t.updateTimer id fun x => { x with channel := channel })
  := by
  cases hx : t.timers.get? id with
  | none =>
    refine h.of_tasks ?_ (by rfl) (by exact h.ordered) fun _ _ _ => Iff.rfl
    intro id'
    rw [updateTimer, Table.get?_modify]
    split
    · next heq => rw [← heq, hx, Option.map_none]
    · rfl
  | some x =>
    have hstep := h.timer id x hx
    have hget := get?_modify_timer hx fun x => { x with channel := channel }
    constructor
    · refine h.of_modified hget (by rfl) (by exact h.ordered) (fun _ _ _ _ => Iff.rfl) ?_ ?_
      · exact ⟨hstep.balance, hstep.bounded, hstep.fired, hstep.running, hstep.resting,
          hstep.silent⟩
      · intro p hp htask
        obtain ⟨y, hy, hrunning, htask'⟩ := h.task p hp id htask
        rw [hx] at hy
        obtain rfl := Option.some.inj hy
        exact ⟨hrunning, htask'⟩
    · refine .of_modified hx ?_ hget (by rfl)
      exact ⟨⟨rfl, fun h => h, fun _ => rfl⟩, rfl, fun h => h⟩

/-- A task of the host is none of a timer. -/
theorem Accurate.schedule (h : t.Accurate) (delay : Nat) (code : τ) :
  (t.schedule delay code).Accurate ∧ t.Steady (t.schedule delay code)
  := by
  refine h.of_tasks (fun _ => by rfl) (by rfl) (by exact h.ordered.schedule _ _) ?_
  intro p id htask
  rw [Timing.schedule, Scheduler.schedule, Scheduler.mem_enqueue, or_iff_right_iff_imp]
  rintro rfl
  cases htask

/-- Readings stay accurate when the host cancels a task, unless it is one of a timer. -/
theorem Accurate.cancel (h : t.Accurate) {task : Nat}
    (own : ∀ p ∈ t.scheduler.queue, p.id = task → ∀ id, p.task ≠ .timer id) :
  (t.cancel task).2.Accurate ∧ t.Steady (t.cancel task).2
  := by
  refine h.of_tasks (fun _ => by rfl) (by exact Scheduler.now_cancel _ _)
    (by exact h.ordered.cancel _) ?_
  intro p id htask
  rw [Timing.cancel, h.ordered.mem_cancel, and_iff_left_iff_imp]
  intro hp hid
  exact own p hp hid id htask

/-- An elementary operation keeps the clock accurate, and the timers rest. -/
theorem Accurate.acts (h : t.Accurate) (hacts : Acts t t') :
  t'.Accurate ∧ t.Steady t'
  := by
  cases hacts with
  | newTimer pool delay callback => exact h.newTimer pool delay callback
  | start id => exact h.start id
  | pause id => exact h.pause id
  | destroy id => exact h.destroy id
  | attach id channel => exact h.attach id channel
  | schedule delay code => exact h.schedule delay code
  | cancel own => exact h.cancel own
  | frame scheduler timers => exact h.frame scheduler timers

/-! ### Operations -/

/-- Elementary operations one after another. -/
abbrev Operates : Timing τ → Timing τ → Prop := Relation.ReflTransGen Acts

/-- Operations keep the clock accurate, and the timers rest. -/
theorem Accurate.operates (h : t.Accurate) (hoperates : Operates t t') :
  t'.Accurate ∧ t.Steady t'
  := by
  induction hoperates with
  | refl => exact ⟨h, .refl t⟩
  | tail _ hacts ih =>
    obtain ⟨haccurate, hsteady⟩ := ih
    obtain ⟨haccurate', hsteady'⟩ := haccurate.acts hacts
    exact ⟨haccurate', hsteady.trans hsteady'⟩

/-- Acts on one timer after another are an operation. -/
theorem operates_foldl {f : Timing τ → Nat → Timing τ} (hf : ∀ t id, Acts t (f t id))
    (t : Timing τ) (ids : List Nat) :
  Operates t (ids.foldl f t)
  := List.foldlRecOn ids f (motive := Operates t) .refl fun _ h id _ => h.tail (hf _ id)

theorem operates_startEach (t : Timing τ) (ids : List Nat) :
  Operates t (t.startEach ids)
  := operates_foldl .start t ids

theorem operates_pauseEach (t : Timing τ) (ids : List Nat) :
  Operates t (t.pauseEach ids)
  := operates_foldl .pause t ids

theorem operates_destroyEach (t : Timing τ) (ids : List Nat) :
  Operates t (t.destroyEach ids)
  := operates_foldl .destroy t ids

/-- A change of a pool is an act on no timer. -/
theorem acts_updatePool (t : Timing τ) (pool : Nat) (f : TimerPool → TimerPool) :
  Acts t (t.updatePool pool f)
  := .frame rfl rfl

/-- A pause of a pool is an operation on its timers. -/
theorem operates_pauseAll (t : Timing τ) (pool : Nat) :
  Operates t (t.pauseAll pool)
  := .head (acts_updatePool t pool _) (operates_pauseEach _ _)

/-- A start of a pool is an operation on its timers. -/
theorem operates_startAll (t : Timing τ) (pool : Nat) :
  Operates t (t.startAll pool)
  := .head (acts_updatePool t pool _) (operates_startEach _ _)

/-- Standby is an operation on the timers of a pool. -/
theorem operates_standby (t : Timing τ) (pool : Nat) :
  Operates t (t.standby pool)
  := by
  rw [standby]
  simp only
  split
  · exact .single (acts_updatePool t pool _)
  · exact .head (acts_updatePool t pool _)
      (.tail (operates_pauseEach _ _) (acts_updatePool _ pool _))

/-- Waking is an operation on stashed timers. -/
theorem operates_wake (t : Timing τ) (pool : Nat) :
  Operates t (t.wake pool)
  := .head (acts_updatePool t pool _) (operates_startEach _ _)

theorem operates_destroyAll (t : Timing τ) (pool : Nat) :
  Operates t (t.destroyAll pool)
  := .head (acts_updatePool t pool _) (operates_destroyEach _ _)

theorem acts_announce (t : Timing τ) (channel : Option Nat) (completion : Completion) :
  Acts t (t.announce channel completion)
  := .frame (scheduler_announce t channel completion) (timers_announce t channel completion)

theorem acts_receive (t : Timing τ) (channel : Nat) :
  Acts t (t.receive channel).2
  := by
  rw [receive]
  split
  · exact .frame rfl rfl
  · split <;> exact .frame rfl rfl

/-- A completion is an operation: the channel is no part of what a timer reads. -/
theorem operates_completion (t : Timing τ) (id : Nat) :
  Operates t (t.completion id).2
  := by
  rw [completion]
  cases t.timers.get? id with
  | none => exact .refl
  | some x =>
    simp only
    split
    · exact .refl
    · exact .refl
    · have hopen : Acts t (t.disconnect x.channel).openChannel := by
        cases x.channel <;> exact .frame rfl rfl
      exact .head hopen (.head (.attach _ id _) (.single (.start _ id)))

/-! ### The clock goes on -/

/-- How the timers go on from one reading of the clock to a later one, between which one
timer may have been started again and one may have fired.  Running timers have run for the
time between. -/
structure Passes (restarted fired : Option Nat) (t t' : Timing τ) : Prop where
  now_le : t.now ≤ t'.now
  kept : ∀ id x, t.timers.get? id = some x → ∃ y, t'.timers.get? id = some y ∧ x.Lasts y
    ∧ y.elapsedAt t'.now
      = (if restarted = some id ∧ x.status.isFinished = false then 0
        else x.elapsedAt t.now + if x.status = .running then t'.now - t.now else 0)
    ∧ (y.status = .fired → x.status = .fired ∨ fired = some id)
    ∧ (fired = some id → x.status = .running ∧ y.status.isFinished = true
      ∧ y.elapsedAt t'.now = x.delay)
  fresh : ∀ id y, t.timers.get? id = none → t'.timers.get? id = some y →
    y.elapsedAt t'.now = 0 ∧ y.status ≠ .fired

/-- The clock stands still, and what is started again is over. -/
theorem Steady.passes (h : t.Steady t') {restarted : Option Nat}
    (ended : ∀ id x, restarted = some id → t.timers.get? id = some x →
      x.status.isFinished = true) :
  Passes restarted none t t'
  where
  now_le := Nat.le_of_eq h.now.symm
  kept id x hx := by
    obtain ⟨y, hy, hrests⟩ := h.kept id x hx
    refine ⟨y, hy, hrests.toLasts, ?_, fun hf => .inl (hrests.fired hf), by rintro ⟨⟩⟩
    rw [if_neg]
    · simp [h.now, hrests.elapsed]
    · rintro ⟨hid, hunfinished⟩
      rw [ended id x hid hx] at hunfinished
      cases hunfinished
  fresh id y hnone hy := by
    rw [h.now]
    exact h.fresh id y hnone hy

/-- The clock goes on and then stands still. -/
theorem Passes.steady {restarted fired : Option Nat} (h : Passes restarted fired t t')
    (h' : t'.Steady t'') :
  Passes restarted fired t t''
  where
  now_le := Nat.le_trans h.now_le (Nat.le_of_eq h'.now.symm)
  kept id x hx := by
    obtain ⟨y, hy, hlasts, helapsed, hfired, hfires⟩ := h.kept id x hx
    obtain ⟨z, hz, hrests⟩ := h'.kept id y hy
    rw [← hrests.elapsed] at helapsed
    rw [h'.now]
    refine ⟨z, hz, hlasts.trans hrests.toLasts, helapsed,
      fun hf => hfired (hrests.fired hf), ?_⟩
    intro hid
    obtain ⟨hrunning, hfinished, hdelay⟩ := hfires hid
    exact ⟨hrunning, hrests.finished hfinished, hrests.elapsed.trans hdelay⟩
  fresh id z hnone hz := by
    rw [h'.now]
    cases hy : t'.timers.get? id with
    | none => exact h'.fresh id z hy hz
    | some y =>
      obtain ⟨hzero, hfired⟩ := h.fresh id y hnone hy
      obtain ⟨z', hz', hrests⟩ := h'.kept id y hy
      rw [hz] at hz'
      obtain rfl := Option.some.inj hz'
      exact ⟨hrests.elapsed.trans hzero, fun hf => hfired (hrests.fired hf)⟩

/-- A timer that is over is so after a pause, and only then; a paused timer does not run. -/
theorem exists_pause {id : Nat} {x : Timer τ} (hx : t.timers.get? id = some x) :
  ∃ y, (t.pause id).timers.get? id = some y ∧ y.status ≠ .running
    ∧ y.status.isFinished = x.status.isFinished
  := by
  rw [pause, hx]
  simp only
  split
  · next hstatus =>
    rw [updateTimer, timers_cancelTask, Table.get?_modify, if_pos rfl, hx]
    refine ⟨_, rfl, by rintro ⟨⟩, ?_⟩
    rw [hstatus]
    rfl
  · next hstatus => exact ⟨x, hx, hstatus, rfl⟩

theorem isFinished_eq {id : Nat} {x : Timer τ} (hx : t.timers.get? id = some x) :
  t.isFinished id = x.status.isFinished
  := by
  rw [isFinished, status?, hx]
  rfl

/-- A timer that may still fire and does not run can be set back to its full delay. -/
theorem Accurate.reset (h : t.Accurate) {id : Nat} {x : Timer τ}
    (hx : t.timers.get? id = some x) (hresting : x.status ≠ .running)
    (hunfinished : x.status.isFinished = false) :
  (t.updateTimer id fun x => { x with elapsed := 0, remaining := x.delay }).Accurate
  := by
  have hget := get?_modify_timer hx fun x => { x with elapsed := 0, remaining := x.delay }
  refine h.of_modified hget (by rfl) (by exact h.ordered) (fun _ _ _ _ => Iff.rfl) ?_ ?_
  · have hstep := h.timer id x hx
    refine ⟨fun _ => Nat.zero_add _, Nat.zero_le _, ?_, ?_, hstep.resting, hstep.silent⟩
    · intro hfired
      change x.status = .fired at hfired
      rw [hfired] at hunfinished
      cases hunfinished
    · intro hrunning
      exact absurd hrunning hresting
  · intro p hp htask
    obtain ⟨y, hy, hrunning, -⟩ := h.task p hp id htask
    rw [hx] at hy
    obtain rfl := Option.some.inj hy
    exact absurd hrunning hresting

/-- Setting back a timer after a pause sets its elapsed time to zero. -/
theorem Steady.passes_reset (h : t.Steady t') (accurate : t'.Accurate) {id : Nat}
    {x y : Timer τ} (hx : t.timers.get? id = some x) (hy : t'.timers.get? id = some y)
    (hresting : y.status ≠ .running) (hunfinished : x.status.isFinished = false) :
  Passes (some id) none t
    (t'.updateTimer id fun x => { x with elapsed := 0, remaining := x.delay })
  where
  now_le := Nat.le_of_eq h.now.symm
  kept id' u hu := by
    obtain ⟨v, hv, hrests⟩ := h.kept id' u hu
    have hnow : (t'.updateTimer id fun x =>
        { x with elapsed := 0, remaining := x.delay }).now = t.now := h.now
    rw [hnow, updateTimer, get?_modify_timer hy]
    by_cases hid : id = id'
    · subst hid
      rw [hx] at hu
      obtain rfl := Option.some.inj hu
      rw [hy] at hv
      obtain rfl := Option.some.inj hv
      refine ⟨_, if_pos rfl, ⟨hrests.delay, hrests.finished, hrests.callback⟩, ?_,
        fun hf => .inl (hrests.fired hf), by rintro ⟨⟩⟩
      rw [if_pos ⟨rfl, hunfinished⟩, Timer.elapsedAt, Timer.session]
      simp only [((accurate.timer id y hy).resting hresting).1]
    · refine ⟨v, by rw [if_neg hid, hv], hrests.toLasts, ?_,
        fun hf => .inl (hrests.fired hf), by rintro ⟨⟩⟩
      simp [hid, hrests.elapsed]
  fresh id' y' hnone hy' := by
    have hid : id ≠ id' := by
      rintro rfl
      rw [hx] at hnone
      cases hnone
    rw [updateTimer, get?_modify_timer hy, if_neg hid] at hy'
    have hnow : (t'.updateTimer id fun x =>
        { x with elapsed := 0, remaining := x.delay }).now = t.now := h.now
    rw [hnow]
    exact h.fresh id' y' hnone hy'

/-- Starting a timer again sets its elapsed time to zero, unless it is over. -/
theorem Accurate.restart (h : t.Accurate) (id : Nat) :
  (t.restart id).2.Accurate ∧ Passes (some id) none t (t.restart id).2
  := by
  obtain ⟨hpaused, hsteady⟩ := h.pause id
  rw [Timing.restart]
  cases hx : t.timers.get? id with
  | none =>
    have hover : (t.pause id).isFinished id = true := by
      have hsame : t.pause id = t := by rw [Timing.pause, hx]
      rw [hsame, isFinished, status?, hx]
      rfl
    rw [if_pos hover]
    refine ⟨hpaused, hsteady.passes ?_⟩
    rintro _ x ⟨⟩ hx'
    rw [hx] at hx'
    cases hx'
  | some x =>
    obtain ⟨y, hy, hresting, hsame⟩ := exists_pause hx
    rw [isFinished_eq hy, hsame]
    split
    · next hfinished =>
      refine ⟨hpaused, hsteady.passes ?_⟩
      rintro _ x' ⟨⟩ hx'
      rw [hx] at hx'
      obtain rfl := Option.some.inj hx'
      exact hfinished
    · next hunfinished =>
      rw [Bool.not_eq_true] at hunfinished
      have hreset := hpaused.reset hy hresting (hsame.trans hunfinished)
      obtain ⟨hstarted, hsteady'⟩ := hreset.start id
      exact ⟨hstarted, (hsteady.passes_reset hpaused hx hy hresting hunfinished).steady hsteady'⟩

/-! ### The clock -/

/-- The timer whose task the clock takes off its queue next, on its way to `target`. -/
def dueTimer? (t : Timing τ) (target : Nat) : Option Nat :=
  match t.scheduler.takeDue target with
  | some (p, _) => p.task.timer?
  | none => none

/-- What the clock does on its way to `target` before it calls anything. -/
def tick (t : Timing τ) (target : Nat) : Timing τ :=
  match t.scheduler.takeDue target with
  | some (p, scheduler) =>
    match p.task with
    | .timer id => (Timing.fire { t with scheduler := scheduler } id).2
    | .task _ => { t with scheduler := scheduler }
  | none => { t with scheduler := t.scheduler.settle target }

/-- The time passes until `now`. -/
def lapse (t : Timing τ) (now : Nat) : Timing τ :=
  { t with scheduler := t.scheduler.settle now }

/-- The clock goes on; one timer at most changes, from running to fired. -/
theorem passes_of_fired {fired : Option Nat} (hnow : t.now ≤ t'.now)
    (runs : ∀ id x, t.timers.get? id = some x →
      x.elapsedAt t'.now = x.elapsedAt t.now + if x.status = .running then t'.now - t.now else 0)
    (others : ∀ id, fired ≠ some id → t'.timers.get? id = t.timers.get? id)
    (fires : ∀ id, fired = some id → ∃ x y, t.timers.get? id = some x
      ∧ t'.timers.get? id = some y ∧ x.status = .running ∧ y.status = .fired
      ∧ y.delay = x.delay ∧ x.elapsedAt t'.now = x.delay ∧ y.elapsedAt t'.now = x.delay) :
  Passes none fired t t'
  where
  now_le := hnow
  kept id x hx := by
    by_cases hid : fired = some id
    · obtain ⟨x', y, hx', hy, hrunning, hfired, hdelay, helapsed, helapsed'⟩ := fires id hid
      rw [hx] at hx'
      obtain rfl := Option.some.inj hx'
      have hfinished : y.status.isFinished = true := by rw [hfired]; rfl
      refine ⟨y, hy, ⟨hdelay, fun _ => hfinished, ?_⟩, ?_, fun _ => .inr hid,
        fun _ => ⟨hrunning, hfinished, helapsed'⟩⟩
      · intro hunfinished
        rw [hfinished] at hunfinished
        cases hunfinished
      · rw [if_neg (by simp), helapsed', ← helapsed, runs id x hx]
    · refine ⟨x, by rw [others id hid, hx], .refl x, ?_, fun hf => .inl hf, fun h => absurd h hid⟩
      rw [if_neg (by simp), runs id x hx]
  fresh id y hnone hy := by
    by_cases hid : fired = some id
    · obtain ⟨x, -, hx, -⟩ := fires id hid
      rw [hx] at hnone
      cases hnone
    · rw [others id hid, hnone] at hy
      cases hy

/-- As the clock moves, the elapsed time of running timers grows with it. -/
theorem Accurate.elapsedAt_add (h : t.Accurate) {now : Nat} (hnow : t.now ≤ now) {id : Nat}
    {x : Timer τ} (hx : t.timers.get? id = some x) :
  x.elapsedAt now = x.elapsedAt t.now + if x.status = .running then now - t.now else 0
  := by
  have hstep := h.timer id x hx
  by_cases hstatus : x.status = .running
  · obtain ⟨start, -, -, hstart, hle, -⟩ := hstep.running hstatus
    change start ≤ t.now at hle
    simp only [Timer.elapsedAt, Timer.session, hstart, hstatus, if_true]
    omega
  · rw [hstep.elapsedAt_resting hstatus, hstep.elapsedAt_resting hstatus, if_neg hstatus,
      Nat.add_zero]

/-- A timer whose task the clock takes off its queue has run for its whole delay, and has
no other task. -/
theorem Accurate.of_takeDue (h : t.Accurate) {target : Nat} {p : Pending (Job τ)}
    {scheduler : Scheduler (Job τ)} (htake : t.scheduler.takeDue target = some (p, scheduler))
    {id : Nat} (htask : p.task = .timer id) :
  ∃ x, t.timers.get? id = some x ∧ x.status = .running ∧ x.elapsedAt scheduler.now = x.delay
    ∧ ∀ q ∈ scheduler.queue, q.task ≠ .timer id
  := by
  obtain ⟨-, -, hqueue, hnow⟩ := h.ordered.takeDue htake
  have hp : p ∈ t.scheduler.queue := hqueue ▸ List.mem_cons_self
  obtain ⟨x, hx, hrunning, hid⟩ := h.task p hp id htask
  have hstep := h.timer id x hx
  have hbalance := hstep.balance (by rw [hrunning]; rfl)
  obtain ⟨start, q, hq, hstart, hle, -, hqid, hdue⟩ := hstep.running hrunning
  rw [hid] at hqid
  obtain rfl := h.ordered.eq_of_id_eq hp hq (Option.some.inj hqid)
  refine ⟨x, hx, hrunning, ?_, ?_⟩
  · rw [Timer.elapsedAt, Timer.session, hstart, hnow]
    simp only
    omega
  · intro q hq htask'
    have hq' : q ∈ t.scheduler.queue := hqueue ▸ List.mem_cons_of_mem p hq
    obtain ⟨y, hy, -, hyid⟩ := h.task q hq' id htask'
    rw [hx] at hy
    obtain rfl := Option.some.inj hy
    rw [hid] at hyid
    obtain rfl := h.ordered.eq_of_id_eq hp hq' (Option.some.inj hyid)
    have hdistinct := h.ordered.distinct
    rw [hqueue, List.map_cons, List.nodup_cons] at hdistinct
    exact hdistinct.1 (List.mem_map_of_mem hq)

/-- Tasks of other timers stay when the clock takes one off its queue. -/
theorem mem_of_takeDue (h : t.scheduler.Ordered) {target : Nat} {p : Pending (Job τ)}
    {scheduler : Scheduler (Job τ)} (htake : t.scheduler.takeDue target = some (p, scheduler))
    {q : Pending (Job τ)} (hne : q.task ≠ p.task) :
  q ∈ scheduler.queue ↔ q ∈ t.scheduler.queue
  := by
  obtain ⟨-, -, hqueue, -⟩ := h.takeDue htake
  rw [hqueue, List.mem_cons, or_iff_right]
  rintro rfl
  exact hne rfl

/-- The clock does not go back to a task that falls due. -/
theorem le_now_of_takeDue (h : t.scheduler.Ordered) {target : Nat} {p : Pending (Job τ)}
    {scheduler : Scheduler (Job τ)}
    (htake : t.scheduler.takeDue target = some (p, scheduler)) :
  t.now ≤ scheduler.now
  := by
  obtain ⟨-, -, hqueue, hnow⟩ := h.takeDue htake
  rw [hnow]
  exact h.due p (hqueue ▸ List.mem_cons_self)

/-- The clock takes the task of a timer off its queue, and the timer fires. -/
theorem Accurate.tick_timer (h : t.Accurate) {target : Nat} {p : Pending (Job τ)}
    {scheduler : Scheduler (Job τ)} (htake : t.scheduler.takeDue target = some (p, scheduler))
    {id : Nat} (htask : p.task = .timer id) :
  (Timing.fire { t with scheduler := scheduler } id).2.Accurate
    ∧ Passes none (some id) t (Timing.fire { t with scheduler := scheduler } id).2
  := by
  obtain ⟨x, hx, hrunning, hfull, hothers⟩ := h.of_takeDue htake htask
  have hle := le_now_of_takeDue h.ordered htake
  let fired (x : Timer τ) : Timer τ :=
    { x.fold scheduler.now with
      remaining := 0, task := none, status := .fired, callback := none, channel := none }
  have hget := get?_modify_timer hx fired
  have hfire : (Timing.fire { t with scheduler := scheduler } id).2
      = { t with scheduler := scheduler, timers := t.timers.modify id fired } := by
    simp only [Timing.fire, hx, hrunning, if_true]
    rfl
  have helapsed : (fired x).elapsedAt scheduler.now = x.delay := hfull
  rw [hfire]
  constructor
  · refine h.of_changed (some id) hle (by exact (h.ordered.takeDue htake).1) ?_ ?_ ?_ ?_
    · intro id' hne
      exact (hget id').trans (if_neg (by simpa using hne))
    · intro q id' hq hne
      apply mem_of_takeDue h.ordered htake
      rw [hq, htask]
      simpa [eq_comm] using hne
    · rintro _ y ⟨⟩ hy
      rw [hget, if_pos rfl] at hy
      obtain rfl := Option.some.inj hy
      exact .of_finished rfl (Nat.le_of_eq hfull) (fun _ => hfull) rfl rfl rfl
    · rintro q hq _ ⟨⟩ htask'
      exact absurd htask' (hothers q hq)
  · refine passes_of_fired hle ?_ ?_ ?_
    · intro id' x' hx'
      exact h.elapsedAt_add hle hx'
    · intro id' hne
      exact (hget id').trans (if_neg (by simpa using hne))
    · rintro _ ⟨⟩
      exact ⟨x, fired x, hx, (hget id).trans (if_pos rfl), hrunning, rfl, rfl, hfull, helapsed⟩

/-- The clock goes on without a timer that fires. -/
theorem Accurate.tick_task (h : t.Accurate) {scheduler : Scheduler (Job τ)}
    (hle : t.now ≤ scheduler.now) (hordered : scheduler.Ordered)
    (tasks : ∀ p id, p.task = .timer id → (p ∈ scheduler.queue ↔ p ∈ t.scheduler.queue)) :
  Accurate { t with scheduler := scheduler }
    ∧ Passes none none t { t with scheduler := scheduler }
  := by
  constructor
  · refine h.of_changed none hle hordered (fun _ _ => by rfl) ?_ (by rintro _ _ ⟨⟩)
      (by rintro _ _ _ ⟨⟩)
    intro p id htask _
    exact tasks p id htask
  · refine passes_of_fired hle ?_ (fun _ _ => by rfl) (by rintro _ ⟨⟩)
    intro id x hx
    exact h.elapsedAt_add hle hx

/-- The clock keeps accurate on its way, and the timer whose task it takes off its queue has
run for its whole delay. -/
theorem Accurate.tick (h : t.Accurate) (target : Nat) :
  (t.tick target).Accurate ∧ Passes none (t.dueTimer? target) t (t.tick target)
  := by
  rw [Timing.tick, dueTimer?]
  cases htake : t.scheduler.takeDue target with
  | none => exact h.tick_task (Nat.le_max_left _ _) (h.ordered.settle htake) fun _ _ _ => Iff.rfl
  | some taken =>
    obtain ⟨p, scheduler⟩ := taken
    simp only
    cases htask : p.task with
    | timer id => exact h.tick_timer htake htask
    | task code =>
      refine h.tick_task (le_now_of_takeDue h.ordered htake) (h.ordered.takeDue htake).1 ?_
      intro q id hq
      apply mem_of_takeDue h.ordered htake
      rw [hq, htask]
      rintro ⟨⟩

end Timing

end Statechart
