import Statechart.Proofs.Accounting
import Statechart.Proofs.Holding
import Statechart.Proofs.Parallel
import Statechart.Proofs.Standby

/-!
# A standby costs nothing

A pool that is put on standby takes its timers off the clock, and as long as no other task waits
the clock passes any time without starting one.  When the pool wakes, every timer is as it was
before: it has the same status and has run for as long, and if it runs it fires after the same
time (`Configuration.Run.standby_costs_nothing`).
-/

namespace Statechart

variable {κ π σ τ : Type}

namespace Timing

variable {t t' : Timing τ} {pool id : Nat} {p : TimerPool} {x : Timer τ}

/-! ### The time left -/

/-- The task of a running timer falls due when the rest of its delay has passed. -/
theorem Accurate.due_eq (h : t.Accurate) (hx : t.timers.get? id = some x)
    (hrunning : x.status = .running) :
  ∃ q, t.tasksOf id = [q] ∧ q.due = t.now + (x.delay - x.elapsedAt t.now)
  := by
  obtain ⟨start, q, hstart, htasks, hdue, hnow⟩ := (h.tasksOf_eq hx).1 hrunning
  obtain ⟨start', -, -, hstart', hle, -⟩ := (h.timer id x hx).running hrunning
  have hbalance := (h.timer id x hx).balance (by rw [hrunning]; rfl)
  rw [hstart] at hstart'
  obtain rfl := Option.some.inj hstart'
  change start ≤ t.now at hle
  refine ⟨q, htasks, ?_⟩
  rw [Timer.elapsedAt, Timer.session, hstart]
  simp only
  omega

/-- Every timer has the same status as before and has run for as long, and a running one fires
after the same time. -/
structure Resumes (t t' : Timing τ) : Prop where
  kept : ∀ id x, t.timers.get? id = some x → ∃ y, t'.timers.get? id = some y
    ∧ y.status = x.status ∧ y.elapsedAt t'.now = x.elapsedAt t.now
  due : ∀ id, t.isRunning id = true → ∃ q q' left, t.tasksOf id = [q] ∧ t'.tasksOf id = [q']
    ∧ q.due = t.now + left ∧ q'.due = t'.now + left

/-- On accurate clocks the time left is a matter of the delay and of the time that has
elapsed. -/
theorem resumes_of_accurate (h : t.Accurate) (h' : t'.Accurate)
    (hkept : ∀ id x, t.timers.get? id = some x → ∃ y, t'.timers.get? id = some y
      ∧ y.status = x.status ∧ y.delay = x.delay ∧ y.elapsedAt t'.now = x.elapsedAt t.now) :
  t.Resumes t'
  where
  kept id x hx := by
    obtain ⟨y, hy, hstatus, -, helapsed⟩ := hkept id x hx
    exact ⟨y, hy, hstatus, helapsed⟩
  due id hrunning := by
    rw [isRunning, decide_eq_true_iff] at hrunning
    obtain ⟨x, hx, hxrunning⟩ := Option.map_eq_some_iff.mp hrunning
    obtain ⟨y, hy, hstatus, hdelay, helapsed⟩ := hkept id x hx
    obtain ⟨q, htasks, hdue⟩ := h.due_eq hx hxrunning
    obtain ⟨q', htasks', hdue'⟩ := h'.due_eq hy (hstatus.trans hxrunning)
    rw [hdelay, helapsed] at hdue'
    exact ⟨q, q', _, htasks, htasks', hdue, hdue'⟩

/-! ### Standby -/

/-- Every task that waits belongs to a timer of the pool. -/
def Solely (t : Timing τ) (pool : Nat) : Prop :=
  ∀ q ∈ t.scheduler.queue, ∃ id s, q.task = .timer id ∧ t.standing? id = some (pool, s)

theorem mem_of_mem_pauseEach {ids : List Nat} {q : Pending (Job τ)}
    (h : q ∈ (t.pauseEach ids).scheduler.queue) :
  q ∈ t.scheduler.queue
  := by
  induction ids generalizing t with
  | nil => exact h
  | cons id rest ih =>
    have h := ih h
    rw [pause] at h
    split at h
    · exact h
    · split at h
      · simp only [updateTimer, cancelTask] at h
        split at h
        · exact Scheduler.mem_of_mem_cancel h
        · exact h
      · exact h

theorem mem_of_mem_standby {q : Pending (Job τ)} (h : q ∈ (t.standby pool).scheduler.queue) :
  q ∈ t.scheduler.queue
  := by
  rw [standby] at h
  simp only at h
  split at h
  · exact h
  · exact mem_of_mem_pauseEach (t := t.updatePool pool _) h

/-- What the pool is like when it has been put on standby. -/
theorem get?_standby (hp : t.Owns pool p) (hstandby : t.inStandby pool = false) :
  (t.standby pool).pools.get? pool = some { p with stash := (t.timersOf pool).filter t.isRunning }
  := by
  have hover : (p.stash.filter fun id => !t.isFinished id) = [] := by
    rw [inStandby, decide_eq_false_iff_not, Nat.not_lt, stashed,
      stashOf_of_get? hp.there] at hstandby
    exact List.length_eq_zero_iff.mp (Nat.le_zero.mp hstandby)
  rw [standby]
  simp only [hstandby, Bool.false_eq_true, if_false, updatePool, Table.get?_modify, if_true,
    pools_pauseEach, hp.there, Option.map_some, hover, List.nil_append]

/-- No timer runs, and no task waits, when a pool has been put on standby whose timers alone had
tasks. -/
theorem Accurate.standby_still (h : t.Accurate) (hp : t.Owns pool p)
    (hstandby : t.inStandby pool = false) (hsolely : t.Solely pool) :
  (t.standby pool).scheduler.queue = []
    ∧ ∀ id y, (t.standby pool).timers.get? id = some y → y.status ≠ .running
  := by
  have haccurate := (h.operates (operates_standby t pool)).1
  have hempty : (t.standby pool).scheduler.queue = [] := by
    rw [List.eq_nil_iff_forall_not_mem]
    intro q hq
    obtain ⟨id, s, htask, hs⟩ := hsolely q (mem_of_mem_standby hq)
    obtain ⟨y, hy, hrunning, -⟩ := haccurate.task q hq id htask
    have hstanding := standing?_of_get? hy
    have hpool : y.pool = pool := by
      rw [standing?_standby hstandby, hs] at hstanding
      split at hstanding
      · exact (Prod.mk.inj (Option.some.inj hstanding)).1.symm
      · exact (Prod.mk.inj (Option.some.inj hstanding)).1.symm
    rw [hpool, hrunning] at hstanding
    exact standing?_standby_ne hp hstandby hstanding rfl
  refine ⟨hempty, fun id y hy hrunning => ?_⟩
  obtain ⟨-, q, hq, -⟩ := (haccurate.timer id y hy).running hrunning
  rw [hempty] at hq
  cases hq

/-! ### Waking up -/

/-- What a pool does to the standing of its timers when it wakes. -/
theorem standing?_wake (t : Timing τ) (pool id : Nat) :
  (t.wake pool).standing? id
    = if id ∈ t.stashOf pool
      then (t.standing? id).map fun q => (q.1, q.2.started (t.isPaused q.1)) else t.standing? id
  := by
  have hpaused (pool' : Nat) :
      (t.updatePool pool fun p => { p with stash := [] }).isPaused pool' = t.isPaused pool' := by
    rw [isPaused, isPaused, updatePool, Table.get?_modify]
    by_cases heq : pool = pool'
    · rw [if_pos heq]
      cases t.pools.get? pool' <;> rfl
    · rw [if_neg heq]
  rw [wake, standing?_startEach]
  simp only [List.mem_reverse, hpaused]
  rfl

theorem Accurate.lapse (h : t.Accurate) (hempty : t.scheduler.queue = []) (now : Nat) :
  (t.lapse now).Accurate
  := by
  have hnone : t.scheduler.takeDue now = none := by rw [Scheduler.takeDue, hempty]
  have hticked := (h.tick now).1
  rw [Timing.tick, hnone] at hticked
  exact hticked

/-- A pool is put on standby, the time passes until `now`, and the pool wakes. -/
def respite (t : Timing τ) (pool now : Nat) : Timing τ := ((t.standby pool).lapse now).wake pool

/-- Every timer stands in the end as it stood before: what was paused runs again, and nothing
else was touched. -/
theorem standing?_respite (ht : t.Homed) (hp : t.Owns pool p)
    (hstandby : t.inStandby pool = false) (now id : Nat) :
  (t.respite pool now).standing? id = t.standing? id
  := by
  have hget : ((t.standby pool).lapse now).pools.get? pool
      = some { p with stash := (t.timersOf pool).filter t.isRunning } := get?_standby hp hstandby
  have hslept : ((t.standby pool).lapse now).standing? id = (t.standby pool).standing? id :=
    standing?_congr rfl id
  rw [respite, standing?_wake, stashOf_of_get? hget, hslept, standing?_standby hstandby]
  split
  · next hid =>
    obtain ⟨hlisted, hrunning⟩ := List.mem_filter.mp hid
    obtain ⟨s, hs⟩ := ht.of_listed (.inl hlisted)
    rw [isRunning, status?_of_standing? hs] at hrunning
    obtain rfl := Option.some.inj (of_decide_eq_true hrunning)
    -- A timer of the pool runs, so the pool is not paused.
    have hpaused : ((t.standby pool).lapse now).isPaused pool = false := by
      rw [isPaused_of_get? hget]
      by_contra hpaused
      exact hp.still (by simpa using hpaused) id _ hs rfl
    simp only [hs, Option.map_some, hpaused]
    rfl
  · rfl

theorem stashOf_respite (hp : t.Owns pool p) (hstandby : t.inStandby pool = false) (now : Nat) :
  (t.respite pool now).stashOf pool = []
  := by
  have hget : ((t.standby pool).lapse now).pools.get? pool = _ := get?_standby hp hstandby
  rw [respite, wake, stashOf_congr (pools_startEach _ _), stashOf_updatePool _ pool _ hget]

/-- No timer is any worse off for a standby in which only time passes. -/
theorem Accurate.respite (h : t.Accurate) (ht : t.Homed) (hp : t.Owns pool p)
    (hstandby : t.inStandby pool = false) (hsolely : t.Solely pool) {now : Nat}
    (hnow : t.now ≤ now) :
  (t.respite pool now).now = now ∧ t.Resumes (t.respite pool now)
  := by
  obtain ⟨hempty, hresting⟩ := h.standby_still hp hstandby hsolely
  obtain ⟨hslept, hsleeps⟩ := h.operates (operates_standby t pool)
  obtain ⟨hwoken, hwakes⟩ := (hslept.lapse hempty now).operates (operates_wake _ pool)
  have hlapsed : ((t.standby pool).lapse now).now = now := by
    change max (t.standby pool).now now = now
    rw [hsleeps.now]
    exact max_eq_right hnow
  refine ⟨hwakes.now.trans hlapsed, resumes_of_accurate h hwoken ?_⟩
  intro id x hx
  obtain ⟨y, hy, hxy⟩ := hsleeps.kept id x hx
  obtain ⟨z, hz, hyz⟩ := hwakes.kept id y hy
  refine ⟨z, hz, ?_, hyz.delay.trans hxy.delay, ?_⟩
  · have hstanding := standing?_respite ht hp hstandby now id
    rw [Timing.respite, standing?_of_get? hz, standing?_of_get? hx] at hstanding
    exact (Prod.mk.inj (Option.some.inj hstanding)).2
  · -- What has elapsed does not depend on the time while the timer does not run.
    have hstill := (hslept.timer id y hy).elapsedAt_resting (hresting id y hy)
    calc z.elapsedAt (((t.standby pool).lapse now).wake pool).now
        = y.elapsedAt ((t.standby pool).lapse now).now := by rw [hwakes.now, hyz.elapsed]
      _ = y.elapsedAt t.now := by rw [hstill, hstill]
      _ = x.elapsedAt t.now := hxy.elapsed

end Timing

namespace Configuration

variable {H : Host κ π σ} {before after : List (Configuration κ π σ)}
  {a c : Configuration κ π σ} {pool : Nat}

/-! ### Calls -/

/-- A call about timers ends at once, and the host makes the next one. -/
theorem steps_timed {f : Timing (Callback κ) → Timing (Callback κ)} {call next : Call κ}
    {point point' : π} (hcontrol : c.control = .host (.call call point))
    (hperform : ∀ b : Configuration κ π σ, perform H b call = b.timed f)
    (hasks : H.Asks point next point') (hsettled : Settled H c) :
  Steps H c [c, (c.withStack (.waiting point :: c.stack)).timed f]
    { c with engine := c.engine.withTiming f, control := .host (.call next point') }
  := by
  refine .step (by rw [step?, hcontrol]; exact congrArg some (hperform _)) (.step ?_ (.refl _))
  exact step?_of_asks hasks rfl rfl (hsettled.of_instances_eq rfl rfl rfl rfl)

/-- No task waits, so a call to advance the clock does no more than that, and the host makes the
next one. -/
theorem steps_advance {ms : Nat} {next : Call κ} {point point' : π}
    (hcontrol : c.control = .host (.call (.advance ms) point))
    (hempty : c.engine.timing.scheduler.queue = [])
    (hasks : H.Asks point next point') (hsettled : Settled H c) :
  ∃ b b', Steps H c [c, b, b']
      { c with
        engine := c.engine.withTiming fun t => t.lapse (c.engine.timing.now + ms)
        control := .host (.call next point') }
    ∧ b.started? = none ∧ b'.started? = none
  := by
  let b := (c.withStack
    (.advancing (c.engine.timing.now + ms) :: .waiting point :: c.stack)).back .done
  let b' := ((c.withEngine
    (c.engine.withTiming fun t => t.lapse (c.engine.timing.now + ms))).withStack
      (.waiting point :: c.stack)).back .done
  have hnone : b.engine.timing.scheduler.takeDue (c.engine.timing.now + ms) = none := by
    change c.engine.timing.scheduler.takeDue _ = none
    rw [Scheduler.takeDue, hempty]
  have hclock : step? H b = some b' := by
    change some (stepClock H b _ _) = some b'
    rw [stepClock, hnone]
    rfl
  refine ⟨b, b', .step (by rw [step?, hcontrol]; rfl) (.step hclock (.step ?_ (.refl _))), ?_, rfl⟩
  · exact step?_of_asks hasks rfl rfl (hsettled.of_instances_eq rfl rfl rfl rfl)
  · change b.engine.timing.dueTask? _ = none
    rw [Timing.dueTask?, hnone]
    rfl

theorem started?_of_host {next : Next κ π} (hcontrol : c.control = .host next) :
  c.started? = none
  := by
  rw [started?, target?, hcontrol]
  rfl

/-- The host puts a pool on standby, advances the clock and wakes the pool again, while no timer
is stashed that is not over and only timers of the pool have tasks.  Nothing is started on the
way, the stash is empty in the end, every timer has the status and the elapsed time that it had
before, and every running one fires after the same time as it would have done. -/
theorem Run.standby_costs_nothing (h : Run H (before ++ a :: after) c)
    (hspares : ∀ b ∈ before ++ a :: after, b.spares = true)
    (hpool : a.engine.timing.pools.get? pool = some .empty)
    (hnew : ∀ id x, a.engine.timing.timers.get? id = some x → x.pool ≠ pool)
    (hstandby : c.engine.timing.inStandby pool = false)
    (hsolely : c.engine.timing.Solely pool) {ms : Nat} {p₁ p₂ p₃ : π}
    (hcontrol : c.control = .host (.call (.standby pool) p₁))
    (hadvance : H.Asks p₁ (.advance ms) p₂) (hwake : H.Asks p₂ (.wake pool) p₃) :
  ∃ cs d, Steps H c (c :: cs) d ∧ d.stack = .waiting p₃ :: c.stack ∧ d.control = .back .done
    ∧ (∀ b ∈ c :: cs, b.started? = none)
    ∧ d.engine.timing.now = c.engine.timing.now + ms
    ∧ d.engine.timing.stashOf pool = []
    ∧ c.engine.timing.Resumes d.engine.timing
  := by
  obtain ⟨p, hp⟩ := h.pool_owns hpool hnew
  have haccurate := h.accurate hspares
  have hsettled := h.settled (by simp [AtRest, hcontrol, Control.isBack])
  obtain ⟨hempty, -⟩ := haccurate.standby_still hp hstandby hsolely
  have hslept := (haccurate.operates (Timing.operates_standby _ pool)).2.now
  -- The host makes the second call with the pool on standby, and the third at the new time.
  let c₁ : Configuration κ π σ :=
    { c with
      engine := c.engine.withTiming fun t => t.standby pool
      control := .host (.call (.advance ms) p₂) }
  have hfirst : Steps H c _ c₁ := steps_timed hcontrol (fun _ => rfl) hadvance hsettled
  have hsettled₁ : Settled H c₁ := hsettled.of_instances_eq rfl rfl rfl rfl
  obtain ⟨b, b', hsecond, hb, hb'⟩ := steps_advance (c := c₁) rfl hempty hwake hsettled₁
  have hnow : c₁.engine.timing.now + ms = c.engine.timing.now + ms := congrArg (· + ms) hslept
  rw [hnow] at hsecond
  refine ⟨[_, c₁, b, b', _], _, hfirst.trans (hsecond.trans (.step rfl (.refl _))), rfl, rfl,
    ?_, ?_, ?_, ?_⟩
  · intro d hd
    simp only [List.mem_cons, List.not_mem_nil, or_false] at hd
    obtain rfl | rfl | rfl | rfl | rfl | rfl := hd
    · exact started?_of_host hcontrol
    · rfl
    · rfl
    · exact hb
    · exact hb'
    · rfl
  · exact (haccurate.respite h.homed hp hstandby hsolely (Nat.le_add_right _ ms)).1
  · exact Timing.stashOf_respite hp hstandby _
  · exact (haccurate.respite h.homed hp hstandby hsolely (Nat.le_add_right _ ms)).2

/-- Of the three timers the first runs when their pool is put on standby, the second is paused and
the third was never started. -/
def rested : Script Unit :=
  [.newTimer 0 5 (some ()), .newTimer 0 7 none, .startAll 0, .advance 2, .pauseTimer 1,
    .newTimer 0 4 none, .standby 0, .advance 10, .wake 0]

/-- The first timer fires after the three milliseconds that it had left, although ten have
passed, and the second is still paused. -/
theorem relay_standby_costs_nothing :
  ∃ cs d, Steps relayHost (relayRun rested 15).2 ((relayRun rested 15).2 :: cs) d
    ∧ (relayRun rested 15).2.engine.timing.now = 2 ∧ d.engine.timing.now = 12
    ∧ (∃ q, d.engine.timing.tasksOf 0 = [q] ∧ q.due = 15)
    ∧ ∃ y, d.engine.timing.timers.get? 1 = some y ∧ y.status = .paused ∧ y.elapsedAt 12 = 2
  := by
  have hqueue : ∀ q ∈ (relayRun rested 15).2.engine.timing.scheduler.queue,
      q.task.timer? = some 0 := by decide +kernel
  have hsolely : (relayRun rested 15).2.engine.timing.Solely 0 := fun q hq =>
    ⟨0, .running, Job.timer?_eq_some_iff.mp (hqueue q hq), by decide +kernel⟩
  have hbefore : (relayRun rested 15).2.engine.timing.now = 2 := by decide +kernel
  have hadvance : relayHost.Asks [.advance 10, .wake 0] (.advance 10) [.wake 0] := fun _ _ _ => rfl
  have hwake : relayHost.Asks [.wake 0] (.wake 0) [] := fun _ _ _ => rfl
  obtain ⟨cs, d, hsteps, -, -, -, hnow, -, hkept, hdue⟩ :=
    (@run_pooledRun rested 15 (by decide +kernel)).standby_costs_nothing (by decide +kernel)
      pools_pooled timers_pooled (by decide +kernel) hsolely rfl hadvance hwake
  rw [hbefore] at hnow
  refine ⟨cs, d, hsteps, hbefore, hnow, ?_, ?_⟩
  · obtain ⟨q, q', left, htasks, htasks', hq, hq'⟩ := hdue 0 (by decide +kernel)
    have htask : q ∈ (relayRun rested 15).2.engine.timing.scheduler.queue :=
      (List.mem_filter.mp (htasks ▸ List.mem_singleton_self q)).1
    have hfive : ∀ q ∈ (relayRun rested 15).2.engine.timing.scheduler.queue, q.due = 5 := by
      decide +kernel
    refine ⟨q', htasks', ?_⟩
    rw [hfive q htask, hbefore] at hq
    rw [hq', hnow]
    omega
  · obtain ⟨x, hx, hpaused, helapsed⟩ : ∃ x,
        (relayRun rested 15).2.engine.timing.timers.get? 1 = some x ∧ x.status = .paused
          ∧ x.elapsedAt 2 = 2 := ⟨_, rfl, by decide +kernel, by decide +kernel⟩
    obtain ⟨y, hy, hstatus, hsame⟩ := hkept 1 x hx
    rw [hnow, hbefore, helapsed] at hsame
    exact ⟨y, hy, hstatus.trans hpaused, hsame⟩

end Configuration

end Statechart
