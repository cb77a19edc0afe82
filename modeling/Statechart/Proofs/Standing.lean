import Statechart.Proofs.Pausing

/-!
# The standing of timers

The standing of a timer is the pool that made it and its status.  This module says for every
operation what it does to the standing of timers, and that it leaves pools alone unless it is
one on pools.
-/

namespace Statechart

variable {τ : Type}

/-! ### Statuses -/

namespace TimerStatus

/-- The status after a start of a timer whose pool is paused or not. -/
def started (halted : Bool) (s : TimerStatus) : TimerStatus :=
  if !halted && (s = idle || s = paused) then running else s

/-- The status after a pause. -/
def suspended (s : TimerStatus) : TimerStatus :=
  if s = running then paused else s

/-- The status after the task of a timer was taken off the clock. -/
def expired (s : TimerStatus) : TimerStatus :=
  if s = running then fired else s

variable {s : TimerStatus}

/-- A start does nothing to a timer that has fired or is destroyed. -/
theorem started_of_isFinished (halted : Bool) (h : s.isFinished = true) :
  s.started halted = s
  := by
  cases s <;> cases halted <;> first | rfl | cases h

/-- A pause does nothing to a timer that has fired or is destroyed. -/
theorem suspended_of_isFinished (h : s.isFinished = true) :
  s.suspended = s
  := by
  cases s <;> first | rfl | cases h

/-- A timer that runs after a start was running, or its pool is not paused. -/
theorem started_eq_running {halted : Bool} (h : s.started halted = running) :
  s = running ∨ halted = false
  := by
  cases s <;> cases halted <;> simp_all [started]

/-- No timer runs after a pause. -/
theorem suspended_ne_running (s : TimerStatus) :
  s.suspended ≠ running
  := by
  cases s <;> decide

/-- In a pool that is not paused, a start leaves a timer running unless it is finished. -/
theorem started_false (s : TimerStatus) :
  s.started false = running ∨ (s.started false).isFinished = true
  := by
  cases s <;> decide

/-- A second start does nothing. -/
theorem started_started (halted : Bool) (s : TimerStatus) :
  (s.started halted).started halted = s.started halted
  := by
  cases s <;> cases halted <;> rfl

/-- A second pause does nothing. -/
theorem suspended_suspended (s : TimerStatus) :
  s.suspended.suspended = s.suspended
  := by
  cases s <;> rfl

/-- The end of its task does nothing to a timer that has fired or is destroyed. -/
theorem expired_of_isFinished (h : s.isFinished = true) :
  s.expired = s
  := by
  cases s <;> first | rfl | cases h

/-- No timer runs once its task is off the clock. -/
theorem expired_ne_running (s : TimerStatus) :
  s.expired ≠ running
  := by
  cases s <;> decide

/-- The end of a task changes the status of a timer only by finishing it. -/
theorem expired_eq (s : TimerStatus) :
  s.expired = s ∨ s.expired.isFinished = true
  := by
  cases s <;> decide

end TimerStatus

namespace Timing

variable {t t' : Timing τ}

/-- The pool that made a timer, and the status of the timer. -/
def standing? (t : Timing τ) (id : Nat) : Option (Nat × TimerStatus) :=
  (t.timers.get? id).map fun x => (x.pool, x.status)

/-- The status of a timer is the second half of its standing. -/
theorem status?_of_standing? {id pool : Nat} {s : TimerStatus}
    (h : t.standing? id = some (pool, s)) :
  t.status? id = some s
  := by
  obtain ⟨x, hx, heq⟩ := Option.map_eq_some_iff.mp h
  rw [status?, hx, Option.map_some, (Prod.mk.inj heq).2]

/-- A timer that is there has the standing that its own fields say. -/
theorem standing?_of_get? {id : Nat} {x : Timer τ} (h : t.timers.get? id = some x) :
  t.standing? id = some (x.pool, x.status)
  := by
  rw [standing?, h]
  rfl

/-- A number that was not given out yet has no standing. -/
theorem standing?_eq_none {id : Nat} (h : t.timers.next ≤ id) :
  t.standing? id = none
  := by
  rw [standing?, Table.get?_eq_none_of_le _ h]
  rfl

/-- Standing depends on the timers alone. -/
theorem standing?_congr (h : t'.timers = t.timers) (id : Nat) :
  t'.standing? id = t.standing? id
  := by
  rw [standing?, h, standing?]

/-- A timer changes and stays with its pool. -/
theorem standing?_updateTimer (t : Timing τ) (id : Nat) {f : Timer τ → Timer τ}
    {g : TimerStatus → TimerStatus}
    (hf : ∀ x, t.timers.get? id = some x → (f x).pool = x.pool ∧ (f x).status = g x.status)
    (id' : Nat) :
  (t.updateTimer id f).standing? id'
    = if id = id' then (t.standing? id').map (fun p => (p.1, g p.2)) else t.standing? id'
  := by
  rw [standing?, updateTimer, Table.get?_modify]
  split
  · next heq =>
    subst heq
    rw [standing?]
    cases hx : t.timers.get? id with
    | none => rfl
    | some x =>
      obtain ⟨hpool, hstatus⟩ := hf x hx
      simp [hpool, hstatus]
  · rfl

/-- Nothing happens to a timer whose standing would not change. -/
theorem standing?_of_fixed (t : Timing τ) (id : Nat)
    {g : Nat × TimerStatus → Nat × TimerStatus}
    (hg : ∀ x, t.timers.get? id = some x → g (x.pool, x.status) = (x.pool, x.status))
    (id' : Nat) :
  t.standing? id' = if id = id' then (t.standing? id').map g else t.standing? id'
  := by
  split
  · next heq =>
    subst heq
    rw [standing?]
    cases hx : t.timers.get? id with
    | none => rfl
    | some x => exact congrArg some (hg x hx).symm
  · rfl

/-! ### Single timers -/

/-- Taking the task of a timer off the clock leaves pools alone. -/
theorem pools_cancelTask (t : Timing τ) (x : Timer τ) :
  (t.cancelTask x).pools = t.pools
  := by
  rw [cancelTask]
  split <;> rfl

/-- The timers that a pool has made have no part in whether it is paused. -/
theorem isPaused_newTimer (t : Timing τ) (pool delay : Nat) (callback : Option τ) (pool' : Nat) :
  (t.newTimer pool delay callback).isPaused pool' = t.isPaused pool'
  := by
  simp only [isPaused, newTimer, Table.get?_modify]
  cases hp : t.pools.get? pool' with
  | none => simp
  | some p => by_cases heq : pool = pool' <;> simp [heq]

/-- Whether a pool is paused depends on the pools alone. -/
theorem isPaused_congr {t t' : Timing τ} (hpools : t'.pools = t.pools) (pool : Nat) :
  t'.isPaused pool = t.isPaused pool
  := by rw [isPaused, hpools, isPaused]

/-- An announcement on the channel of a timer leaves pools alone. -/
theorem pools_announce (t : Timing τ) (channel : Option Nat) (completion : Completion) :
  (t.announce channel completion).pools = t.pools
  := by
  cases channel <;> rfl

/-- Starting a timer leaves pools alone, also when its pool forbids the start. -/
theorem pools_start (t : Timing τ) (id : Nat) :
  (t.start id).2.pools = t.pools
  := by
  rw [start]
  split
  · rfl
  · split <;> rfl

/-- A start changes the status of one timer, by what the pool of this timer allows. -/
theorem standing?_start (t : Timing τ) (id id' : Nat) :
  (t.start id).2.standing? id'
    = if id = id' then (t.standing? id').map fun p => (p.1, p.2.started (t.isPaused p.1))
      else t.standing? id'
  := by
  rw [start]
  split
  · next hnone =>
    exact standing?_of_fixed t id (by simp [hnone]) id'
  · next x hx =>
    split
    · next hcan =>
      refine (standing?_updateTimer t id (g := fun _ => .running) ?_ id').trans ?_
      · exact fun x _ => ⟨rfl, rfl⟩
      · split
        · next heq =>
          subst heq
          rw [canStart] at hcan
          rw [standing?_of_get? hx]
          simp only [Option.map_some, TimerStatus.started, hcan, if_true]
        · rfl
    · next hcan =>
      refine standing?_of_fixed t id (fun y hy => ?_) id'
      obtain rfl : x = y := Option.some.inj (hx.symm.trans hy)
      rw [canStart] at hcan
      simp only [TimerStatus.started, hcan]
      rfl

/-- A pause changes the status of one timer, if it runs. -/
theorem standing?_pause (t : Timing τ) (id id' : Nat) :
  (t.pause id).standing? id'
    = if id = id' then (t.standing? id').map fun p => (p.1, p.2.suspended)
      else t.standing? id'
  := by
  rw [pause]
  split
  · next hnone =>
    exact standing?_of_fixed t id (by simp [hnone]) id'
  · next x hx =>
    split
    · next hrunning =>
      rw [standing?_updateTimer (g := TimerStatus.suspended),
        standing?_congr (timers_cancelTask t x)]
      intro y hy
      rw [timers_cancelTask, hx] at hy
      obtain rfl := Option.some.inj hy
      rw [hrunning]
      exact ⟨rfl, rfl⟩
    · next hresting =>
      refine standing?_of_fixed t id (fun y hy => ?_) id'
      obtain rfl : x = y := Option.some.inj (hx.symm.trans hy)
      simp [TimerStatus.suspended, hresting]

/-- Destroying a timer leaves it listed in its pool. -/
theorem pools_destroy (t : Timing τ) (id : Nat) :
  (t.destroy id).pools = t.pools
  := by
  rw [destroy]
  split
  · rfl
  · split
    · rfl
    · rw [pools_announce]
      exact pools_cancelTask t _

/-- Destroying a timer makes it destroyed whatever its status, and no other one. -/
theorem standing?_destroy (t : Timing τ) (id id' : Nat) :
  (t.destroy id).standing? id'
    = if id = id' then (t.standing? id').map fun p => (p.1, .destroyed)
      else t.standing? id'
  := by
  rw [destroy]
  split
  · next hnone =>
    exact standing?_of_fixed t id (by simp [hnone]) id'
  · next x hx =>
    split
    · next hdestroyed =>
      refine standing?_of_fixed t id (fun y hy => ?_) id'
      obtain rfl : x = y := Option.some.inj (hx.symm.trans hy)
      rw [hdestroyed]
    · rw [standing?_congr (timers_announce _ _ _),
        standing?_updateTimer (g := fun _ => .destroyed), standing?_congr (timers_cancelTask t x)]
      exact fun y _ => ⟨rfl, rfl⟩

/-- Firing a timer leaves pools alone. -/
theorem pools_fire (t : Timing τ) (id : Nat) :
  (t.fire id).2.pools = t.pools
  := by
  rw [fire]
  split
  · rfl
  · split <;> rfl

/-- The end of its task changes the status of one timer, if it runs. -/
theorem standing?_fire (t : Timing τ) (id id' : Nat) :
  (t.fire id).2.standing? id'
    = if id = id' then (t.standing? id').map fun p => (p.1, p.2.expired)
      else t.standing? id'
  := by
  rw [fire]
  split
  · next hnone =>
    exact standing?_of_fixed t id (by simp [hnone]) id'
  · next x hx =>
    split
    · next hrunning =>
      refine standing?_updateTimer t id ?_ id'
      intro y hy
      rw [hx] at hy
      obtain rfl := Option.some.inj hy
      rw [hrunning]
      exact ⟨rfl, rfl⟩
    · next hresting =>
      refine standing?_of_fixed t id (fun y hy => ?_) id'
      obtain rfl : x = y := Option.some.inj (hx.symm.trans hy)
      simp [TimerStatus.expired, hresting]

/-- A new timer gets the next number and is idle in its pool. -/
theorem standing?_newTimer (t : Timing τ) (pool delay : Nat) (callback : Option τ) (id : Nat) :
  (t.newTimer pool delay callback).standing? id
    = if id = t.timers.next then some (pool, .idle) else t.standing? id
  := by
  rw [standing?, newTimer, Table.get?_add]
  split <;> rfl

/-! ### Several timers -/

/-- Operations on one timer after another, each of which leaves pools alone. -/
theorem pools_foldl {f : Timing τ → Nat → Timing τ} (hf : ∀ t id, (f t id).pools = t.pools)
    (t : Timing τ) (ids : List Nat) :
  (ids.foldl f t).pools = t.pools
  := List.foldlRecOn ids f (motive := fun t' => t'.pools = t.pools) rfl
    fun _ h id _ => (hf _ id).trans h

/-- An operation on one timer after another, which changes the standing of a timer once. -/
theorem standing?_foldl {f : Timing τ → Nat → Timing τ} (hpools : ∀ t id, (f t id).pools = t.pools)
    {g : Table TimerPool → Nat × TimerStatus → Nat × TimerStatus}
    (hf : ∀ t id id', (f t id).standing? id'
      = if id = id' then (t.standing? id').map (g t.pools) else t.standing? id')
    (hg : ∀ pools p, g pools (g pools p) = g pools p) (t : Timing τ) (ids : List Nat) (id' : Nat) :
  (ids.foldl f t).standing? id'
    = if id' ∈ ids then (t.standing? id').map (g t.pools) else t.standing? id'
  := by
  induction ids generalizing t with
  | nil => rfl
  | cons id rest ih =>
    rw [List.foldl_cons, ih, hpools, hf]
    by_cases heq : id = id'
    · subst heq
      simp only [if_true, Option.map_map, List.mem_cons_self]
      split
      · congr 1
        funext p
        exact hg _ p
      · rfl
    · simp only [if_neg heq, List.mem_cons, Ne.symm heq, false_or]

/-- Starting timers leaves pools alone. -/
theorem pools_startEach (t : Timing τ) (ids : List Nat) :
  (t.startEach ids).pools = t.pools
  := pools_foldl pools_start t ids

/-- Every listed timer is started once, though it may be listed twice. -/
theorem standing?_startEach (t : Timing τ) (ids : List Nat) (id : Nat) :
  (t.startEach ids).standing? id
    = if id ∈ ids then (t.standing? id).map fun p => (p.1, p.2.started (t.isPaused p.1))
      else t.standing? id
  := standing?_foldl pools_start
    (g := fun pools p => (p.1, p.2.started (({ t with pools := pools } : Timing τ).isPaused p.1)))
    standing?_start (fun _ p => by rw [TimerStatus.started_started]) t ids id

/-- Pausing timers leaves pools alone. -/
theorem pools_pauseEach (t : Timing τ) (ids : List Nat) :
  (t.pauseEach ids).pools = t.pools
  := pools_foldl pools_pause t ids

/-- Every listed timer is paused, and no other one. -/
theorem standing?_pauseEach (t : Timing τ) (ids : List Nat) (id : Nat) :
  (t.pauseEach ids).standing? id
    = if id ∈ ids then (t.standing? id).map fun p => (p.1, p.2.suspended)
      else t.standing? id
  := standing?_foldl pools_pause (g := fun _ p => (p.1, p.2.suspended))
    standing?_pause (fun _ p => by rw [TimerStatus.suspended_suspended]) t ids id

/-- Destroying timers leaves pools alone. -/
theorem pools_destroyEach (t : Timing τ) (ids : List Nat) :
  (t.destroyEach ids).pools = t.pools
  := pools_foldl pools_destroy t ids

/-- Every listed timer is destroyed, and no other one. -/
theorem standing?_destroyEach (t : Timing τ) (ids : List Nat) (id : Nat) :
  (t.destroyEach ids).standing? id
    = if id ∈ ids then (t.standing? id).map fun p => (p.1, .destroyed)
      else t.standing? id
  := standing?_foldl pools_destroy (g := fun _ p => (p.1, .destroyed))
    standing?_destroy (fun _ _ => rfl) t ids id

end Timing

end Statechart
