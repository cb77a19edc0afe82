import Statechart.Timing

/-!
# What timers keep

Whatever happens on a clock, a timer is never taken away, its callback is not exchanged
for another one, and it stays destroyed once it is.  `Timing.Follows` says so of two
readings of a clock, together with where new callbacks come from; every operation on
timers leads to a reading that follows.
-/

namespace Statechart

variable {τ : Type}

/-- What may become of a timer: its callback is kept or dropped; if it is destroyed it
stays so, and when it is destroyed the callback is dropped. -/
structure Timer.Becomes (x y : Timer τ) : Prop where
  callback : y.callback = x.callback ∨ y.callback = none
  destroyed : x.status = .destroyed → y.status = .destroyed
  silent : y.status = .destroyed → x.status = .destroyed ∨ y.callback = none

namespace Timer.Becomes

variable {x y z : Timer τ}

/-- A timer may become itself. -/
theorem refl (x : Timer τ) :
  x.Becomes x
  := ⟨.inl rfl, id, .inl⟩

/-- What a timer may become in two steps it may become in one. -/
theorem trans (hxy : x.Becomes y) (hyz : y.Becomes z) :
  x.Becomes z
  := by
  constructor
  · obtain h | h := hyz.callback
    · rw [h]
      exact hxy.callback
    · exact .inr h
  · intro h
    exact hyz.destroyed (hxy.destroyed h)
  · intro h
    obtain hy | hz := hyz.silent h
    · obtain hx | hy := hxy.silent hy
      · exact .inl hx
      · right
        obtain hz | hz := hyz.callback
        · rw [hz, hy]
        · exact hz
    · exact .inr hz

/-- A callback was there before. -/
theorem callback_eq (h : x.Becomes y) {cb : τ} (hcb : y.callback = some cb) :
  x.callback = some cb
  := by
  obtain hc | hc := h.callback
  · rw [← hc, hcb]
  · rw [hcb] at hc
    cases hc

/-- A timer that is over for good may become one in any status but `destroyed`, or one
that is destroyed and silent. -/
theorem of_status_ne (hc : y.callback = x.callback ∨ y.callback = none)
    (hx : x.status ≠ .destroyed) (hy : y.status = .destroyed → y.callback = none) :
  x.Becomes y
  := ⟨hc, fun h => absurd h hx, fun h => .inr (hy h)⟩

end Timer.Becomes

namespace Timing

/-- A later reading of a clock: timers are kept, the callbacks of new timers satisfy
`P` with the number of the timer, and new tasks satisfy `Q`. -/
structure Follows (P : Nat → τ → Prop) (Q : τ → Prop) (t t' : Timing τ) : Prop where
  next_le : t.timers.next ≤ t'.timers.next
  kept : ∀ {id x}, t.timers.get? id = some x →
    ∃ y, t'.timers.get? id = some y ∧ x.Becomes y
  origin : ∀ {id y}, t'.timers.get? id = some y →
    (∃ x, t.timers.get? id = some x ∧ x.Becomes y)
      ∨ (t.timers.next ≤ id ∧ (y.status = .destroyed → y.callback = none)
          ∧ ∀ cb, y.callback = some cb → P id cb)
  task : ∀ {p cb}, p ∈ t'.scheduler.queue → p.task = .task cb →
    Q cb ∨ ∃ q ∈ t.scheduler.queue, q.task = .task cb

/-- A later reading of a clock, whatever is new in it. -/
abbrev Later (t t' : Timing τ) : Prop :=
  t.Follows (fun _ _ => True) (fun _ => True) t'

/-- Destroyed timers have no callback. -/
def Silent (t : Timing τ) : Prop :=
  ∀ {id x}, t.timers.get? id = some x → x.status = .destroyed → x.callback = none

variable {P P' : Nat → τ → Prop} {Q Q' : τ → Prop} {t t' t'' : Timing τ}

namespace Follows

/-- A reading follows itself, and nothing in it is new. -/
theorem refl (t : Timing τ) :
  Follows P Q t t
  where
  next_le := Nat.le_refl _
  kept h := ⟨_, h, .refl _⟩
  origin h := .inl ⟨_, h, .refl _⟩
  task h hp := .inr ⟨_, h, hp⟩

/-- A reading that follows a later one follows the first one. -/
theorem trans (h : Follows P Q t t') (h' : Follows P Q t' t'') :
  Follows P Q t t''
  where
  next_le := Nat.le_trans h.next_le h'.next_le
  kept hx := by
    obtain ⟨y, hy, hxy⟩ := h.kept hx
    obtain ⟨z, hz, hyz⟩ := h'.kept hy
    exact ⟨z, hz, hxy.trans hyz⟩
  origin hz := by
    obtain ⟨y, hy, hyz⟩ | ⟨hid, hsilent, hnew⟩ := h'.origin hz
    · obtain ⟨x, hx, hxy⟩ | ⟨hid, hsilent, hnew⟩ := h.origin hy
      · exact .inl ⟨x, hx, hxy.trans hyz⟩
      · refine .inr ⟨hid, ?_, fun cb hcb => hnew cb (hyz.callback_eq hcb)⟩
        intro hdestroyed
        obtain hy' | hz' := hyz.silent hdestroyed
        · obtain hc | hc := hyz.callback
          · rw [hc, hsilent hy']
          · exact hc
        · exact hz'
    · exact .inr ⟨Nat.le_trans h.next_le hid, hsilent, hnew⟩
  task hp htask := by
    obtain hq | ⟨q, hq, htask'⟩ := h'.task hp htask
    · exact .inl hq
    · exact h.task hq htask'

/-- What is known of new callbacks and tasks may be weakened. -/
theorem mono (h : Follows P Q t t') (hP : ∀ {id cb}, t.timers.next ≤ id → P id cb → P' id cb)
    (hQ : ∀ {cb}, Q cb → Q' cb) :
  Follows P' Q' t t'
  where
  next_le := h.next_le
  kept := h.kept
  origin hy := by
    obtain hx | ⟨hid, hsilent, hnew⟩ := h.origin hy
    · exact .inl hx
    · exact .inr ⟨hid, hsilent, fun cb hcb => hP hid (hnew cb hcb)⟩
  task hp htask := by
    obtain hq | hq := h.task hp htask
    · exact .inl (hQ hq)
    · exact .inr hq

/-- A reading that follows, with what is known of it forgotten. -/
theorem later (h : Follows P Q t t') :
  t.Later t'
  := h.mono (fun _ _ => trivial) fun _ => trivial

/-- Destroyed timers stay without callbacks. -/
theorem silent (h : Follows P Q t t') (ht : t.Silent) :
  t'.Silent
  := by
  intro id y hy hdestroyed
  obtain ⟨x, hx, hxy⟩ | ⟨-, hsilent, -⟩ := h.origin hy
  · obtain hx' | hy' := hxy.silent hdestroyed
    · obtain hc | hc := hxy.callback
      · rw [hc, ht hx hx']
      · exact hc
    · exact hy'
  · exact hsilent hdestroyed

/-- A timer that is there stays there. -/
theorem exists_status? (h : Follows P Q t t') {id : Nat} {status : TimerStatus}
    (hid : t.status? id = some status) :
  ∃ status', t'.status? id = some status'
  := by
  obtain ⟨x, hx, -⟩ := Option.map_eq_some_iff.mp hid
  obtain ⟨y, hy, -⟩ := h.kept hx
  exact ⟨y.status, by rw [status?, hy, Option.map_some]⟩

/-- A timer that is destroyed stays so. -/
theorem status?_destroyed (h : Follows P Q t t') {id : Nat}
    (hid : t.status? id = some .destroyed) :
  t'.status? id = some .destroyed
  := by
  obtain ⟨x, hx, hstatus⟩ := Option.map_eq_some_iff.mp hid
  obtain ⟨y, hy, hxy⟩ := h.kept hx
  rw [status?, hy, Option.map_some, hxy.destroyed hstatus]

/-- The same timers, and no new tasks. -/
theorem of_timers_eq (htimers : t'.timers = t.timers)
    (hqueue : ∀ p ∈ t'.scheduler.queue, ∀ cb, p.task = .task cb →
      Q cb ∨ ∃ q ∈ t.scheduler.queue, q.task = .task cb) :
  Follows P Q t t'
  where
  next_le := Nat.le_of_eq (congrArg Table.next htimers.symm)
  kept h := by
    rw [htimers]
    exact ⟨_, h, .refl _⟩
  origin h := by
    rw [htimers] at h
    exact .inl ⟨_, h, .refl _⟩
  task {p cb} hp htask := hqueue p hp cb htask

end Follows

/-! ### Parts of operations -/

/-- A timer changes into one that it may become. -/
theorem follows_updateTimer (t : Timing τ) (id : Nat) {f : Timer τ → Timer τ}
    (hf : ∀ x, t.timers.get? id = some x → x.Becomes (f x)) :
  Follows P Q t (t.updateTimer id f)
  where
  next_le := by simp [updateTimer]
  kept {id' x} h := by
    rw [updateTimer, Table.get?_modify]
    split
    · next heq =>
      subst heq
      exact ⟨f x, by rw [h, Option.map_some], hf x h⟩
    · exact ⟨x, h, .refl x⟩
  origin {id' y} h := by
    left
    rw [updateTimer, Table.get?_modify] at h
    split at h
    · next heq =>
      subst heq
      obtain ⟨x, hx, rfl⟩ := Option.map_eq_some_iff.mp h
      exact ⟨x, hx, hf x hx⟩
    · exact ⟨y, h, .refl y⟩
  task h hp := .inr ⟨_, h, hp⟩

/-- A timer that is not destroyed changes, and drops its callback if it is destroyed. -/
theorem follows_updateTimer_of_ne {id : Nat} {x : Timer τ} (hx : t.timers.get? id = some x)
    (hstatus : x.status ≠ .destroyed) {f : Timer τ → Timer τ}
    (hcallback : (f x).callback = x.callback ∨ (f x).callback = none)
    (hsilent : (f x).status = .destroyed → (f x).callback = none) :
  Follows P Q t (t.updateTimer id f)
  := by
  apply follows_updateTimer
  intro y hy
  obtain rfl : x = y := Option.some.inj (hx.symm.trans hy)
  exact .of_status_ne hcallback hstatus hsilent

/-- Other pools and channels, and a smaller queue. -/
theorem follows_of_subset (htimers : t'.timers = t.timers)
    (hqueue : ∀ p ∈ t'.scheduler.queue, p ∈ t.scheduler.queue) :
  Follows P Q t t'
  := .of_timers_eq htimers fun p hp _ htask => .inr ⟨p, hqueue p hp, htask⟩

/-- A task is taken off the clock. -/
theorem follows_cancel (t : Timing τ) (task : Nat) :
  Follows P Q t (t.cancel task).2
  := follows_of_subset rfl fun _ hp => Scheduler.mem_of_mem_cancel hp

/-- The task of a timer, if it has one, is taken off the clock. -/
theorem follows_cancelTask (t : Timing τ) (timer : Timer τ) :
  Follows P Q t (t.cancelTask timer)
  := by
  rw [cancelTask]
  split
  · exact follows_cancel t _
  · exact .refl t

/-- Announcements go to channels and touch no timer. -/
theorem follows_announce (t : Timing τ) (channel : Option Nat) (completion : Completion) :
  Follows P Q t (t.announce channel completion)
  := by
  cases channel <;> exact follows_of_subset rfl fun _ hp => hp

theorem timers_announce (t : Timing τ) (channel : Option Nat) (completion : Completion) :
  (t.announce channel completion).timers = t.timers
  := by
  cases channel <;> rfl

theorem timers_cancelTask (t : Timing τ) (timer : Timer τ) :
  (t.cancelTask timer).timers = t.timers
  := by
  rw [cancelTask]
  split <;> rfl

/-- Closing a channel touches no timer. -/
theorem follows_disconnect (t : Timing τ) (channel : Option Nat) :
  Follows P Q t (t.disconnect channel)
  := by
  cases channel <;> exact follows_of_subset rfl fun _ hp => hp

/-- Whatever becomes of a pool, the timers that it lists stay as they are. -/
theorem follows_updatePool (t : Timing τ) (pool : Nat) (f : TimerPool → TimerPool) :
  Follows P Q t (t.updatePool pool f)
  := follows_of_subset rfl fun _ hp => hp

/-- An operation on one timer after another follows if each of its steps does. -/
theorem follows_foldl {f : Timing τ → Nat → Timing τ} (hf : ∀ t id, Follows P Q t (f t id))
    (t : Timing τ) (ids : List Nat) :
  Follows P Q t (ids.foldl f t)
  := List.foldlRecOn ids f (motive := Follows P Q t) (.refl t) fun _ h id _ => h.trans (hf _ id)

/-! ### Single timers -/

/-- A new timer comes with a new number, and its callback is the given one. -/
theorem follows_newTimer (t : Timing τ) (pool delay : Nat) {callback : Option τ}
    (hP : ∀ cb, callback = some cb → P t.timers.next cb) :
  Follows P Q t (t.newTimer pool delay callback)
  where
  next_le := by simp [newTimer]
  kept {id x} h := by
    have hne : id ≠ t.timers.next := Nat.ne_of_lt (Table.lt_next_of_get? h)
    refine ⟨x, ?_, .refl x⟩
    rw [newTimer, Table.get?_add, if_neg hne]
    exact h
  origin {id y} h := by
    rw [newTimer, Table.get?_add] at h
    split at h
    · next heq =>
      obtain rfl := Option.some.inj h
      exact .inr ⟨Nat.le_of_eq heq.symm, by simp, fun cb hcb => heq ▸ hP cb hcb⟩
    · exact .inl ⟨y, h, .refl y⟩
  task h hp := .inr ⟨_, h, hp⟩

/-- A started timer keeps its callback, and its task is no code of the host. -/
theorem follows_start (t : Timing τ) (id : Nat) :
  Follows P Q t (t.start id).2
  := by
  rw [start]
  cases hx : t.timers.get? id with
  | none => exact .refl t
  | some timer =>
    simp only
    split
    · next hstart =>
      have hstatus : timer.status ≠ .destroyed := by
        intro h
        simp [canStart, h] at hstart
      let queued : Timing τ :=
        { t with scheduler := t.scheduler.schedule timer.remaining (.timer id) }
      have hqueued : Follows P Q t queued := by
        refine Follows.of_timers_eq (by rfl) ?_
        intro p hp cb htask
        obtain rfl | hp := (Scheduler.mem_enqueue _ _ _).mp hp
        · cases htask
        · exact .inr ⟨p, hp, htask⟩
      apply hqueued.trans
      exact follows_updateTimer_of_ne (t := queued) hx hstatus (.inl rfl) (by simp)
    · exact .refl t

/-- A paused timer keeps its callback. -/
theorem follows_pause (t : Timing τ) (id : Nat) :
  Follows P Q t (t.pause id)
  := by
  rw [pause]
  cases hx : t.timers.get? id with
  | none => exact .refl t
  | some timer =>
    simp only
    split
    · next hstatus =>
      have hx' : (t.cancelTask timer).timers.get? id = some timer := by
        rw [timers_cancelTask, hx]
      apply (follows_cancelTask t timer).trans
      exact follows_updateTimer_of_ne hx' (by simp [hstatus]) (.inl rfl) (by simp)
    · exact .refl t

/-- A destroyed timer loses its callback. -/
theorem follows_destroy (t : Timing τ) (id : Nat) :
  Follows P Q t (t.destroy id)
  := by
  rw [destroy]
  cases t.timers.get? id with
  | none => exact .refl t
  | some timer =>
    simp only
    split
    · exact .refl t
    · apply (follows_cancelTask t timer).trans
      apply Follows.trans _ (follows_announce _ _ _)
      apply follows_updateTimer
      intro x _
      exact ⟨.inr rfl, fun _ => rfl, fun _ => .inr rfl⟩

/-- A timer that is restarted keeps its callback. -/
theorem follows_restart (t : Timing τ) (id : Nat) :
  Follows P Q t (t.restart id).2
  := by
  rw [restart]
  split
  · exact follows_pause t id
  · apply (follows_pause t id).trans
    apply Follows.trans _ (follows_start _ id)
    apply follows_updateTimer
    intro x _
    exact ⟨.inl rfl, fun h => h, fun h => .inl h⟩

/-- A timer whose completion is asked for keeps its callback. -/
theorem follows_completion (t : Timing τ) (id : Nat) :
  Follows P Q t (t.completion id).2
  := by
  rw [completion]
  cases t.timers.get? id with
  | none => exact .refl t
  | some timer =>
    simp only
    split
    · exact .refl t
    · exact .refl t
    · apply Follows.trans _ (follows_start _ id)
      apply (follows_disconnect t timer.channel).trans
      have hopen : Follows P Q (t.disconnect timer.channel)
          (t.disconnect timer.channel).openChannel := follows_of_subset rfl fun _ hp => hp
      apply hopen.trans
      apply follows_updateTimer
      intro x _
      exact ⟨.inl rfl, fun h => h, fun h => .inl h⟩

/-- A timer that fires gives its callback away. -/
theorem follows_fire (t : Timing τ) (id : Nat) :
  Follows P Q t (t.fire id).2
  := by
  rw [fire]
  cases hx : t.timers.get? id with
  | none => exact .refl t
  | some timer =>
    simp only
    split
    · next hstatus =>
      exact follows_updateTimer_of_ne hx (by simp [hstatus]) (.inr rfl) (by simp)
    · exact .refl t

/-- The callback that a timer gives when it fires is its own. -/
theorem fire_eq_some {id : Nat} {callback : Option τ} {channel : Option Nat}
    (h : (t.fire id).1 = some (callback, channel)) :
  ∃ x, t.timers.get? id = some x ∧ x.status = .running ∧ x.callback = callback
  := by
  rw [fire] at h
  cases hx : t.timers.get? id with
  | none => simp [hx] at h
  | some timer =>
    simp only [hx] at h
    split at h
    · next hstatus =>
      obtain ⟨rfl, -⟩ := Prod.mk.inj (Option.some.inj h)
      exact ⟨timer, rfl, hstatus, rfl⟩
    · cases h

/-! ### Other timers -/

/-- To destroy a timer is to change this timer, if anything. -/
theorem timers_destroy (t : Timing τ) (id : Nat) :
  (t.destroy id).timers = t.timers ∨ ∃ f, (t.destroy id).timers = t.timers.modify id f
  := by
  rw [destroy]
  cases t.timers.get? id with
  | none => exact .inl rfl
  | some timer =>
    simp only
    split
    · exact .inl rfl
    · rw [timers_announce, updateTimer, timers_cancelTask]
      exact .inr ⟨_, rfl⟩

/-- Destroying a timer leaves every other one. -/
theorem get?_destroy_of_ne (t : Timing τ) {id id' : Nat} (h : id ≠ id') :
  (t.destroy id).timers.get? id' = t.timers.get? id'
  := by
  obtain hsame | ⟨f, hchanged⟩ := t.timers_destroy id
  · rw [hsame]
  · rw [hchanged, Table.get?_modify, if_neg h]

/-- Destroying a timer makes none. -/
theorem next_destroy (t : Timing τ) (id : Nat) :
  (t.destroy id).timers.next = t.timers.next
  := by
  obtain hsame | ⟨f, hchanged⟩ := t.timers_destroy id
  · rw [hsame]
  · rw [hchanged, Table.next_modify]

/-- Timers that are not listed are not destroyed. -/
theorem get?_destroyEach_of_notMem (t : Timing τ) {ids : List Nat} {id : Nat}
    (h : id ∉ ids) :
  (t.destroyEach ids).timers.get? id = t.timers.get? id
  := by
  induction ids generalizing t with
  | nil => rfl
  | cons id' rest ih =>
    rw [List.mem_cons, not_or] at h
    calc ((t.destroy id').destroyEach rest).timers.get? id
        = (t.destroy id').timers.get? id := ih _ h.2
      _ = t.timers.get? id := get?_destroy_of_ne t (Ne.symm h.1)

/-- A timer that is made and started has the callback it was given; all other timers are
as before. -/
theorem get?_start_newTimer (t : Timing τ) (pool delay : Nat) (callback : Option τ)
    (id : Nat) :
  (id = t.timers.next ∧ ∃ y,
      (((t.newTimer pool delay callback).start t.timers.next).2).timers.get? id = some y
        ∧ y.callback = callback)
    ∨ (id ≠ t.timers.next
      ∧ (((t.newTimer pool delay callback).start t.timers.next).2).timers.get? id
        = t.timers.get? id)
  := by
  have hmade : (t.newTimer pool delay callback).timers.get? t.timers.next
      = some ⟨pool, delay, delay, 0, none, none, .idle, callback, none⟩ := by
    rw [newTimer, Table.get?_add, if_pos rfl]
  have hother : ∀ id, id ≠ t.timers.next →
      (t.newTimer pool delay callback).timers.get? id = t.timers.get? id := by
    intro id hid
    rw [newTimer, Table.get?_add, if_neg hid]
  rw [start, hmade]
  simp only
  by_cases hid : id = t.timers.next
  · subst hid
    left
    refine ⟨rfl, ?_⟩
    split
    · have hstarted := fun f =>
        Table.get?_modify (t.newTimer pool delay callback).timers t.timers.next
          t.timers.next f
      simp only [if_true, hmade, Option.map_some] at hstarted
      exact ⟨_, hstarted _, rfl⟩
    · exact ⟨_, hmade, rfl⟩
  · right
    refine ⟨hid, ?_⟩
    split
    · rw [Table.get?_modify, if_neg (Ne.symm hid), hother id hid]
    · exact hother id hid

/-! ### Several timers -/

theorem follows_destroyEach (t : Timing τ) (ids : List Nat) :
  Follows P Q t (t.destroyEach ids)
  := follows_foldl follows_destroy t ids

theorem follows_startEach (t : Timing τ) (ids : List Nat) :
  Follows P Q t (t.startEach ids)
  := follows_foldl follows_start t ids

theorem follows_pauseEach (t : Timing τ) (ids : List Nat) :
  Follows P Q t (t.pauseEach ids)
  := follows_foldl follows_pause t ids

/-- A pause of a pool keeps the callbacks of its timers. -/
theorem follows_pauseAll (t : Timing τ) (pool : Nat) :
  Follows P Q t (t.pauseAll pool)
  := (follows_updatePool t pool _).trans (follows_pauseEach _ _)

/-- A start of a pool keeps the callbacks of its timers. -/
theorem follows_startAll (t : Timing τ) (pool : Nat) :
  Follows P Q t (t.startAll pool)
  := (follows_updatePool t pool _).trans (follows_startEach _ _)

/-- Timers on standby keep their callbacks. -/
theorem follows_standby (t : Timing τ) (pool : Nat) :
  Follows P Q t (t.standby pool)
  := by
  rw [standby]
  simp only
  split
  · exact follows_updatePool t pool _
  · apply (follows_updatePool t pool _).trans
    apply (follows_pauseEach _ _).trans
    exact follows_updatePool _ pool _

/-- Timers that are woken keep their callbacks. -/
theorem follows_wake (t : Timing τ) (pool : Nat) :
  Follows P Q t (t.wake pool)
  := (follows_updatePool t pool _).trans (follows_startEach _ _)

/-- What a pool lists is destroyed and loses its callbacks; other timers are kept. -/
theorem follows_destroyAll (t : Timing τ) (pool : Nat) :
  Follows P Q t (t.destroyAll pool)
  := (follows_updatePool t pool _).trans (follows_destroyEach _ _)

/-- A timer that is destroyed is destroyed. -/
theorem status?_destroy (t : Timing τ) {id : Nat} {status : TimerStatus}
    (h : t.status? id = some status) :
  (t.destroy id).status? id = some .destroyed
  := by
  obtain ⟨x, hx, -⟩ := Option.map_eq_some_iff.mp h
  rw [destroy, hx]
  simp only
  split
  · next hstatus => rw [status?, hx, Option.map_some, hstatus]
  · rw [status?, timers_announce, updateTimer, Table.get?_modify, if_pos rfl,
      timers_cancelTask, hx]
    rfl

/-- Each of the timers that are destroyed one after another is destroyed. -/
theorem status?_destroyEach (t : Timing τ) {ids : List Nat} {id : Nat} (hid : id ∈ ids)
    {status : TimerStatus} (h : t.status? id = some status) :
  (t.destroyEach ids).status? id = some .destroyed
  := by
  induction ids generalizing t status with
  | nil => cases hid
  | cons id' rest ih =>
    obtain rfl | hid := List.mem_cons.mp hid
    · have hlater : (t.destroy id).Later ((t.destroy id).destroyEach rest) :=
        follows_destroyEach _ _
      exact hlater.status?_destroyed (status?_destroy t h)
    · have hlater : t.Later (t.destroy id') := follows_destroy t id'
      obtain ⟨status', hstatus'⟩ := hlater.exists_status? h
      exact ih (t.destroy id') hid hstatus'

/-! ### The clock -/

/-- A task of the host is put on the clock. -/
theorem follows_schedule (t : Timing τ) (delay : Nat) {code : τ} (hQ : Q code) :
  Follows P Q t (t.schedule delay code)
  := by
  refine Follows.of_timers_eq (by rfl) ?_
  intro p hp cb htask
  obtain rfl | hp := (Scheduler.mem_enqueue _ _ _).mp hp
  · obtain rfl := Job.task.inj htask
    exact .inl hQ
  · exact .inr ⟨p, hp, htask⟩

theorem follows_receive (t : Timing τ) (channel : Nat) :
  Follows P Q t (t.receive channel).2
  := by
  rw [receive]
  split
  · exact .refl t
  · split
    · exact follows_of_subset rfl fun _ hp => hp
    · exact .refl t

/-- A task that falls due was waiting, and no other one comes in its place. -/
theorem follows_takeDue (t : Timing τ) {target : Nat} {p : Pending (Job τ)}
    {scheduler : Scheduler (Job τ)} (h : t.scheduler.takeDue target = some (p, scheduler)) :
  p ∈ t.scheduler.queue ∧ Follows P Q t { t with scheduler := scheduler }
  := by
  rw [Scheduler.takeDue] at h
  cases hqueue : t.scheduler.queue with
  | nil => simp [hqueue] at h
  | cons q rest =>
    simp only [hqueue] at h
    split at h
    · obtain ⟨rfl, rfl⟩ := Prod.mk.inj (Option.some.inj h)
      constructor
      · exact List.mem_cons_self
      · refine follows_of_subset (by rfl) ?_
        intro p' hp'
        rw [hqueue]
        exact List.mem_cons_of_mem _ hp'
    · cases h

end Timing

end Statechart
