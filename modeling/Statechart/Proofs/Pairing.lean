import Mathlib.Data.List.Forall2
import Statechart.Proofs.Accuracy
import Statechart.Proofs.Standing

/-!
# Two clocks

Two clocks are alike if timers of the one are paired with timers of the other: paired
timers are in the same state, and their tasks are in both queues in the same order and due
at the same times.  The clock on the left may have other timers, the one on the right has
no other tasks.  Clocks stay alike when both do the same to paired timers, and when the one
on the left does something to its other timers.
-/

namespace Statechart

variable {τ : Type}

/-! ### Queues -/

/-- The tasks of paired timers are in both queues in the same order and due at the same
times; in the left queue there are tasks of other timers between them. -/
inductive Queued (T : List (Nat × Nat)) :
    List (Pending (Job τ)) → List (Pending (Job τ)) → Prop where
  | nil : Queued T [] []
  | both {p q : Pending (Job τ)} {ps qs : List (Pending (Job τ))} {e : Nat × Nat} :
    e ∈ T → p.task = .timer e.1 → q.task = .timer e.2 → p.due = q.due → Queued T ps qs →
      Queued T (p :: ps) (q :: qs)
  | skip {p : Pending (Job τ)} {ps qs : List (Pending (Job τ))} {id : Nat} :
    p.task = .timer id → (∀ e ∈ T, e.1 ≠ id) → Queued T ps qs → Queued T (p :: ps) qs

namespace Queued

variable {T : List (Nat × Nat)} {p q : Pending (Job τ)} {ps qs : List (Pending (Job τ))}

/-- A task on the right has its task on the left. -/
theorem exists_left (h : Queued T ps qs) (hq : q ∈ qs) :
  ∃ p ∈ ps, p.due = q.due
  := by
  induction h with
  | nil => cases hq
  | both _ _ _ hdue _ ih =>
    obtain rfl | hq := List.mem_cons.mp hq
    · exact ⟨_, List.mem_cons_self, hdue⟩
    · obtain ⟨p, hp, hpq⟩ := ih hq
      exact ⟨p, List.mem_cons_of_mem _ hp, hpq⟩
  | skip _ _ _ ih =>
    obtain ⟨p, hp, hpq⟩ := ih hq
    exact ⟨p, List.mem_cons_of_mem _ hp, hpq⟩

/-- Tasks are taken out of both queues, the same ones of paired timers. -/
theorem filter (h : Queued T ps qs) {f g : Pending (Job τ) → Bool}
    (hfg : ∀ e ∈ T, ∀ p q : Pending (Job τ), p.task = .timer e.1 → q.task = .timer e.2 →
      f p = g q) :
  Queued T (ps.filter f) (qs.filter g)
  := by
  induction h with
  | nil => exact .nil
  | @both p q ps qs e he hp hq hdue _ ih =>
    rw [List.filter_cons, List.filter_cons, hfg e he p q hp hq]
    split
    · exact .both he hp hq hdue ih
    · exact ih
  | @skip p ps qs id hp hid _ ih =>
    rw [List.filter_cons]
    split
    · exact .skip hp hid ih
    · exact ih

/-- More timers are paired, none of them with a task in the queue. -/
theorem mono (h : Queued T ps qs) {T' : List (Nat × Nat)} (hT : T ⊆ T')
    (hnew : ∀ e ∈ T', e ∈ T ∨ ∀ p ∈ ps, p.task ≠ .timer e.1) :
  Queued T' ps qs
  := by
  induction h with
  | nil => exact .nil
  | both he hp hq hdue _ ih =>
    refine .both (hT he) hp hq hdue (ih fun e he' => ?_)
    exact (hnew e he').imp_right fun hnot p hmem => hnot p (List.mem_cons_of_mem _ hmem)
  | skip hp hid _ ih =>
    refine .skip hp (fun e he' => ?_) (ih fun e he' => ?_)
    · rintro rfl
      obtain he | hnot := hnew e he'
      · exact hid e he rfl
      · exact hnot _ List.mem_cons_self hp
    · exact (hnew e he').imp_right fun hnot p hmem => hnot p (List.mem_cons_of_mem _ hmem)

/-- A task of another timer is put into the left queue. -/
theorem enqueue_left (h : Queued T ps qs) {id : Nat} (hp : p.task = .timer id)
    (hid : ∀ e ∈ T, e.1 ≠ id) :
  Queued T (Scheduler.enqueue p ps) qs
  := by
  induction h with
  | nil => exact .skip hp hid .nil
  | both he hp' hq hdue hrest ih =>
    rw [Scheduler.enqueue]
    split
    · exact .both he hp' hq hdue ih
    · exact .skip hp hid (.both he hp' hq hdue hrest)
  | skip hp' hid' hrest ih =>
    rw [Scheduler.enqueue]
    split
    · exact .skip hp' hid' ih
    · exact .skip hp hid (.skip hp' hid' hrest)

/-- Tasks of two paired timers are put into the queues, due at the same time and numbered
after all others. -/
theorem enqueue (h : Queued T ps qs) {e : Nat × Nat} (he : e ∈ T) (hp : p.task = .timer e.1)
    (hq : q.task = .timer e.2) (hdue : p.due = q.due) (hsorted : ps.Pairwise Pending.Before)
    (hps : ∀ p' ∈ ps, p'.id < p.id) (hqs : ∀ q' ∈ qs, q'.id < q.id) :
  Queued T (Scheduler.enqueue p ps) (Scheduler.enqueue q qs)
  := by
  induction h with
  | nil => exact .both he hp hq hdue .nil
  | @both p' q' ps qs e' he' hp' hq' hdue' hrest ih =>
    obtain ⟨-, hsorted⟩ := List.pairwise_cons.mp hsorted
    have hlt := hps p' List.mem_cons_self
    have hlt' := hqs q' List.mem_cons_self
    have hbefore : p'.Before p ↔ q'.Before q := by
      rw [Pending.Before, Pending.Before, hdue, hdue', and_iff_left hlt, and_iff_left hlt']
    rw [Scheduler.enqueue, Scheduler.enqueue]
    by_cases hb : p'.Before p
    · rw [if_pos hb, if_pos (hbefore.mp hb)]
      refine .both he' hp' hq' hdue' (ih hsorted ?_ ?_)
      · exact fun p'' h'' => hps p'' (List.mem_cons_of_mem _ h'')
      · exact fun q'' h'' => hqs q'' (List.mem_cons_of_mem _ h'')
    · rw [if_neg hb, if_neg (mt hbefore.mpr hb)]
      exact .both he hp hq hdue (.both he' hp' hq' hdue' hrest)
  | @skip p' ps qs id hp' hid hrest ih =>
    obtain ⟨hfirst, hsorted⟩ := List.pairwise_cons.mp hsorted
    have hlt := hps p' List.mem_cons_self
    rw [Scheduler.enqueue]
    split
    · refine .skip hp' hid (ih hsorted ?_ hqs)
      exact fun p'' h'' => hps p'' (List.mem_cons_of_mem _ h'')
    · next hnot =>
      -- The new task comes first on the left, and so on the right: all that is there is later.
      have hlater : ∀ q' ∈ qs, q.due < q'.due := by
        intro q' hq'
        obtain ⟨p'', hp'', hdue''⟩ := hrest.exists_left hq'
        obtain hb | ⟨hb, -⟩ := hfirst p'' hp'' <;> simp only [Pending.Before] at hnot <;> omega
      have hfront : Scheduler.enqueue q qs = q :: qs := by
        cases qs with
        | nil => rfl
        | cons q' qs =>
          rw [Scheduler.enqueue, if_neg]
          have := hlater q' List.mem_cons_self
          simp only [Pending.Before]
          omega
      rw [hfront]
      exact .both he hp hq hdue (.skip hp' hid hrest)

end Queued

/-! ### Timers made and started at once -/

namespace Timing

variable {t t' u u' : Timing τ}

/-- Makes a timer and starts it; its number is `t.timers.next`. -/
def arm (t : Timing τ) (pool delay : Nat) (callback : τ) : Timing τ :=
  ((t.newTimer pool delay (some callback)).start t.timers.next).2

/-- None of the pools is paused. -/
def Awake (t : Timing τ) : Prop := ∀ pool, t.isPaused pool = false

/-- The clock has no timers and nothing to do, and no pool is paused. -/
structure Blank (t : Timing τ) : Prop where
  timers : ∀ id, t.timers.get? id = none
  queue : t.scheduler.queue = []
  awake : t.Awake

theorem Blank.accurate (h : t.Blank) (hordered : t.scheduler.Ordered) :
  t.Accurate
  := by
  refine ⟨hordered, ?_, ?_⟩
  · intro id x hx
    rw [h.timers id] at hx
    cases hx
  · intro p hp
    rw [h.queue] at hp
    cases hp

theorem Awake.congr (h : t.Awake) (hpools : t'.pools = t.pools) :
  t'.Awake
  := fun pool => (isPaused_congr hpools pool).trans (h pool)

theorem now_arm (t : Timing τ) (pool delay : Nat) (callback : τ) :
  (t.arm pool delay callback).now = t.now
  := by
  rw [arm, start]
  split
  · rfl
  · split <;> rfl

theorem next_arm (t : Timing τ) (pool delay : Nat) (callback : τ) :
  (t.arm pool delay callback).timers.next = t.timers.next + 1
  := by
  have hmade : (t.newTimer pool delay (some callback)).timers.next = t.timers.next + 1 :=
    Table.next_add _ _
  rw [arm, start]
  split
  · exact hmade
  · split
    · exact (Table.next_modify _ _ _).trans hmade
    · exact hmade

theorem isPaused_arm (t : Timing τ) (pool delay : Nat) (callback : τ) (pool' : Nat) :
  (t.arm pool delay callback).isPaused pool' = t.isPaused pool'
  := (isPaused_congr (pools_start _ _) pool').trans (isPaused_newTimer _ _ _ _ _)

theorem Awake.arm (h : t.Awake) (pool delay : Nat) (callback : τ) :
  (t.arm pool delay callback).Awake
  := fun pool' => (isPaused_arm t pool delay callback pool').trans (h pool')

/-- The timer is made running. -/
theorem arm_eq (h : t.isPaused pool = false) (delay : Nat) (callback : τ) :
  (t.arm pool delay callback).scheduler = t.scheduler.schedule delay (.timer t.timers.next)
    ∧ ∀ id, (t.arm pool delay callback).timers.get? id
      = if id = t.timers.next then
          some ⟨pool, delay, delay, 0, some t.now, some t.scheduler.nextId, .running,
            some callback, none⟩
        else t.timers.get? id
  := by
  let idle : Timer τ := ⟨pool, delay, delay, 0, none, none, .idle, some callback, none⟩
  have hmade : (t.newTimer pool delay (some callback)).timers = t.timers.add idle := rfl
  have hidle : (t.newTimer pool delay (some callback)).timers.get? t.timers.next = some idle := by
    rw [hmade, Table.get?_add, if_pos rfl]
  have hstart : (t.newTimer pool delay (some callback)).canStart idle = true := by
    rw [canStart, isPaused_newTimer, h]
    rfl
  rw [arm, start, hidle]
  simp only [hstart, if_true]
  refine ⟨rfl, fun id => ?_⟩
  rw [get?_modify_timer hidle, hmade, Table.get?_add]
  split
  · next hid =>
    rw [if_pos hid.symm]
    rfl
  · next hid => rw [if_neg (Ne.symm hid), if_neg (Ne.symm hid)]

/-- The timer is made, and not started. -/
theorem arm_eq_newTimer (h : t.isPaused pool = true) (delay : Nat) (callback : τ) :
  t.arm pool delay callback = t.newTimer pool delay (some callback)
  := by
  rw [arm, start]
  split
  · rfl
  · next x hx =>
    simp only [Timing.newTimer, Table.get?_add, if_true, Option.some.injEq] at hx
    have hcan : (t.newTimer pool delay (some callback)).canStart x = false := by
      rw [canStart, isPaused_newTimer, ← hx, h]
      rfl
    rw [if_neg (Bool.eq_false_iff.mp hcan)]

theorem Accurate.arm (h : t.Accurate) (pool delay : Nat) (callback : τ) :
  (t.arm pool delay callback).Accurate
  := ((h.newTimer pool delay (some callback)).1.start _).1

/-! ### Timers destroyed -/

/-- With a timer its task goes, and no other. -/
theorem Accurate.queue_destroy (h : t.Accurate) (id : Nat) :
  (t.destroy id).scheduler.queue
    = t.scheduler.queue.filter fun p => p.task.timer? ≠ some id
  := by
  have hkept : (∀ p ∈ t.scheduler.queue, p.task ≠ .timer id) →
      t.scheduler.queue = t.scheduler.queue.filter fun p => p.task.timer? ≠ some id := by
    intro hnone
    symm
    apply List.filter_eq_self.mpr
    intro p hp
    simpa [Job.timer?_eq_some_iff] using hnone p hp
  rw [Timing.destroy]
  split
  · next hx =>
    apply hkept
    intro p hp htask
    obtain ⟨x, hx', -⟩ := h.task p hp id htask
    rw [hx] at hx'
    cases hx'
  · next x hx =>
    split
    · next hdestroyed =>
      apply hkept
      intro p hp htask
      obtain ⟨y, hy, hrunning, -⟩ := h.task p hp id htask
      obtain rfl := Option.some.inj (hx.symm.trans hy)
      rw [hdestroyed] at hrunning
      cases hrunning
    · rw [scheduler_announce]
      change (t.cancelTask x).scheduler.queue = _
      have hmem := h.mem_cancelTask hx
      rw [cancelTask] at hmem ⊢
      split
      · next task htask =>
        rw [htask] at hmem
        simp only [Scheduler.cancel] at hmem ⊢
        split
        · next due hdue =>
          simp only [hdue, List.mem_filter, and_congr_right_iff] at hmem
          apply List.filter_congr
          intro p hp
          rw [Bool.eq_iff_iff, hmem p hp, decide_eq_true_eq, ne_eq, ne_eq,
            Job.timer?_eq_some_iff]
        · next hnone =>
          simp only [hnone] at hmem
          exact hkept fun p hp => ((hmem p).mp hp).2
      · next hnone =>
        rw [hnone] at hmem
        exact hkept fun p hp => ((hmem p).mp hp).2

/-- What is left of a timer that is destroyed. -/
theorem Accurate.exists_get?_destroy (h : t.Accurate) {id : Nat} {x : Timer τ}
    (hx : t.timers.get? id = some x) :
  ∃ y, (t.destroy id).timers.get? id = some y ∧ y.remaining = x.remaining
    ∧ y.startedAt = none ∧ y.status = .destroyed ∧ y.callback = none
  := by
  rw [Timing.destroy, hx]
  simp only
  split
  · next hdestroyed =>
    have hstep := h.timer id x hx
    refine ⟨x, hx, rfl, (hstep.resting (by simp [hdestroyed])).1, hdestroyed, ?_⟩
    exact hstep.silent (by rw [hdestroyed]; rfl)
  · rw [timers_announce, updateTimer, timers_cancelTask]
    refine ⟨_, (get?_modify_timer hx _ id).trans (if_pos rfl), rfl, rfl, rfl, rfl⟩

end Timing

/-! ### Clocks -/

/-- Timers in the same state, with callbacks that are related. -/
structure Timer.Alike (R : τ → τ → Prop) (x y : Timer τ) : Prop where
  remaining : x.remaining = y.remaining
  startedAt : x.startedAt = y.startedAt
  status : x.status = y.status
  callback : Option.Rel R x.callback y.callback

/-- Timers that are over. -/
theorem Timer.Alike.of_over {R : τ → τ → Prop} {x y : Timer τ}
    (hremaining : x.remaining = y.remaining) (hx : x.startedAt = none ∧ x.callback = none)
    (hy : y.startedAt = none ∧ y.callback = none) (hstatus : x.status = y.status) :
  x.Alike R y
  where
  remaining := hremaining
  startedAt := hx.1.trans hy.1.symm
  status := hstatus
  callback := by
    rw [hx.2, hy.2]
    exact .none

namespace Timing

/-- Two clocks are alike in the timers that `T` pairs.  Callbacks of paired timers are
related by `R`; those of the other timers on the left have the property `F`. -/
structure Alike (R : τ → τ → Prop) (F : τ → Prop) (T : List (Nat × Nat)) (t u : Timing τ) :
    Prop where
  left : t.Accurate
  right : u.Accurate
  awake : t.Awake
  awake' : u.Awake
  pair : ∀ e ∈ T, ∃ x y, t.timers.get? e.1 = some x ∧ u.timers.get? e.2 = some y ∧ x.Alike R y
  matched : ∀ e ∈ T, ∀ e' ∈ T, e.1 = e'.1 ↔ e.2 = e'.2
  other : ∀ id x cb, t.timers.get? id = some x → (∀ e ∈ T, e.1 ≠ id) → x.callback = some cb →
    F cb
  queue : Queued T t.scheduler.queue u.scheduler.queue

namespace Alike

variable {t t' u u' : Timing τ} {R R' : τ → τ → Prop} {F F' : τ → Prop} {T : List (Nat × Nat)}
  {e : Nat × Nat}
  {id pool pool' delay target : Nat} {cb cb' : τ}

/-- The same holds of callbacks in another view. -/
theorem imp (h : Alike R F T t u) (hR : ∀ cb cb', R cb cb' → R' cb cb')
    (hF : ∀ id x cb, t.timers.get? id = some x → (∀ e ∈ T, e.1 ≠ id) → x.callback = some cb →
      F cb → F' cb) :
  Alike R' F' T t u
  := by
  refine { h with pair := ?_, other := ?_ }
  · intro e he
    obtain ⟨x, y, hx, hy, hxy⟩ := h.pair e he
    refine ⟨x, y, hx, hy, { hxy with callback := ?_ }⟩
    have hcallback := hxy.callback
    generalize x.callback = a, y.callback = b at hcallback
    cases hcallback with
    | some hcb => exact .some (hR _ _ hcb)
    | none => exact .none
  · exact fun id x cb hx hid hcb => hF id x cb hx hid hcb (h.other id x cb hx hid hcb)

/-- The channels do not matter. -/
theorem frame (h : Alike R F T t u) (t' u' : Timing τ)
    (ht : t'.scheduler = t.scheduler ∧ t'.timers = t.timers ∧ t'.pools = t.pools)
    (hu : u'.scheduler = u.scheduler ∧ u'.timers = u.timers ∧ u'.pools = u.pools) :
  Alike R F T t' u'
  where
  left := (h.left.frame ht.1 ht.2.1).1
  right := (h.right.frame hu.1 hu.2.1).1
  awake := h.awake.congr ht.2.2
  awake' := h.awake'.congr hu.2.2
  pair := by
    rw [ht.2.1, hu.2.1]
    exact h.pair
  matched := h.matched
  other := by
    rw [ht.2.1]
    exact h.other
  queue := by
    rw [ht.1, hu.1]
    exact h.queue

/-- A pair is known by either of its numbers. -/
theorem eq_of_left (h : Alike R F T t u) {e' : Nat × Nat} (he : e ∈ T) (he' : e' ∈ T)
    (heq : e.1 = e'.1) :
  e = e'
  := Prod.ext heq ((h.matched e he e' he').mp heq)

theorem eq_of_right (h : Alike R F T t u) {e' : Nat × Nat} (he : e ∈ T) (he' : e' ∈ T)
    (heq : e.2 = e'.2) :
  e = e'
  := Prod.ext ((h.matched e he e' he').mpr heq) heq

theorem lt_next (h : Alike R F T t u) (he : e ∈ T) :
  e.1 < t.timers.next ∧ e.2 < u.timers.next
  := by
  obtain ⟨x, y, hx, hy, -⟩ := h.pair e he
  exact ⟨Table.lt_next_of_get? hx, Table.lt_next_of_get? hy⟩

/-- Paired timers are destroyed. -/
theorem destroy (h : Alike R F T t u) (he : e ∈ T) :
  Alike R F T (t.destroy e.1) (u.destroy e.2)
  where
  left := (h.left.destroy e.1).1
  right := (h.right.destroy e.2).1
  awake := h.awake.congr (pools_destroy t e.1)
  awake' := h.awake'.congr (pools_destroy u e.2)
  pair e' he' := by
    obtain ⟨x, y, hx, hy, hxy⟩ := h.pair e' he'
    by_cases heq : e = e'
    · subst heq
      obtain ⟨x', hx', hremaining, hstart, hstatus, hcb⟩ := h.left.exists_get?_destroy hx
      obtain ⟨y', hy', hremaining', hstart', hstatus', hcb'⟩ := h.right.exists_get?_destroy hy
      refine ⟨x', y', hx', hy', .of_over ?_ ⟨hstart, hcb⟩ ⟨hstart', hcb'⟩ ?_⟩
      · rw [hremaining, hremaining', hxy.remaining]
      · rw [hstatus, hstatus']
    · refine ⟨x, y, ?_, ?_, hxy⟩
      · rw [get?_destroy_of_ne t fun hid => heq (h.eq_of_left he he' hid), hx]
      · rw [get?_destroy_of_ne u fun hid => heq (h.eq_of_right he he' hid), hy]
  matched := h.matched
  other id x cb hx hid hcb := by
    rw [get?_destroy_of_ne t (hid e he)] at hx
    exact h.other id x cb hx hid hcb
  queue := by
    rw [h.left.queue_destroy, h.right.queue_destroy]
    apply h.queue.filter
    intro e' he' p q hp hq
    simp only [hp, hq, Job.timer?, ne_eq, Option.some.injEq, decide_not]
    rw [decide_eq_decide.mpr (h.matched e' he' e he)]

/-- A timer on the left is destroyed that is not paired. -/
theorem destroy_left (h : Alike R F T t u) (hid : ∀ e ∈ T, e.1 ≠ id) :
  Alike R F T (t.destroy id) u
  where
  left := (h.left.destroy id).1
  right := h.right
  awake := h.awake.congr (pools_destroy t id)
  awake' := h.awake'
  pair e he := by
    obtain ⟨x, y, hx, hy, hxy⟩ := h.pair e he
    exact ⟨x, y, (get?_destroy_of_ne t (hid e he).symm).trans hx, hy, hxy⟩
  matched := h.matched
  other id' x cb hx hid' hcb := by
    by_cases heq : id = id'
    · subst heq
      cases hold : t.timers.get? id with
      | none =>
        rw [Timing.destroy, hold, hold] at hx
        cases hx
      | some z =>
        obtain ⟨y, hy, -, -, -, hnone⟩ := h.left.exists_get?_destroy hold
        obtain rfl := Option.some.inj (hx.symm.trans hy)
        rw [hnone] at hcb
        cases hcb
    · rw [get?_destroy_of_ne t heq] at hx
      exact h.other id' x cb hx hid' hcb
  queue := by
    rw [h.left.queue_destroy, ← List.filter_true u.scheduler.queue]
    apply h.queue.filter
    intro e he p q hp _
    simpa [hp, Job.timer?] using hid e he

/-- Paired timers are destroyed one after another. -/
theorem destroyEach {ids ids' : List Nat} (h : Alike R F T t u)
    (hids : List.Forall₂ (fun id id' => (id, id') ∈ T) ids ids') :
  Alike R F T (t.destroyEach ids) (u.destroyEach ids')
  := by
  induction hids generalizing t u with
  | nil => exact h
  | cons he _ ih => exact ih (h.destroy he)

theorem destroyEach_left {ids : List Nat} (h : Alike R F T t u)
    (hids : ∀ id ∈ ids, ∀ e ∈ T, e.1 ≠ id) :
  Alike R F T (t.destroyEach ids) u
  := by
  induction ids generalizing t with
  | nil => exact h
  | cons id ids ih =>
    apply ih (h.destroy_left (hids id List.mem_cons_self))
    exact fun id' hid' => hids id' (List.mem_cons_of_mem _ hid')

/-- A task in the queue is not that of a timer that is still to be made. -/
theorem ne_next (h : t.Accurate) {p : Pending (Job τ)} (hp : p ∈ t.scheduler.queue) :
  p.task ≠ .timer t.timers.next
  := by
  intro htask
  obtain ⟨x, hx, -⟩ := h.task p hp _ htask
  exact absurd (Table.lt_next_of_get? hx) (Nat.lt_irrefl _)

/-- Two timers are made and started at the same time, and paired. -/
theorem arm (h : Alike R F T t u) (hnow : t.now = u.now) (hcb : R cb cb') :
  Alike R F ((t.timers.next, u.timers.next) :: T) (t.arm pool delay cb) (u.arm pool' delay cb')
  := by
  obtain ⟨hscheduler, hget⟩ := arm_eq (h.awake pool) delay cb
  obtain ⟨hscheduler', hget'⟩ := arm_eq (h.awake' pool') delay cb'
  refine ⟨h.left.arm .., h.right.arm .., h.awake.arm _ _ _, h.awake'.arm _ _ _, ?_, ?_, ?_, ?_⟩
  · intro e he
    obtain rfl | he := List.mem_cons.mp he
    · refine ⟨_, _, (hget _).trans (if_pos rfl), (hget' _).trans (if_pos rfl), ?_⟩
      exact ⟨rfl, congrArg some hnow, rfl, .some hcb⟩
    · obtain ⟨x, y, hx, hy, hxy⟩ := h.pair e he
      obtain ⟨hlt, hlt'⟩ := h.lt_next he
      refine ⟨x, y, ?_, ?_, hxy⟩
      · rw [hget, if_neg (Nat.ne_of_lt hlt), hx]
      · rw [hget', if_neg (Nat.ne_of_lt hlt'), hy]
  · intro e he e' he'
    obtain rfl | he := List.mem_cons.mp he <;> obtain rfl | he' := List.mem_cons.mp he'
    · exact iff_of_true rfl rfl
    · obtain ⟨hlt, hlt'⟩ := h.lt_next he'
      exact iff_of_false (Nat.ne_of_gt hlt) (Nat.ne_of_gt hlt')
    · obtain ⟨hlt, hlt'⟩ := h.lt_next he
      exact iff_of_false (Nat.ne_of_lt hlt) (Nat.ne_of_lt hlt')
    · exact h.matched e he e' he'
  · intro id x cb hx hid hcb
    rw [hget, if_neg fun heq => hid _ List.mem_cons_self heq.symm] at hx
    exact h.other id x cb hx (fun e he => hid e (List.mem_cons_of_mem _ he)) hcb
  · rw [hscheduler, hscheduler']
    have hqueue := h.queue.mono (List.subset_cons_self (t.timers.next, u.timers.next) T) (by
      intro e he
      obtain rfl | he := List.mem_cons.mp he
      · exact .inr fun p hp => ne_next h.left hp
      · exact .inl he)
    refine hqueue.enqueue List.mem_cons_self rfl rfl ?_ h.left.ordered.sorted
      h.left.ordered.fresh h.right.ordered.fresh
    exact congrArg (· + delay) hnow

/-- A timer is made and started on the left. -/
theorem arm_left (h : Alike R F T t u) (hcb : F cb) :
  Alike R F T (t.arm pool delay cb) u
  := by
  obtain ⟨hscheduler, hget⟩ := arm_eq (h.awake pool) delay cb
  refine { h with
    left := h.left.arm ..
    awake := h.awake.arm _ _ _
    pair := ?_
    other := ?_
    queue := ?_ }
  · intro e he
    obtain ⟨x, y, hx, hy, hxy⟩ := h.pair e he
    refine ⟨x, y, ?_, hy, hxy⟩
    rw [hget, if_neg (Nat.ne_of_lt (h.lt_next he).1), hx]
  · intro id x cb' hx hid hcb'
    rw [hget] at hx
    split at hx
    · obtain rfl := Option.some.inj hx
      obtain rfl := Option.some.inj hcb'
      exact hcb
    · exact h.other id x cb' hx hid hcb'
  · rw [hscheduler]
    exact h.queue.enqueue_left rfl fun e he => Nat.ne_of_lt (h.lt_next he).1

/-! #### The next task -/

/-- The timer whose task is taken off the queue fires. -/
theorem fire_eq (h : t.Accurate) {p : Pending (Job τ)} {scheduler : Scheduler (Job τ)}
    (htake : t.scheduler.takeDue target = some (p, scheduler)) (htask : p.task = .timer id) :
  ∃ x y, t.timers.get? id = some x ∧ y.remaining = 0 ∧ y.startedAt = none
    ∧ y.status = .fired ∧ y.callback = none
    ∧ (Timing.fire { t with scheduler := scheduler } id).1 = some (x.callback, x.channel)
    ∧ (Timing.fire { t with scheduler := scheduler } id).2.scheduler = scheduler
    ∧ ∀ id', (Timing.fire { t with scheduler := scheduler } id).2.timers.get? id'
      = if id = id' then some y else t.timers.get? id'
  := by
  obtain ⟨x, hx, hrunning, -⟩ := h.of_takeDue htake htask
  let fired (x : Timer τ) : Timer τ :=
    { x.fold scheduler.now with
      remaining := 0, task := none, status := .fired, callback := none, channel := none }
  refine ⟨x, fired x, hx, rfl, rfl, rfl, rfl, ?_⟩
  simp only [Timing.fire, hx, hrunning, if_true]
  exact ⟨trivial, rfl, get?_modify_timer hx fired⟩

/-- The queues after their first tasks were taken off. -/
theorem queue_of_takeDue (h : t.Accurate) {p : Pending (Job τ)} {scheduler : Scheduler (Job τ)}
    (htake : t.scheduler.takeDue target = some (p, scheduler)) :
  t.scheduler.queue = p :: scheduler.queue ∧ scheduler.now = p.due ∧ p.due ≤ target
  := by
  obtain ⟨-, hdue, hqueue, hnow⟩ := h.ordered.takeDue htake
  exact ⟨hqueue, hnow, hdue⟩

/-- What the clock on the left takes off its queue is the task of a paired timer, which the
clock on the right takes off as well, or it is the task of another timer. -/
theorem takeDue_cases (h : Alike R F T t u) {p : Pending (Job τ)}
    {scheduler : Scheduler (Job τ)}
    (htake : t.scheduler.takeDue target = some (p, scheduler)) :
  (∃ e ∈ T, ∃ q scheduler', p.task = .timer e.1 ∧ q.task = .timer e.2
      ∧ u.scheduler.takeDue target = some (q, scheduler') ∧ scheduler.now = scheduler'.now)
    ∨ ∃ id, p.task = .timer id ∧ ∀ e ∈ T, e.1 ≠ id
  := by
  obtain ⟨hqueue, hnow, htarget⟩ := queue_of_takeDue h.left htake
  have hqueued := h.queue
  rw [hqueue] at hqueued
  generalize hright : u.scheduler.queue = qs at hqueued
  cases hqueued with
  | @both _ q _ qs e he hp hq hdue _ =>
    have htake' : u.scheduler.takeDue target = some (q,
        { u.scheduler with now := q.due, queue := qs, due := u.scheduler.due.erase q.id }) := by
      rw [Scheduler.takeDue, hright]
      exact if_pos (hdue ▸ htarget)
    exact .inl ⟨e, he, q, _, hp, hq, htake', hnow.trans hdue⟩
  | skip hp hid _ => exact .inr ⟨_, hp, hid⟩

/-- If nothing is due on the left then nothing is due on the right. -/
theorem takeDue_eq_none (h : Alike R F T t u) (htake : t.scheduler.takeDue target = none) :
  u.scheduler.takeDue target = none
  := by
  rw [Scheduler.takeDue]
  split
  · rfl
  · next q qs hqueue =>
    obtain ⟨p, hp, hdue⟩ := h.queue.exists_left (q := q) (hqueue ▸ List.mem_cons_self)
    have hlt := h.left.ordered.lt_due htake hp
    rw [if_neg (by omega)]

/-- Paired timers fire. -/
theorem fire (h : Alike R F T t u) (he : e ∈ T) {p q : Pending (Job τ)}
    {scheduler scheduler' : Scheduler (Job τ)}
    (htake : t.scheduler.takeDue target = some (p, scheduler)) (hp : p.task = .timer e.1)
    (htake' : u.scheduler.takeDue target = some (q, scheduler')) (hq : q.task = .timer e.2) :
  ∃ cb channel cb' channel',
    (Timing.fire { t with scheduler := scheduler } e.1).1 = some (cb, channel)
      ∧ (Timing.fire { u with scheduler := scheduler' } e.2).1 = some (cb', channel')
      ∧ Option.Rel R cb cb'
      ∧ Alike R F T (Timing.fire { t with scheduler := scheduler } e.1).2
        (Timing.fire { u with scheduler := scheduler' } e.2).2
  := by
  obtain ⟨x, x', hx, hremaining, hstart, hstatus, hnone, hfire, hscheduler, hget⟩ :=
    fire_eq h.left htake hp
  obtain ⟨y, y', hy, hremaining', hstart', hstatus', hnone', hfire', hscheduler', hget'⟩ :=
    fire_eq h.right htake' hq
  obtain ⟨hqueue, -⟩ := queue_of_takeDue h.left htake
  obtain ⟨hqueue', -⟩ := queue_of_takeDue h.right htake'
  obtain ⟨z, z', hz, hz', hzz⟩ := h.pair e he
  obtain rfl := Option.some.inj (hx.symm.trans hz)
  obtain rfl := Option.some.inj (hy.symm.trans hz')
  refine ⟨_, _, _, _, hfire, hfire', hzz.callback, ?_⟩
  refine ⟨(h.left.tick_timer htake hp).1, (h.right.tick_timer htake' hq).1,
    h.awake.congr (pools_fire _ _), h.awake'.congr (pools_fire _ _), ?_, h.matched, ?_, ?_⟩
  · intro e' he'
    rw [hget, hget']
    by_cases heq : e = e'
    · subst heq
      rw [if_pos rfl, if_pos rfl]
      refine ⟨x', y', rfl, rfl, .of_over ?_ ⟨hstart, hnone⟩ ⟨hstart', hnone'⟩ ?_⟩
      · rw [hremaining, hremaining']
      · rw [hstatus, hstatus']
    · rw [if_neg fun hid => heq (h.eq_of_left he he' hid),
        if_neg fun hid => heq (h.eq_of_right he he' hid)]
      exact h.pair e' he'
  · intro id w cb hw hid hcb
    rw [hget, if_neg (hid e he)] at hw
    exact h.other id w cb hw hid hcb
  · have hqueued := h.queue
    rw [hqueue, hqueue'] at hqueued
    rw [hscheduler, hscheduler']
    cases hqueued with
    | both _ _ _ _ hrest => exact hrest
    | skip hp' hid _ =>
      rw [hp] at hp'
      exact absurd (Job.timer.inj hp') (hid e he)

/-- A timer on the left fires that is not paired. -/
theorem fire_left (h : Alike R F T t u) (hid : ∀ e ∈ T, e.1 ≠ id) {p : Pending (Job τ)}
    {scheduler : Scheduler (Job τ)}
    (htake : t.scheduler.takeDue target = some (p, scheduler)) (hp : p.task = .timer id) :
  ∃ cb channel, (Timing.fire { t with scheduler := scheduler } id).1 = some (cb, channel)
    ∧ (∀ code, cb = some code → F code)
    ∧ Alike R F T (Timing.fire { t with scheduler := scheduler } id).2 u
  := by
  obtain ⟨x, x', hx, -, -, -, hnone, hfire, hscheduler, hget⟩ := fire_eq h.left htake hp
  obtain ⟨hqueue, -⟩ := queue_of_takeDue h.left htake
  refine ⟨_, _, hfire, fun code hcode => h.other id x code hx hid hcode, ?_⟩
  refine ⟨(h.left.tick_timer htake hp).1, h.right, h.awake.congr (pools_fire _ _), h.awake', ?_,
    h.matched, ?_, ?_⟩
  · intro e he
    rw [hget, if_neg (hid e he).symm]
    exact h.pair e he
  · intro id' w cb hw hid' hcb
    rw [hget] at hw
    split at hw
    · obtain rfl := Option.some.inj hw
      rw [hnone] at hcb
      cases hcb
    · exact h.other id' w cb hw hid' hcb
  · have hqueued := h.queue
    rw [hqueue] at hqueued
    rw [hscheduler]
    generalize u.scheduler.queue = qs at hqueued
    cases hqueued with
    | both he hp' _ _ _ =>
      rw [hp] at hp'
      exact absurd (Job.timer.inj hp').symm (hid _ he)
    | skip _ _ hrest => exact hrest

/-- Both clocks reach the end of their way. -/
theorem settle (h : Alike R F T t u) (htake : t.scheduler.takeDue target = none) :
  Alike R F T { t with scheduler := t.scheduler.settle target }
    { u with scheduler := u.scheduler.settle target }
  where
  left := (h.left.tick_task (Nat.le_max_left _ _) (h.left.ordered.settle htake)
    fun _ _ _ => Iff.rfl).1
  right := (h.right.tick_task (Nat.le_max_left _ _)
    (h.right.ordered.settle (h.takeDue_eq_none htake)) fun _ _ _ => Iff.rfl).1
  awake := h.awake.congr rfl
  awake' := h.awake'.congr rfl
  pair := h.pair
  matched := h.matched
  other := h.other
  queue := h.queue

end Alike

end Timing

end Statechart
