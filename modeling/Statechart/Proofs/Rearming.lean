import Statechart.Proofs.Delays
import Statechart.Proofs.Pairing
import Statechart.Proofs.Punctuality

/-!
# What an arming leaves

After an arming an instance has one timer for each delay of its state, in order: a timer that
was paused under the key of the delay is kept as it is, and otherwise there is a new one, with
its whole delay ahead of it (`Engine.Refills`).  A timer that was armed for an instance and is
not over is one of its timers, once (`Configuration.Run.refills`).
-/

namespace Statechart

variable {κ π σ τ : Type}

/-! ### New timers -/

namespace Timing

/-- A timer that has just been made for a pool.  It runs, and its task falls due when its delay
has passed, unless the pool is paused. -/
structure Launches (t : Timing τ) (id pool delay : Nat) (callback : τ) (x : Timer τ) : Prop where
  there : t.timers.get? id = some x
  owner : x.pool = pool
  whole : x.delay = delay
  calls : x.callback = some callback
  remaining : x.remaining = delay
  elapsed : x.elapsedAt t.now = 0
  idle : t.isPaused pool = true → x.status = .idle ∧ x.task = none
  running : t.isPaused pool = false → x.status = .running
    ∧ ∃ p ∈ t.scheduler.queue, p.task = .timer id ∧ x.task = some p.id ∧ p.due = t.now + delay

variable {t t' : Timing τ} {id id' pool delay : Nat} {callback : τ} {x : Timer τ}

/-- What is made is a new timer; if it has a task, then it is the next one. -/
theorem launches_arm (t : Timing τ) (pool delay : Nat) (callback : τ) :
  ∃ x, (t.arm pool delay callback).Launches t.timers.next pool delay callback x
    ∧ ∀ task, x.task = some task → task = t.scheduler.nextId
  := by
  cases hpool : t.isPaused pool with
  | true =>
    refine ⟨⟨pool, delay, delay, 0, none, none, .idle, some callback, none⟩, ?_, nofun⟩
    constructor
    case there => rw [arm_eq_newTimer hpool, newTimer, Table.get?_add, if_pos rfl]
    case idle => exact fun _ => ⟨rfl, rfl⟩
    case running =>
      intro hfree
      rw [isPaused_arm, hpool] at hfree
      cases hfree
    all_goals rfl
  | false =>
    obtain ⟨hscheduler, hget⟩ := arm_eq hpool delay callback
    refine ⟨_, ⟨(hget _).trans (if_pos rfl), rfl, rfl, rfl, rfl, ?_, ?_, fun _ => ⟨rfl, ?_⟩⟩, ?_⟩
    · rw [now_arm]
      simp [Timer.elapsedAt, Timer.session]
    · intro hpaused
      rw [isPaused_arm, hpool] at hpaused
      cases hpaused
    · rw [now_arm, hscheduler]
      exact ⟨⟨t.now + delay, t.scheduler.nextId, .timer t.timers.next⟩,
        (Scheduler.mem_enqueue _ _ _).mpr (.inl rfl), rfl, rfl, rfl⟩
    · rintro task ⟨⟩
      rfl

/-- A task stays when a timer is destroyed that has another one. -/
theorem Tasked.mem_destroy (h : t.Tasked) {p : Pending (Job τ)} (hp : p ∈ t.scheduler.queue)
    (hother : ∀ y, t.timers.get? id = some y → y.task ≠ some p.id) :
  p ∈ (t.destroy id).scheduler.queue
  := by
  rw [destroy]
  cases hy : t.timers.get? id with
  | none => exact hp
  | some y =>
    simp only
    split
    · exact hp
    · rw [scheduler_announce, updateTimer, cancelTask]
      cases htask : y.task with
      | none => exact hp
      | some task =>
        refine h.ordered.mem_cancel.mpr ⟨hp, ?_⟩
        rintro rfl
        exact hother y hy htask

/-- A timer has no new task after timers were destroyed. -/
theorem task_of_destroy {y : Timer τ} {task : Nat}
    (hy : (t.destroy id).timers.get? id' = some y) (htask : y.task = some task) :
  ∃ x, t.timers.get? id' = some x ∧ x.task = some task
  := by
  by_cases hne : id = id'
  · subst hne
    rw [destroy] at hy
    cases hx : t.timers.get? id with
    | none =>
      rw [hx] at hy
      rw [hx] at hy
      cases hy
    | some x =>
      simp only [hx] at hy
      split at hy
      · exact ⟨y, hx ▸ hy, htask⟩
      · rw [timers_announce, updateTimer, Table.get?_modify, if_pos rfl] at hy
        obtain ⟨z, -, rfl⟩ := Option.map_eq_some_iff.mp hy
        cases htask
  · rw [get?_destroy_of_ne t hne] at hy
    exact ⟨y, hy, htask⟩

/-- What timers are there when one is made. -/
theorem get?_arm (t : Timing τ) (pool delay : Nat) (callback : τ) (hne : id ≠ t.timers.next) :
  (t.arm pool delay callback).timers.get? id = t.timers.get? id
  := by
  obtain ⟨h, -⟩ | ⟨-, h⟩ := get?_start_newTimer t pool delay (some callback) id
  · exact absurd h hne
  · exact h

/-- The tasks stay when a timer is made. -/
theorem mem_arm {p : Pending (Job τ)} (hp : p ∈ t.scheduler.queue) (pool delay : Nat)
    (callback : τ) :
  p ∈ (t.arm pool delay callback).scheduler.queue
  := by
  cases hpool : t.isPaused pool with
  | true =>
    rw [arm_eq_newTimer hpool]
    exact hp
  | false =>
    rw [(arm_eq hpool delay callback).1]
    exact (Scheduler.mem_enqueue _ _ _).mpr (.inr hp)

namespace Launches

/-- A new timer stays as it is when another one is destroyed. -/
theorem destroy (h : t.Launches id pool delay callback x) (htasked : t.Tasked) (hne : id' ≠ id)
    (hother : ∀ y task, t.timers.get? id' = some y → y.task = some task → x.task ≠ some task) :
  (t.destroy id').Launches id pool delay callback x
  where
  there := (get?_destroy_of_ne t hne).trans h.there
  owner := h.owner
  whole := h.whole
  calls := h.calls
  remaining := h.remaining
  elapsed := (Keeps.destroy htasked id').now ▸ h.elapsed
  idle hpaused := h.idle (isPaused_congr (pools_destroy t id') pool ▸ hpaused)
  running hfree := by
    obtain ⟨hrunning, p, hp, hptask, htask, hdue⟩ :=
      h.running (isPaused_congr (pools_destroy t id') pool ▸ hfree)
    refine ⟨hrunning, p, htasked.mem_destroy hp fun y hy hyt => hother y _ hy hyt htask, hptask,
      htask, ?_⟩
    rw [(Keeps.destroy htasked id').now]
    exact hdue

/-- A new timer stays as it is when another one is made. -/
theorem arm (h : t.Launches id pool delay callback x) (pool' delay' : Nat) (callback' : τ) :
  (t.arm pool' delay' callback').Launches id pool delay callback x
  where
  there := (get?_arm t _ _ _ (Nat.ne_of_lt (Table.lt_next_of_get? h.there))).trans h.there
  owner := h.owner
  whole := h.whole
  calls := h.calls
  remaining := h.remaining
  elapsed := now_arm t _ _ _ ▸ h.elapsed
  idle hpaused := h.idle (isPaused_arm t _ _ _ pool ▸ hpaused)
  running hfree := by
    obtain ⟨hrunning, p, hp, hptask, htask, hdue⟩ := h.running (isPaused_arm t _ _ _ pool ▸ hfree)
    refine ⟨hrunning, p, mem_arm hp _ _ _, hptask, htask, ?_⟩
    rw [now_arm]
    exact hdue

end Launches

end Timing

namespace Engine

variable {o : ArmingOf} {ds : List (Delayed κ)} {d : Delayed κ} {a : Arming κ}
  {t t' : Timing (Callback κ)} {r r' : Engine κ} {i id : Nat} {x : Instance κ}

/-! ### What is made in an arming -/

/-- What a delay comes to in an arming. -/
def delayIn (o : ArmingOf) (d : Delayed κ) : Nat :=
  (d.delay.resolve o.context (.after d.key) o.metadata).value

/-- What the timer of a delay calls that is made in an arming. -/
def callbackIn (o : ArmingOf) (d : Delayed κ) : Callback κ :=
  .after o.owner o.state d.key o.generation

/-- Since the clock read `t`, timers were made for delays in an arming, and old timers were
destroyed.  The tasks of the new timers are new, too. -/
structure Launched (o : ArmingOf) (ds : List (Delayed κ)) (t t' : Timing (Callback κ)) :
    Prop where
  tasked : t'.Tasked
  next_le : t.timers.next ≤ t'.timers.next
  nextId_le : t.scheduler.nextId ≤ t'.scheduler.nextId
  old : ∀ id u task, id < t.timers.next → t'.timers.get? id = some u → u.task = some task →
    task < t.scheduler.nextId
  new : ∀ id u, t.timers.next ≤ id → t'.timers.get? id = some u →
    (∀ task, u.task = some task → t.scheduler.nextId ≤ task)
      ∧ ∃ d ∈ ds, t'.Launches id o.pool (delayIn o d) (callbackIn o d) u

namespace Launched

theorem refl (h : t.Tasked) :
  Launched o ds t t
  where
  tasked := h
  next_le := Nat.le_refl _
  nextId_le := Nat.le_refl _
  old _ _ _ _ hu htask := (h.own _ _ _ hu htask).1
  new _ _ hle hu := absurd (Table.lt_next_of_get? hu) (Nat.not_lt.mpr hle)

/-- An old timer is destroyed. -/
theorem destroy (h : Launched o ds t t') (hid : id < t.timers.next) :
  Launched o ds t (t'.destroy id)
  where
  tasked := (Timing.Keeps.destroy h.tasked id).tasked
  next_le := Timing.next_destroy t' id ▸ h.next_le
  nextId_le := Nat.le_trans h.nextId_le (Timing.Keeps.destroy h.tasked id).next_le
  old id' u task hlt hu htask := by
    obtain ⟨v, hv, hvt⟩ := Timing.task_of_destroy hu htask
    exact h.old id' v task hlt hv hvt
  new id' u hle hu := by
    have hne : id ≠ id' := by omega
    rw [Timing.get?_destroy_of_ne _ hne] at hu
    obtain ⟨hlate, d, hd, hlaunches⟩ := h.new id' u hle hu
    refine ⟨hlate, d, hd, hlaunches.destroy h.tasked hne ?_⟩
    intro v task hv hvt hut
    exact absurd (h.old id v task hid hv hvt) (Nat.not_lt.mpr (hlate task hut))

/-- Old timers are destroyed one after another. -/
theorem destroyEach {ids : List Nat} (h : Launched o ds t t')
    (hids : ∀ id ∈ ids, id < t.timers.next) :
  Launched o ds t (t'.destroyEach ids)
  := by
  induction ids generalizing t' with
  | nil => exact h
  | cons id rest ih =>
    obtain ⟨hid, hrest⟩ := List.forall_mem_cons.mp hids
    exact ih (h.destroy hid) hrest

/-- The timer of a delay is made. -/
theorem arm (h : Launched o ds t t') (hd : d ∈ ds) :
  Launched o ds t (t'.arm o.pool (delayIn o d) (callbackIn o d))
  := by
  have hkeeps : t'.Keeps (t'.arm o.pool (delayIn o d) (callbackIn o d)) :=
    (Timing.Keeps.newTimer h.tasked _ _ _).trans
      (Timing.Keeps.start (Timing.Keeps.newTimer h.tasked _ _ _).tasked _)
  constructor
  case tasked => exact hkeeps.tasked
  case next_le =>
    rw [Timing.next_arm]
    exact Nat.le_succ_of_le h.next_le
  case nextId_le => exact Nat.le_trans h.nextId_le hkeeps.next_le
  case old =>
    intro id u task hlt hu htask
    rw [Timing.get?_arm _ _ _ _ (Nat.ne_of_lt (Nat.lt_of_lt_of_le hlt h.next_le))] at hu
    exact h.old id u task hlt hu htask
  case new =>
    intro id u hle hu
    by_cases hid : id = t'.timers.next
    · subst hid
      obtain ⟨v, hlaunches, htask⟩ :=
        Timing.launches_arm t' o.pool (delayIn o d) (callbackIn o d)
      obtain rfl := Option.some.inj (hu.symm.trans hlaunches.there)
      exact ⟨fun task ht => htask task ht ▸ h.nextId_le, d, hd, hlaunches⟩
    · rw [Timing.get?_arm _ _ _ _ hid] at hu
      obtain ⟨hlate, d', hd', hlaunches⟩ := h.new id u hle hu
      exact ⟨hlate, d', hd', hlaunches.arm _ _ _⟩

/-- A delay is armed; what was armed before has old timers. -/
theorem armOne (h : Launched o ds t a.timing) (hold : ∀ p ∈ a.previous, p.timer < t.timers.next)
    (hd : d ∈ ds) :
  Launched o ds t (armOne o a d).value.timing
    ∧ ∀ p ∈ (Engine.armOne o a d).value.previous, p.timer < t.timers.next
  := by
  have hfilter : ∀ p ∈ a.previous.filter fun p => p.key ≠ armedKey o.state d.key,
      p.timer < t.timers.next := fun p hp => hold p (List.mem_of_mem_filter hp)
  rw [value_armOne]
  split
  · next p hp =>
    split
    · exact ⟨h, hfilter⟩
    · exact ⟨(h.destroy (hold p (List.mem_of_find?_eq_some hp))).arm hd, hfilter⟩
  · exact ⟨h.arm hd, hfilter⟩

/-- Delays are armed one after another. -/
theorem armEach {ds' : List (Delayed κ)} (h : Launched o ds t a.timing)
    (hold : ∀ p ∈ a.previous, p.timer < t.timers.next) (hsub : ds' ⊆ ds) :
  Launched o ds t (armEach o ds' a).value.timing
    ∧ ∀ p ∈ (Engine.armEach o ds' a).value.previous, p.timer < t.timers.next
  := by
  induction ds' generalizing a with
  | nil => exact ⟨h, hold⟩
  | cons d rest ih =>
    obtain ⟨hd, hrest⟩ := List.cons_subset.mp hsub
    obtain ⟨hnext, hold'⟩ := h.armOne hold hd
    exact ih hnext hold' hrest

end Launched

/-! ### The timers after an arming -/

/-- The timer of a delay after an arming of an instance in a state: one that was paused under
its key and stays as it is, or a new one. -/
inductive Refills (i : Nat) (x : Instance κ) (state : String) (metadata : Option Meta)
    (t t' : Timing (Callback κ)) (d : Delayed κ) (e : Armed) : Prop where
  | kept {u : Timer (Callback κ)} : e ∈ x.timers → e.key = armedKey state d.key →
      t.timers.get? e.timer = some u → u.status = .paused → t'.timers.get? e.timer = some u →
      Refills i x state metadata t t' d e
  | made {u : Timer (Callback κ)} :
      (∀ p ∈ x.timers, p.key = armedKey state d.key → t.status? p.timer ≠ some .paused) →
      e.key = armedKey state d.key → e.generation = x.generation + 1 →
      t.timers.get? e.timer = none →
      t'.Launches e.timer x.pool
        (d.delay.resolve x.snapshot.context (.after d.key) metadata).value
        (.after i state d.key (x.generation + 1)) u →
      Refills i x state metadata t t' d e

/-- Whatever is made in an arming of an instance is new. -/
theorem launched_of_armTimers (hx : r.get? i = some x) (h : (r.armTimers i).value = .ok r')
    (harmory : Armory r.timing x.timers) (htasked : r.timing.Tasked)
    {active : Option (String × Option Meta)} (hactive : activeDelays x = .ok (active, ds)) :
  Launched (armingOf i x active) ds r.timing r'.timing
  := by
  obtain ⟨_, _, hactive', rfl⟩ := armTimers_eq_ok hx h
  obtain ⟨rfl, rfl⟩ := Prod.mk.inj (Except.ok.inj (hactive.symm.trans hactive'))
  obtain ⟨hlaunched, hold⟩ := Launched.armEach (a := ⟨r.timing, x.timers, []⟩)
    (.refl (o := armingOf i x active) htasked) (fun p hp => harmory.lt_next hp)
    (List.Subset.refl ds)
  exact hlaunched.destroyEach (List.forall_mem_map.mpr hold)

/-- A timer that is paused and still armed after an arming stays as it is. -/
theorem get?_armTimers_of_paused (hx : r.get? i = some x) (h : (r.armTimers i).value = .ok r')
    (harmory : Armory r.timing x.timers) {active : Option (String × Option Meta)}
    (hactive : activeDelays x = .ok (active, ds)) (hkeys : (ds.map Delayed.key).Nodup) {e : Armed}
    (he : e ∈ (arming r i x active ds).armed) {u : Timer (Callback κ)}
    (hu : r.timing.timers.get? e.timer = some u) (hpaused : u.status = .paused) :
  r'.timing.timers.get? e.timer = some u
  := by
  obtain ⟨_, _, hactive', rfl⟩ := armTimers_eq_ok hx h
  obtain ⟨rfl, rfl⟩ := Prod.mk.inj (Except.ok.inj (hactive.symm.trans hactive'))
  obtain ⟨es, harms⟩ := armsAll_armEach (a := ⟨r.timing, x.timers, []⟩) harmory
    (armingOf i x active) hkeys
  have hmem : e ∈ es := by
    rw [arming, harms.armed] at he
    exact he
  exact (Timing.get?_destroyEach_of_notMem _ (harms.apart e hmem)).trans
    (get?_armEach_of_paused (armingOf i x active) ds ⟨r.timing, x.timers, []⟩ hu hpaused)

/-- An arming of a valid instance leaves a timer for each delay of its state, and destroys every
other timer that it had. -/
theorem refills_of_armTimers (hx : r.get? i = some x) (h : (r.armTimers i).value = .ok r')
    (hvalid : x.Valid) (harmory : Armory r.timing x.timers) (htasked : r.timing.Tasked)
    {active : Option (String × Option Meta)} (hactive : activeDelays x = .ok (active, ds)) :
  ∃ es, r'.get? i = some { x with timers := es, generation := x.generation + 1 }
    ∧ List.Forall₂ (Refills i x (armingOf i x active).state (armingOf i x active).metadata
        r.timing r'.timing) ds es
    ∧ ∀ p ∈ x.timers, p ∈ es ∨ r'.timing.status? p.timer = some .destroyed
  := by
  have hkeys := (hvalid.activeDelays_eq hactive).1
  obtain ⟨_, _, es, hactive', hes, hrearms⟩ := rearms_of_armTimers hx h
  obtain ⟨rfl, rfl⟩ := Prod.mk.inj (Except.ok.inj (hactive.symm.trans hactive'))
  obtain ⟨harms, hdestroyed, -⟩ := arms_of_armTimers hx h harmory hactive hkeys hes
  have hlaunched := launched_of_armTimers hx h harmory htasked hactive
  refine ⟨es, (hrearms.get? i).trans (if_pos rfl), ?_, hdestroyed⟩
  have hmem : List.Forall₂ (fun d e => d ∈ ds ∧ e ∈ es
      ∧ Arms (armingOf i x active) r.timing x.timers r'.timing d e) ds es := by
    have hright := (List.forall₂_and_left es ds).mpr ⟨fun _ he => he, harms.flip⟩
    exact (List.forall₂_and_left ds es).mpr ⟨fun _ hd => hd, hright.flip⟩
  apply hmem.imp
  rintro d e ⟨hd, he, harms⟩
  cases harms with
  | kept hprevious hkey hpaused =>
    obtain ⟨u, hu, hstatus⟩ := Option.map_eq_some_iff.mp hpaused
    exact .kept hprevious hkey hu hstatus
      (get?_armTimers_of_paused hx h harmory hactive hkeys (hes ▸ he) hu hstatus)
  | @fresh u hnone hkey hgeneration hnext hu hcallback =>
    obtain ⟨-, d', hd', hlaunches⟩ := hlaunched.new e.timer u hnext hu
    -- The delay that the timer was made for has the same key.
    have hkey' : d'.key = d.key := by
      have heq := hlaunches.calls.symm.trans hcallback
      simp only [callbackIn, Option.some.injEq, Callback.after.injEq] at heq
      exact heq.2.2.1
    obtain rfl := List.inj_on_of_nodup_map hkeys hd' hd hkey'
    exact .made hnone hkey hgeneration (Table.get?_eq_none_of_le _ hnext) hlaunches

end Engine

namespace Configuration

variable {H : Host κ π σ} {cs before after : List (Configuration κ π σ)}
  {a b c d : Configuration κ π σ} {i id : Nat} {x y z : Instance κ}

/-! ### Timers that are not over -/

/-- A timer with a delayed transition of an instance is one of its timers, or it is destroyed. -/
theorem Run.holds_of_calls (h : Run H cs c) {state key : String} {generation : Nat}
    (hcalls : Calls c id (.after i state key generation)) :
  c.engine.Holds i id
  := by
  induction h with
  | start memory =>
    obtain ⟨t, ht, -⟩ := hcalls
    simp [idle, Engine.empty, Timing.empty] at ht
  | @next cs c d hrun hstep ih =>
    obtain ⟨mid, hgoes⟩ := hrun.goes hstep
    obtain ⟨t, ht, hcallback⟩ := hcalls
    obtain ⟨u, hu, hbecomes⟩ | ⟨-, -, hnone⟩ := hgoes.releases.timing.origin ht
    · have hcallback' := hbecomes.callback_eq hcallback
      obtain ⟨v, hv, hbecomes'⟩ | ⟨-, -, hfiles⟩ := hgoes.move.follows.origin hu
      · exact hgoes.holds hrun (ih ⟨v, hv, hbecomes'.callback_eq hcallback'⟩)
      · cases hfiles _ hcallback' with
        | after hy hmem => exact hgoes.holds_of_mid hrun (.inl ⟨_, hy, _, hmem, rfl⟩)
    · exact (hnone _ hcallback).elim

/-- A timer that was armed for an instance and is not over is one of its timers, once. -/
theorem Run.count_eq_one (h : Run H cs c) (hb : b ∈ cs ++ [c]) {state key : String}
    {generation : Nat} (hcalls : Calls b id (.after i state key generation))
    (hleft : c.engine.timing.isFinished id = false) :
  ∃ x, c.engine.get? i = some x ∧ (x.timers.map Armed.timer).count id = 1
  := by
  have hholds : c.engine.Holds i id := by
    obtain hb | hb := List.mem_append.mp hb
    · obtain ⟨before, after, rfl⟩ := List.append_of_mem hb
      exact h.holds hb (h.of_append.holds_of_calls hcalls)
    · obtain rfl := List.mem_singleton.mp hb
      exact h.holds_of_calls hcalls
  obtain ⟨x, hx, e, he, rfl⟩ | hdestroyed := hholds
  · exact ⟨x, hx, List.count_eq_one_of_mem (h.wound.armory i x hx).timers
      (List.mem_map_of_mem he)⟩
  · rw [Timing.isFinished, hdestroyed] at hleft
    cases hleft

/-! ### The arming of an instance -/

/-- The instance whose timers are armed next, if it runs. -/
def armed? (c : Configuration κ π σ) : Option Nat :=
  match c.control, c.stack with
  | .back _, .working i _ (.rearm :: _) :: _ => some i
  | _, _ => none

/-- The timers of an instance after an arming, from `c` to `d`, in a state with node `n`. -/
structure Refilled (i : Nat) (x y : Instance κ) (state : String) (n : Node κ)
    (c d : Configuration κ π σ) : Prop where
  there : d.engine.get? i = some y
  snapshot : y.snapshot = x.snapshot
  generation : y.generation = x.generation + 1
  timers : List.Forall₂ (Engine.Refills i x state n.metadata c.engine.timing d.engine.timing)
    n.after y.timers
  others : ∀ p ∈ x.timers, p ∈ y.timers ∨ d.engine.timing.status? p.timer = some .destroyed

theorem stack_of_armed? (h : armed? c = some i) :
  ∃ reply o rest below, c.control = .back reply ∧ c.stack = .working i o (.rearm :: rest) :: below
  := by
  rw [armed?] at h
  split at h
  · next reply j o rest below hcontrol hstack =>
    obtain rfl := Option.some.inj h
    exact ⟨reply, o, rest, below, hcontrol, hstack⟩
  · cases h

/-- A step that arms the timers of an instance; after it, the instance does so no more in the
same piece of work. -/
theorem Run.refilled (h : Run H cs c) (hstep : Evolves H c d) (harmed : armed? c = some i)
    (hx : c.engine.get? i = some x) (hrunning : x.isRunning = true)
    {chart : Chart κ} (hflat : x.machine.flat? = some chart) :
  ∃ state n y, x.snapshot.value = .leaf state ∧ chart.nodes.get? state = some n
    ∧ Refilled i x y state n c d ∧ ∃ rest, workOf i d.stack = some rest ∧ .rearm ∉ rest
  := by
  obtain ⟨reply, o, rest, below, hcontrol, hstack⟩ := stack_of_armed? harmed
  have hvalid := h.valid.1 i x hx
  obtain ⟨state, hvalue⟩ := hvalid.exists_leaf hflat
  have hnext := hstep.step?_of_stack hstack
  simp only [step?, hcontrol, hstack, hx, stepPhase, hrunning, if_true, Option.some.injEq] at hnext
  cases hvalue' : (c.engine.armTimers i).value with
  | error e =>
    exact absurd (activeDelays_of_armTimers hx hvalue') (hvalid.active_ne_error e).2
  | ok r =>
    rw [hvalue'] at hnext
    obtain ⟨active, ds, _, hactive, -, -⟩ := Engine.rearms_of_armTimers hx hvalue'
    obtain ⟨chart', n, hflat', hn, rfl, rfl⟩ :=
      (hvalid.activeDelays_eq hactive).2 state (by rw [hvalue]; rfl)
    obtain rfl := Option.some.inj (hflat.symm.trans hflat')
    obtain ⟨es, hget, htimers, hothers⟩ := Engine.refills_of_armTimers hx hvalue' hvalid
      (h.wound.armory i x hx) h.tasked hactive
    subst hnext
    have horder := (h.tidy hx).order (.rearm :: rest) (by rw [hstack, workOf_working_self])
    refine ⟨state, n, _, hvalue, hn, ⟨hget, rfl, rfl, htimers, hothers⟩, rest,
      workOf_working_self _ _ _ _, fun hmem => ?_⟩
    exact (List.rel_of_pairwise_cons horder hmem).2.1 rfl rfl

/-- Once an instance has armed its timers, it keeps them until its piece of work ends. -/
theorem Run.timers_since (h : Run H (before ++ d :: after) b) (hbegun : d.engine.Begun i)
    (hy : d.engine.get? i = some y)
    (hwork : ∃ rest, workOf i d.stack = some rest ∧ .rearm ∉ rest)
    (hworking : ∀ e ∈ d :: after, IsWorking i e) (hz : b.engine.get? i = some z)
    (hrunning : z.isRunning = true) :
  z.timers = y.timers
  := by
  have hsince := h.since
    (p := fun passed b => b.engine.Begun i ∧ ((∀ e ∈ passed, IsWorking i e) →
      ∀ z, b.engine.get? i = some z → z.isRunning = true → z.timers = y.timers
        ∧ ∃ rest, workOf i b.stack = some rest ∧ .rearm ∉ rest))
    ⟨hbegun, ?_⟩ ?_
  · exact (hsince.2 hworking z hz hrunning).1
  · intro _ z hz _
    obtain rfl := Option.some.inj (hy.symm.trans hz)
    exact ⟨rfl, hwork⟩
  · rintro passed c e hrun hstep ⟨hbegun, ih⟩
    obtain ⟨mid, hgoes⟩ := hrun.goes hstep
    refine ⟨hgoes.begun hbegun, fun hworking z hz hrunning => ?_⟩
    obtain ⟨hpassed, hlast⟩ := List.forall_mem_append.mp hworking
    obtain ⟨x, hx, hrunning', hturn⟩ := hgoes.runs hbegun hz hrunning
    obtain ⟨htimers, rest, hrest, hnot⟩ := ih hpassed x hx hrunning'
    obtain ⟨q, qs, hq⟩ := hlast c (List.mem_singleton_self c)
    obtain rfl := Option.some.inj (hrest.symm.trans hq)
    rw [hq] at hturn
    obtain ⟨-, ⟨rfl, -, -⟩ | ⟨hkept, ps, hps, hiff⟩⟩ := hturn.timers_of_working hrunning' hrunning
    · exact absurd List.mem_cons_self hnot
    · exact ⟨hkept.trans htimers, ps, hps, fun hmem => hnot (hiff.mp hmem)⟩

/-- An arming of a running instance of a flat machine leaves one timer for each delay of its
state, in their order.  A timer that was paused under the key of the delay is that timer, as it
was; every other one is new, with the delay for the context of the instance ahead of it, and it
runs unless the pool is paused.  The other timers that the instance had are destroyed, and the
new ones are kept until the piece of work ends.  At any time a timer that was ever armed for an
instance, and is not over, is one of its timers, once. -/
theorem Run.refills (h : Run H cs b) :
  (∀ before c after i x chart, cs = before ++ c :: after → armed? c = some i →
    c.engine.get? i = some x → x.isRunning = true → x.machine.flat? = some chart →
    ∃ d state n y, Evolves H c d ∧ x.snapshot.value = .leaf state
      ∧ chart.nodes.get? state = some n ∧ Refilled i x y state n c d
      ∧ ((∀ e ∈ after, IsWorking i e) → ∀ z, b.engine.get? i = some z → z.isRunning = true →
        z.timers = y.timers))
  ∧ ∀ i id state key generation, (∃ c ∈ cs ++ [b], Calls c id (.after i state key generation)) →
    b.engine.timing.isFinished id = false →
      ∃ x, b.engine.get? i = some x ∧ (x.timers.map Armed.timer).count id = 1
  := by
  constructor
  · rintro before c after i x chart rfl harmed hx hrunning hflat
    have hrun : Run H before c := h.of_append
    cases after with
    | nil =>
      have hstep : Evolves H c b := h.evolves
      obtain ⟨state, n, y, hvalue, hn, hrefilled, -⟩ :=
        hrun.refilled hstep harmed hx hrunning hflat
      refine ⟨b, state, n, y, hstep, hvalue, hn, hrefilled, fun _ z hz _ => ?_⟩
      obtain rfl := Option.some.inj (hrefilled.there.symm.trans hz)
      rfl
    | cons d after =>
      rw [List.append_cons] at h
      have hstep : Evolves H c d := h.of_append.evolves
      obtain ⟨state, n, y, hvalue, hn, hrefilled, hwork⟩ :=
        hrun.refilled hstep harmed hx hrunning hflat
      obtain ⟨mid, hgoes⟩ := hrun.goes hstep
      have hbegun := hgoes.begun (Engine.begun_of_isRunning hx hrunning)
      refine ⟨d, state, n, y, hstep, hvalue, hn, hrefilled, fun hworking z hz hrunning => ?_⟩
      exact h.timers_since hbegun hrefilled.there hwork hworking hz hrunning
  · rintro i id state key generation ⟨c, hc, hcalls⟩ hleft
    exact h.count_eq_one hc hcalls hleft

/-- The relay arms a timer in its second state, and then has that one alone. -/
theorem relay_refills :
  ∃ x d state n y, (relayRun relayed 19).2.engine.get? 0 = some x
    ∧ Evolves relayHost (relayRun relayed 19).2 d
    ∧ Refilled 0 x y state n (relayRun relayed 19).2 d
    ∧ ∃ z, (relayRun relayed 28).2.engine.get? 0 = some z
      ∧ (z.timers.map Armed.timer).count 1 = 1
  := by
  have hrun := @run_relayInner relayed 19 (by decide +kernel) (by decide +kernel)
  have hflat : ((relayRun relayed 19).2.engine.get? 0).map
      (fun x => (x.isRunning, x.machine.flat?.isSome)) = some (true, true) := by decide +kernel
  obtain ⟨x, hx, heq⟩ := Option.map_eq_some_iff.mp hflat
  obtain ⟨hrunning, hsome⟩ := Prod.mk.inj heq
  obtain ⟨chart, hchart⟩ := Option.isSome_iff_exists.mp hsome
  have hcalls : ((relayRun relayed 28).2.engine.timing.timers.get? 1).map
      (fun t => t.callback.bind Callback.delayed?) = some (some (0, "a_1", "5", 2)) := by
    decide +kernel
  obtain ⟨t, ht, hdelayed⟩ := Option.map_eq_some_iff.mp hcalls
  obtain ⟨cb, hcb, hdelayed⟩ := Option.bind_eq_some_iff.mp hdelayed
  obtain rfl := Callback.eq_of_delayed? hdelayed
  obtain ⟨hfirst, hsecond⟩ := hrun.refills
  obtain ⟨d, state, n, y, hstep, -, -, hrefilled, -⟩ :=
    hfirst _ _ _ 0 x chart rfl (by decide +kernel) hx hrunning hchart
  refine ⟨x, d, state, n, y, hx, hstep, hrefilled, ?_⟩
  exact hsecond 0 1 "a_1" "5" 2 ⟨_, by simp, t, ht, hcb⟩ (by decide +kernel)

end Configuration

end Statechart
