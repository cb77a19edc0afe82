import Statechart.Proofs.Nesting
import Statechart.Proofs.Script
import Statechart.Proofs.Tasks

/-!
# The order of tasks

Tasks start in the order in which they fall due, each at most once, with the clock at its due
time, also when they schedule and cancel tasks and advance the clock themselves.  A task that
the host has scheduled waits until it starts or is cancelled, and when an advance of the clock
returns, no task waits that is due by then (`Configuration.Run.punctual`).
-/

namespace Statechart

variable {κ π σ : Type}

namespace Configuration

variable {H : Host κ π σ} {cs before after : List (Configuration κ π σ)}
  {a c d : Configuration κ π σ}

/-! ### Steps -/

/-- The task that starts in the next step. -/
def started? (c : Configuration κ π σ) : Option (Pending (Job (Callback κ))) :=
  c.target?.bind c.engine.timing.dueTask?

/-- The task that the host cancels in the next step. -/
def cancelled? (c : Configuration κ π σ) : Option Nat :=
  match c.control with
  | .host (.call (.cancel task) _) => some task
  | _ => none

theorem cancelled?_of_operation? (h : c.operation? = none) :
  c.cancelled? = none
  := by
  rw [operation?] at h
  rw [cancelled?]
  split
  · next task point hcontrol => simp [hcontrol, Call.operation?] at h
  · rfl

/-- In a step tasks are served. -/
theorem serves_of_step (h : step? H c = some d) (hc : c.engine.timing.Tasked) :
  Timing.Serves c.started? c.cancelled? c.engine.timing d.engine.timing
  := by
  rw [started?]
  obtain ⟨f, hf, htarget, htiming⟩ | ⟨target, hnone, htarget, hkeeps⟩ | ⟨hnone, htarget, hkeeps⟩ :=
    Timing.Keeps.covers.step h
  · obtain ⟨call, point, hcontrol, hf⟩ := exists_call_of_operation? hf
    rw [htarget, htiming, cancelled?, hcontrol]
    by_cases hcancel : ∃ task, call = .cancel task
    · obtain ⟨task, rfl⟩ := hcancel
      cases hf
      exact hc.cancel task
    · have hkeeps := call.keeps hf (fun task heq => hcancel ⟨task, heq⟩) hc
      split
      · next hcall => cases hcall; exact absurd ⟨_, rfl⟩ hcancel
      · exact hkeeps.serves
  · rw [htarget, cancelled?_of_operation? hnone]
    have hticked := hc.tick target
    exact hticked.keeps (hkeeps hticked.tasked)
  · rw [htarget, cancelled?_of_operation? hnone]
    exact (hkeeps hc).serves

/-- However a run goes on, tasks are served. -/
theorem Evolves.serves (h : Evolves H c d) (hc : c.engine.timing.Tasked) :
  Timing.Serves c.started? c.cancelled? c.engine.timing d.engine.timing
  := by
  have hidle (hidle : c.IsIdle) (hkeeps : c.engine.timing.Keeps d.engine.timing) :
      Timing.Serves c.started? c.cancelled? c.engine.timing d.engine.timing := by
    obtain ⟨hstack, reply, hcontrol⟩ := hidle
    have hstarted : c.started? = none := by rw [started?, target?, hcontrol, hstack]; rfl
    have hcancelled : c.cancelled? = none := by rw [cancelled?, hcontrol]
    rw [hstarted, hcancelled]
    exact hkeeps.serves
  cases h with
  | enter memory code h =>
    exact hidle h (Timing.Keeps.covers.enter (c := idle c.engine memory)
      (Timing.Keeps.covers.refl _) code hc)
  | addPool h => exact hidle h (.of_timers_eq hc rfl rfl)
  | addRegistry pool h => exact hidle h (.refl hc)
  | step _ hstep => exact serves_of_step hstep hc

theorem Run.tasked (h : Run H cs c) :
  c.engine.timing.Tasked
  := h.invariant (fun _ => Timing.tasked_empty) fun hc hstep => (hstep.serves hc).tasked

/-- The number of a task that is not waiting is not given to another one. -/
theorem Evolves.gone (h : Evolves H c d) (hc : c.engine.timing.Tasked) {task : Nat}
    (hlt : task < c.engine.timing.scheduler.nextId)
    (hgone : ∀ p ∈ c.engine.timing.scheduler.queue, p.id = task →
      c.started? = some p ∨ c.cancelled? = some task) :
  task < d.engine.timing.scheduler.nextId
    ∧ ∀ p ∈ d.engine.timing.scheduler.queue, p.id ≠ task
  := by
  have hserves := h.serves hc
  refine ⟨Nat.lt_of_lt_of_le hlt hserves.next_le, ?_⟩
  rintro p hp rfl
  obtain ⟨hold, hstarted, hcancelled⟩ | hnew := hserves.origin p hp
  · obtain h | h := hgone p hold rfl
    · exact hstarted h
    · exact hcancelled h
  · exact absurd hlt (Nat.not_lt.mpr hnew)

theorem started?_mem (hc : c.engine.timing.Tasked) {p : Pending (Job (Callback κ))}
    (h : c.started? = some p) :
  p ∈ c.engine.timing.scheduler.queue
  := by
  obtain ⟨target, -, hdue⟩ := Option.bind_eq_some_iff.mp h
  exact ((hc.tick target).first p hdue).1

/-! ### Starts -/

/-- The clock never goes back. -/
theorem Run.now_le (h : Run H cs c) {b : Configuration κ π σ} (hb : b ∈ cs) :
  b.engine.timing.now ≤ c.engine.timing.now
  := by
  refine h.related (p := fun b c => b.engine.timing.now ≤ c.engine.timing.now) ?_ Nat.le_trans hb
  exact fun hrun hstep => (hstep.serves hrun.tasked).now_le

/-- The tasks that were started are before those that wait, and do not wait. -/
theorem Run.before_of_started (h : Run H cs c) {p : Pending (Job (Callback κ))}
    (hp : p ∈ cs.filterMap started?) :
  p.id < c.engine.timing.scheduler.nextId ∧ p.due ≤ c.engine.timing.now
    ∧ ∀ q ∈ c.engine.timing.scheduler.queue, q.id ≠ p.id ∧ p.Before q
  := by
  induction h with
  | start => cases hp
  | @next cs c d hrun hstep ih =>
    have htasked := hrun.tasked
    have hserves := hstep.serves htasked
    obtain ⟨hlt, hdue, hold⟩ : p.id < c.engine.timing.scheduler.nextId
        ∧ p.due ≤ d.engine.timing.now ∧ ∀ q ∈ c.engine.timing.scheduler.queue,
          c.started? ≠ some q → q.id ≠ p.id ∧ p.Before q := by
      rw [List.filterMap_append, List.mem_append] at hp
      obtain hp | hp := hp
      · obtain ⟨hlt, hdue, hwaiting⟩ := ih hp
        exact ⟨hlt, Nat.le_trans hdue hserves.now_le, fun q hq _ => hwaiting q hq⟩
      · obtain ⟨b, hb, hstarted⟩ := List.mem_filterMap.mp hp
        obtain rfl := List.mem_singleton.mp hb
        obtain ⟨hmem, hdue, hfirst⟩ := hserves.first p hstarted
        refine ⟨htasked.ordered.fresh p hmem, hdue, fun q hq hne => ?_⟩
        have hne : q ≠ p := by
          rintro rfl
          exact hne hstarted
        exact ⟨fun hid => hne (htasked.ordered.eq_of_id_eq hq hmem hid), hfirst q hq hne⟩
    refine ⟨Nat.lt_of_lt_of_le hlt hserves.next_le, hdue, fun q hq => ?_⟩
    obtain ⟨hq', hne, -⟩ | hnew := hserves.origin q hq
    · exact hold q hq' hne
    · -- A new task falls due now at the earliest.
      have := hserves.tasked.ordered.due q hq
      have hid : p.id < q.id := Nat.lt_of_lt_of_le hlt hnew
      refine ⟨Nat.ne_of_gt hid, ?_⟩
      simp only [Pending.Before]
      change d.engine.timing.now ≤ q.due at this
      omega

/-- Tasks start in their order, and each at most once. -/
theorem Run.pairwise_started (h : Run H cs c) :
  (cs.filterMap started?).Pairwise fun p q => p.Before q ∧ p.id ≠ q.id
  := by
  induction h with
  | start => exact .nil
  | @next cs c d hrun hstep ih =>
    rw [List.filterMap_append]
    refine List.pairwise_append.mpr ⟨ih, ?_, ?_⟩
    · rw [List.filterMap_cons, List.filterMap_nil]
      split
      · exact .nil
      · exact List.pairwise_singleton _ _
    · intro p hp q hq
      obtain ⟨b, hb, hstarted⟩ := List.mem_filterMap.mp hq
      obtain rfl := List.mem_singleton.mp hb
      obtain ⟨-, -, hwaiting⟩ := hrun.before_of_started hp
      obtain ⟨hid, hbefore⟩ := hwaiting q (started?_mem hrun.tasked hstarted)
      exact ⟨hbefore, hid.symm⟩

/-- A task starts with the clock at its due time, on top of what is under way. -/
theorem exists_runJob {p : Pending (Job (Callback κ))} (hc : c.engine.timing.Tasked)
    (h : c.started? = some p) :
  ∃ b, b.engine.timing.now = p.due ∧ b.stack = c.stack
    ∧ step? H c = some (runJob H b p.task)
  := by
  rw [started?, target?] at h
  split at h
  · next target below hcontrol hstack =>
    rw [Option.bind_some, Timing.dueTask?] at h
    obtain ⟨⟨p', scheduler⟩, htake, rfl⟩ := Option.map_eq_some_iff.mp h
    have hnow : scheduler.now = p'.due := (hc.ordered.takeDue htake).2.2.2
    let b := c.withEngine (c.engine.withTiming fun t => { t with scheduler := scheduler })
    refine ⟨b, hnow, rfl, ?_⟩
    rw [step?, hcontrol]
    simp only [hstack, stepClock, htake]
    rfl
  · cases h

/-! ### Cancelled tasks -/

/-- A task that is not waiting any more never waits again, and never starts. -/
theorem Run.gone (h : Run H (before ++ a :: after) c) {task : Nat}
    (hlt : task < a.engine.timing.scheduler.nextId)
    (hgone : ∀ p ∈ a.engine.timing.scheduler.queue, p.id = task →
      a.started? = some p ∨ a.cancelled? = some task) :
  (∀ p ∈ c.engine.timing.scheduler.queue, p.id ≠ task)
    ∧ ∀ b ∈ after ++ [c], ∀ p, b.started? = some p → p.id ≠ task
  := by
  have hnever {b : Configuration κ π σ} (hb : b.engine.timing.Tasked)
      (hnot : ∀ p ∈ b.engine.timing.scheduler.queue, p.id ≠ task) (p) (hp : b.started? = some p) :
      p.id ≠ task :=
    hnot p (started?_mem hb hp)
  have hsince := h.after
    (p := fun after c => task < c.engine.timing.scheduler.nextId
      ∧ (∀ p ∈ c.engine.timing.scheduler.queue, p.id ≠ task)
      ∧ ∀ b ∈ after, ∀ p, b.started? = some p → p.id ≠ task) ?_ ?_
  · obtain ⟨-, hnot, hstarts⟩ := hsince
    refine ⟨hnot, fun b hb => ?_⟩
    obtain hb | hb := List.mem_append.mp hb
    · exact hstarts b hb
    · rw [List.mem_singleton.mp hb]
      exact hnever h.tasked hnot
  · intro d hrun hstep
    obtain ⟨hlt, hnot⟩ := hstep.gone hrun.tasked hlt hgone
    exact ⟨hlt, hnot, by simp⟩
  · intro rest c d hrun hstep ⟨hlt, hnot, hstarts⟩
    obtain ⟨hlt', hnot'⟩ :=
      hstep.gone hrun.tasked hlt fun p hp hid => absurd hid (hnot p hp)
    refine ⟨hlt', hnot', fun b hb => ?_⟩
    obtain hb | hb := List.mem_append.mp hb
    · exact hstarts b hb
    · rw [List.mem_singleton.mp hb]
      exact hnever hrun.tasked hnot

/-- The reply to a cancel says whether the task was waiting. -/
theorem step?_cancel (hc : c.engine.timing.Tasked) {task : Nat} {point : π}
    (hcontrol : c.control = .host (.call (.cancel task) point)) :
  ∃ d waiting, step? H c = some d ∧ d.control = .back (.flag waiting)
    ∧ (waiting = true ↔ ∃ p ∈ c.engine.timing.scheduler.queue, p.id = task)
  := by
  rw [step?, hcontrol]
  exact ⟨_, _, rfl, rfl, hc.ordered.isPending_iff task⟩

/-- The task that the host schedules is put on the queue. -/
theorem Evolves.schedule (h : Evolves H a c) {ms : Nat} {code : κ} {point : π}
    (hcontrol : a.control = .host (.call (.schedule ms code) point)) :
  c.engine.timing = a.engine.timing.schedule ms (.code code)
  := by
  rw [h.eq_perform hcontrol]
  rfl

/-- The task with a number neither starts nor is cancelled by the host in the next step. -/
def Leaves (task : Nat) (c : Configuration κ π σ) : Prop :=
  (∀ p, c.started? = some p → p.id ≠ task) ∧ c.cancelled? ≠ some task

/-- A task that the host has scheduled waits until it starts or is cancelled. -/
theorem Run.waiting_iff (h : Run H (before ++ a :: after) c) {ms : Nat} {code : κ} {point : π}
    (hcontrol : a.control = .host (.call (.schedule ms code) point)) :
  (∃ p ∈ c.engine.timing.scheduler.queue, p.id = a.engine.timing.scheduler.nextId)
    ↔ ∀ b ∈ after, b.Leaves a.engine.timing.scheduler.nextId
  := by
  generalize htask : a.engine.timing.scheduler.nextId = task
  suffices hwaits : ((∃ p ∈ c.engine.timing.scheduler.queue, p.id = task ∧ p.task.timer? = none)
        ∧ ∀ b ∈ after, b.Leaves task)
      ∨ ((task < c.engine.timing.scheduler.nextId
          ∧ ∀ p ∈ c.engine.timing.scheduler.queue, p.id ≠ task)
        ∧ ¬∀ b ∈ after, b.Leaves task) by
    obtain ⟨⟨p, hp, hid, -⟩, hleaves⟩ | ⟨⟨-, hgone⟩, hnot⟩ := hwaits
    · exact iff_of_true ⟨p, hp, hid⟩ hleaves
    · refine iff_of_false ?_ hnot
      rintro ⟨p, hp, hid⟩
      exact hgone p hp hid
  refine h.after (p := fun after c =>
    ((∃ p ∈ c.engine.timing.scheduler.queue, p.id = task ∧ p.task.timer? = none)
        ∧ ∀ b ∈ after, b.Leaves task)
      ∨ ((task < c.engine.timing.scheduler.nextId
          ∧ ∀ p ∈ c.engine.timing.scheduler.queue, p.id ≠ task)
        ∧ ¬∀ b ∈ after, b.Leaves task)) ?_ ?_
  · intro d _ hstep
    left
    rw [hstep.schedule hcontrol]
    exact ⟨⟨_, (Scheduler.mem_enqueue _ _ _).mpr (.inl rfl), htask, rfl⟩, by simp⟩
  · intro rest c d hrun hstep hc
    have htasked := hrun.tasked
    obtain ⟨⟨p, hp, rfl, hcode⟩, hleaves⟩ | ⟨⟨hlt, hgone⟩, hnot⟩ := hc
    · by_cases hlast : c.Leaves p.id
      · left
        refine ⟨⟨p, (hstep.serves htasked).kept p hp hcode ?_ hlast.2, rfl, hcode⟩, ?_⟩
        · exact fun hstarted => hlast.1 p hstarted rfl
        · intro b hb
          obtain hb | hb := List.mem_append.mp hb
          · exact hleaves b hb
          · exact List.mem_singleton.mp hb ▸ hlast
      · right
        refine ⟨hstep.gone htasked (htasked.ordered.fresh p hp) ?_,
          fun hall => hlast (hall c (by simp))⟩
        intro q hq hid
        obtain rfl := htasked.ordered.eq_of_id_eq hq hp hid
        rw [Leaves, not_and_or, not_not] at hlast
        refine hlast.imp_left fun hstarts => ?_
        push Not at hstarts
        obtain ⟨p, hstarted, hid⟩ := hstarts
        rw [hstarted, htasked.ordered.eq_of_id_eq (started?_mem htasked hstarted) hp hid]
    · right
      refine ⟨hstep.gone htasked hlt fun p hp hid => absurd hid (hgone p hp), ?_⟩
      exact fun hall => hnot fun b hb => hall b (List.mem_append_left _ hb)

/-! ### Advances -/

/-- The clock stops when no task waits that is due. -/
theorem stepClock_stack (hc : c.engine.timing.Tasked) (target : Nat)
    (below : List (Frame κ π)) :
  Tops c.stack (stepClock H c target below).stack
    ∨ ((stepClock H c target below).stack = below
      ∧ (stepClock H c target below).control = .back .done
      ∧ target ≤ (stepClock H c target below).engine.timing.now
      ∧ ∀ p ∈ (stepClock H c target below).engine.timing.scheduler.queue, target < p.due)
  := by
  rw [stepClock]
  split
  · next htake =>
    exact .inr ⟨rfl, rfl, Nat.le_max_right _ _, fun p hp => hc.ordered.lt_due htake hp⟩
  · refine .inl (tops_runJob ?_ _)
    exact .refl c.stack

/-- The clock on its way keeps what is under it, until no task waits that is due. -/
theorem advancing_of_step (h : step? H c = some d) (hc : c.engine.timing.Tasked) {target : Nat}
    {top below : List (Frame κ π)} (hstack : c.stack = top ++ .advancing target :: below) :
  (∃ top, d.stack = top ++ .advancing target :: below)
    ∨ (d.stack = below ∧ d.control = .back .done ∧ target ≤ d.engine.timing.now
      ∧ ∀ p ∈ d.engine.timing.scheduler.queue, target < p.due)
  := by
  have htops (st : List (Frame κ π)) (hst : Tops (st ++ .advancing target :: below) d.stack) :
      ∃ top, d.stack = top ++ .advancing target :: below := by
    obtain ⟨top, htop, -⟩ := hst
    exact ⟨top ++ st, by rw [htop, List.append_assoc]⟩
  by_cases hstill : c.Still
  · obtain ⟨-, hst⟩ | ⟨hback, f, rest, hrest, hst⟩ := step?_stack h hstill
    · exact .inl (htops top (hstack ▸ hst))
    · rw [hrest] at hstack
      obtain ⟨rfl, hf⟩ | ⟨top, rfl, rfl⟩ := List.cons_eq_append_iff.mp hstack
      · obtain ⟨rfl, rfl⟩ := List.cons.inj hf
        cases hcontrol : c.control with
        | host => simp [hcontrol, Control.isBack] at hback
        | back reply =>
          simp only [step?, hcontrol, hrest, Option.some.injEq] at h
          subst h
          refine (stepClock_stack hc _ _).imp_left fun hst => ?_
          exact htops [] (hrest ▸ hst)
      · obtain hst | ⟨t, rfl, hst⟩ := hst
        · exact .inl (htops top hst)
        · left
          refine htops (.advancing t :: top) ?_
          rw [List.cons_append, ← hrest]
          exact hst
  · obtain ⟨t, point, hst⟩ := stack_of_not_still h hstill
    exact .inl ⟨.advancing t :: .waiting point :: top, by rw [hst, hstack]; rfl⟩

theorem Evolves.advancing (h : Evolves H c d) (hc : c.engine.timing.Tasked) {target : Nat}
    {top below : List (Frame κ π)} (hstack : c.stack = top ++ .advancing target :: below) :
  (∃ top, d.stack = top ++ .advancing target :: below)
    ∨ (d.stack = below ∧ target ≤ d.engine.timing.now
      ∧ ∀ p ∈ d.engine.timing.scheduler.queue, target < p.due)
  := by
  cases h with
  | enter _ _ hidle | addPool hidle | addRegistry _ hidle =>
    rw [hidle.1] at hstack
    simp at hstack
  | step _ hstep =>
    obtain htop | ⟨hst, -, harrived⟩ := advancing_of_step hstep hc hstack
    · exact .inl htop
    · exact .inr ⟨hst, harrived⟩

/-- A call of the host returns: what was under way when it was made is under way again, for
the first time. -/
def ComesBack (a : Configuration κ π σ) (point : π) (after : List (Configuration κ π σ))
    (c : Configuration κ π σ) : Prop :=
  c.stack = .waiting point :: a.stack ∧ ∀ b ∈ after, b.stack ≠ .waiting point :: a.stack

/-- When an advance of the clock returns, no task waits that is due by then. -/
theorem Run.advanced (h : Run H (before ++ a :: after) c) {ms : Nat} {point : π}
    (hcontrol : a.control = .host (.call (.advance ms) point))
    (hreturns : ComesBack a point after c) :
  a.engine.timing.now + ms ≤ c.engine.timing.now
    ∧ ∀ p ∈ c.engine.timing.scheduler.queue, a.engine.timing.now + ms < p.due
  := by
  obtain ⟨hstack, hafter⟩ := hreturns
  have hway := h.after (p := fun after c => (∀ b ∈ after, b.stack ≠ .waiting point :: a.stack) →
    (∃ top, c.stack = top ++ .advancing (a.engine.timing.now + ms) :: .waiting point :: a.stack)
      ∨ (c.stack = .waiting point :: a.stack
        ∧ a.engine.timing.now + ms ≤ c.engine.timing.now
        ∧ ∀ p ∈ c.engine.timing.scheduler.queue, a.engine.timing.now + ms < p.due)) ?_ ?_ hafter
  · obtain ⟨top, htop⟩ | ⟨-, harrived⟩ := hway
    · rw [hstack] at htop
      have := congrArg List.length htop
      simp at this
      omega
    · exact harrived
  · intro d _ hstep _
    obtain rfl := hstep.eq_perform hcontrol
    exact .inl ⟨[], rfl⟩
  · intro rest c d hrun hstep hc hafter
    obtain ⟨top, htop⟩ | ⟨hst, -⟩ := hc fun b hb => hafter b (List.mem_append_left _ hb)
    · exact hstep.advancing hrun.tasked htop
    · exact absurd hst (hafter c (by simp))

/-! ### Punctual runs -/

/-- The clock never goes back, and the index and the queue have the same tasks, each under its
own number.  Tasks start in the order of their due times, and of their numbers when these are
the same; each starts at most once, with the clock at its due time.

The reply to a cancel says whether the task was waiting, and a task whose cancel was answered
with yes never starts.  A task that the host has scheduled waits until it starts or is
cancelled.  When an advance of the clock returns, the clock is there, and every task that waits
falls due later. -/
theorem Run.punctual (h : Run H cs c) :
  (∀ b ∈ cs, b.engine.timing.now ≤ c.engine.timing.now)
    ∧ (c.engine.timing.scheduler.queue.map Pending.id).Nodup
    ∧ (∀ task due, c.engine.timing.scheduler.due.get? task = some due
      ↔ ∃ p ∈ c.engine.timing.scheduler.queue, p.id = task ∧ p.due = due)
    ∧ (cs.filterMap started?).Pairwise (fun p q => p.Before q ∧ p.id ≠ q.id)
    ∧ (∀ p, c.started? = some p → p ∈ c.engine.timing.scheduler.queue
      ∧ ∃ b, b.engine.timing.now = p.due ∧ b.stack = c.stack
        ∧ step? H c = some (runJob H b p.task))
    ∧ (∀ task point, c.control = .host (.call (.cancel task) point) →
      ∃ d waiting, step? H c = some d ∧ d.control = .back (.flag waiting)
        ∧ (waiting = true ↔ ∃ p ∈ c.engine.timing.scheduler.queue, p.id = task))
    ∧ ∀ before a after, cs = before ++ a :: after →
      (∀ task, a.cancelled? = some task →
          (∃ p ∈ a.engine.timing.scheduler.queue, p.id = task) →
          (∀ p ∈ c.engine.timing.scheduler.queue, p.id ≠ task)
            ∧ ∀ b ∈ after ++ [c], ∀ p, b.started? = some p → p.id ≠ task)
        ∧ (∀ ms code point, a.control = .host (.call (.schedule ms code) point) →
          ((∃ p ∈ c.engine.timing.scheduler.queue, p.id = a.engine.timing.scheduler.nextId)
            ↔ ∀ b ∈ after, b.Leaves a.engine.timing.scheduler.nextId))
        ∧ ∀ ms point, a.control = .host (.call (.advance ms) point) → ComesBack a point after c →
          a.engine.timing.now + ms ≤ c.engine.timing.now
            ∧ ∀ p ∈ c.engine.timing.scheduler.queue, a.engine.timing.now + ms < p.due
  := by
  have htasked := h.tasked
  refine ⟨fun b hb => h.now_le hb, htasked.ordered.distinct, htasked.ordered.index,
    h.pairwise_started, fun p hp => ⟨started?_mem htasked hp, exists_runJob htasked hp⟩,
    fun task point hcontrol => step?_cancel htasked hcontrol, ?_⟩
  rintro before a after rfl
  refine ⟨?_, fun ms code point hcontrol => h.waiting_iff hcontrol,
    fun ms point hcontrol hreturns => h.advanced hcontrol hreturns⟩
  rintro task hcancelled ⟨p, hp, rfl⟩
  exact h.gone (h.of_append.tasked.ordered.fresh p hp) fun _ _ _ => .inr hcancelled

/-- The first task advances the clock past the time that it was started on the way to, and
schedules a task without delay. -/
def nested : Nat → Script Nat
  | 0 => [.advance 10, .schedule 0 2]
  | _ => []

/-- Three tasks are scheduled and one of them is cancelled; then the clock is advanced twice. -/
def nestedCalls : Script Nat :=
  [.schedule 5 0, .schedule 7 1, .schedule 12 1, .cancel 2, .advance 6, .advance 0]

/-- The host of nested tasks. -/
def nestedHost : Host Nat (Script Nat) Unit :=
  scripted nested (fun _ => .error (.unknownService "")) 0

/-- The first `n` steps in which the calls are made. -/
def nestedRun (n : Nat) :
    List (Configuration Nat (Script Nat) Unit) × Configuration Nat (Script Nat) Unit :=
  let begun := (idle .empty ()).enter nestedHost fun _ s => (nestedCalls.next, s)
  (idle .empty () :: (trail nestedHost n begun).1, (trail nestedHost n begun).2)

/-- The second task starts within the first one, and the task without delay after both; the
clock has passed the time of the first advance when that returns. -/
theorem nested_punctual :
  ((nestedRun 40).1.filterMap started?).map (fun p => (p.due, p.id)) = [(5, 0), (7, 1), (15, 3)]
    ∧ ((nestedRun 40).1.filterMap started?).Pairwise (fun p q => p.Before q ∧ p.id ≠ q.id)
    ∧ (∀ b ∈ (nestedRun 40).1, b.engine.timing.now ≤ (nestedRun 40).2.engine.timing.now)
    ∧ (nestedRun 40).2.engine.timing.now = 15
  := by
  have hbegun : Run nestedHost [idle .empty ()]
      ((idle .empty ()).enter nestedHost fun _ s => (nestedCalls.next, s)) :=
    .next (.start ()) (.enter () _ ⟨rfl, .done, rfl⟩)
  have hnone : (machines nestedHost (nestedRun 40).1.tail).isEmpty = true := by decide +kernel
  have hrun : Run nestedHost (nestedRun 40).1 (nestedRun 40).2 := by
    refine hbegun.trail 40 fun m hm => ?_
    rw [List.isEmpty_iff] at hnone
    exact absurd hm (hnone ▸ List.not_mem_nil)
  obtain ⟨hnow, -, -, hstarted, -⟩ := hrun.punctual
  exact ⟨by decide +kernel, hstarted, hnow, by decide +kernel⟩

end Configuration

end Statechart
