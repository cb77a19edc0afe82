import Statechart.Proofs.Grounds
import Statechart.Proofs.Parallel

/-!
# Advances in two parts

The clock may be advanced at once or in two parts: if no task that runs advances the clock
itself, the same tasks start in the same order at the same readings of the clock, and everything
is the same in the end (`Configuration.Run.advance_split`).  Until the clock arrives at the end
of the first part the two go the same way on top of different activities.  From then on they are
the same, but for a reply that the clock does not look at.
-/

namespace Statechart

variable {κ π σ τ : Type}

namespace Scheduler

variable {s : Scheduler τ} {now target : Nat}

/-- The clock sets the time itself when it takes a task off its queue. -/
theorem takeDue_settle (s : Scheduler τ) (now target : Nat) :
  (s.settle now).takeDue target = s.takeDue target
  := by
  rw [takeDue, takeDue]
  rfl

/-- A clock that moves on in two parts arrives where it does at once. -/
theorem settle_settle (h : now ≤ target) :
  (s.settle now).settle target = s.settle target
  := by
  simp only [settle, max_assoc, max_eq_right h]

/-- A task that is due early is due on any longer way. -/
theorem takeDue_of_le {p : Pending τ} {s' : Scheduler τ} (h : s.takeDue now = some (p, s'))
    (hle : now ≤ target) :
  s.takeDue target = some (p, s')
  := by
  rw [takeDue] at h ⊢
  split at h
  · cases h
  · split at h
    · next hdue =>
      simp only [if_pos (Nat.le_trans hdue hle)]
      exact h
    · cases h

end Scheduler

namespace Configuration

variable {H : Host κ π σ} {c c' d x y : Configuration κ π σ} {w w' below : List (Frame κ π)}
  {target : Nat}

/-! ### Launches -/

/-- The task that starts in the next step, and the reading of the clock at which it does. -/
def launch? (H : Host κ π σ) (c : Configuration κ π σ) :
    Option (Pending (Job (Callback κ)) × Nat) :=
  c.started?.bind fun p => (step? H c).map fun d => (p, d.engine.timing.now)

/-- A task that starts does so at the time to which the step takes the clock. -/
theorem launch?_eq (hstep : step? H c = some d) :
  launch? H c = c.started?.map fun p => (p, d.engine.timing.now)
  := by
  rw [launch?, hstep]
  cases c.started? <;> rfl

/-- Tasks start only while the clock is being advanced. -/
theorem launch?_of_target? (htarget : c.target? = none) :
  launch? H c = none
  := by
  rw [launch?, started?, htarget]
  rfl

/-! ### Replies to the clock -/

/-- Two configurations are the same, but for a reply that the clock does not look at. -/
inductive Agree : Configuration κ π σ → Configuration κ π σ → Prop where
  | refl (c : Configuration κ π σ) : Agree c c
  | reply {c : Configuration κ π σ} {f : Frame κ π} {below : List (Frame κ π)}
      (reply reply' : Reply κ) : c.stack = f :: below → f.isClock = true →
      Agree (c.back reply) (c.back reply')

/-- Configurations that agree have the same engine. -/
theorem Agree.engine_eq (h : Agree c c') :
  c'.engine = c.engine
  := by
  cases h <;> rfl

theorem engine_back (c : Configuration κ π σ) (reply : Reply κ) :
  (c.back reply).engine = c.engine
  := rfl

/-- Callbacks of the clock do not see the reply to what went before. -/
theorem call_back (H : Host κ π σ) (c : Configuration κ π σ) (reply reply' : Reply κ)
    (cb : Callback κ) :
  call H (c.back reply) cb = call H (c.back reply') cb
  := by
  cases cb with
  | code code => rfl
  | after i state key generation =>
    rw [call, call, deliver, deliver, engine_back, engine_back]
    cases c.engine.get? i with
    | none => rfl
    | some x =>
      simp only
      cases x.busy <;> rfl

/-- A task is started whatever the reply to the clock was. -/
theorem agree_runJob {f : Frame κ π} (hstack : c.stack = f :: below) (hf : f.isClock = true)
    (reply reply' : Reply κ) (job : Job (Callback κ)) :
  Agree (runJob H (c.back reply) job) (runJob H (c.back reply') job)
  := by
  cases job with
  | task cb =>
    rw [runJob, runJob, call_back H c reply reply']
    exact .refl _
  | timer id =>
    rw [runJob, runJob, engine_back, engine_back]
    obtain ⟨fired, timing⟩ := c.engine.timing.fire id
    let b := c.withEngine { c.engine with timing := timing }
    cases fired with
    | none => exact .reply (c := b) reply reply' hstack hf
    | some fired =>
      obtain ⟨callback, channel⟩ := fired
      let b' := b.withStack (.fired channel :: c.stack)
      cases callback with
      | none => exact .reply (c := b') reply reply' rfl rfl
      | some callback =>
        have hcall : call H (b'.back reply) callback = call H (b'.back reply') callback :=
          call_back H b' reply reply' callback
        change Agree (call H (b'.back reply) callback) (call H (b'.back reply') callback)
        rw [hcall]
        exact .refl _

/-- The clock does not look at the reply, and sets the time itself. -/
theorem agree_stepClock {f : Frame κ π} {rest : List (Frame κ π)} (hstack : c.stack = f :: rest)
    (hf : f.isClock = true) (reply reply' : Reply κ) (target : Nat) (below : List (Frame κ π)) :
  Agree (stepClock H (c.back reply) target below) (stepClock H (c.back reply') target below)
  := by
  rw [stepClock, stepClock, engine_back, engine_back]
  cases c.engine.timing.scheduler.takeDue target with
  | none => exact .refl _
  | some taken =>
    exact agree_runJob (c := c.withEngine
      (c.engine.withTiming fun t => { t with scheduler := taken.2 })) hstack hf reply reply' _

/-- Where the clock stands on its way makes no difference to what it does next. -/
theorem stepClock_lapse (c : Configuration κ π σ) {now : Nat} (h : now ≤ target)
    (below : List (Frame κ π)) :
  stepClock H (c.withEngine (c.engine.withTiming fun t => t.lapse now)) target below
    = stepClock H c target below
  := by
  have htake : (c.withEngine (c.engine.withTiming
      fun t => t.lapse now)).engine.timing.scheduler.takeDue target
      = c.engine.timing.scheduler.takeDue target := Scheduler.takeDue_settle _ now target
  rw [stepClock, stepClock, htake]
  cases c.engine.timing.scheduler.takeDue target with
  | none =>
    change ((c.withEngine (c.engine.withTiming fun t => { t with
      scheduler := (t.scheduler.settle now).settle target })).withStack below).back .done = _
    simp only [Scheduler.settle_settle h]
  | some taken => rfl

/-- Configurations that agree go on alike. -/
theorem Agree.step (h : Agree c c') (hstep : step? H c = some d) :
  ∃ d', step? H c' = some d' ∧ Agree d d' ∧ launch? H c' = launch? H c
  := by
  cases h with
  | refl => exact ⟨d, hstep, .refl d, rfl⟩
  | @reply c f below reply reply' hstack hf =>
    have hnext : ∃ d', step? H (c.back reply') = some d' ∧ Agree d d' := by
      cases f with
      | advancing target =>
        have hclock (r : Reply κ) :
            step? H (c.back r) = some (stepClock H (c.back r) target below) :=
          step?_of_target? rfl hstack
        rw [hclock, Option.some.injEq] at hstep
        exact ⟨_, hclock reply', hstep ▸ agree_stepClock hstack hf reply reply' _ _⟩
      | fired channel =>
        simp only [step?, back, hstack, Option.some.injEq] at hstep ⊢
        exact ⟨d, hstep, .refl d⟩
      | _ => cases hf
    obtain ⟨d', hstep', hagree⟩ := hnext
    have hstarted : (c.back reply').started? = (c.back reply).started? := by
      simp only [started?, target?, back, hstack]
      cases f <;> rfl
    refine ⟨d', hstep', hagree, ?_⟩
    rw [launch?_eq hstep', launch?_eq hstep, hstarted, hagree.engine_eq]

/-! ### On top of the clock -/

/-- The time stands still in a step that is none of the clock. -/
theorem now_of_step (h : step? H c = some d) (hc : c.engine.timing.Tasked)
    (htarget : c.target? = none) :
  d.engine.timing.now = c.engine.timing.now
  := by
  obtain ⟨f, hf, -, htiming⟩ | ⟨target, -, ht, -⟩ | ⟨-, -, hkeeps⟩ := Timing.Keeps.covers.step h
  · obtain ⟨call, point, -, hf⟩ := exists_call_of_operation? hf
    rw [htiming]
    by_cases hcancel : ∃ task, call = .cancel task
    · obtain ⟨task, rfl⟩ := hcancel
      cases hf
      exact Scheduler.now_cancel _ _
    · exact (call.keeps hf (fun task heq => hcancel ⟨task, heq⟩) hc).now
  · rw [htarget] at ht
    cases ht
  · exact (hkeeps hc).now

/-- The clock is not under way. -/
def Idles (c : Configuration κ π σ) : Prop := ∀ target, .advancing target ∉ c.stack

/-- A clock that is not under way is not put on top of work. -/
theorem Idles.of_tops (h : c.Idles) (htops : Tops c.stack d.stack) :
  d.Idles
  := by
  obtain ⟨top, hstack, htop⟩ := htops
  intro target
  rw [hstack, List.mem_append, not_or]
  exact ⟨htop target, h target⟩

/-- A clock that is not under way stays so unless the host advances it. -/
theorem Idles.step (h : c.Idles) (hstep : step? H c = some d) (hstill : c.Still) :
  d.Idles
  := by
  obtain ⟨-, htops⟩ | ⟨-, f, below, hstack, htops⟩ := step?_stack hstep hstill
  · exact h.of_tops htops
  · have hbelow : (c.withStack below).Idles := fun target hmem =>
      h target (hstack ▸ List.mem_cons_of_mem f hmem)
    obtain htops | ⟨target, rfl, -⟩ := htops
    · exact hbelow.of_tops htops
    · exact absurd (hstack ▸ List.mem_cons_self) (h target)

/-- The clock below does not go on as long as something is on top of it. -/
theorem target?_onto (h : c.Idles) (hbusy : c.control.isBack = true → c.stack ≠ [])
    (w : List (Frame κ π)) :
  (c.onto w).target? = none
  := by
  rw [target?, control_onto, stack_onto]
  cases hcontrol : c.control with
  | host next => rfl
  | back reply =>
    cases hstack : c.stack with
    | nil => exact absurd hstack (hbusy (by rw [hcontrol]; rfl))
    | cons f below =>
      cases f with
      | advancing target => exact absurd (hstack ▸ List.mem_cons_self) (h target)
      | _ => rfl

/-- Work that is under way goes on in the same way on top of any activities. -/
theorem Idles.exists_step (h : x.Idles) (hbusy : x.control.isBack = true → x.stack ≠ [])
    (hstill : x.Still) (htasked : x.engine.timing.Tasked) (howners : owners w' = owners w)
    (hstep : step? H (x.onto w) = some d) :
  ∃ y : Configuration κ π σ, y.Idles ∧ y.engine.timing.now = x.engine.timing.now ∧ d = y.onto w
    ∧ step? H (x.onto w') = some (y.onto w')
    ∧ launch? H (x.onto w) = none ∧ launch? H (x.onto w') = none
  := by
  have hnow := now_of_step hstep htasked (target?_onto h hbusy w)
  rw [step?_onto hbusy] at hstep
  obtain ⟨y, hy, rfl⟩ := Option.map_eq_some_iff.mp hstep
  refine ⟨y, h.step hy hstill, hnow, rfl, ?_, launch?_of_target? (target?_onto h hbusy w),
    launch?_of_target? (target?_onto h hbusy w')⟩
  rw [step?_onto hbusy, howners, hy]
  rfl

/-! ### The clock on its way -/

/-- The activities while the clock is on its way to a time as the host has asked for. -/
def wayTo (a : Configuration κ π σ) (target : Nat) (point : π) : List (Frame κ π) :=
  .advancing target :: .waiting point :: a.stack

/-- What is on top of the way to a target is the clock, when nothing else is. -/
theorem stack_onto_wayTo (hstack : x.stack = []) (a : Configuration κ π σ) (target : Nat)
    (point : π) :
  (x.onto (a.wayTo target point)).stack = .advancing target :: .waiting point :: a.stack
  := by
  rw [stack_onto, hstack]
  rfl

/-- A task that the clock takes off its queue is started. -/
theorem step?_of_due (a : Configuration κ π σ) (point : π) (hstack : x.stack = [])
    {reply : Reply κ} (hcontrol : x.control = .back reply) (htasked : x.engine.timing.Tasked)
    {p : Pending (Job (Callback κ))} {scheduler : Scheduler (Job (Callback κ))}
    (htake : x.engine.timing.scheduler.takeDue target = some (p, scheduler))
    (hy : y = runJob (H.holding (owners a.stack))
      (x.withEngine (x.engine.withTiming fun t => { t with scheduler := scheduler })) p.task) :
  step? H (x.onto (a.wayTo target point)) = some (y.onto (a.wayTo target point))
    ∧ launch? H (x.onto (a.wayTo target point)) = some (p, p.due)
    ∧ y.Idles ∧ y.engine.timing.now = p.due
  := by
  have hway := stack_onto_wayTo hstack a target point
  have hclock : stepClock H (x.onto (a.wayTo target point)) target (.waiting point :: a.stack)
      = y.onto (a.wayTo target point) := by
    subst hy
    rw [stepClock, engine_onto, htake]
    exact runJob_onto H (x.withEngine _) (a.wayTo target point) p.task
  have hstep := step?_of_target? (H := H) (c := x.onto (a.wayTo target point)) hcontrol hway
  have hnow := now_stepClock (H := H) (c := x.onto (a.wayTo target point)) htasked hway htake
  rw [hclock] at hstep hnow
  have hstarted : (x.onto (a.wayTo target point)).started? = some p := by
    rw [started?_of_advancing (c := x.onto (a.wayTo target point)) hcontrol hway, engine_onto,
      Timing.dueTask?, htake]
    rfl
  refine ⟨hstep, ?_, ?_, hnow⟩
  · rw [launch?_eq hstep, hstarted, hnow]
    rfl
  · have hidles : x.Idles := fun target => hstack ▸ List.not_mem_nil
    subst hy
    exact hidles.of_tops (tops_runJob (c := x.withEngine _) (Tops.refl _) p.task)

/-- The host asks for something instead. -/
def asking (c : Configuration κ π σ) (call : Call κ) (point : π) : Configuration κ π σ :=
  { c with control := .host (.call call point) }

section

variable {a : Configuration κ π σ} {before rest bs : List (Configuration κ π σ)} {m n : Nat}
  {p q : π}

/-- No task is due on the first part of the way: the clock arrives, and the host asks for the
second part. -/
theorem exists_steps_of_arrival (hasks : H.Asks p (.advance n) q) (hstack : x.stack = [])
    {reply : Reply κ} (hcontrol : x.control = .back reply)
    (hnow : x.engine.timing.now ≤ a.engine.timing.now + m)
    (htake : x.engine.timing.scheduler.takeDue (a.engine.timing.now + m) = none)
    (hsettled : Settled H (x.onto (a.wayTo (a.engine.timing.now + m) p))) :
  ∃ bs, Steps H (x.onto (a.wayTo (a.engine.timing.now + m) p)) bs
      (((x.onto (a.wayTo (a.engine.timing.now + (m + n)) q)).withEngine
        (x.engine.withTiming fun t => t.lapse (a.engine.timing.now + m))).back .done)
    ∧ bs.filterMap (launch? H) = []
  := by
  let arrived : Configuration κ π σ := ((x.withEngine
    (x.engine.withTiming fun t => t.lapse (a.engine.timing.now + m))).withStack
      (.waiting p :: a.stack)).back .done
  let again : Configuration κ π σ := { arrived with
    stack := a.stack, control := .host (.call (.advance n) q) }
  have hway := stack_onto_wayTo hstack a
  have hfirst : step? H (x.onto (a.wayTo (a.engine.timing.now + m) p)) = some arrived := by
    rw [step?_of_target? (c := x.onto _) hcontrol (hway _ p),
      stepClock_of_none (c := x.onto _) htake]
    rfl
  have hsecond : step? H arrived = some again :=
    step?_of_asks hasks rfl rfl (hsettled.of_instances_eq rfl rfl rfl (by rw [hway]; rfl))
  have hreading : arrived.engine.timing.now + n = a.engine.timing.now + (m + n) := by
    change max x.engine.timing.now (a.engine.timing.now + m) + n = _
    omega
  have hthird : step? H again
      = some (((x.onto (a.wayTo (a.engine.timing.now + (m + n)) q)).withEngine
        (x.engine.withTiming fun t => t.lapse (a.engine.timing.now + m))).back .done) := by
    change some ((arrived.withStack
      (.advancing (arrived.engine.timing.now + n) :: .waiting q :: a.stack)).back .done) = _
    rw [hreading, ← hway]
    rfl
  refine ⟨_, .step hfirst (.step hsecond (.step hthird (.refl _))), ?_⟩
  have hnone : launch? H (x.onto (a.wayTo (a.engine.timing.now + m) p)) = none := by
    rw [launch?_eq hfirst, started?_of_advancing (c := x.onto _) hcontrol (hway _ p), engine_onto,
      Timing.dueTask?, htake]
    rfl
  simp only [List.filterMap_cons, hnone, List.filterMap_nil,
    launch?_of_target? (c := arrived) rfl, launch?_of_target? (c := again) rfl]

/-- Once the clock has arrived at the end of the first part, it goes on as it would have done
otherwise. -/
theorem exists_step_of_lapse {reply : Reply κ} {now : Nat} (hnow : now ≤ target)
    (hcontrol : c.control = .back reply) (hstack : c.stack = .advancing target :: below)
    (hstep : step? H c = some d) :
  ∃ d', step? H ((c.withEngine (c.engine.withTiming fun t => t.lapse now)).back .done) = some d'
    ∧ Agree d d'
    ∧ launch? H ((c.withEngine (c.engine.withTiming fun t => t.lapse now)).back .done)
      = launch? H c
  := by
  let b := c.withEngine (c.engine.withTiming fun t => t.lapse now)
  have hb : step? H (b.back .done) = some (stepClock H (b.back .done) target below) :=
    step?_of_target? rfl hstack
  have hd : d = stepClock H (b.back reply) target below := by
    rw [step?_of_target? hcontrol hstack, Option.some.injEq] at hstep
    rw [← hstep, ← stepClock_lapse c hnow, back, ← hcontrol]
    rfl
  have hagree : Agree d (stepClock H (b.back .done) target below) := by
    rw [hd]
    exact agree_stepClock (c := b) hstack rfl reply .done target below
  have hstarted : (b.back .done).started? = c.started? := by
    rw [started?_of_advancing hcontrol hstack, started?_of_advancing (c := b.back .done) rfl hstack]
    exact congrArg (Option.map Prod.fst) (Scheduler.takeDue_settle _ now target)
  exact ⟨_, hb, hagree, by rw [launch?_eq hb, launch?_eq hstep, hstarted, hagree.engine_eq]⟩

/-! ### Both ways together -/

/-- While one host that advances the clock at once passes `as` and is at `c`, one that does so in
two parts starts the same tasks.  Until the clock arrives at the end of the first part both do the
same on top of different activities; then they agree. -/
inductive Tracks (H : Host κ π σ) (a : Configuration κ π σ) (m n : Nat) (p q : π)
    (as : List (Configuration κ π σ)) (c : Configuration κ π σ) : Prop where
  | before {x : Configuration κ π σ} {bs : List (Configuration κ π σ)} :
    c = x.onto (a.wayTo (a.engine.timing.now + (m + n)) q) →
      x.engine.timing.now ≤ a.engine.timing.now + m → x.Idles →
      Steps H (a.asking (.advance m) p) bs (x.onto (a.wayTo (a.engine.timing.now + m) p)) →
      bs.filterMap (launch? H) = as.filterMap (launch? H) → Tracks H a m n p q as c
  | after {c' : Configuration κ π σ} {bs : List (Configuration κ π σ)} :
    Agree c c' → Steps H (a.asking (.advance m) p) bs c' →
      bs.filterMap (launch? H) = as.filterMap (launch? H) → Tracks H a m n p q as c

/-- The same tasks start on both sides if they do so in the last steps. -/
theorem filterMap_launch?_concat {as : List (Configuration κ π σ)}
    (h : bs.filterMap (launch? H) = as.filterMap (launch? H)) (hlast : launch? H c' = launch? H c) :
  (bs ++ [c']).filterMap (launch? H) = (as ++ [c]).filterMap (launch? H)
  := by
  rw [List.filterMap_append, List.filterMap_append, h, List.filterMap_cons, List.filterMap_cons,
    hlast]

/-- Each step of the one is followed by the other, and the tracks are kept. -/
theorem Tracks.step {as : List (Configuration κ π σ)} (h : Tracks H a m n p q as c)
    (hasks : H.Asks p (.advance n) q) (htasked : c.engine.timing.Tasked)
    (hsettled : c.AtRest → Settled H c) (hstill : c.Still) (hstep : step? H c = some d) :
  Tracks H a m n p q (as ++ [c]) d
  := by
  cases h with
  | @before x bs hc hnow hidles hsteps hseen =>
    subst hc
    have howners (point : π) (target : Nat) : owners (a.wayTo target point)
        = owners (a.wayTo (a.engine.timing.now + (m + n)) q) := rfl
    by_cases hbusy : x.control.isBack = true → x.stack ≠ []
    · obtain ⟨y, hy, hynow, rfl, hstep', hlaunch, hlaunch'⟩ :=
        hidles.exists_step hbusy hstill htasked (howners p _) hstep
      exact .before rfl (hynow ▸ hnow) hy (hsteps.trans (.step hstep' (.refl _)))
        (filterMap_launch?_concat hseen (hlaunch'.trans hlaunch.symm))
    · -- The clock is to go on.
      push Not at hbusy
      obtain ⟨hback, hstack⟩ := hbusy
      obtain ⟨reply, hcontrol⟩ := Control.exists_of_isBack hback
      have hle : a.engine.timing.now + m ≤ a.engine.timing.now + (m + n) := by omega
      cases htake : x.engine.timing.scheduler.takeDue (a.engine.timing.now + m) with
      | some taken =>
        obtain ⟨task, scheduler⟩ := taken
        obtain ⟨hstep₁, hlaunch₁, hy, hynow⟩ :=
          step?_of_due (H := H) a p hstack hcontrol htasked htake rfl
        obtain ⟨hstep₂, hlaunch₂, -, -⟩ := step?_of_due (H := H) a q hstack hcontrol htasked
          (Scheduler.takeDue_of_le htake hle) rfl
        rw [hstep₂, Option.some.injEq] at hstep
        refine .before hstep.symm ?_ hy (hsteps.trans (.step hstep₁ (.refl _)))
          (filterMap_launch?_concat hseen (hlaunch₁.trans hlaunch₂.symm))
        exact hynow.trans_le (htasked.ordered.takeDue htake).2.1
      | none =>
        have hway := stack_onto_wayTo hstack a
        have hrest : Settled H (x.onto (a.wayTo (a.engine.timing.now + m) p)) := by
          refine (hsettled fun _ f hf => ?_).of_instances_eq rfl rfl rfl (by rw [hway, hway]; rfl)
          rw [hway] at hf
          obtain rfl := Option.some.inj hf
          rfl
        obtain ⟨cs, hcs, hnone⟩ := exists_steps_of_arrival (a := a) (n := n) (q := q) hasks hstack
          hcontrol hnow htake hrest
        obtain ⟨d', hstep', hagree, hlaunch⟩ :=
          exists_step_of_lapse (c := x.onto _) hle hcontrol (hway _ q) hstep
        refine .after hagree ((hsteps.trans hcs).trans (.step hstep' (.refl _)))
          (filterMap_launch?_concat ?_ hlaunch)
        rw [List.filterMap_append, hnone, List.append_nil, hseen]
  | after hagree hsteps hseen =>
    obtain ⟨d', hstep', hagree', hlaunch⟩ := hagree.step hstep
    exact .after hagree' (hsteps.trans (.step hstep' (.refl _)))
      (filterMap_launch?_concat hseen hlaunch)

end

/-- A host that advances the clock in two parts comes to the same configuration as one that does
so at once, whenever this comes back and no task that runs advances the clock itself; and the
same tasks start on the way, in the same order and at the same readings of the clock. -/
theorem Run.advance_split {before after : List (Configuration κ π σ)} {a : Configuration κ π σ}
    (h : Run H (before ++ a :: after) d) {m n : Nat} {p q : π}
    (hcontrol : a.control = .host (.call (.advance (m + n)) q)) (hreturns : ComesBack a q after d)
    (hstill : ∀ b ∈ after, b.Still) (hasks : H.Asks p (.advance n) q) :
  ∃ bs, Steps H (a.asking (.advance m) p) bs d
    ∧ bs.filterMap (launch? H) = (a :: after).filterMap (launch? H)
  := by
  have hway := h.after (p := fun rest c => (∀ b ∈ rest, b.Still) →
    (∀ b ∈ rest, b.stack ≠ .waiting q :: a.stack) → Tracks H a m n p q (a :: rest) c
      ∧ ((∃ top, c.stack = top ++ a.wayTo (a.engine.timing.now + (m + n)) q)
        ∨ c.stack = .waiting q :: a.stack)) ?_ ?_ hstill hreturns.2
  · obtain ⟨htracks, -⟩ := hway
    cases htracks with
    | @before x bs hd _ _ _ _ =>
      have hlength : (x.stack ++ a.wayTo (a.engine.timing.now + (m + n)) q).length
          = a.stack.length + 1 := congrArg List.length (hd ▸ hreturns.1)
      simp only [wayTo, List.length_append, List.length_cons] at hlength
      omega
    | after hagree hsteps hseen =>
      cases hagree with
      | refl => exact ⟨_, hsteps, hseen⟩
      | @reply _ f _ _ _ hstack hf =>
        have hwaiting := hstack.symm.trans hreturns.1
        obtain ⟨rfl, -⟩ := List.cons.inj hwaiting
        cases hf
  · intro c _ hstep _ _
    have hnone : launch? H a = none := launch?_of_target? (by rw [target?, hcontrol])
    obtain rfl := hstep.eq_perform hcontrol
    have hfirst : Steps H (a.asking (.advance m) p) [a.asking (.advance m) p]
        ((idle a.engine a.memory).onto (a.wayTo (a.engine.timing.now + m) p)) :=
      .step rfl (.refl _)
    refine ⟨.before (x := idle a.engine a.memory) rfl (Nat.le_add_right _ m)
      (fun _ => List.not_mem_nil) hfirst ?_, .inl ⟨[], rfl⟩⟩
    rw [List.filterMap_cons, List.filterMap_cons, hnone, launch?_of_target? rfl]
  · intro rest c d hrun hstep hc hstill hreturns
    obtain ⟨htracks, hway⟩ := hc (fun b hb => hstill b (List.mem_append_left _ hb))
      fun b hb => hreturns b (List.mem_append_left _ hb)
    obtain ⟨top, htop⟩ := hway.resolve_right (hreturns c (by simp))
    have hstep' : step? H c = some d := by
      refine hstep.step?_of_not_idle fun hidle => ?_
      rw [hidle.1] at htop
      simp [wayTo] at htop
    exact ⟨htracks.step hasks hrun.tasked hrun.settled (hstill c (by simp)) hstep',
      (hstep.advancing hrun.tasked htop).imp_right And.left⟩

/-- The first task schedules one without delay and one for later, and cancels one. -/
def halting : Nat → Script Nat
  | 0 => [.schedule 0 1, .schedule 3 1, .cancel 1]
  | _ => []

/-- The host of these tasks. -/
def haltingHost : Host Nat (Script Nat) Unit :=
  scripted halting (fun _ => .error (.unknownService "")) 0

/-- Two tasks are scheduled and the clock is advanced at once; the first `n` steps. -/
def haltingRun (n : Nat) :
    List (Configuration Nat (Script Nat) Unit) × Configuration Nat (Script Nat) Unit :=
  calledBy haltingHost [.schedule 5 0, .schedule 9 1, .advance (5 + 7)] n

/-- The clock is advanced in two parts, and the first part ends when the first task is due: the
task that it schedules without delay still starts then. -/
theorem halting_advance_split :
  ∃ bs, Steps haltingHost ((haltingRun 4).2.asking (.advance 5) [.advance 7]) bs (haltingRun 18).2
    ∧ (bs.filterMap (launch? haltingHost)).map (fun l => (l.1.id, l.2)) = [(0, 5), (2, 5), (3, 8)]
    ∧ (haltingRun 18).2.engine.timing.now = 12
  := by
  have hrun : Run haltingHost ((haltingRun 4).1 ++ (haltingRun 4).2
      :: (trail haltingHost 13 (haltingRun 5).2).1) (haltingRun 18).2 :=
    run_calledBy_since (by decide +kernel) (by decide +kernel)
  have hdeep : ∀ b ∈ (trail haltingHost 13 (haltingRun 5).2).1, b.stack.length ≠ 1 := by
    decide +kernel
  obtain ⟨bs, hsteps, hseen⟩ := hrun.advance_split (m := 5) (n := 7) (p := [.advance 7]) (q := [])
    rfl ⟨rfl, fun b hb hstack => hdeep b hb (congrArg List.length hstack)⟩ (by decide +kernel)
    fun _ _ _ => rfl
  exact ⟨bs, hsteps, by rw [hseen]; decide +kernel, by decide +kernel⟩

end Configuration

end Statechart
