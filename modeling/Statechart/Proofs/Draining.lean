import Mathlib.Data.Multiset.DershowitzManna
import Statechart.Proofs.Parallel

/-!
# Advances that return

A task that runs may schedule any number of tasks, so the number of tasks that wait may grow
as the clock goes on, and nothing bounds the number of tasks that will run.  But if every task
is scheduled for later, a task that runs is replaced by tasks that have less time left until
the clock arrives.  In the order of multisets, the times that are left go down with every task
that runs, and so an advance of the clock returns (`Configuration.Run.advance_returns`).
-/

namespace Statechart

variable {κ π σ τ : Type}

namespace Timing

variable {t t' : Timing τ} {target : Nat}

/-- The times that the tasks which fall due by then leave until `target`. -/
def timesLeft (t : Timing τ) (target : Nat) : Multiset Nat :=
  ((t.scheduler.queue : Multiset (Pending (Job τ))).filter (·.due ≤ target)).map
    fun q => target - q.due

/-- The times that are left go down when a task is taken off the queue, whatever is put there
that falls due later. -/
theorem timesLeft_lt (h' : t'.Tasked) {p : Pending (Job τ)}
    (hp : p ∈ t.scheduler.queue) (hdue : p.due ≤ target)
    (hlater : ∀ q ∈ t'.scheduler.queue, q ∈ t.scheduler.queue ∧ q ≠ p ∨ p.due < q.due) :
  (t'.timesLeft target).IsDershowitzMannaLT (t.timesLeft target)
  := by
  let queue := (t.scheduler.queue : Multiset (Pending (Job τ))).filter (·.due ≤ target)
  let queue' := (t'.scheduler.queue : Multiset (Pending (Job τ))).filter (·.due ≤ target)
  have hmem' {q : Pending (Job τ)} (hq : q ∈ queue') : q ∈ t'.scheduler.queue ∧ q.due ≤ target :=
    Multiset.mem_filter.mp hq
  -- What does not fall due later waited before, beside the task that is taken off.
  have hold {q : Pending (Job τ)} (hq : q ∈ queue'.filter (¬p.due < ·.due)) :
      q ∈ queue ∧ q ≠ p := by
    obtain ⟨hq, hnot⟩ := Multiset.mem_filter.mp hq
    obtain ⟨hq', hle⟩ := hmem' hq
    obtain ⟨hthere, hne⟩ := (hlater q hq').resolve_right hnot
    exact ⟨Multiset.mem_filter.mpr ⟨hthere, hle⟩, hne⟩
  have hnodup : (queue'.filter (¬p.due < ·.due)).Nodup := by
    have hdistinct : t'.scheduler.queue.Nodup := h'.ordered.distinct.of_map
    exact ((Multiset.coe_nodup.mpr hdistinct).filter _).filter _
  obtain ⟨gone, hgone⟩ := Multiset.le_iff_exists_add.mp
    ((Multiset.le_iff_subset hnodup).mpr fun q hq => (hold hq).1)
  have hpgone : p ∈ gone := by
    have hp : p ∈ queue := Multiset.mem_filter.mpr ⟨hp, hdue⟩
    rw [hgone, Multiset.mem_add] at hp
    exact hp.resolve_left fun hp => (hold hp).2 rfl
  refine ⟨(queue'.filter (¬p.due < ·.due)).map fun q => target - q.due,
    (queue'.filter (p.due < ·.due)).map fun q => target - q.due,
    gone.map fun q => target - q.due, ?_, ?_, ?_, ?_⟩
  · intro hempty
    have := Multiset.mem_map_of_mem (fun q => target - q.due) hpgone
    rw [hempty] at this
    exact Multiset.notMem_zero _ this
  · rw [← Multiset.map_add, add_comm, Multiset.filter_add_not]
    rfl
  · rw [← Multiset.map_add, ← hgone]
    rfl
  · intro left hleft
    obtain ⟨q, hq, rfl⟩ := Multiset.mem_map.mp hleft
    obtain ⟨hq, hlt⟩ := Multiset.mem_filter.mp hq
    refine ⟨target - p.due, Multiset.mem_map_of_mem _ hpgone, ?_⟩
    have := (hmem' hq).2
    omega

end Timing

namespace Configuration

variable {H : Host κ π σ} {cs : List (Configuration κ π σ)} {a b c d : Configuration κ π σ}
  {point : π}

/-! ### Until a call returns -/

/-- Steps lead from `a` to `b`, and the call that the host makes at `a` has not returned. -/
def Amid (H : Host κ π σ) (a : Configuration κ π σ) (point : π) (b : Configuration κ π σ) : Prop :=
  ∃ as, Steps H a as b ∧ ∀ e ∈ as ++ [b], e.stack ≠ .waiting point :: a.stack

/-- The call that the host makes at `a` is answered after finitely many steps. -/
def Answered (H : Host κ π σ) (a : Configuration κ π σ) (point : π) : Prop :=
  ∃ as d, Steps H a as d ∧ ComesBack a point as d ∧ d.control = .back .done

theorem Amid.refl (H : Host κ π σ) (a : Configuration κ π σ) (point : π) :
  Amid H a point a
  := by
  refine ⟨[], .refl a, fun e he => ?_⟩
  obtain rfl := List.mem_singleton.mp he
  exact fun heq => absurd (congrArg List.length heq) (by simp)

theorem Amid.step (h : Amid H a point b) (hstep : step? H b = some d)
    (hnot : d.stack ≠ .waiting point :: a.stack) :
  Amid H a point d
  := by
  obtain ⟨as, hsteps, has⟩ := h
  refine ⟨as ++ [b], hsteps.trans (.step hstep (.refl d)), fun e he => ?_⟩
  obtain he | he := List.mem_append.mp he
  · exact has e he
  · obtain rfl := List.mem_singleton.mp he
    exact hnot

theorem Amid.answered (h : Amid H a point b) (hstep : step? H b = some d)
    (hstack : d.stack = .waiting point :: a.stack) (hcontrol : d.control = .back .done) :
  Answered H a point
  := by
  obtain ⟨as, hsteps, has⟩ := h
  exact ⟨as ++ [b], d, hsteps.trans (.step hstep (.refl d)), ⟨hstack, has⟩, hcontrol⟩

/-! ### On the way of the clock -/

/-- The clock is on its way to `target` by an advance that the host asks for at `a`. -/
structure Underway (H : Host κ π σ) (a : Configuration κ π σ) (point : π) (target : Nat)
    (b : Configuration κ π σ) : Prop where
  amid : Amid H a point b
  tasked : b.engine.timing.Tasked
  stack : ∃ top, b.stack = top ++ .advancing target :: .waiting point :: a.stack

variable {target : Nat}

/-- The clock goes on its way, or the advance returns. -/
theorem Underway.step (h : Underway H a point target b) (hstep : step? H b = some d) :
  Underway H a point target d ∨ Answered H a point
  := by
  obtain ⟨top, htop⟩ := h.stack
  obtain ⟨top', htop'⟩ | ⟨hstack, hcontrol, -⟩ := advancing_of_step hstep h.tasked htop
  · refine .inl ⟨h.amid.step hstep ?_, (serves_of_step hstep h.tasked).tasked, top', htop'⟩
    intro heq
    rw [htop'] at heq
    have := congrArg List.length heq
    simp at this
    omega
  · exact .inr (h.amid.answered hstep hstack hcontrol)

/-- While every new task falls due later than it is scheduled, what comes to wait falls due later
than the clock read in the beginning. -/
theorem Underway.steps (h : Underway H a point target b) (hsteps : Steps H b cs d)
    (hlater : ∀ b d, Amid H a point b → step? H b = some d →
      ∀ p ∈ d.engine.timing.scheduler.queue, b.engine.timing.scheduler.nextId ≤ p.id →
        d.engine.timing.now < p.due)
    {now : Nat} {P : Pending (Job (Callback κ)) → Prop} (hnow : now ≤ b.engine.timing.now)
    (hold : ∀ q ∈ b.engine.timing.scheduler.queue, P q ∨ now < q.due) :
  (Underway H a point target d ∧ ∀ q ∈ d.engine.timing.scheduler.queue, P q ∨ now < q.due)
    ∨ Answered H a point
  := by
  induction hsteps with
  | refl b => exact .inl ⟨h, hold⟩
  | @step b c d cs hstep _ ih =>
    have hserves := serves_of_step hstep h.tasked
    obtain hnext | hanswered := h.step hstep
    · refine ih hnext (Nat.le_trans hnow hserves.now_le) fun q hq => ?_
      obtain ⟨hq', -, -⟩ | hnew := hserves.origin q hq
      · exact hold q hq'
      · exact .inr (Nat.lt_of_le_of_lt (Nat.le_trans hnow hserves.now_le)
          (hlater b c h.amid hstep q hq hnew))
    · exact .inr hanswered

/-- With a task that runs the times that are left go down. -/
theorem Underway.run (h : Underway H a point target b) {p : Pending (Job (Callback κ))}
    (hstarted : b.started? = some p) (hdue : p.due ≤ target) (hsteps : Steps H b (b :: cs) d)
    (hlater : ∀ b d, Amid H a point b → step? H b = some d →
      ∀ p ∈ d.engine.timing.scheduler.queue, b.engine.timing.scheduler.nextId ≤ p.id →
        d.engine.timing.now < p.due) :
  (Underway H a point target d ∧ (d.engine.timing.timesLeft target).IsDershowitzMannaLT
      (b.engine.timing.timesLeft target))
    ∨ Answered H a point
  := by
  cases hsteps with
  | @step _ c _ _ hstep hrest =>
    have hserves := serves_of_step hstep h.tasked
    obtain ⟨hmem, hnow, -⟩ := hserves.first p hstarted
    obtain hnext | hanswered := h.step hstep
    · refine (hnext.steps hrest hlater (P := fun q => q ∈ b.engine.timing.scheduler.queue ∧ q ≠ p)
        hnow fun q hq => ?_).imp_left fun ⟨hend, hwaits⟩ =>
          ⟨hend, Timing.timesLeft_lt hend.tasked hmem hdue hwaits⟩
      obtain ⟨hq', hne, -⟩ | hnew := hserves.origin q hq
      · exact .inl ⟨hq', fun heq => hne (heq ▸ hstarted)⟩
      · exact .inr (Nat.lt_of_le_of_lt hnow (hlater b c h.amid hstep q hq hnew))
    · exact .inr hanswered

/-- An advance of the clock returns after finitely many steps, if every task that starts
meanwhile comes to an end, and every task that is scheduled meanwhile falls due later than it is
scheduled. -/
theorem Run.advance_returns (h : Run H cs a) {ms : Nat}
    (hcontrol : a.control = .host (.call (.advance ms) point))
    (hends : ∀ b p, Amid H a point b → b.started? = some p →
      ∃ bs d, Steps H b (b :: bs) d ∧ d.stack = b.stack ∧ d.control.isBack = true)
    (hlater : ∀ b d, Amid H a point b → step? H b = some d →
      ∀ p ∈ d.engine.timing.scheduler.queue, b.engine.timing.scheduler.nextId ≤ p.id →
        d.engine.timing.now < p.due) :
  ∃ as d, Steps H a as d ∧ ComesBack a point as d ∧ d.control = .back .done
  := by
  let target := a.engine.timing.now + ms
  -- Whenever the clock is to go on, the advance returns: by induction on the times that are left.
  have hclock (left : Multiset Nat) : ∀ b, Underway H a point target b →
      b.control.isBack = true → b.stack = .advancing target :: .waiting point :: a.stack →
      b.engine.timing.timesLeft target = left → Answered H a point := by
    induction left using (Multiset.wellFounded_isDershowitzMannaLT (α := Nat)).induction with
    | h left ih =>
      rintro b hb hback hstack rfl
      obtain ⟨reply, hreply⟩ := Control.exists_of_isBack hback
      cases htake : b.engine.timing.scheduler.takeDue target with
      | none =>
        have hstep := step?_of_target? (H := H) hreply hstack
        rw [stepClock_of_none htake] at hstep
        exact hb.amid.answered hstep rfl rfl
      | some taken =>
        obtain ⟨p, scheduler⟩ := taken
        have hstarted : b.started? = some p := by
          rw [started?_of_advancing hreply hstack, Timing.dueTask?, htake]
          rfl
        have hdue := (hb.tasked.ordered.takeDue htake).2.1
        obtain ⟨bs, d, hsteps, hsame, hback'⟩ := hends b p hb.amid hstarted
        obtain ⟨hd, hlt⟩ | hanswered := hb.run hstarted hdue hsteps hlater
        · exact ih _ hlt d hd hback' (hsame.trans hstack) rfl
        · exact hanswered
  have hstep : step? H a = some ((a.withStack
      (.advancing target :: .waiting point :: a.stack)).back .done) := by
    rw [step?, hcontrol]
    rfl
  refine hclock _ _ ⟨(Amid.refl H a point).step hstep ?_, h.tasked, [], rfl⟩ rfl rfl rfl
  rintro ⟨⟩

/-! ### An example -/

theorem mem_trail (H : Host κ π σ) (n : Nat) (c : Configuration κ π σ) :
  c ∈ (trail H n c).1 ++ [(trail H n c).2]
  := by
  cases n with
  | zero => exact List.mem_singleton_self c
  | succ n =>
    rw [trail]
    cases step? H c with
    | none => exact List.mem_singleton_self c
    | some d => exact List.mem_cons_self

/-- Before a call returns in `n` steps, fewer are taken. -/
theorem Amid.exists_trail (h : Amid H a point b) {n : Nat}
    (hstack : (trail H n a).2.stack = .waiting point :: a.stack) :
  ∃ k < n, b = (trail H k a).2
  := by
  obtain ⟨as, hsteps, has⟩ := h
  have htrail := hsteps.trail_eq
  refine ⟨as.length, ?_, by rw [htrail]⟩
  by_contra hle
  obtain ⟨m, hm⟩ := Nat.exists_eq_add_of_le (Nat.not_lt.mp hle)
  rw [hm, trail_add, Prod.mk.injEq] at htrail
  refine has _ ?_ hstack
  rw [← htrail.1, ← htrail.2, List.append_assoc]
  exact List.mem_append_right _ (mem_trail H m _)

/-- The first task schedules two of the second kind. -/
def branching : Nat → Script Nat
  | 0 => [.schedule 2 1, .schedule 3 1]
  | _ => []

/-- The host of branching tasks. -/
def branchingHost : Host Nat (Script Nat) Unit :=
  scripted branching (fun _ => .error (.unknownService "")) 0

/-- A task is scheduled and the clock is advanced. -/
def branchingRun (n : Nat) :
    List (Configuration Nat (Script Nat) Unit) × Configuration Nat (Script Nat) Unit :=
  calledBy branchingHost [.schedule 1 0, .advance 10] n

/-- The advance returns after three tasks, of which the first has scheduled the others. -/
theorem branching_advance_returns :
  ∃ as d, Steps branchingHost (branchingRun 2).2 as d ∧ ComesBack (branchingRun 2).2 [] as d
    ∧ d.control = .back .done
  := by
  have hreturned : (trail branchingHost 12 (branchingRun 2).2).2.stack
      = .waiting [] :: (branchingRun 2).2.stack := rfl
  have hrun : Run branchingHost (branchingRun 2).1 (branchingRun 2).2 :=
    run_calledBy (by decide +kernel)
  refine hrun.advance_returns rfl ?_ ?_
  · intro b p hb hstarted
    obtain ⟨k, hk, rfl⟩ := hb.exists_trail hreturned
    have hstarts : ∀ k < 12, (trail branchingHost k (branchingRun 2).2).2.started?.isSome = true →
        k = 1 ∨ k = 7 ∨ k = 9 := by decide +kernel
    obtain rfl | rfl | rfl := hstarts k hk (by rw [hstarted]; rfl)
    · exact ⟨_, _, steps_trail branchingHost 6 _, rfl, rfl⟩
    · exact ⟨_, _, steps_trail branchingHost 2 _, rfl, rfl⟩
    · exact ⟨_, _, steps_trail branchingHost 2 _, rfl, rfl⟩
  · intro b d hb hstep
    obtain ⟨k, hk, rfl⟩ := hb.exists_trail hreturned
    have hlater : ∀ k < 12, ∀ d ∈ step? branchingHost (trail branchingHost k (branchingRun 2).2).2,
        ∀ p ∈ d.engine.timing.scheduler.queue,
          (trail branchingHost k (branchingRun 2).2).2.engine.timing.scheduler.nextId ≤ p.id →
            d.engine.timing.now < p.due := by decide +kernel
    exact hlater k hk d hstep

end Configuration

end Statechart
