import Statechart.Proofs.Turn

/-!
# Nested activities

Only the innermost activity goes on; those below it wait, and with them the work of their
instances (`Configuration.Run.workOf_eq`).  While the host does not advance the clock, the clock
is not among them (`Configuration.Run.no_advancing`).
-/

namespace Statechart

variable {κ π σ : Type}

/-! ### Activities below the innermost one -/

/-- Activities are put on top, and the clock is not among them. -/
def Tops (st st' : List (Frame κ π)) : Prop :=
  ∃ top, st' = top ++ st ∧ ∀ target, .advancing target ∉ top

namespace Tops

variable {st st' st'' : List (Frame κ π)}

/-- Nothing is put on top. -/
theorem refl (st : List (Frame κ π)) :
  Tops st st
  := ⟨[], rfl, by simp⟩

/-- An activity other than the clock is put on top. -/
theorem cons {f : Frame κ π} (hf : ∀ target, f ≠ .advancing target) (h : Tops st st') :
  Tops st (f :: st')
  := by
  obtain ⟨top, rfl, htop⟩ := h
  refine ⟨f :: top, rfl, ?_⟩
  intro target hmem
  rcases List.mem_cons.mp hmem with hmem | hmem
  · exact hf target hmem.symm
  · exact htop target hmem

/-- An instance that is woken comes on top. -/
theorem wake (busy : Bool) (i : Nat) (h : Tops st st') :
  Tops st (wake busy i st')
  := by
  cases busy with
  | true => exact h
  | false => exact h.cons (by rintro _ ⟨⟩)

end Tops

namespace Configuration

variable {H : Host κ π σ} {c d : Configuration κ π σ} {i : Nat} {st below : List (Frame κ π)}

/-- A delivery wakes the receiver at most. -/
theorem tops_deliver (h : Tops st c.stack) (e : Envelope) :
  Tops st (c.deliver i e).stack
  := by
  cases hx : c.engine.get? i with
  | none => rwa [deliver_of_none hx]
  | some x =>
    rw [(deliver_of_some hx e).2]
    exact h.wake x.busy i

/-- A start wakes the instance at most. -/
theorem tops_start (h : Tops st c.stack) :
  Tops st (c.start i).stack
  := by
  cases hx : c.engine.get? i with
  | none =>
    rw [start, hx]
    exact h
  | some x =>
    by_cases hstatus : x.status = .notStarted
    · rw [(start_of_notStarted hx hstatus).2]
      exact h.wake x.busy i
    · rw [start_of_started hx hstatus]
      exact h

/-- A start from a given state wakes the instance at most. -/
theorem tops_startWith (h : Tops st c.stack) (value : StateValue) (context : Context) :
  Tops st (c.startWith i value context).stack
  := by
  rw [startWith]
  split
  · exact h
  · split
    · split
      · exact h
      · exact tops_start (c := c.withEngine _) h
    · exact h

/-- A call of the host puts activities on top; only one to advance the clock puts the clock
there. -/
theorem tops_perform (h : Tops st c.stack) {call : Call κ} (hcall : ∀ ms, call ≠ .advance ms) :
  Tops st (perform H c call).stack
  := by
  cases call with
  | start => exact tops_start h
  | startAt i value =>
    rw [perform, startAt]
    split
    · exact h
    · exact tops_startWith h value _
  | startWith i value context => exact tops_startWith h value context
  | send i event =>
    rw [perform, send]
    split
    · exact tops_deliver h _
    · exact h
  | subscribe i listener =>
    rw [perform, subscribe]
    split
    · exact h
    · exact h.cons (by rintro _ ⟨⟩)
  | advance ms => exact absurd rfl (hcall ms)
  | _ => exact h

/-- A callback of the clock wakes an instance at most. -/
theorem tops_call (h : Tops st c.stack) (cb : Callback κ) :
  Tops st (call H c cb).stack
  := by
  cases cb with
  | code => exact h
  | after => exact tops_deliver h _

/-- A task of the clock comes on top of it. -/
theorem tops_runJob (h : Tops st c.stack) (job : Job (Callback κ)) :
  Tops st (runJob H c job).stack
  := by
  cases job with
  | task cb => exact tops_call h cb
  | timer id =>
    rw [runJob]
    split
    · exact h
    · split
      · refine tops_call ?_ _
        exact h.cons (by rintro _ ⟨⟩)
      · exact h.cons (by rintro _ ⟨⟩)

/-- The clock stays under what it calls, or it is done. -/
theorem tops_stepClock {target : Nat} (hstack : c.stack = .advancing target :: below) :
  (stepClock H c target below).stack = below
    ∨ Tops (.advancing target :: below) (stepClock H c target below).stack
  := by
  rw [stepClock]
  split
  · exact .inl rfl
  · exact .inr (tops_runJob (by rw [← hstack]; exact .refl _) _)

/-- An envelope is processed on top of what its instance interrupted. -/
theorem tops_process {x : Instance κ} {o : Except MachineError Unit} (e : Envelope) :
  Tops below (process H c i x o below e).stack
  := by
  have hwork (c : Configuration κ π σ) (o : Except MachineError Unit) (ps : List (Phase κ)) :
      Tops below (c.work i o ps below).stack :=
    (Tops.refl below).cons (by rintro _ ⟨⟩)
  rw [process_eq]
  cases x.resolution e with
  | ignore => exact hwork c o []
  | begin => exact hwork c o _
  | attempt event rearm found =>
    simp only [settleTransition]
    cases found.value with
    | error error => exact hwork _ _ []
    | ok s? =>
      cases s? with
      | none => exact hwork _ o []
      | some next => exact hwork _ o _

/-- When an instance is done, what it interrupted is on top again. -/
theorem tops_nextEnvelope {x : Instance κ} {o : Except MachineError Unit} :
  Tops below (nextEnvelope H c i x o below).stack
  := by
  rw [nextEnvelope]
  split
  · exact .refl _
  · exact tops_process _

/-- A child begins its work on top of its parent. -/
theorem tops_startChild {x : Instance κ} {state : String} {context : Context} {v : Invocation κ}
    (h : Tops st c.stack) :
  Tops st (startChild H c i x state context v).stack
  := by
  rw [startChild]
  split
  · exact h
  · have hresolve : (resolveChild H c x v context).2.stack = c.stack := by rw [snd_resolveChild]
    split
    · next heq =>
      rw [heq] at hresolve
      exact tops_start (hresolve ▸ h)
    · next heq =>
      rw [heq] at hresolve
      exact hresolve ▸ h

theorem tops_report {x : Instance κ} {value : StateValue} (h : Tops st c.stack) :
  Tops st (c.report i x value).stack
  := by
  rw [report]
  split
  · simp only
    split
    · refine tops_deliver ?_ _
      exact h
    · exact h
  · exact h

/-- A phase is carried out on top of what its instance interrupted. -/
theorem tops_stepPhase {x : Instance κ} {o : Except MachineError Unit} {rest : List (Phase κ)}
    (p : Phase κ) :
  Tops below (stepPhase H c i x o rest below p).stack
  := by
  have hwork (c : Configuration κ π σ) (o : Except MachineError Unit) (ps : List (Phase κ)) :
      Tops below (c.work i o ps below).stack :=
    (Tops.refl below).cons (by rintro _ ⟨⟩)
  cases p with
  | perform actions context event =>
    cases actions with
    | nil => exact hwork c o rest
    | cons a more =>
      rw [stepPhase]
      split
      · exact hwork c o _
      · exact hwork c o []
  | stopChildren => exact hwork _ o rest
  | startChildren =>
    rw [stepPhase]
    split
    · split
      · exact hwork c _ []
      · exact hwork c o rest
      · exact hwork c o _
    · exact hwork c o rest
  | invoke state context vs =>
    cases vs with
    | nil => exact hwork c o rest
    | cons v more =>
      rw [stepPhase]
      split
      · exact tops_startChild (hwork c o _)
      · exact hwork c o rest
  | publish s =>
    rw [stepPhase]
    split
    · exact hwork c o _
    · exact hwork c o []
  | notify s listeners =>
    cases listeners with
    | nil => exact hwork c o rest
    | cons l more => exact hwork c o _
  | rearm =>
    rw [stepPhase]
    split
    · simp only
      split
      · exact hwork _ _ []
      · exact hwork _ o rest
    · exact hwork c o rest
  | report value => exact tops_report (hwork c o rest)

/-- A step of the host keeps the activities that are under way, and any other step keeps all
but the innermost, and the clock as long as it calls something. -/
theorem step?_stack (h : step? H c = some d)
    (hstill : ∀ ms point, c.control ≠ .host (.call (.advance ms) point)) :
  (c.control.isBack = false ∧ Tops c.stack d.stack)
    ∨ (c.control.isBack = true ∧ ∃ f below, c.stack = f :: below
        ∧ (Tops below d.stack ∨ ∃ target, f = .advancing target ∧ Tops c.stack d.stack))
  := by
  rw [step?] at h
  cases hcontrol : c.control with
  | host next =>
    refine .inl ⟨rfl, ?_⟩
    cases next with
    | done =>
      simp only [hcontrol, Option.some.injEq] at h
      subst h
      exact .refl _
    | call call point =>
      simp only [hcontrol, Option.some.injEq] at h
      subst h
      refine tops_perform ?_ ?_
      · exact (Tops.refl c.stack).cons (by rintro _ ⟨⟩)
      · rintro ms rfl
        exact hstill ms point hcontrol
  | back reply =>
    refine .inr ⟨rfl, ?_⟩
    cases hstack : c.stack with
    | nil => simp [hcontrol, hstack] at h
    | cons f below =>
      refine ⟨f, below, rfl, ?_⟩
      cases f with
      | waiting | fired | replaying =>
        simp only [hcontrol, hstack, Option.some.injEq] at h
        subst h
        exact .inl (.refl _)
      | advancing target =>
        simp only [hcontrol, hstack, Option.some.injEq] at h
        subst h
        rcases tops_stepClock hstack with hbelow | htops
        · rw [hbelow]
          exact .inl (.refl _)
        · exact .inr ⟨target, rfl, htops⟩
      | working j o ps =>
        simp only [hcontrol, hstack] at h
        left
        split at h
        · obtain rfl := Option.some.inj h
          exact .refl _
        · cases ps with
          | nil =>
            obtain rfl := Option.some.inj h
            exact tops_nextEnvelope
          | cons p rest =>
            obtain rfl := Option.some.inj h
            exact tops_stepPhase p

end Configuration

/-! ### Work below the innermost activity -/

/-- Activities of other instances hide no work. -/
theorem workOf_append {i : Nat} {top : List (Frame κ π)} (h : i ∉ workers top)
    (st : List (Frame κ π)) :
  workOf i (top ++ st) = workOf i st
  := by
  induction top with
  | nil => rfl
  | cons f top ih =>
    cases f with
    | working j o ps =>
      rw [workers_working, List.mem_cons, not_or] at h
      rw [List.cons_append, workOf_working_of_ne (Ne.symm h.1), ih h.2]
    | _ =>
      rw [List.cons_append, workOf_cons_of_worker?_eq_none rfl]
      exact ih h

/-- Below an activity an instance has the same work, unless the activity is its work. -/
theorem workOf_cons (i : Nat) (f : Frame κ π) (st : List (Frame κ π)) :
  workOf i (f :: st) = workOf i st ∨ ∃ o ps, f = .working i o ps
  := by
  cases f with
  | working j o ps =>
    by_cases hj : j = i
    · exact .inr ⟨o, ps, hj ▸ rfl⟩
    · exact .inl (workOf_working_of_ne hj o ps st)
  | _ => exact .inl (workOf_cons_of_worker?_eq_none rfl i st)

/-- What is put on top leaves the work of an instance that is at work. -/
theorem Tops.workOf_eq {st st' : List (Frame κ π)} (h : Tops st st')
    (hnodup : (workers st').Nodup) {i : Nat} (hi : i ∈ workers st) :
  workOf i st' = workOf i st
  := by
  obtain ⟨top, rfl, -⟩ := h
  rw [workers, List.filterMap_append] at hnodup
  exact workOf_append (fun htop => List.disjoint_of_nodup_append hnodup htop hi) st

/-- An instance that has work left is at work. -/
theorem mem_workers_of_workOf {i : Nat} {st : List (Frame κ π)} {ps : List (Phase κ)}
    (h : workOf i st = some ps) :
  i ∈ workers st
  := by
  by_contra hi
  rw [workOf_eq_none_iff.mpr hi] at h
  cases h

namespace Configuration

variable {H : Host κ π σ} {cs : List (Configuration κ π σ)} {c d : Configuration κ π σ}
  {i : Nat} {x y : Instance κ}

/-- The host does not ask for the clock to be advanced. -/
def Still (c : Configuration κ π σ) : Prop :=
  ∀ ms point, c.control ≠ .host (.call (.advance ms) point)

/-- Whether the host asks for the clock to be advanced. -/
def advances (c : Configuration κ π σ) : Bool :=
  match c.control with
  | .host (.call (.advance _) _) => true
  | _ => false

theorem still_iff :
  c.Still ↔ c.advances = false
  := by
  rw [Still, advances]
  split
  · next ms point hcontrol =>
    exact iff_of_false (fun hstill => hstill ms point hcontrol) Bool.noConfusion
  · next hcontrol => exact iff_of_true hcontrol rfl

instance (c : Configuration κ π σ) : Decidable c.Still :=
  decidable_of_iff _ still_iff.symm

/-- A call of the host that does not advance the clock leaves it still. -/
theorem still_of_call {call : Call κ} {point : π} (hcontrol : c.control = .host (.call call point))
    (hcall : ∀ ms, call ≠ .advance ms) :
  c.Still
  := by
  intro ms point' hadvance
  rw [hcontrol] at hadvance
  cases hadvance
  exact hcall ms rfl

/-- When the host asks for the clock to be advanced, the clock is put on top. -/
theorem stack_of_not_still (h : step? H c = some d) (hstill : ¬c.Still) :
  ∃ target point, d.stack = .advancing target :: .waiting point :: c.stack
  := by
  rw [Still] at hstill
  push Not at hstill
  obtain ⟨ms, point, hcontrol⟩ := hstill
  rw [step?, hcontrol] at h
  obtain rfl := Option.some.inj h
  exact ⟨_, point, rfl⟩

/-- The clock is not on its way in a run in which it is never advanced. -/
theorem Run.no_advancing (h : Run H cs c) (hstill : ∀ b ∈ cs, b.Still) (target : Nat) :
  .advancing target ∉ c.stack
  := by
  induction h with
  | start => exact List.not_mem_nil
  | @next cs c d hrun hstep ih =>
    have ih := ih fun b hb => hstill b (List.mem_append_left _ hb)
    cases hstep with
    | step _ hstep =>
      have hc := hstill c (List.mem_append_right _ (List.mem_singleton_self c))
      have htops {st : List (Frame κ π)} (hst : Tops st d.stack)
          (hnot : .advancing target ∉ st) : .advancing target ∉ d.stack := by
        obtain ⟨top, htop, hclock⟩ := hst
        rw [htop, List.mem_append, not_or]
        exact ⟨hclock target, hnot⟩
      rcases step?_stack hstep hc with ⟨-, hst⟩ | ⟨-, f, below, hstack, hst | ⟨t, rfl, hst⟩⟩
      · exact htops hst ih
      · rw [hstack, List.mem_cons, not_or] at ih
        exact htops hst ih.2
      · exact htops hst ih
    | enter | addPool | addRegistry => exact List.not_mem_nil

/-- Only the innermost activity goes on. -/
theorem Run.workOf_eq (h : Run H cs c) (hstep : Evolves H c d) {ps : List (Phase κ)}
    (hw : workOf i c.stack = some ps) :
  workOf i d.stack = some ps
    ∨ ∃ reply o below, c.control = .back reply ∧ c.stack = .working i o ps :: below
  := by
  have hnodup := (h.next hstep).orderly.nodup
  have htops {st : List (Frame κ π)} (hst : Tops st d.stack) (hw : workOf i st = some ps) :
      workOf i d.stack = some ps := by
    rw [hst.workOf_eq hnodup (mem_workers_of_workOf hw), hw]
  cases hstep with
  | step _ hstep =>
    by_cases hstill : c.Still
    case neg =>
      obtain ⟨target, point, hst⟩ := stack_of_not_still hstep hstill
      exact .inl (hst ▸ hw)
    rcases step?_stack hstep hstill with ⟨-, hst⟩ | ⟨hback, f, below, hstack, hst⟩
    · exact .inl (htops hst hw)
    · rcases hst with hst | ⟨t, -, hst⟩
      · rw [hstack] at hw
        obtain hbelow | ⟨o, ps', rfl⟩ := workOf_cons i f below
        · exact .inl (htops hst (hbelow.symm.trans hw))
        · rw [workOf_working_self, Option.some.injEq] at hw
          subst hw
          cases hcontrol : c.control with
          | host next => simp [hcontrol, Control.isBack] at hback
          | back reply => exact .inr ⟨reply, o, below, rfl, hstack⟩
      · exact .inl (htops hst hw)
  | enter _ _ hidle | addPool hidle | addRegistry _ hidle =>
    rw [hidle.1] at hw
    cases hw

end Configuration

end Statechart
