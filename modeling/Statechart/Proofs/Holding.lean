import Statechart.Proofs.Cascade
import Statechart.Proofs.Order

/-!
# Instances that are held

A release lets go of the instances that nobody holds, and leaves an engine of which the next
release lets go of none.  Throughout a run the engine is such whenever the clock is to go on,
or code of the host (`Configuration.Run.settled`): only while work is under way may there be
an instance that nobody holds.
-/

namespace Statechart

variable {κ π σ : Type}

/-! ### Engines -/

namespace Engine

variable {r r' : Engine κ} {held : List Nat}

/-- Every instance is reached from `held` or from a registry. -/
def Held (r : Engine κ) (held : List Nat) : Prop :=
  ∀ i x, r.get? i = some x → i ∈ r.reach r.instances.next (held ++ r.registered).eraseDups

/-- A release lets go of nothing if every instance is reached. -/
theorem Held.release_eq (h : r.Held held) :
  r.release held = r
  := by
  apply foldl_letGo_of_none
  intro i hi
  rw [← Option.not_isSome_iff_eq_none, Option.isSome_iff_exists]
  rintro ⟨x, hx⟩
  simp [h i x hx] at hi

/-- The children of instances are those stored with them. -/
theorem childrenOf_congr {ids : List Nat}
    (h : ∀ i ∈ ids, (r'.get? i).map Instance.children = (r.get? i).map Instance.children) :
  r'.childrenOf ids = r.childrenOf ids
  := by
  apply List.flatMap_congr
  intro i hi
  have hi := h i hi
  cases hx : r.get? i <;> cases hy : r'.get? i <;> simp_all

/-- What is reached is a matter of the children of what is reached. -/
theorem reach_congr {depth : Nat} {ids : List Nat}
    (h : ∀ i ∈ r.reach depth ids,
      (r'.get? i).map Instance.children = (r.get? i).map Instance.children) :
  r'.reach depth ids = r.reach depth ids
  := by
  induction depth generalizing ids with
  | zero => rfl
  | succ depth ih =>
    have hchildren := childrenOf_congr fun i hi => h i (subset_reach r (depth + 1) ids hi)
    rw [reach] at h
    rw [reach, reach, hchildren]
    split
    · rfl
    · next hnext =>
      simp only [hnext] at h
      exact ih h

/-- Only children and registries matter to what is reached. -/
theorem Held.congr (h : r.Held held) (hnext : r'.instances.next = r.instances.next)
    (hchildren : ∀ i, (r'.get? i).map Instance.children = (r.get? i).map Instance.children)
    (hregistered : r'.registered = r.registered) :
  r'.Held held
  := by
  intro i y hy
  have hi := hchildren i
  rw [hy] at hi
  obtain ⟨x, hx, -⟩ := Option.map_eq_some_iff.mp hi.symm
  rw [hnext, hregistered, reach_congr fun i _ => hchildren i]
  exact h i x hx

/-- What is held depends on instances and registries alone. -/
theorem Held.of_instances_eq (h : r.Held held) (hinstances : r'.instances = r.instances)
    (hregistries : r'.registries = r.registries) :
  r'.Held held
  := by
  apply h.congr
  · rw [hinstances]
  · intro i
    rw [get?, hinstances, get?]
  · rw [registered, hregistries, registered]

/-- After a release every instance is reached. -/
theorem held_release (r : Engine κ) (held : List Nat) :
  (r.release held).Held held
  := by
  have hreleases := releases_release r held
  have hregistered : (r.release held).registered = r.registered := by
    rw [registered, hreleases.registries, registered]
  have hkept : ∀ i ∈ r.reach r.instances.next (held ++ r.registered).eraseDups,
      (r.release held).get? i = r.get? i := by
    intro i hi
    rw [release, get?_foldl_letGo, if_neg]
    intro hgone
    simpa [hi] using (List.mem_filter.mp hgone).2
  intro i x hx
  rw [hreleases.next, hregistered, reach_congr fun i hi => by rw [hkept i hi]]
  by_contra hi
  have hthere : i ∈ r.instances.ids := by
    rw [Table.ids, List.mem_filter, List.mem_range]
    have hx := hreleases.get?_of_get? hx
    refine ⟨lt_next_of_get? hx, ?_⟩
    rw [get?] at hx
    rw [hx, Option.isSome_some]
  rw [release, get?_foldl_letGo, if_pos] at hx
  · cases hx
  · exact List.mem_filter.mpr ⟨hthere, by simpa using hi⟩

/-- A registry that was just made holds nothing. -/
theorem registered_addRegistry (r : Engine κ) (pool : Nat) :
  (r.addRegistry pool).registered = r.registered
  := by
  have hids : (r.registries.add ⟨pool, .empty, .empty⟩).ids
      = r.registries.ids ++ [r.registries.next] := by
    rw [Table.ids, Table.next_add, List.range_succ, List.filter_append, Table.ids]
    congr 1
    · apply List.filter_congr
      intro id hid
      rw [Table.get?_add, if_neg (Nat.ne_of_lt (List.mem_range.mp hid))]
    · simp [Table.get?_add]
  rw [registered, addRegistry, hids, List.flatMap_append, registered]
  refine (congrArg₂ _ ?_ ?_).trans (List.append_nil _)
  · apply List.flatMap_congr
    intro id hid
    have hlt := List.mem_range.mp (List.mem_filter.mp hid).1
    rw [Table.get?_add, if_neg (Nat.ne_of_lt hlt)]
  · simp [Table.get?_add, OrderedMap.values, OrderedMap.empty]

end Engine

/-! ### Configurations -/

/-- The activity is one of the clock. -/
def Frame.isClock : Frame κ π → Bool
  | advancing _ => true
  | fired _ => true
  | _ => false

/-- The innermost activity is none of the clock. -/
def Occupied (st : List (Frame κ π)) : Prop := ∃ f ∈ st.head?, f.isClock = false

/-- An activity that is none of the clock occupies the stack. -/
theorem occupied_cons {f : Frame κ π} (hf : f.isClock = false) (st : List (Frame κ π)) :
  Occupied (f :: st)
  := ⟨f, rfl, hf⟩

/-- At a point of control the code of the host makes a call, whatever the reply to the last one
was, and goes on from the point `next`; it leaves its memory alone. -/
def Host.Asks (H : Host κ π σ) (point : π) (call : Call κ) (next : π) : Prop :=
  ∀ reply r memory, H.resume point reply r memory = (.call call next, memory)

namespace Configuration

variable {H : Host κ π σ} {cs : List (Configuration κ π σ)} {c d : Configuration κ π σ}
  {i : Nat} {x : Instance κ} {o : Except MachineError Unit} {below : List (Frame κ π)}

/-- Code of the host is to go on, or the clock, or nothing is under way. -/
def AtRest (c : Configuration κ π σ) : Prop :=
  c.control.isBack = true → ∀ f ∈ c.stack.head?, f.isClock = true

/-- Every instance is held: by the host, by a registry or by an activity. -/
def Settled (H : Host κ π σ) (c : Configuration κ π σ) : Prop :=
  c.engine.Held (H.held c.memory ++ owners c.stack)

/-- Work of an instance is under way, or code of the host that waits for a reply. -/
def Engrossed (c : Configuration κ π σ) : Prop :=
  c.control.isBack = true ∧ Occupied c.stack

/-- Work that goes on is not at rest. -/
theorem Engrossed.not_atRest (h : c.Engrossed) :
  ¬c.AtRest
  := by
  obtain ⟨hback, f, hf, hnot⟩ := h
  intro hrest
  rw [hrest hback f hf] at hnot
  cases hnot

/-- Where every instance is held, there is nothing to let go. -/
theorem Settled.settle_eq (h : Settled H c) :
  settle H c = c
  := by
  rw [settle, ← owners, h.release_eq]

/-- After a release every instance is held. -/
theorem settled_settle (c : Configuration κ π σ) :
  Settled H (settle H c)
  := Engine.held_release _ _

/-- After code of the host every instance is held. -/
theorem settled_enter (c : Configuration κ π σ) (code : Engine κ → σ → Next κ π × σ) :
  Settled H (enter H c code)
  := settled_settle _

/-- A configuration stays settled as long as instances, registries, memory and owners do. -/
theorem Settled.of_instances_eq (h : Settled H c)
    (hinstances : d.engine.instances = c.engine.instances)
    (hregistries : d.engine.registries = c.engine.registries) (hmemory : d.memory = c.memory)
    (howners : owners d.stack = owners c.stack) :
  Settled H d
  := by
  rw [Settled, hmemory, howners]
  exact Engine.Held.of_instances_eq h hinstances hregistries

/-! ### Deliveries -/

/-- A delivery leaves work to be done. -/
theorem engrossed_deliver (h : Occupied c.stack) (i : Nat) (e : Envelope) :
  (c.deliver i e).Engrossed
  := by
  rw [deliver]
  split
  · exact ⟨rfl, h⟩
  · simp only
    split
    · exact ⟨rfl, h⟩
    · exact ⟨rfl, occupied_cons rfl _⟩

theorem engrossed_start (h : Occupied c.stack) (i : Nat) :
  (c.start i).Engrossed
  := by
  rw [start]
  split
  · exact ⟨rfl, h⟩
  · split
    · apply engrossed_deliver
      exact h
    · exact ⟨rfl, h⟩

/-- A start from a state leaves work to be done, also when the state is refused. -/
theorem engrossed_startWith (h : Occupied c.stack) (i : Nat) (value : StateValue)
    (context : Context) :
  (c.startWith i value context).Engrossed
  := by
  rw [startWith]
  split
  · exact ⟨rfl, h⟩
  · split
    · split
      · exact ⟨rfl, h⟩
      · apply engrossed_start
        exact h
    · exact ⟨rfl, h⟩

/-- A mailbox has no part in what is held. -/
theorem Settled.deliver (h : Settled H c) (i : Nat) (e : Envelope) :
  (c.deliver i e).AtRest → Settled H (c.deliver i e)
  := by
  rw [Configuration.deliver]
  split
  · exact fun _ => h
  · next x hx =>
    simp only
    split
    · intro _
      apply Engine.Held.congr h
      · exact Engine.next_modify _ _ _
      · intro j
        simp only [back, withEngine, Engine.get?_modify]
        split
        · next hj =>
          subst hj
          rw [hx]
          rfl
        · rfl
      · rfl
    · intro hrest
      exact absurd hrest (Engrossed.not_atRest ⟨rfl, occupied_cons rfl _⟩)

/-! ### Steps -/

/-- A call of the host leaves the host waiting, or the instances as they were, or it lets go of
what is not held. -/
theorem settled_perform (h : Settled H c) {point : π} (call : Call κ)
    (hrest : (perform H (c.withStack (.waiting point :: c.stack)) call).AtRest) :
  Settled H (perform H (c.withStack (.waiting point :: c.stack)) call)
  := by
  have hwaits : Occupied (c.withStack (.waiting point :: c.stack)).stack := occupied_cons rfl _
  cases call with
  | start i => exact absurd hrest (engrossed_start hwaits i).not_atRest
  | startAt i value =>
    rw [perform, startAt] at hrest
    split at hrest
    · exact absurd hrest (Engrossed.not_atRest ⟨rfl, hwaits⟩)
    · exact absurd hrest (engrossed_startWith hwaits i value _).not_atRest
  | startWith i value context =>
    exact absurd hrest (engrossed_startWith hwaits i value context).not_atRest
  | send i event =>
    rw [perform, send] at hrest
    split at hrest
    · exact absurd hrest (engrossed_deliver hwaits i _).not_atRest
    · exact absurd hrest (Engrossed.not_atRest ⟨rfl, hwaits⟩)
  | subscribe i listener =>
    rw [perform, subscribe] at hrest ⊢
    split at hrest
    · exact absurd hrest (Engrossed.not_atRest ⟨rfl, hwaits⟩)
    · exact settled_enter _ _
  | advance ms => exact h
  | clear registry id => exact settled_settle _
  | _ => exact absurd hrest (Engrossed.not_atRest ⟨rfl, hwaits⟩)

/-- A callback of the clock that makes no work has let nothing go. -/
theorem settled_call (h : Settled H c) (cb : Callback κ) (hrest : (call H c cb).AtRest) :
  Settled H (call H c cb)
  := by
  cases cb with
  | code code => exact settled_enter _ _
  | after i state key generation => exact h.deliver i _ hrest

/-- A task of the clock that makes no work has let nothing go. -/
theorem settled_runJob (h : Settled H c) (job : Job (Callback κ))
    (hrest : (runJob H c job).AtRest) :
  Settled H (runJob H c job)
  := by
  cases job with
  | task cb => exact settled_call h cb hrest
  | timer id =>
    rw [runJob] at hrest ⊢
    split at hrest
    · exact h.of_instances_eq rfl rfl rfl rfl
    · simp only at hrest ⊢
      split at hrest
      · apply settled_call _ _ hrest
        exact h.of_instances_eq rfl rfl rfl rfl
      · exact h.of_instances_eq rfl rfl rfl rfl

/-- The clock lets go of nothing as it goes on to rest. -/
theorem settled_stepClock (h : Settled H c) {target : Nat}
    (hstack : c.stack = .advancing target :: below)
    (hrest : (stepClock H c target below).AtRest) :
  Settled H (stepClock H c target below)
  := by
  rw [stepClock] at hrest ⊢
  split at hrest
  · refine h.of_instances_eq rfl rfl rfl ?_
    rw [hstack]
    rfl
  · apply settled_runJob _ _ hrest
    exact h.of_instances_eq rfl rfl rfl rfl

/-- Work of an instance is under way when some of it is left. -/
theorem engrossed_work (hback : c.control.isBack = true) (i : Nat) (o : Except MachineError Unit)
    (ps : List (Phase κ)) (below : List (Frame κ π)) :
  (c.work i o ps below).Engrossed
  := ⟨hback, occupied_cons rfl _⟩

/-- An envelope leaves its instance at work. -/
theorem engrossed_process (hback : c.control.isBack = true) (e : Envelope) :
  (process H c i x o below e).Engrossed
  := by
  rw [process_eq]
  cases x.resolution e with
  | ignore => exact engrossed_work hback i o [] below
  | begin => exact engrossed_work hback i o _ below
  | attempt event rearm found =>
    simp only [settleTransition]
    cases found.value with
    | error error => exact engrossed_work hback i _ [] below
    | ok s? =>
      cases s? with
      | none => exact engrossed_work hback i o [] below
      | some next => exact engrossed_work hback i o _ below

/-- An instance whose mailbox is empty is done, and what is not held is let go. -/
theorem settled_nextEnvelope (hback : c.control.isBack = true)
    (hrest : (nextEnvelope H c i x o below).AtRest) :
  Settled H (nextEnvelope H c i x o below)
  := by
  rw [nextEnvelope] at hrest ⊢
  split at hrest
  · exact settled_settle _
  · refine absurd hrest (Engrossed.not_atRest ?_)
    apply engrossed_process
    exact hback

theorem engrossed_startChild (hback : c.control.isBack = true) (h : Occupied c.stack)
    {state : String} {context : Context} {v : Invocation κ} :
  (startChild H c i x state context v).Engrossed
  := by
  have hresolve := snd_resolveChild H c x v context
  rw [startChild]
  split
  · exact ⟨hback, h⟩
  · split
    · next c' heq =>
      have hc : c' = { c with memory := c'.memory } := by simpa only [heq] using hresolve
      rw [hc]
      apply engrossed_start
      exact h
    · next c' heq =>
      have hc : c' = { c with memory := c'.memory } := by simpa only [heq] using hresolve
      rw [hc]
      exact ⟨hback, h⟩

theorem engrossed_report (hback : c.control.isBack = true) (h : Occupied c.stack)
    (value : StateValue) :
  (c.report i x value).Engrossed
  := by
  rw [report]
  split
  · simp only
    split
    · apply engrossed_deliver
      exact h
    · exact ⟨hback, h⟩
  · exact ⟨hback, h⟩

/-- A phase of work leaves work under way, or calls code of the host. -/
theorem settled_stepPhase (hback : c.control.isBack = true) {rest : List (Phase κ)}
    (p : Phase κ) (hrest : (stepPhase H c i x o rest below p).AtRest) :
  Settled H (stepPhase H c i x o rest below p)
  := by
  cases p with
  | perform actions context event =>
    cases actions with
    | nil =>
      rw [stepPhase] at hrest
      exact absurd hrest (engrossed_work hback i o rest below).not_atRest
    | cons a more =>
      rw [stepPhase] at hrest ⊢
      split at hrest
      · next hrunning =>
        rw [if_pos hrunning]
        exact settled_enter _ _
      · exact absurd hrest (engrossed_work hback i o [] below).not_atRest
  | stopChildren =>
    rw [stepPhase] at hrest
    exact absurd hrest (engrossed_work (c := c.withEngine _) hback i o rest below).not_atRest
  | startChildren =>
    rw [stepPhase] at hrest
    split at hrest
    · split at hrest
      · exact absurd hrest (engrossed_work hback i _ [] below).not_atRest
      · exact absurd hrest (engrossed_work hback i o rest below).not_atRest
      · exact absurd hrest (engrossed_work hback i o _ below).not_atRest
    · exact absurd hrest (engrossed_work hback i o rest below).not_atRest
  | invoke state context vs =>
    cases vs with
    | nil =>
      rw [stepPhase] at hrest
      exact absurd hrest (engrossed_work hback i o rest below).not_atRest
    | cons v more =>
      rw [stepPhase] at hrest
      split at hrest
      · refine absurd hrest (Engrossed.not_atRest ?_)
        apply engrossed_startChild
        · exact hback
        · exact occupied_cons rfl _
      · exact absurd hrest (engrossed_work hback i o rest below).not_atRest
  | publish s =>
    rw [stepPhase] at hrest
    split at hrest
    · exact absurd hrest (engrossed_work hback i o _ below).not_atRest
    · exact absurd hrest (engrossed_work hback i o [] below).not_atRest
  | notify s listeners =>
    cases listeners with
    | nil =>
      rw [stepPhase] at hrest
      exact absurd hrest (engrossed_work hback i o rest below).not_atRest
    | cons l more => exact settled_enter _ _
  | rearm =>
    rw [stepPhase] at hrest
    split at hrest
    · simp only at hrest
      split at hrest
      · exact absurd hrest (engrossed_work (c := c.observe H _) hback i _ [] below).not_atRest
      · refine absurd hrest (Engrossed.not_atRest ?_)
        exact engrossed_work (c := (c.observe H _).withEngine _) hback i o rest below
    · exact absurd hrest (engrossed_work hback i o rest below).not_atRest
  | report value =>
    refine absurd hrest (Engrossed.not_atRest ?_)
    apply engrossed_report
    · exact hback
    · exact occupied_cons rfl _

/-- A step out of work that is under way leaves no instance that nobody holds. -/
theorem settled_step (horderly : Orderly c.engine c.stack) (h : c.AtRest → Settled H c)
    (hstep : step? H c = some d) (hrest : d.AtRest) :
  Settled H d
  := by
  rw [step?] at hstep
  cases hcontrol : c.control with
  | host next =>
    have hsettled : Settled H c := h (by simp [AtRest, hcontrol, Control.isBack])
    cases next with
    | done =>
      simp only [hcontrol, Option.some.injEq] at hstep
      subst hstep
      exact hsettled
    | call call point =>
      simp only [hcontrol, Option.some.injEq] at hstep
      subst hstep
      exact settled_perform hsettled call hrest
  | back reply =>
    have hback : c.control.isBack = true := by rw [hcontrol]; rfl
    have hclock {f : Frame κ π} {below : List (Frame κ π)} (hstack : c.stack = f :: below)
        (hf : f.isClock = true) : Settled H c := by
      apply h
      intro _ g hg
      rw [hstack] at hg
      obtain rfl := Option.some.inj hg
      exact hf
    cases hstack : c.stack with
    | nil => simp [hcontrol, hstack] at hstep
    | cons f below =>
      cases f with
      | waiting point =>
        simp only [hcontrol, hstack, Option.some.injEq] at hstep
        subst hstep
        exact settled_enter _ _
      | advancing target =>
        simp only [hcontrol, hstack, Option.some.injEq] at hstep
        subst hstep
        exact settled_stepClock (hclock hstack rfl) hstack hrest
      | fired channel =>
        simp only [hcontrol, hstack, Option.some.injEq] at hstep
        subst hstep
        refine (hclock hstack rfl).of_instances_eq rfl rfl rfl ?_
        rw [hstack]
        rfl
      | working j o ps =>
        obtain ⟨x, hx⟩ := horderly.there j (by rw [hstack, workers_working]; exact .head _)
        simp only [hcontrol, hstack, hx] at hstep
        cases ps with
        | nil =>
          obtain rfl := Option.some.inj hstep
          exact settled_nextEnvelope hback hrest
        | cons p rest =>
          obtain rfl := Option.some.inj hstep
          exact settled_stepPhase hback p hrest
      | replaying j listener =>
        simp only [hcontrol, hstack, Option.some.injEq] at hstep
        subst hstep
        exact settled_settle _

/-- Whenever the clock is to go on, or code of the host, every instance is held. -/
theorem Run.settled (h : Run H cs c) (hrest : c.AtRest) :
  Settled H c
  := by
  induction h with
  | start memory =>
    intro i x hx
    rw [idle, Engine.get?_empty] at hx
    cases hx
  | @next cs c d hrun hstep ih =>
    have hidle (hidle : c.IsIdle) : Settled H c := by
      apply ih
      intro _ f hf
      rw [hidle.1] at hf
      cases hf
    cases hstep with
    | step _ hstep => exact settled_step hrun.orderly ih hstep hrest
    | enter memory code _ => exact settled_enter _ _
    | addPool h =>
      refine (hidle h).of_instances_eq rfl rfl rfl ?_
      rw [h.1]
      rfl
    | addRegistry pool h =>
      have hsettled := hidle h
      rw [Settled, h.1] at hsettled
      exact Engine.Held.congr hsettled rfl (fun _ => rfl) (Engine.registered_addRegistry _ pool)

/-! ### Calls one after another -/

/-- The host makes the next call, and nothing else happens if every instance is held. -/
theorem step?_of_asks {point next : π} {call : Call κ} (h : H.Asks point call next)
    {reply : Reply κ} (hcontrol : c.control = .back reply)
    (hstack : c.stack = .waiting point :: below) (hsettled : Settled H c) :
  step? H c = some { c with stack := below, control := .host (.call call next) }
  := by
  rw [Settled, hstack] at hsettled
  rw [step?, hcontrol, hstack]
  simp only [enter, withStack, h reply]
  exact congrArg some (Settled.settle_eq hsettled)

end Configuration

end Statechart
