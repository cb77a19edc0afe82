import Statechart.Proofs.Lockstep

/-!
# Parallel runs

Two configurations in lockstep take their steps together.  Only the clock on the left may have
more to do: the job of a timer without a counterpart, or a call for an instance without one.
The left is then ahead, and takes steps alone until it is done with it.
-/

namespace Statechart

variable {κ π σ : Type}

/-! ### The way of the clock -/

/-- The time that an activity of the clock is on its way to. -/
def Frame.target? : Frame κ π → Option Nat
  | advancing target => some target
  | _ => none

/-- The times that the clock is on its way to. -/
def targets (st : List (Frame κ π)) : List Nat := st.filterMap Frame.target?

/-- What comes on top of work leaves the clock where it is going. -/
theorem Tops.targets_eq {st st' : List (Frame κ π)} (h : Tops st st') :
  targets st' = targets st
  := by
  obtain ⟨top, rfl, htop⟩ := h
  have hnone : top.filterMap Frame.target? = [] := by
    rw [List.filterMap_eq_nil_iff]
    rintro (_ | target | _ | _ | _) hf <;> first | rfl | exact absurd hf (htop target)
  rw [targets, List.filterMap_append, hnone]
  rfl

/-- Two clocks with the same activities: they have the same reading, unless both are on their
way to a time, and neither is past the only time that it is on its way to. -/
structure InTime (m n : Nat) (st : List (Frame κ π)) : Prop where
  now : m = n ∨ ∃ target below, st = .advancing target :: below
  target : targets st = [] ∨ ∃ target, targets st = [target] ∧ m ≤ target ∧ n ≤ target

/-- An activity on the left without a counterpart. -/
inductive Frame.Foreign (H : Host κ π σ) (P : Pairing) : Frame κ π → Prop where
  | waiting {point : π} : H.Ends point → Foreign H P (.waiting point)
  | fired (channel : Option Nat) : Foreign H P (.fired channel)
  | working {i : Nat} {o : Except MachineError Unit} {ps : List (Phase κ)} :
    P.Free i → Foreign H P (.working i o ps)

namespace Configuration

variable {H : Host κ π σ} {cs ds : List (Configuration κ π σ)} {c c' d d' : Configuration κ π σ}

/-- The targets of the clock stay unless it is advanced or goes on. -/
theorem step?_targets (h : step? H c = some d) (hstill : c.Still) (htarget : c.target? = none) :
  targets d.stack = targets c.stack
  := by
  obtain ⟨-, htops⟩ | ⟨hback, f, below, hstack, htops⟩ := step?_stack h hstill
  · exact htops.targets_eq
  · have hf : f.target? = none := by
      cases f with
      | advancing target =>
        cases hcontrol : c.control with
        | host next => simp [hcontrol, Control.isBack] at hback
        | back reply => simp [Configuration.target?, hcontrol, hstack] at htarget
      | _ => rfl
    obtain htops | ⟨target, rfl, -⟩ := htops
    · rw [htops.targets_eq, hstack, targets, targets, List.filterMap_cons, hf]
    · cases hf

/-- The clock stands still unless it goes on or the host operates it. -/
theorem Run.step?_now (h : Run H cs c) (hstep : step? H c = some d)
    (hoperation : c.operation? = none) (htarget : c.target? = none) :
  d.engine.timing.now = c.engine.timing.now
  := by
  obtain ⟨f, hf, -⟩ | ⟨target, -, ht, -⟩ | ⟨-, -, hkeeps⟩ :=
    Timing.Keeps.covers.step hstep
  · rw [hoperation] at hf
    cases hf
  · rw [htarget] at ht
    cases ht
  · exact (hkeeps h.tasked).now

/-- Listeners are about to be told about a snapshot, or have just been. -/
def Tells (c : Configuration κ π σ) : Prop :=
  (∃ reply, c.control = .back reply)
    ∧ ∃ i o s ls rest below, c.stack = .working i o (.notify s ls :: rest) :: below

/-! ### Steps together -/

variable {P : Pairing}

namespace Alike

variable (h : Alike H P c d)

include h

/-- Both clocks go on together, to the same target. -/
theorem target?_eq :
  c.target? = d.target?
  := by
  have hcontrol := h.control
  have hstack := h.stack
  rw [Configuration.target?, Configuration.target?]
  generalize c.control = k, d.control = k' at hcontrol
  generalize c.stack = st, d.stack = st' at hstack
  cases hcontrol with
  | done => rfl
  | back reply reply' =>
    cases hstack with
    | nil => rfl
    | cons hf _ => cases hf <;> rfl

/-- Neither side operates the clock. -/
theorem operation?_eq :
  c.operation? = none ∧ d.operation? = none
  := by
  have hcontrol := h.control
  rw [operation?, operation?]
  generalize c.control = k, d.control = k' at hcontrol
  cases hcontrol <;> exact ⟨rfl, rfl⟩

theorem still :
  c.Still ∧ d.Still
  := by
  have hcontrol := h.control
  rw [Still, Still]
  generalize c.control = k, d.control = k' at hcontrol
  cases hcontrol <;> simp

/-- Both are idle, or none is. -/
theorem isIdle_iff :
  c.IsIdle ↔ d.IsIdle
  := by
  have hcontrol := h.control
  have hstack := h.stack
  rw [IsIdle, IsIdle]
  generalize c.control = k, d.control = k' at hcontrol
  generalize c.stack = st, d.stack = st' at hstack
  cases hcontrol <;> cases hstack <;> simp

/-- Counterparts do the same, and so does the host, unless listeners that are not heeded are
told. -/
theorem exists_step (hcalm : H.Calm) (hsure : Sure H c) (hheeds : P.heeds = true ∨ ¬c.Tells)
    (hr : Run H cs c) (hs : Run H ds d) (hheld : H.Holds P.root.left)
    (hheld' : H.Holds P.root.right)
    (hnow : c.control.isBack = true → c.engine.timing.now = d.engine.timing.now)
    (htarget : c.target? = none) (hstep : step? H c = some c') :
  ∃ d' P', step? H d = some d' ∧ P.Grows P' ∧ Alike H P' c' d'
  := by
  have hcontrol := h.control
  have hstack := h.stack
  rw [Configuration.target?] at htarget
  rw [step?] at hstep ⊢
  generalize hk : c.control = k, hk' : d.control = k' at hcontrol
  generalize hst : c.stack = st, hst' : d.stack = st' at hstack
  cases hcontrol with
  | done =>
    simp only [hk, Option.some.injEq] at hstep
    subst hstep
    exact ⟨d.back .done, P, rfl, .refl P, h.engine, h.stack, .back _ _⟩
  | back reply reply' =>
    simp only [hk, hst] at hstep htarget
    cases hstack with
    | nil => cases hstep
    | @cons f f' below below' hf hbelow =>
      cases hf with
      | waiting hpoint =>
        obtain rfl := Option.some.inj hstep
        exact ⟨_, P, rfl, .refl P, Alike.enter (c := c.withStack below) (d := d.withStack below')
          hr.nested hs.nested hheld hheld' h.engine hbelow (hpoint _) (hpoint _)⟩
      | advancing target => cases htarget
      | fired channel channel' =>
        obtain rfl := Option.some.inj hstep
        have hannounced := h.engine.retimed (h.engine.timing.frame
          (c.engine.timing.announce channel .fired) (d.engine.timing.announce channel' .fired)
          (by rcases channel with _ | _ <;> exact ⟨rfl, rfl, rfl⟩)
          (by rcases channel' with _ | _ <;> exact ⟨rfl, rfl, rfl⟩))
        exact ⟨_, P, rfl, .refl P, hannounced, hbelow, .back _ _⟩
      | @working t o o' ps ps' ht hps =>
        obtain ⟨x, hx⟩ := hr.orderly.there t.left (by simp [hst, workers, Frame.worker?])
        obtain ⟨y, hy⟩ := hs.orderly.there t.right (by simp [hst', workers, Frame.worker?])
        have habreast : Abreast H P t x y below below' c d :=
          ⟨h.engine, ht, hx, hy, hbelow, ⟨reply, hk⟩, ⟨reply', hk'⟩⟩
        simp only [hx] at hstep
        simp only [hy]
        cases hps with
        | nil =>
          obtain rfl := Option.some.inj hstep
          exact ⟨_, P, rfl, .refl P, habreast.nextEnvelope hr.nested hs.nested hheld hheld'⟩
        | @cons p p' rest rest' hp hrest =>
          obtain rfl := Option.some.inj hstep
          have hpure : H.Pure ∨ ∀ state context vs, p = .invoke state context vs → vs = [] := by
            refine hsure.imp_right fun hchildless state context vs heq => ?_
            exact (hr.barren hx (hchildless _ x hx)).2 (p :: rest) state context vs
              (by rw [hst, workOf_working_self]) (by rw [heq]; exact List.mem_cons_self)
          have hquiet : P.heeds = true ∨ ∀ s ls, p ≠ .notify s ls := by
            refine hheeds.imp_right fun hnot s ls heq => ?_
            exact hnot ⟨⟨_, hk⟩, _, _, s, ls, _, _, heq ▸ hst⟩
          obtain ⟨P', hgrows, halike⟩ := habreast.stepPhase o o' hcalm hr.regular hs.regular
            hheld hheld' (hnow (by rw [hk]; rfl)) hp hpure hquiet hrest
          exact ⟨_, P', rfl, hgrows, halike⟩

end Alike

/-! ### The left ahead -/

/-- The left is ahead: on top of what both are about, only activities without a counterpart are
under way. -/
structure Ahead (H : Host κ π σ) (P : Pairing) (top st : List (Frame κ π))
    (c d : Configuration κ π σ) : Prop where
  engine : Engine.Alike P c.engine d.engine
  left : c.stack = top ++ st
  foreign : ∀ f ∈ top, f.Foreign H P
  stack : List.Forall₂ (Frame.Alike H P) st d.stack
  control : c.control = .host .done ∨ ∃ reply, c.control = .back reply
  behind : ∃ reply, d.control = .back reply

namespace Ahead

variable {top more st below : List (Frame κ π)} {i : Nat} {x : Instance κ}
  {o : Except MachineError Unit} {ps ps' rest : List (Phase κ)}

/-- The left is done with what it was about alone. -/
theorem alike (h : Ahead H P [] st c d) {reply : Reply κ} (hcontrol : c.control = .back reply) :
  Alike H P c d
  := by
  obtain ⟨reply', hcontrol'⟩ := h.behind
  refine ⟨h.engine, h.left ▸ h.stack, ?_⟩
  rw [hcontrol, hcontrol']
  exact .back _ _

/-- A change on the left of something without a counterpart. -/
theorem withEngine (h : Ahead H P top st c d) {r : Engine κ} (hr : Engine.Alike P r d.engine) :
  Ahead H P top st (c.withEngine r) d
  := ⟨hr, h.left, h.foreign, h.stack, h.control, h.behind⟩

/-- What the left replies to itself does not matter. -/
theorem back (h : Ahead H P top st c d) (reply : Reply κ) :
  Ahead H P top st (c.back reply) d
  := ⟨h.engine, h.left, h.foreign, h.stack, .inr ⟨reply, rfl⟩, h.behind⟩

/-- The activities on top are others. -/
theorem withStack (h : Ahead H P top st c d) (top' : List (Frame κ π))
    (hforeign : ∀ f ∈ top', f.Foreign H P) :
  Ahead H P top' st (c.withStack (top' ++ st)) d
  := ⟨h.engine, rfl, hforeign, h.stack, h.control, h.behind⟩

/-- An instance without a counterpart goes on with its work. -/
theorem work (h : Ahead H P (.working i o ps :: more) st c d) (o' : Except MachineError Unit)
    (ps' : List (Phase κ)) :
  Ahead H P (.working i o' ps' :: more) st (c.work i o' ps' (more ++ st)) d
  := by
  have hi := h.foreign _ List.mem_cons_self
  refine h.withStack (.working i o' ps' :: more) ?_
  intro f hf
  obtain rfl | hf := List.mem_cons.mp hf
  · cases hi with
    | working hi => exact .working hi
  · exact h.foreign f (List.mem_cons_of_mem _ hf)

/-- What the left does alone is for instances without a counterpart. -/
theorem free (h : Ahead H P (.working i o ps :: more) st c d) :
  P.Free i
  := by
  cases h.foreign _ List.mem_cons_self with
  | working hi => exact hi

/-- An envelope is delivered to an instance without a counterpart. -/
theorem deliver (h : Ahead H P top st c d) (hi : P.Free i) (e : Envelope) :
  ∃ top', Ahead H P top' st (c.deliver i e) d
  := by
  rw [Configuration.deliver]
  split
  · exact ⟨top, h.back _⟩
  · next x hx =>
    have hqueued := h.withEngine (h.engine.modify_left hi
      (f := fun x => { x with mailbox := x.mailbox ++ [e], busy := true })
      fun x _ hx => ⟨hx.parent, hx.children, hx.timers⟩)
    split
    · exact ⟨top, hqueued.back _⟩
    · refine ⟨.working i (.ok ()) [] :: top, ?_⟩
      rw [h.left]
      refine (hqueued.withStack (.working i (.ok ()) [] :: top) ?_).back _
      intro f hf
      obtain rfl | hf := List.mem_cons.mp hf
      · exact .working hi
      · exact h.foreign f hf

/-- An instance without a counterpart is started. -/
theorem start (h : Ahead H P top st c d) (hi : P.Free i) :
  ∃ top', Ahead H P top' st (c.start i) d
  := by
  rw [Configuration.start]
  split
  · exact ⟨top, h.back _⟩
  · split
    · exact (h.withEngine (h.engine.modify_left hi (f := fun x => { x with status := .running })
        fun x _ hx => ⟨hx.parent, hx.children, hx.timers⟩)).deliver hi .start
    · exact ⟨top, h.back _⟩

/-- An event is sent to an instance without a counterpart. -/
theorem send (h : Ahead H P top st c d) (hi : P.Free i) (event : Event) :
  ∃ top', Ahead H P top' st (c.send i event) d
  := by
  rw [Configuration.send]
  split
  · exact h.deliver hi _
  · exact ⟨top, h.back _⟩

/-- The left lets go of nothing that matters. -/
theorem settle (h : Ahead H P top st c d) (hr : c.engine.Nested) (hheld : H.Holds P.root.left) :
  Ahead H P top st (settle H c) d
  := ⟨h.engine.release_left hr (List.mem_append_left _ (hheld c.memory)), h.left, h.foreign,
    h.stack, h.control, h.behind⟩

/-- Code of the host runs on the left that asks for nothing. -/
theorem enter (h : Ahead H P top st c d) (hr : c.engine.Nested) (hheld : H.Holds P.root.left)
    {code : Engine κ → σ → Next κ π × σ} (hcode : Silent code) :
  Ahead H P top st (enter H c code) d
  := by
  rw [Configuration.enter]
  simp only [hcode c.engine c.memory]
  exact settle (c := { c with memory := (code c.engine c.memory).2, control := .host .done })
    ⟨h.engine, h.left, h.foreign, h.stack, .inl rfl, h.behind⟩ hr hheld

/-! ### Work without a counterpart -/

/-- A transition of an instance without a counterpart. -/
theorem settleTransition (h : Ahead H P (.working i o ps :: more) st c d) (event : Event)
    (rearm : Rearm) (found : Evaluated (Except MachineError (Option (Snapshot κ)))) :
  ∃ top', Ahead H P top' st
    (settleTransition H c i x o (more ++ st) event rearm found) d
  := by
  have hobserved : Ahead H P (.working i o ps :: more) st (c.observe H found.evaluations) d :=
    ⟨h.engine, h.left, h.foreign, h.stack, h.control, h.behind⟩
  rw [Configuration.settleTransition]
  cases found.value with
  | error e => exact ⟨_, hobserved.work _ _⟩
  | ok next? =>
    cases next? with
    | none => exact ⟨_, hobserved.work _ _⟩
    | some next =>
      exact ⟨_, (hobserved.withEngine (h.engine.modify_left h.free
        (f := fun x => commitTo x next event c.engine.timing.now)
        fun x _ hx => ⟨hx.parent, hx.children, hx.timers⟩)).work _ _⟩

/-- An instance without a counterpart takes its next envelope, or its work is over. -/
theorem nextEnvelope (h : Ahead H P (.working i o [] :: more) st c d) (hr : c.engine.Nested)
    (hheld : H.Holds P.root.left) :
  ∃ top', Ahead H P top' st (nextEnvelope H c i x o (more ++ st)) d
  := by
  rw [Configuration.nextEnvelope]
  cases x.mailbox with
  | nil =>
    have hmore := (h.withEngine (h.engine.modify_left h.free
      (f := fun x => { x with busy := false })
      fun x _ hx => ⟨hx.parent, hx.children, hx.timers⟩)).withStack more
        fun f hf => h.foreign f (List.mem_cons_of_mem _ hf)
    exact ⟨more, (hmore.back _).settle (hr.modify i fun x => ⟨rfl, rfl, rfl, rfl⟩) hheld⟩
  | cons e es =>
    have htaken := h.withEngine (h.engine.modify_left h.free
      (f := fun x => { x with mailbox := es }) fun x _ hx => ⟨hx.parent, hx.children, hx.timers⟩)
    simp only [process_eq]
    cases Instance.resolution { x with mailbox := es } e with
    | ignore => exact ⟨_, htaken.work _ _⟩
    | begin => exact ⟨_, htaken.work _ _⟩
    | attempt event rearm found => exact htaken.settleTransition event rearm found

/-- An instance without a counterpart invokes a child without one. -/
theorem startChild (h : Ahead H P (.working i o ps :: more) st c d)
    (hx : c.engine.get? i = some x) (state : String) (context : Context) (v : Invocation κ) :
  ∃ top', Ahead H P top' st
    (startChild H (c.work i o ps' (more ++ st)) i x state context v) d
  := by
  have hwork := h.work o ps'
  rw [Configuration.startChild]
  split
  · exact ⟨_, hwork⟩
  · next hcontains =>
    have hc := snd_resolveChild H (c.work i o ps' (more ++ st)) x v context
    generalize (resolveChild H (c.work i o ps' (more ++ st)) x v context).2.memory = memory at hc
    have hremembers : Ahead H P (.working i o ps' :: more) st
        { c.work i o ps' (more ++ st) with memory := memory } d :=
      ⟨hwork.engine, hwork.left, hwork.foreign, hwork.stack, hwork.control, hwork.behind⟩
    generalize resolveChild H (c.work i o ps' (more ++ st)) x v context = a at hc
    obtain ⟨result, c'⟩ := a
    obtain rfl : c' = _ := hc
    cases result with
    | ok machine =>
      refine (hremembers.withEngine (h.engine.spawn_left h.free machine state ?_)).start ?_
      · intro x' hx'
        obtain rfl := Option.some.inj (hx.symm.trans hx')
        simpa [OrderedMap.contains] using hcontains
      · intro t ht heq
        exact absurd (h.engine.lt_next t ht).1 (heq ▸ Nat.lt_irrefl _)
    | error e =>
      exact ⟨_, hremembers.withEngine (h.engine.modify_left h.free
        (f := fun x => { x with mailbox := x.mailbox ++ [.invokeFailed v.id state e.message] })
        fun x _ hx => ⟨hx.parent, hx.children, hx.timers⟩)⟩

/-- What an instance without a counterpart reports, it reports to one without. -/
theorem report (h : Ahead H P (.working i o ps :: more) st c d) (hx : c.engine.get? i = some x)
    (value : StateValue) :
  ∃ top', Ahead H P top' st ((c.work i o ps' (more ++ st)).report i x value) d
  := by
  have hwork := h.work o ps'
  rw [Configuration.report]
  split
  · have hmarked := hwork.withEngine (h.engine.modify_left h.free
      (f := fun x => { x with doneReported := true })
      fun x _ hx => ⟨hx.parent, hx.children, hx.timers⟩)
    cases hparent : x.parent with
    | none => exact ⟨_, hmarked⟩
    | some link => exact hmarked.deliver ((h.engine.foreign i x hx h.free).parent link hparent) _
  · exact ⟨_, hwork⟩

/-- A phase of the work of an instance without a counterpart. -/
theorem stepPhase (h : Ahead H P (.working i o ps :: more) st c d) (hcalm : H.Calm)
    (hr : c.engine.Nested) (hheld : H.Holds P.root.left) (hx : c.engine.get? i = some x)
    (p : Phase κ) :
  ∃ top', Ahead H P top' st (stepPhase H c i x o rest (more ++ st) p) d
  := by
  have hwork : ∀ o' ps', ∃ top', Ahead H P top' st (c.work i o' ps' (more ++ st)) d :=
    fun o' ps' => ⟨_, h.work o' ps'⟩
  have henter : ∀ {code : Engine κ → σ → Next κ π × σ} (ps' : List (Phase κ)), Silent code →
      ∃ top', Ahead H P top' st (Configuration.enter H (c.work i o ps' (more ++ st)) code) d :=
    fun ps' hcode => ⟨_, (h.work o ps').enter hr hheld hcode⟩
  cases p with
  | perform actions context event =>
    cases actions with
    | nil => exact hwork _ _
    | cons a as =>
      simp only [Configuration.stepPhase]
      split
      · exact henter _ (hcalm.execute _ _ _ _)
      · exact hwork _ _
  | stopChildren =>
    exact ⟨_, (h.withEngine (h.engine.stopChildren_left h.free)).work o rest⟩
  | startChildren =>
    simp only [Configuration.stepPhase]
    repeat' split
    all_goals exact hwork _ _
  | invoke state context vs =>
    cases vs with
    | nil => exact hwork _ _
    | cons v vs =>
      simp only [Configuration.stepPhase]
      split
      · exact h.startChild hx state context v
      · exact hwork _ _
  | publish s =>
    simp only [Configuration.stepPhase]
    split <;> exact hwork _ _
  | notify s ls =>
    cases ls with
    | nil => exact hwork _ _
    | cons l ls => exact henter _ (hcalm.notify _ s)
  | rearm =>
    have hobserved : Ahead H P (.working i o ps :: more) st
        (c.observe H (c.engine.armTimers i).evaluations) d :=
      ⟨h.engine, h.left, h.foreign, h.stack, h.control, h.behind⟩
    simp only [Configuration.stepPhase]
    split
    · split
      · exact ⟨_, hobserved.work _ _⟩
      · next r harmed =>
        exact ⟨_, (hobserved.withEngine (h.engine.armTimers_left h.free harmed)).work o rest⟩
    · exact hwork _ _
  | report value => exact h.report hx value

/-- The clock does not go on as long as the left is about something alone. -/
theorem target?_eq (h : Ahead H P top st c d) (hnot : top ≠ [] ∨ c.control = .host .done) :
  c.target? = none
  := by
  rw [Configuration.target?, h.left]
  obtain hcontrol | ⟨reply, hcontrol⟩ := h.control
  · rw [hcontrol]
  · rw [hcontrol] at hnot ⊢
    cases top with
    | nil => simp at hnot
    | cons f more =>
      have hf := h.foreign f List.mem_cons_self
      cases hf <;> rfl

/-- The left goes on alone. -/
theorem step (h : Ahead H P top st c d) (hcalm : H.Calm) (hr : Run H cs c)
    (hheld : H.Holds P.root.left) (hnot : top ≠ [] ∨ c.control = .host .done)
    (hstep : step? H c = some c') :
  ∃ top', Ahead H P top' st c' d
  := by
  rw [step?] at hstep
  obtain hcontrol | ⟨reply, hcontrol⟩ := h.control
  · simp only [hcontrol, Option.some.injEq] at hstep
    subst hstep
    exact ⟨top, h.back _⟩
  · have hleft := h.left
    cases top with
    | nil => exact absurd hcontrol (by simp [hnot.resolve_left (fun hne => hne rfl)])
    | cons f more =>
      rw [List.cons_append] at hleft
      simp only [hcontrol, hleft] at hstep
      have hmore := h.withStack more fun f hf => h.foreign f (List.mem_cons_of_mem _ hf)
      have hf := h.foreign f List.mem_cons_self
      cases hf with
      | waiting hpoint =>
        obtain rfl := Option.some.inj hstep
        exact ⟨more, hmore.enter hr.nested hheld (hpoint _)⟩
      | fired channel =>
        obtain rfl := Option.some.inj hstep
        refine ⟨more, (hmore.withEngine (h.engine.retimed (h.engine.timing.frame
          (c.engine.timing.announce channel .fired) d.engine.timing ?_
          ⟨rfl, rfl, rfl⟩))).back _⟩
        rcases channel with _ | _ <;> exact ⟨rfl, rfl, rfl⟩
      | @working i o ps hi =>
        cases hx : c.engine.get? i with
        | none =>
          simp only [hx, Option.some.injEq] at hstep
          subst hstep
          exact ⟨more, hmore.back _⟩
        | some x =>
          simp only [hx] at hstep
          cases ps with
          | nil =>
            obtain rfl := Option.some.inj hstep
            exact h.nextEnvelope hr.nested hheld
          | cons p rest =>
            obtain rfl := Option.some.inj hstep
            exact h.stepPhase hcalm hr.nested hheld hx p

end Ahead

/-! ### The clock -/

/-- A timer has fired, and the completion is to be announced. -/
def firing (c : Configuration κ π σ) (timing : Timing (Callback κ)) (channel : Option Nat) :
    Configuration κ π σ :=
  (c.withEngine { c.engine with timing := timing }).withStack (.fired channel :: c.stack)

/-- A timer that is due is fired, and then its callback is called. -/
theorem stepClock_eq {target id : Nat} {p : Pending (Job (Callback κ))}
    {scheduler : Scheduler (Job (Callback κ))} {cb : Option (Callback κ)} {channel : Option Nat}
    {timing : Timing (Callback κ)} (below : List (Frame κ π))
    (htake : c.engine.timing.scheduler.takeDue target = some (p, scheduler))
    (hp : p.task = .timer id)
    (hfire : Timing.fire { c.engine.timing with scheduler := scheduler } id
      = (some (cb, channel), timing)) :
  stepClock H c target below
    = match cb with
      | some callback => call H (c.firing timing channel) callback
      | none => c.firing timing channel
  := by
  rw [stepClock, htake]
  simp only [hp, runJob, Engine.withTiming, Configuration.withEngine, hfire]
  cases cb <;> rfl

/-- With a job taken off its queue, the clock is at the time at which the job was due. -/
theorem now_stepClock (hc : c.engine.timing.Tasked) {target : Nat} {below : List (Frame κ π)}
    (hstack : c.stack = .advancing target :: below)
    {p : Pending (Job (Callback κ))} {scheduler : Scheduler (Job (Callback κ))}
    (htake : c.engine.timing.scheduler.takeDue target = some (p, scheduler)) :
  (stepClock H c target below).engine.timing.now = p.due
  := by
  have htaken := hc.takeDue htake
  have htick : (c.engine.timing.tick target).now = p.due := by
    have hdue : scheduler.now = p.due := (hc.ordered.takeDue htake).2.2.2
    rw [Timing.tick, htake]
    simp only
    cases p.task with
    | timer id => exact (Timing.Keeps.fire htaken.tasked id).now.trans hdue
    | task code => exact hdue
  exact (Timing.Keeps.covers.stepClock hstack (hc.tick target).tasked).now.trans htick

theorem tops_stepClock_of_takeDue {target : Nat} {p : Pending (Job (Callback κ))}
    {scheduler : Scheduler (Job (Callback κ))}
    (htake : c.engine.timing.scheduler.takeDue target = some (p, scheduler))
    (below : List (Frame κ π)) :
  Tops c.stack (stepClock H c target below).stack
  := by
  rw [stepClock, htake]
  exact tops_runJob (c := c.withEngine _) (Tops.refl _) p.task

namespace Alike

variable (h : Alike H P c d) {target : Nat} {below below' : List (Frame κ π)}
  {p q : Pending (Job (Callback κ))} {scheduler scheduler' : Scheduler (Job (Callback κ))}
  (htake : c.engine.timing.scheduler.takeDue target = some (p, scheduler))

include h htake

/-- A job of paired timers is run on both sides. -/
theorem stepClock (hr : c.engine.Regular) {e : Nat × Nat} (he : e ∈ P.timers)
    (hp : p.task = .timer e.1)
    (htake' : d.engine.timing.scheduler.takeDue target = some (q, scheduler'))
    (hq : q.task = .timer e.2) :
  Alike H P (stepClock H c target below) (stepClock H d target below')
  := by
  obtain ⟨cb, channel, cb', channel', hfire, hfire', hcb, hfired⟩ :=
    h.engine.timing.fire he htake hp htake' hq
  have hengine := h.engine.retimed hfired
  have hstack : List.Forall₂ (Frame.Alike H P) (.fired channel :: c.stack)
      (.fired channel' :: d.stack) := .cons (.fired _ _) h.stack
  rw [stepClock_eq below htake hp (Prod.ext hfire rfl),
    stepClock_eq below' htake' hq (Prod.ext hfire' rfl)]
  cases hcb with
  | none => exact ⟨hengine, hstack, h.control⟩
  | some hcode =>
    cases hcode with
    | @after t state key generation generation' ht hgeneration =>
      obtain ⟨u, -, hu, -, -, -, -, hfires, -⟩ := Timing.Alike.fire_eq h.engine.timing.left htake hp
      have hcallback : u.callback = some (.after t.left state key generation) :=
        congrArg Prod.fst (Option.some.inj (hfires.symm.trans hfire))
      obtain ⟨x, hx, hstatus⟩ := hr.owner e.1 u t.left state key generation hu hcallback
      exact Alike.deliver (c := c.firing _ channel) (d := d.firing _ channel') hengine hstack ht hx
        hstatus (.after hgeneration) fun heq => Envelope.noConfusion heq

/-- A job of a timer without a counterpart is run on the left. -/
theorem stepClock_left (below : List (Frame κ π)) {id : Nat} (hid : ∀ e ∈ P.timers, e.1 ≠ id)
    (hp : p.task = .timer id)
    (hcontrol : ∃ reply, c.control = .back reply) (hcontrol' : ∃ reply, d.control = .back reply) :
  ∃ top, Ahead H P top c.stack (Configuration.stepClock H c target below) d
  := by
  obtain ⟨cb, channel, hfire, hforeign, hfired⟩ := h.engine.timing.fire_left hid htake hp
  have hahead : Ahead H P [.fired channel] c.stack (c.firing
      (Timing.fire { c.engine.timing with scheduler := scheduler } id).2 channel) d := by
    refine ⟨h.engine.retimed hfired, rfl, ?_, h.stack, .inr hcontrol, hcontrol'⟩
    intro f hf
    obtain rfl := List.mem_singleton.mp hf
    exact .fired channel
  rw [stepClock_eq below htake hp (Prod.ext hfire rfl)]
  cases cb with
  | none => exact ⟨_, hahead⟩
  | some code =>
    obtain ⟨i, state, key, generation, rfl, hi⟩ := hforeign code rfl
    exact hahead.deliver hi _

end Alike

/-! ### Steps in time -/

/-- The clock goes on when it is the innermost activity and nothing else is to be done. -/
theorem exists_of_target? {target : Nat} (h : c.target? = some target) :
  (∃ reply, c.control = .back reply) ∧ ∃ below, c.stack = .advancing target :: below
  := by
  rw [Configuration.target?] at h
  split at h
  · next reply target' below hcontrol hstack =>
    obtain rfl := Option.some.inj h
    exact ⟨⟨reply, hcontrol⟩, below, hstack⟩
  · cases h

theorem step?_of_target? {target : Nat} {reply : Reply κ} {below : List (Frame κ π)}
    (hcontrol : c.control = .back reply) (hstack : c.stack = .advancing target :: below) :
  step? H c = some (stepClock H c target below)
  := by
  simp only [step?, hcontrol, hstack]

theorem started?_of_advancing {target : Nat} {reply : Reply κ} {below : List (Frame κ π)}
    (hcontrol : c.control = .back reply) (hstack : c.stack = .advancing target :: below) :
  c.started? = c.engine.timing.dueTask? target
  := by
  rw [started?, target?, hcontrol, hstack]
  rfl

/-- When nothing is due the clock arrives at its target. -/
theorem stepClock_of_none {target : Nat}
    (htake : c.engine.timing.scheduler.takeDue target = none) (below : List (Frame κ π)) :
  stepClock H c target below
    = ((c.withEngine (c.engine.withTiming fun t =>
        { t with scheduler := t.scheduler.settle target })).withStack below).back .done
  := by
  rw [stepClock, htake]

namespace Alike

/-- What the clock on the left does next, the clock on the right does as well, unless it is
the job of a timer without a counterpart. -/
theorem step_of_target? (h : Alike H P c d) (hr : Run H cs c) (hs : Run H ds d) {target : Nat}
    (htarget : c.target? = some target)
    (htime : InTime c.engine.timing.now d.engine.timing.now c.stack)
    (hstep : step? H c = some c') :
  (∃ d', step? H d = some d' ∧ Alike H P c' d'
      ∧ InTime c'.engine.timing.now d'.engine.timing.now c'.stack)
    ∨ ∃ top, Ahead H P top c.stack c' d
      ∧ InTime c'.engine.timing.now d.engine.timing.now c.stack
  := by
  obtain ⟨⟨reply, hcontrol⟩, below, hstack⟩ := exists_of_target? htarget
  obtain ⟨⟨reply', hcontrol'⟩, below', hstack'⟩ := exists_of_target? (h.target?_eq ▸ htarget)
  rw [step?_of_target? hcontrol hstack, Option.some.injEq] at hstep
  subst hstep
  rw [step?_of_target? hcontrol' hstack']
  have htargets : targets c.stack = target :: targets below := by rw [hstack]; rfl
  obtain ⟨hle, hle', hbelow⟩ : c.engine.timing.now ≤ target ∧ d.engine.timing.now ≤ target
      ∧ targets below = [] := by
    obtain hnone | ⟨target', heq, hle, hle'⟩ := htime.target
    · rw [htargets] at hnone
      cases hnone
    · rw [htargets] at heq
      obtain ⟨rfl, hnil⟩ := List.cons.inj heq
      exact ⟨hle, hle', hnil⟩
  cases htake : c.engine.timing.scheduler.takeDue target with
  | none =>
    left
    have hstacks := h.stack
    rw [hstack, hstack', List.forall₂_cons] at hstacks
    rw [stepClock_of_none htake]
    refine ⟨_, congrArg some (stepClock_of_none (h.engine.timing.takeDue_eq_none htake) below'),
      ⟨h.engine.retimed (h.engine.timing.settle htake), hstacks.2, .back _ _⟩, .inl ?_,
      .inl hbelow⟩
    exact (Nat.max_eq_right hle).trans (Nat.max_eq_right hle').symm
  | some taken =>
    obtain ⟨p, scheduler⟩ := taken
    have hdue := (hr.tasked.ordered.takeDue htake).2.1
    have hnow := now_stepClock (H := H) hr.tasked hstack htake
    obtain ⟨e, he, q, scheduler', hp, hq, htake', heq⟩ | ⟨id, hp, hid⟩ :=
      h.engine.timing.takeDue_cases htake
    · left
      obtain ⟨-, hdue', -, hnow'⟩ := hs.tasked.ordered.takeDue htake'
      have hreading : p.due = q.due :=
        (hr.tasked.ordered.takeDue htake).2.2.2.symm.trans (heq.trans hnow')
      have hnows := now_stepClock (H := H) hs.tasked hstack' htake'
      refine ⟨_, rfl, h.stepClock htake hr.regular he hp htake' hq,
        .inl (hnow.trans (hreading.trans hnows.symm)), .inr ⟨target, ?_, ?_, ?_⟩⟩
      · rw [(tops_stepClock_of_takeDue htake below).targets_eq, htargets, hbelow]
      · exact hnow.trans_le hdue
      · exact hnows.trans_le hdue'
    · right
      obtain ⟨top, hahead⟩ := h.stepClock_left htake below hid hp ⟨reply, hcontrol⟩
        ⟨reply', hcontrol'⟩
      refine ⟨top, hahead, .inr ⟨target, below, hstack⟩, .inr ⟨target, ?_, ?_, hle'⟩⟩
      · rw [htargets, hbelow]
      · exact hnow.trans_le hdue

/-- Both take a step, unless the clock on the left has to do with a timer without a
counterpart. -/
theorem step (h : Alike H P c d) (hcalm : H.Calm) (hsure : Sure H c)
    (hheeds : P.heeds = true ∨ ¬c.Tells) (hr : Run H cs c) (hs : Run H ds d)
    (hheld : H.Holds P.root.left) (hheld' : H.Holds P.root.right)
    (htime : InTime c.engine.timing.now d.engine.timing.now c.stack)
    (hstep : step? H c = some c') :
  (∃ d' P', step? H d = some d' ∧ P.Grows P' ∧ Alike H P' c' d'
      ∧ InTime c'.engine.timing.now d'.engine.timing.now c'.stack)
    ∨ c.target? ≠ none ∧ ∃ top, Ahead H P top c.stack c' d
      ∧ InTime c'.engine.timing.now d.engine.timing.now c.stack
  := by
  cases htarget : c.target? with
  | some target =>
    obtain ⟨d', hstep', halike, htime'⟩ | hahead := h.step_of_target? hr hs htarget htime hstep
    · exact .inl ⟨d', P, hstep', .refl P, halike, htime'⟩
    · exact .inr ⟨by simp, hahead⟩
  | none =>
    left
    have hreading : c.control.isBack = true → c.engine.timing.now = d.engine.timing.now := by
      intro hback
      refine htime.now.resolve_right ?_
      rintro ⟨target, below, hstack⟩
      cases hcontrol : c.control with
      | host next => simp [hcontrol, Control.isBack] at hback
      | back reply => simp [Configuration.target?, hcontrol, hstack] at htarget
    obtain ⟨d', P', hstep', hgrows, halike⟩ :=
      h.exists_step hcalm hsure hheeds hr hs hheld hheld' hreading htarget hstep
    have hnow := hr.step?_now hstep h.operation?_eq.1 htarget
    have hnow' := hs.step?_now hstep' h.operation?_eq.2 (h.target?_eq ▸ htarget)
    refine ⟨d', P', hstep', hgrows, halike, ?_, ?_⟩
    · rw [hnow, hnow']
      cases hcontrol : c.control with
      | back reply => exact .inl (hreading (by rw [hcontrol]; rfl))
      | host next =>
        have hdone : next = .done := by
          have := h.control
          rw [hcontrol] at this
          generalize d.control = k at this
          cases this
          rfl
        subst hdone
        simp only [step?, hcontrol, Option.some.injEq] at hstep
        exact hstep ▸ htime.now
    · rw [hnow, hnow', step?_targets hstep h.still.1 htarget]
      exact htime.target

end Alike

/-! ### Steps -/

/-- Steps, with the configurations that are passed. -/
inductive Steps (H : Host κ π σ) :
    Configuration κ π σ → List (Configuration κ π σ) → Configuration κ π σ → Prop where
  | refl (c : Configuration κ π σ) : Steps H c [] c
  | step {c d e : Configuration κ π σ} {cs : List (Configuration κ π σ)} :
    step? H c = some d → Steps H d cs e → Steps H c (c :: cs) e

/-- When nothing is under way there is no step. -/
theorem step?_of_idle (hidle : c.IsIdle) :
  step? H c = none
  := by
  obtain ⟨hstack, reply, hcontrol⟩ := hidle
  simp [step?, hcontrol, hstack]

/-- When nothing is under way no steps follow. -/
theorem Steps.eq_of_idle (h : Steps H c cs c') (hidle : c.IsIdle) :
  cs = [] ∧ c' = c
  := by
  cases h with
  | refl => exact ⟨rfl, rfl⟩
  | step hstep _ =>
    rw [step?_of_idle hidle] at hstep
    cases hstep

theorem Steps.trans {bs : List (Configuration κ π σ)} (h : Steps H c bs d) (h' : Steps H d ds d') :
  Steps H c (bs ++ ds) d'
  := by
  induction h with
  | refl => exact h'
  | step hstep _ ih => exact .step hstep (ih h')

/-- Steps to an end begin with the steps to any configuration that is passed. -/
theorem Steps.split {bs : List (Configuration κ π σ)} (h : Steps H c cs c') (hidle : c'.IsIdle)
    (h' : Steps H c bs d) :
  ∃ rest, cs = bs ++ rest ∧ Steps H d rest c'
  := by
  induction h' generalizing cs with
  | refl c => exact ⟨cs, rfl, h⟩
  | step hstep _ ih =>
    cases h with
    | refl =>
      rw [step?_of_idle hidle] at hstep
      cases hstep
    | step hstep' hrest =>
      obtain rfl := Option.some.inj (hstep.symm.trans hstep')
      obtain ⟨rest, rfl, hsteps⟩ := ih hrest
      exact ⟨rest, rfl, hsteps⟩

/-- A trail is made of steps. -/
theorem steps_trail (H : Host κ π σ) (n : Nat) (c : Configuration κ π σ) :
  Steps H c (trail H n c).1 (trail H n c).2
  := by
  induction n generalizing c with
  | zero => exact .refl c
  | succ n ih =>
    rw [trail]
    cases hstep : step? H c with
    | none => exact .refl c
    | some d => exact .step hstep (ih d)

/-- Steps are those that are taken by computation. -/
theorem Steps.trail_eq (h : Steps H c cs d) :
  trail H cs.length c = (cs, d)
  := by
  induction h with
  | refl => rfl
  | step hstep _ ih => simp only [List.length_cons, trail, hstep, ih]

/-- Steps without calls are steps. -/
theorem Glides.steps (h : Glides H c cs d) :
  Steps H c cs d
  := by
  induction h with
  | refl c => exact .refl c
  | step hstep _ _ _ _ ih => exact .step hstep ih

/-- Code of the host runs, or listeners are told about a snapshot. -/
def Aside (c : Configuration κ π σ) : Prop := (∃ next, c.control = .host next) ∨ c.Tells

/-- The listeners on the right are told about a snapshot, one after another. -/
theorem Run.exists_round {r : Engine κ} {j : Nat} {o : Except MachineError Unit} {s : Snapshot κ}
    {ls : List (Nat × κ)} {rest : List (Phase κ)} {below : List (Frame κ π)} (hs : Run H ds d)
    (hcalm : H.Calm) (hsure : Sure H d) (hheld' : H.Holds P.root.right)
    (h : Engine.Alike P r d.engine) (hr : r.Nested) {reply : Reply κ}
    (hcontrol : d.control = .back reply)
    (hstack : d.stack = .working j o (.notify s ls :: rest) :: below) :
  ∃ bs d', Steps H d bs d' ∧ Run H (ds ++ bs) d' ∧ Sure H d' ∧ Engine.Alike P r d'.engine
    ∧ (∃ reply, d'.control = .back reply) ∧ d'.stack = .working j o rest :: below
    ∧ d'.engine.timing.now = d.engine.timing.now ∧ ∀ b ∈ bs, b.Aside
  := by
  induction ls generalizing d ds reply with
  | nil =>
    obtain ⟨y, hy⟩ := hs.orderly.there j (by simp [hstack, workers, Frame.worker?])
    have hstep : step? H d = some (d.work j o rest below) := by
      simp only [step?, hcontrol, hstack, hy]
      rfl
    obtain ⟨hevolves, hsure'⟩ := hs.next_of_sure hsure (by rw [hands, hcontrol]) hstep
    refine ⟨[d], _, .step hstep (.refl _), hs.next hevolves, hsure', h, ⟨reply, hcontrol⟩, rfl, rfl,
      ?_⟩
    intro b hb
    obtain rfl := List.mem_singleton.mp hb
    exact .inr ⟨⟨_, hcontrol⟩, _, _, _, _, _, _, hstack⟩
  | cons l more ih =>
    obtain ⟨y, hy⟩ := hs.orderly.there j (by simp [hstack, workers, Frame.worker?])
    have hstep : step? H d = some (enter H (d.work j o (.notify s more :: rest) below)
        (H.notify l.2 s)) := by
      simp only [step?, hcontrol, hstack, hy]
      rfl
    generalize hd₁ : enter H (d.work j o (.notify s more :: rest) below) (H.notify l.2 s) = d₁
      at hstep
    have hcontrol₁ : d₁.control = .host .done := by
      rw [← hd₁, enter]
      exact congrArg Control.host (hcalm.notify l.2 s _ _)
    have hstack₁ : d₁.stack = .working j o (.notify s more :: rest) :: below := by
      rw [← hd₁]
      rfl
    have hengine₁ : Engine.Alike P r d₁.engine := by
      rw [← hd₁]
      exact h.release_right hr hs.nested (List.mem_append_left _ (hheld' _))
    obtain ⟨hevolves, hsure₁⟩ := hs.next_of_sure hsure (by rw [hands, hcontrol]) hstep
    have hs₁ := hs.next hevolves
    have hnow₁ := hs.step?_now hstep (by rw [operation?, hcontrol])
      (by rw [Configuration.target?, hcontrol, hstack])
    have hstep₁ : step? H d₁ = some (d₁.back .done) := by
      rw [step?, hcontrol₁]
    obtain ⟨hevolves₁, hsure₂⟩ := hs₁.next_of_sure hsure₁ (by rw [hands, hcontrol₁]) hstep₁
    obtain ⟨bs, d', hsteps, hs', hsure', h', hcontrol', hstack', hnow', haside⟩ :=
      ih (d := d₁.back .done) (hs₁.next hevolves₁) hsure₂ hengine₁ rfl hstack₁
    refine ⟨d :: d₁ :: bs, d', .step hstep (.step hstep₁ hsteps), by simpa using hs', hsure', h',
      hcontrol', hstack', hnow'.trans hnow₁, ?_⟩
    intro b hb
    obtain rfl | hb := List.mem_cons.mp hb
    · exact .inr ⟨⟨_, hcontrol⟩, _, _, _, _, _, _, hstack⟩
    · obtain rfl | hb := List.mem_cons.mp hb
      · exact .inl ⟨_, hcontrol₁⟩
      · exact haside b hb

/-- The right follows the left: both are about the same, or the left is about something alone
first, or it has just told a listener that is not heeded. -/
inductive Follows (H : Host κ π σ) (P : Pairing) (c d : Configuration κ π σ) : Prop where
  | alike : Alike H P c d → InTime c.engine.timing.now d.engine.timing.now c.stack → Follows H P c d
  | ahead {top st : List (Frame κ π)} : Ahead H P top st c d →
    (top ≠ [] ∨ c.control = .host .done) →
      InTime c.engine.timing.now d.engine.timing.now st → Follows H P c d
  | hearing : c.control = .host .done → Alike H P (c.back .done) d →
    InTime c.engine.timing.now d.engine.timing.now c.stack → Follows H P c d

/-- If the left is ahead, the right can follow. -/
theorem Ahead.follows {top st : List (Frame κ π)} (h : Ahead H P top st c d)
    (htime : InTime c.engine.timing.now d.engine.timing.now st) :
  Follows H P c d
  := by
  by_cases hnot : top ≠ [] ∨ c.control = .host .done
  · exact .ahead h hnot htime
  · rw [not_or, not_not] at hnot
    obtain ⟨rfl, hcontrol⟩ := hnot
    obtain ⟨reply, hback⟩ := h.control.resolve_left hcontrol
    exact .alike (h.alike hback) (h.left ▸ htime)

/-- Engines are alike at all times. -/
theorem Follows.engine (h : Follows H P c d) :
  Engine.Alike P c.engine d.engine
  := by
  cases h with
  | alike h _ => exact h.engine
  | ahead h _ _ => exact h.engine
  | hearing _ h _ => exact h.engine

/-- The left tells a listener that is not heeded, or, when it is done with all of its own, the
right tells all of those on the right. -/
theorem Alike.step_of_tells (h : Alike H P c d) (hheeds : P.heeds = false) (htells : c.Tells)
    (hcalm : H.Calm) (hsure : Sure H d) (hr : Run H cs c) (hs : Run H ds d)
    (hheld : H.Holds P.root.left) (hheld' : H.Holds P.root.right)
    (htime : InTime c.engine.timing.now d.engine.timing.now c.stack)
    (hstep : step? H c = some c') :
  ∃ bs d', Steps H d bs d' ∧ Run H (ds ++ bs) d' ∧ Sure H d' ∧ Follows H P c' d'
    ∧ ∀ b ∈ bs, b.Aside
  := by
  obtain ⟨⟨reply, hcontrol⟩, i, o, s, ls, rest, below, hstack⟩ := htells
  have hcontrols := h.control
  have hstacks := h.stack
  rw [hcontrol] at hcontrols
  rw [hstack] at hstacks
  generalize hk : d.control = k at hcontrols
  generalize hst : d.stack = st at hstacks
  obtain ⟨x, hx⟩ := hr.orderly.there i (by simp [hstack, workers, Frame.worker?])
  have hnow := hr.step?_now hstep (by rw [operation?, hcontrol])
    (by rw [Configuration.target?, hcontrol, hstack])
  have htargets := step?_targets hstep (by simp [Still, hcontrol])
    (by rw [Configuration.target?, hcontrol, hstack])
  have hreading : c.engine.timing.now = d.engine.timing.now := by
    refine htime.now.resolve_right ?_
    rintro ⟨target, below', heq⟩
    rw [hstack] at heq
    cases heq
  cases hcontrols with
  | back _ reply' =>
    cases hstacks with
    | @cons _ f' _ below' hf hbelow =>
      cases hf with
      | @working t _ o' _ ps' ht hps =>
        obtain ⟨ls', rest', rfl, hrest⟩ : ∃ ls' rest', ps' = .notify s ls' :: rest'
            ∧ List.Forall₂ (Phase.Alike P.heeds) rest rest' := by
          cases hps with
          | cons hp hrest =>
            cases hp with
            | same => exact ⟨_, _, rfl, hrest⟩
            | notify _ _ => exact ⟨_, _, rfl, hrest⟩
        have hnotify : ∀ more, (Phase.notify s more).Alike P.heeds (.notify s ls') :=
          fun more => .notify s (by simp [hheeds])
        simp only [step?, hcontrol, hstack, hx] at hstep
        cases ls with
        | nil =>
          obtain rfl := Option.some.inj hstep
          obtain ⟨bs, d', hsteps, hs', hsure', hengine, ⟨reply'', hback⟩, hstack', hnow', haside⟩ :=
            hs.exists_round hcalm hsure hheld' h.engine hr.nested hk hst
          refine ⟨bs, d', hsteps, hs', hsure', .alike ⟨hengine, ?_, ?_⟩ ⟨.inl ?_, ?_⟩, haside⟩
          · rw [hstack']
            exact .cons (.working ht hrest) hbelow
          · rw [hback, show (stepPhase H c t.left x o rest below (.notify s [])).control = _ from
              hcontrol]
            exact .back _ _
          · rw [hnow, hnow', hreading]
          · rw [hnow, hnow', htargets]
            exact htime.target
        | cons l more =>
          obtain rfl := Option.some.inj hstep
          refine ⟨[], d, .refl d, by simpa using hs, hsure, .hearing ?_ ⟨?_, ?_, ?_⟩
            ⟨.inl ?_, ?_⟩, List.forall_mem_nil _⟩
          · exact congrArg Control.host (hcalm.notify l.2 s _ _)
          · exact h.engine.release_left hr.nested (List.mem_append_left _ (hheld _))
          · rw [hst]
            exact .cons (.working ht (.cons (hnotify more) hrest)) hbelow
          · rw [hk]
            exact .back _ _
          · rw [hnow, hreading]
          · rw [hnow, htargets]
            exact htime.target

end Configuration

end Statechart
