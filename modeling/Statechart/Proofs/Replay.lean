import Statechart.Proofs.Inertness
import Statechart.Proofs.Nesting

/-!
# Replays

While the clock stands still, an instance without invocations is where folding `Machine.next`
over the events that it has handled leads to from the snapshot that it was started at, and the
effects that it has executed are those of the snapshots on the way, up to those that wait.
-/

namespace Statechart

variable {κ π σ : Type}

/-! ### Effects that wait -/

/-- The effects of a snapshot after an event, each with what it is executed with. -/
def Snapshot.effects (s : Snapshot κ) (event : Event) :
    List (PendingEffect κ × Context × Event) :=
  s.actions.map fun a => (a, s.context, event)

/-- The effects that a phase has still to execute. -/
def Phase.effects : Phase κ → List (PendingEffect κ × Context × Event)
  | .perform actions context event => actions.map fun a => (a, context, event)
  | _ => []

/-- The effects that wait in the work of an instance. -/
def remaining (w : Option (List (Phase κ))) : List (PendingEffect κ × Context × Event) :=
  (w.getD []).flatMap Phase.effects

@[simp]
theorem remaining_none :
  remaining (none : Option (List (Phase κ))) = []
  := rfl

@[simp]
theorem remaining_nil :
  remaining (some [] : Option (List (Phase κ))) = []
  := rfl

theorem remaining_startPhases (x : Instance κ) :
  remaining (some x.startPhases) = x.snapshot.effects .init
  := List.append_nil _

theorem remaining_transitionPhases (x : Instance κ) (next : Snapshot κ) (event : Event)
    (rearm : Configuration.Rearm) :
  remaining (some (Configuration.transitionPhases x next event rearm)) = next.effects event
  := by
  rw [Configuration.transitionPhases, Configuration.phasesOf]
  cases !(x.snapshot.value == next.value) <;> cases rearm <;> exact List.append_nil _

/-- A turn of an instance that runs leaves its snapshot and the effects that wait, or it begins
a piece of work, or it goes on with effects. -/
theorem Turn.rests {i : Nat} {r r' : Engine κ} {x y : Instance κ} {w w' : Option (List (Phase κ))}
    (h : Turn i r r' x w y w') (hx : x.isRunning = true) (hy : y.isRunning = true) :
  (y.snapshot = x.snapshot ∧ remaining w' = remaining w)
    ∨ (w = some [] ∧ ∃ p ps, w' = some (p :: ps))
    ∨ (y.snapshot = x.snapshot
      ∧ ∃ a more context event rest, w = some (.perform (a :: more) context event :: rest))
  := by
  cases h with
  | keep hw =>
    obtain rfl | ⟨rfl, rfl⟩ | ⟨rfl, rfl⟩ := hw
    · exact .inl ⟨rfl, rfl⟩
    · exact .inl ⟨rfl, rfl⟩
    · exact .inl ⟨rfl, rfl⟩
  | start hnot => simp [Instance.isRunning, hnot] at hx
  | begin => exact .inr (.inl ⟨rfl, _, _, rfl⟩)
  | commit => exact .inr (.inl ⟨rfl, _, _, rfl⟩)
  | advance hadvances =>
    cases hadvances with
    | perform a more context event => exact .inr (.inr ⟨rfl, a, more, context, event, _, rfl⟩)
    | _ => exact .inl ⟨rfl, rfl⟩
  | drop hnot =>
    rw [hx] at hnot
    cases hnot
  | halt => cases hy
  | _ => exact .inl ⟨rfl, rfl⟩

/-- No effects wait for an instance that begins to run. -/
theorem Turn.remaining_of_started {i : Nat} {r r' : Engine κ} {x y : Instance κ}
    {w w' : Option (List (Phase κ))} (h : Turn i r r' x w y w') (hx : x.status = .notStarted)
    (hy : y.isRunning = true) :
  remaining w' = []
  := by
  cases h with
  | start => rfl
  | halt => cases hy
  | begin hruns | commit hruns => simp [Instance.isRunning, hx] at hruns
  | _ => simp [Instance.isRunning, hx] at hy

namespace Configuration

variable {H : Host κ π σ} {cs : List (Configuration κ π σ)} {c d : Configuration κ π σ}
  {i : Nat} {x y : Instance κ}

/-- The effect that an instance executes in the next step, with what it is executed with. -/
def executesAs (i : Nat) (c : Configuration κ π σ) :
    Option (PendingEffect κ × Context × Event) :=
  (executes? c).bind fun e => if e.1 = i then some e.2 else none

/-- The effects that an instance has executed, in order. -/
def executed (i : Nat) (cs : List (Configuration κ π σ)) :
    List (PendingEffect κ × Context × Event) :=
  cs.filterMap (executesAs i)

/-- An instance that executes an effect is the innermost activity. -/
theorem exists_of_executesAs {fx : PendingEffect κ × Context × Event}
    (h : executesAs i c = some fx) :
  ∃ reply o more rest below, c.control = .back reply
    ∧ c.stack = .working i o (.perform (fx.1 :: more) fx.2.1 fx.2.2 :: rest) :: below
    ∧ c.engine.isRunning i = true
  := by
  rw [executesAs, executes?] at h
  split at h
  · next reply j o a more context event rest below hcontrol hstack =>
    split at h
    · next hrunning =>
      rw [Option.bind_some, Option.ite_none_right_eq_some, Option.some.injEq] at h
      obtain ⟨rfl, rfl⟩ := h
      exact ⟨reply, o, more, rest, below, hcontrol, hstack, hrunning⟩
    · cases h
  · cases h

/-- An instance that runs and has an effect to execute as the innermost activity executes
it. -/
theorem executesAs_eq {reply : Reply κ} {o : Except MachineError Unit} {a : PendingEffect κ}
    {more : List (PendingEffect κ)} {context : Context} {event : Event}
    {rest : List (Phase κ)} {below : List (Frame κ π)} (hcontrol : c.control = .back reply)
    (hstack : c.stack = .working i o (.perform (a :: more) context event :: rest) :: below)
    (hrunning : c.engine.isRunning i = true) :
  executesAs i c = some (a, context, event)
  := by
  simp [executesAs, executes?, hcontrol, hstack, hrunning]

/-- The effect that an instance executes is the first of those that wait. -/
theorem Goes.of_executesAs {mid : Engine κ} (hgoes : Goes H c mid d) (hstep : Evolves H c d)
    {fx : PendingEffect κ × Context × Event} (hfx : executesAs i c = some fx)
    (hx : c.engine.get? i = some x) (hy : d.engine.get? i = some y)
    (hrunning : y.isRunning = true) :
  (signal H c).takenBy i = none ∧ y.snapshot = x.snapshot
    ∧ remaining (workOf i c.stack) = fx :: remaining (workOf i d.stack)
  := by
  obtain ⟨reply, o, more, rest, below, hcontrol, hstack, hruns⟩ := exists_of_executesAs hfx
  have hxrunning : x.isRunning = true := by
    rwa [Engine.isRunning, hx] at hruns
  have htaken : (signal H c).taken = none := by
    simp [signal, hcontrol, hstack, hx, phaseSignal]
  have hd : d.stack = .working i o (.perform more fx.2.1 fx.2.2 :: rest) :: below := by
    have hstep := hstep.step?_of_stack hstack
    simp only [step?, hcontrol, hstack, hx, stepPhase, hxrunning, if_true,
      Option.some.injEq] at hstep
    rw [← hstep]
    rfl
  have hturn := hgoes.turn hx (hgoes.releases.get?_of_get? hy)
  rw [hd, hstack, workOf_working_self, workOf_working_self] at hturn ⊢
  refine ⟨by rw [Signal.takenBy, htaken, Option.bind_none], ?_, rfl⟩
  obtain ⟨hsnapshot, -⟩ | ⟨hw, -⟩ | ⟨hsnapshot, -⟩ := hturn.rests hxrunning hrunning
  · exact hsnapshot
  · cases hw
  · exact hsnapshot

/-- An instance that is the innermost activity with nothing left of its work ends it, or takes
an envelope. -/
theorem stack_of_not_taken {reply : Reply κ} {o : Except MachineError Unit}
    {below : List (Frame κ π)} (hstep : step? H c = some d) (hcontrol : c.control = .back reply)
    (hstack : c.stack = .working i o [] :: below) (hx : c.engine.get? i = some x)
    (htaken : (signal H c).takenBy i = none) :
  d.stack = below
  := by
  have hmail : x.mailbox = [] := by
    cases hmail : x.mailbox with
    | nil => rfl
    | cons e more => simp [signal, hcontrol, hstack, hx, hmail, Signal.takenBy] at htaken
  simp only [step?, hcontrol, hstack, hx, nextEnvelope, hmail, Option.some.injEq] at hstep
  rw [← hstep]
  rfl

/-- An instance that has nothing left of its work, and takes nothing, is done with it. -/
theorem Run.workOf_of_not_taken (h : Run H cs c) (hstep : Evolves H c d) {reply : Reply κ}
    {o : Except MachineError Unit} {below : List (Frame κ π)} (hcontrol : c.control = .back reply)
    (hstack : c.stack = .working i o [] :: below) (hx : c.engine.get? i = some x)
    (htaken : (signal H c).takenBy i = none) :
  workOf i d.stack = none
  := by
  have hnodup := h.orderly.nodup
  rw [hstack, workers_working, List.nodup_cons] at hnodup
  rw [stack_of_not_taken (hstep.step?_of_stack hstack) hcontrol hstack hx htaken]
  exact workOf_eq_none_iff.mpr hnodup.1

/-- An instance begins a piece of work only when it takes an envelope. -/
theorem Run.not_begins (h : Run H cs c) (hstep : Evolves H c d) (hx : c.engine.get? i = some x)
    (htaken : (signal H c).takenBy i = none) (hw : workOf i c.stack = some []) (p : Phase κ)
    (ps : List (Phase κ)) :
  workOf i d.stack ≠ some (p :: ps)
  := by
  intro hw'
  obtain heq | ⟨reply, o, below, hcontrol, hstack⟩ := h.workOf_eq hstep hw
  · cases heq.symm.trans hw'
  · cases (h.workOf_of_not_taken hstep hcontrol hstack hx htaken).symm.trans hw'

/-- A step in which an instance takes nothing and executes nothing leaves its snapshot and the
effects that wait. -/
theorem Run.rests (h : Run H cs c) (hstep : Evolves H c d)
    (htaken : (signal H c).takenBy i = none) (hfx : executesAs i c = none)
    (hx : c.engine.get? i = some x) (hxrunning : x.isRunning = true)
    (hy : d.engine.get? i = some y) (hrunning : y.isRunning = true) :
  y.snapshot = x.snapshot ∧ remaining (workOf i d.stack) = remaining (workOf i c.stack)
  := by
  obtain ⟨mid, hgoes⟩ := h.goes hstep
  have hturn := hgoes.turn hx (hgoes.releases.get?_of_get? hy)
  have hruns := Engine.isRunning_of_get? hx hxrunning
  obtain hrests | ⟨hw, p, ps, hw'⟩ | ⟨hsnapshot, a, more, context, event, rest, hw⟩ :=
    hturn.rests hxrunning hrunning
  · exact hrests
  · exact absurd hw' (h.not_begins hstep hx htaken hw p ps)
  · refine ⟨hsnapshot, ?_⟩
    obtain heq | ⟨reply, o, below, hcontrol, hstack⟩ := h.workOf_eq hstep hw
    · rw [heq, hw]
    · rw [executesAs_eq hcontrol hstack hruns] at hfx
      cases hfx

theorem taken_of_takenBy {s : Signal κ} {e : Envelope} (h : s.takenBy i = some e) :
  s.taken = some (i, e)
  := by
  obtain ⟨⟨j, e'⟩, htaken, h⟩ := Option.bind_eq_some_iff.mp h
  rw [Option.ite_none_right_eq_some, Option.some.injEq] at h
  obtain ⟨rfl, rfl⟩ := h
  exact htaken

/-- What an instance makes of an envelope that it takes. -/
theorem Goes.of_taken {mid : Engine κ} (hgoes : Goes H c mid d)
    (hvalid : c.engine.All Instance.Valid) {e : Envelope}
    (htaken : (signal H c).taken = some (i, e)) (hx : c.engine.get? i = some x)
    (hy : d.engine.get? i = some y) :
  (x.resolution e = .ignore → y.snapshot = x.snapshot ∧ workOf i d.stack = some [])
    ∧ (x.resolution e = .begin →
      y.snapshot = x.snapshot ∧ workOf i d.stack = some x.startPhases)
    ∧ ∀ event rearm found next, x.resolution e = .attempt event rearm found →
      found.value = .ok (some next) → y.snapshot = next
        ∧ workOf i d.stack = some (transitionPhases x next event rearm)
  := by
  have hy := hgoes.releases.get?_of_get? hy
  have hmove := hgoes.move
  generalize signal H c = s at hmove htaken
  generalize hst : d.stack = st at hmove ⊢
  generalize c.stack = st₀ at hmove
  -- The instance after the move is the one that has taken the envelope.
  have hself {j : Nat} {e' : Envelope} {x' y' : Instance κ} (hx' : c.engine.get? j = some x')
      (hsets : Engine.Sets c.engine mid j y') (hj : some (j, e') = some (i, e)) :
      j = i ∧ e' = e ∧ x' = x ∧ y = y' := by
    obtain ⟨rfl, rfl⟩ := Prod.mk.inj (Option.some.inj hj)
    exact ⟨rfl, rfl, Option.some.inj (hx'.symm.trans hx),
      Option.some.inj (hy.symm.trans hsets.get?_self)⟩
  cases hmove with
  | ignore hx' hmail hres hsets =>
    obtain ⟨rfl, rfl, rfl, rfl⟩ := hself hx' hsets htaken
    refine ⟨fun _ => ⟨rfl, workOf_working_self ..⟩, fun hbegin => ?_,
      fun _ _ _ _ hattempt hfound => ?_⟩
    · simp [hbegin] at hres
    · obtain hignored | ⟨_, _, _, hnothing, hnone⟩ := hres
      · cases hignored.symm.trans hattempt
      · cases hnothing.symm.trans hattempt
        cases hnone.symm.trans hfound
  | stumble hx' hmail hres herror hsets =>
    obtain ⟨rfl, rfl, rfl, rfl⟩ := hself hx' hsets htaken
    obtain ⟨_, hok, -⟩ := (hvalid _ _ hx').finds_resolution hres
    rw [hok] at herror
    cases herror
  | begin hx' hmail hres hsets =>
    obtain ⟨rfl, rfl, rfl, rfl⟩ := hself hx' hsets htaken
    rw [hres]
    exact ⟨nofun, fun _ => ⟨rfl, workOf_working_self ..⟩, nofun⟩
  | commit hx' hmail hres hok hsets =>
    obtain ⟨rfl, rfl, rfl, rfl⟩ := hself hx' hsets htaken
    rw [hres]
    refine ⟨nofun, nofun, ?_⟩
    rintro _ _ _ _ ⟨⟩ hfound
    cases hok.symm.trans hfound
    exact ⟨rfl, workOf_working_self ..⟩
  | _ => cases htaken

/-! ### Before the start -/

/-- An instance that was never started is at the initial snapshot of its machine, and has no
history. -/
theorem Run.untouched_of_notStarted (h : Run H cs c) (hx : c.engine.get? i = some x)
    (hnot : x.status = .notStarted) :
  x.snapshot = x.machine.initial ∧ x.history = .empty
  := by
  refine h.each
    (p := fun _ x _ => x.status = .notStarted →
      x.snapshot = x.machine.initial ∧ x.history = .empty) ?_ ?_ hx hnot
  · intro s r i y w harrives _ hnot
    cases harrives with
    | created => exact ⟨rfl, rfl⟩
    | spawned => cases hnot
  · intro r r' i x y w w' _ hturn hx hnot
    cases hturn with
    | start | halt => cases hnot
    | begin hrunning | commit hrunning =>
      simp only [commitTo] at hnot
      simp [Instance.isRunning, hnot] at hrunning
    | _ => exact hx hnot

/-- An instance that was started at some point has been started. -/
theorem Run.begun_of_mem (h : Run H cs c) {b : Configuration κ π σ} (hb : b ∈ cs ++ [c])
    (hbegun : b.engine.Begun i) :
  c.engine.Begun i
  := by
  obtain hb | hb := List.mem_append.mp hb
  · refine h.related (p := fun a d => a.engine.Begun i → d.engine.Begun i) ?_ ?_ hb hbegun
    · intro cs c d hrun hstep hbegun
      obtain ⟨mid, hgoes⟩ := hrun.goes hstep
      exact hgoes.begun hbegun
    · exact fun hab hbc hbegun => hbc (hab hbegun)
  · obtain rfl := List.mem_singleton.mp hb
    exact hbegun

theorem not_begun
    (hi : c.engine.instances.next ≤ i ∨ ∃ x, c.engine.get? i = some x ∧ x.status = .notStarted) :
  ¬c.engine.Begun i
  := by
  rintro ⟨hlt, hstatus⟩
  obtain hle | ⟨x, hx, hnot⟩ := hi
  · omega
  · exact hstatus x hx hnot

/-- An instance that is new, or that was never started, has not run. -/
theorem Run.not_ran (h : Run H cs c)
    (hi : c.engine.instances.next ≤ i ∨ ∃ x, c.engine.get? i = some x ∧ x.status = .notStarted) :
  ∀ b ∈ cs ++ [c], b.engine.isRunning i = false
  := by
  intro b hb
  by_contra hruns
  rw [Bool.not_eq_false, Engine.isRunning] at hruns
  cases hx : b.engine.get? i with
  | none => simp [hx] at hruns
  | some x =>
    rw [hx] at hruns
    exact not_begun hi (h.begun_of_mem hb (Engine.begun_of_isRunning hx hruns))

/-- An instance that has not run has handled nothing and executed nothing. -/
theorem handled_of_not_ran (h : ∀ b ∈ cs, b.engine.isRunning i = false) :
  handled H i cs = [] ∧ executed i cs = []
  := by
  constructor
  · rw [handled, List.filterMap_eq_nil_iff]
    intro b hb
    rw [handles, h b hb, if_neg Bool.false_ne_true]
  · rw [executed, List.filterMap_eq_nil_iff]
    intro b hb
    cases hfx : executesAs i b with
    | none => rfl
    | some fx =>
      obtain ⟨-, -, -, -, -, -, -, hruns⟩ := exists_of_executesAs hfx
      rw [h b hb] at hruns
      cases hruns

/-! ### The start -/

/-- An instance is started at a value, and this is the snapshot that it then has. -/
def StartsAt (i : Nat) (s : Snapshot κ) (c : Configuration κ π σ) : Prop :=
  ∃ x value context point, c.engine.get? i = some x ∧ x.machine.snapshotAt value context = .ok s
    ∧ (c.control = .host (.call (.startWith i value context) point)
      ∨ (c.control = .host (.call (.startAt i value) point) ∧ context = x.machine.context))

end Configuration

/-- An instance that was never started begins to run when its start is posted. -/
theorem Move.posted_of_started {s : Signal κ} {r r' : Engine κ} {st st' : List (Frame κ π)}
    (hmove : Move s r st r' st') {i : Nat} {x y : Instance κ} (hx : r.get? i = some x)
    (hnot : x.status = .notStarted) (hy : r'.get? i = some y) (hrunning : y.isRunning = true) :
  s.posted = some ⟨i, .start, none⟩
  := by
  obtain hstatus | hstatus | hposted := (hmove.marks hx hy).status
  · simp [Instance.isRunning, hstatus, hnot] at hrunning
  · simp [Instance.isRunning, hstatus] at hrunning
  · exact hposted

/-! ### What is posted -/

namespace Envelope

/-- The event of an envelope. -/
def event? : Envelope → Option Event
  | event e => some e
  | _ => none

/-- Whether an envelope comes neither from the start of its instance nor from the clock. -/
def isPlain : Envelope → Bool
  | start => false
  | after .. => false
  | _ => true

end Envelope

namespace Configuration

variable {H : Host κ π σ} {cs : List (Configuration κ π σ)} {c d : Configuration κ π σ}
  {i : Nat} {x y : Instance κ}

/-- An instance that is not stopped has never been stopped. -/
theorem Run.never_stopped (h : Run H cs c) (hx : c.engine.get? i = some x)
    (hstatus : x.status ≠ .stopped) :
  ∀ b ∈ cs ++ [c], ¬b.engine.IsStopped i
  := by
  rintro b hb hstopped
  rcases List.mem_append.mp hb with hb | hb
  · exact hstatus ((h.isOver_of_isStopped hb hstopped).2 x hx)
  · obtain rfl := List.mem_singleton.mp hb
    exact hstatus (hstopped.isOver.2 x hx)

/-- What has been posted to an instance that runs has been handled, or waits. -/
theorem Run.posts_eq_of_isRunning (h : Run H cs c) (hx : c.engine.get? i = some x)
    (hrunning : x.isRunning = true) :
  posts H i cs = handled H i cs ++ x.mailbox
  := by
  rw [h.posts_eq (h.never_stopped hx (Instance.status_ne_stopped hrunning)),
    Engine.mailboxOf_of_get? hx]

/-- Nothing is posted to an instance before it is there or is started. -/
theorem Run.posts_of_not_ran (h : Run H cs c)
    (hi : c.engine.instances.next ≤ i ∨ ∃ x, c.engine.get? i = some x ∧ x.status = .notStarted) :
  posts H i cs = [] ∧ c.engine.mailboxOf i = []
  := by
  have hmail : c.engine.mailboxOf i = [] := by
    rw [Engine.mailboxOf]
    split
    · next x hx =>
      obtain hle | ⟨x', hx', hnot⟩ := hi
      · exact absurd (Engine.lt_next_of_get? hx) (Nat.not_lt.mpr hle)
      · obtain rfl := Option.some.inj (hx'.symm.trans hx)
        exact (h.started.mail i x' hx' hnot).1
    · rfl
  have hnever : ∀ b ∈ cs ++ [c], ¬b.engine.IsStopped i := by
    obtain hle | ⟨x, hx, hnot⟩ := hi
    · rintro b hb ⟨x, hx, -⟩
      have hlt := Engine.lt_next_of_get? hx
      rcases List.mem_append.mp hb with hb | hb
      · exact absurd ((h.later hb).1) (by omega)
      · obtain rfl := List.mem_singleton.mp hb
        omega
    · exact h.never_stopped hx (by simp [hnot])
  have hhandled : handled H i cs = [] :=
    (handled_of_not_ran fun b hb => h.not_ran hi b (List.mem_append_left _ hb)).1
  exact ⟨by rw [h.posts_eq hnever, hmail, hhandled, List.append_nil], hmail⟩

/-- Nothing but the start and plain envelopes is posted to an instance that runs, while the
clock stands still. -/
theorem isPlain_of_postedTo (hclock : ∀ target, .advancing target ∉ c.stack)
    (hx : c.engine.get? i = some x) (hrunning : x.isRunning = true) {e : Envelope}
    (h : (signal H c).postedTo i = some e) :
  e.isPlain = true
  := by
  obtain ⟨sender, hposted⟩ := posted_of_postedTo h
  have hsignals := signals H c
  generalize signal H c = s at hposted hsignals
  cases hsignals with
  | start _ hx' hnot | startAt _ hx' hnot | startWith _ hx' hnot =>
    cases hposted
    obtain rfl := Option.some.inj (hx'.symm.trans hx)
    simp [Instance.isRunning, hnot] at hrunning
  | after _ hstack => exact absurd (by rw [hstack]; exact List.mem_cons_self) (hclock _)
  | invoke =>
    cases hposted
    exact absurd (Engine.lt_next_of_get? hx) (Nat.lt_irrefl _)
  | send | fail | report =>
    cases hposted
    rfl
  | _ => cases hposted

/-- What is posted to an instance that runs is its start, and then plain envelopes, if the
clock is never advanced. -/
theorem Run.posts_of_isRunning (h : Run H cs c) (hstill : ∀ b ∈ cs, b.Still)
    (hx : c.engine.get? i = some x) (hrunning : x.isRunning = true) :
  ∃ es, posts H i cs = .start :: es ∧ ∀ e ∈ es, e.isPlain = true
  := by
  induction h generalizing x with
  | start => cases hx
  | @next cs c d hrun hstep ih =>
    have hstill' : ∀ b ∈ cs, b.Still := fun b hb => hstill b (List.mem_append_left _ hb)
    obtain ⟨mid, hgoes⟩ := hrun.goes hstep
    have hmid := hgoes.releases.get?_of_get? hx
    have hconcat : posts H i (cs ++ [c]) = posts H i cs ++ ((signal H c).postedTo i).toList :=
      filterMap_concat _
    rw [hconcat]
    obtain ⟨w, hw⟩ | ⟨hnew, harrives⟩ := hgoes.arrives hmid
    · by_cases hnot : w.status = .notStarted
      · have hposted := hgoes.move.posted_of_started hw hnot hmid hrunning
        rw [(hrun.posts_of_not_ran (.inr ⟨w, hw, hnot⟩)).1, Signal.postedTo, hposted]
        exact ⟨[], by simp, List.forall_mem_nil _⟩
      · have hruns := (hgoes.turn hw hmid).isRunning hrunning hnot
        obtain ⟨es, hes, hplain⟩ := ih hstill' hw hruns
        refine ⟨es ++ ((signal H c).postedTo i).toList, by rw [hes, List.cons_append], ?_⟩
        intro e he
        rcases List.mem_append.mp he with he | he
        · exact hplain e he
        · exact isPlain_of_postedTo (hrun.no_advancing hstill') hw hruns
            (Option.mem_toList.mp he)
    · obtain ⟨hposts, hmail⟩ := hrun.posts_of_not_ran (.inl (Nat.le_of_eq hnew.symm))
      have hnone : ¬c.engine.IsStopped i := by
        rintro ⟨z, hz, -⟩
        exact absurd (Engine.lt_next_of_get? hz) (by rw [hnew]; exact Nat.lt_irrefl _)
      have hnever : ¬d.engine.IsStopped i := by
        rintro ⟨z, hz, hstopped⟩
        obtain rfl := Option.some.inj (hz.symm.trans hx)
        rw [Instance.isRunning_of_stopped hstopped] at hrunning
        cases hrunning
      have hmove := hgoes.mailboxOf_eq (hgoes.move.orderly hrun.orderly) hnone hnever
      have hstart : x.mailbox = [.start] := by
        generalize workOf i d.stack = w at harrives
        cases harrives with
        | created => cases hrunning
        | spawned => rfl
      rw [hmail, Engine.mailboxOf_of_get? hx, hstart, List.nil_append] at hmove
      rw [hposts, List.nil_append]
      cases htaken : (signal H c).takenBy i with
      | none =>
        rw [htaken] at hmove
        exact ⟨[], hmove, List.forall_mem_nil _⟩
      | some e =>
        rw [htaken] at hmove
        cases hposted : (signal H c).postedTo i <;> simp [hposted] at hmove

end Configuration

/-! ### Folding `Machine.next` -/

namespace Machine

/-- No state of the machine invokes a child. -/
def Childless (m : Machine κ) : Prop :=
  ∀ chart, m.flat? = some chart → ∀ key n, chart.nodes.get? key = some n → n.invoke = []

/-- The snapshot after one more event, and the effects up to it. -/
def replayNext (m : Machine κ)
    (p : Snapshot κ × List (PendingEffect κ × Context × Event)) (event : Event) :
    Except MachineError (Snapshot κ × List (PendingEffect κ × Context × Event)) :=
  match (m.next p.1 event).value with
  | .error e => .error e
  | .ok s => .ok (s, p.2 ++ s.effects event)

/-- The snapshot that folding `next` over events leads to, and the effects on the way: those of
the first snapshot, with the initial event, and those of each snapshot that follows. -/
def replay (m : Machine κ) (s : Snapshot κ) (events : List Event) :
    Except MachineError (Snapshot κ × List (PendingEffect κ × Context × Event)) :=
  events.foldlM m.replayNext (s, s.effects .init)

theorem replay_concat {m : Machine κ} {s s' s'' : Snapshot κ} {events : List Event}
    {effects : List (PendingEffect κ × Context × Event)}
    (h : m.replay s events = .ok (s', effects)) {event : Event}
    (hnext : (m.next s' event).value = .ok s'') :
  m.replay s (events ++ [event]) = .ok (s'', effects ++ s''.effects event)
  := by
  rw [replay] at h
  rw [replay, List.foldlM_append, h]
  simp [bind, Except.bind, replayNext, hnext, pure, Except.pure]

end Machine

/-- An instance is at a snapshot, with effects executed and effects that wait in its work, after
it has handled envelopes: it is still where it was started, or it is where folding `next` over the
events among them leads to. -/
inductive Tracks (m : Machine κ) (s₀ : Snapshot κ) :
    List Envelope → Snapshot κ → List (PendingEffect κ × Context × Event) →
      Option (List (Phase κ)) → Prop where
  | opening {w : Option (List (Phase κ))} : remaining w = [] → Tracks m s₀ [] s₀ [] w
  | going {es : List Envelope} {s : Snapshot κ}
      {effects : List (PendingEffect κ × Context × Event)} {w : Option (List (Phase κ))} :
    m.replay s₀ (es.filterMap Envelope.event?) = .ok (s, effects ++ remaining w) →
      Tracks m s₀ (.start :: es) s effects w

namespace Tracks

variable {m : Machine κ} {s₀ s : Snapshot κ} {hs : List Envelope}
  {effects : List (PendingEffect κ × Context × Event)} {w w' : Option (List (Phase κ))}

/-- The first of the effects that wait is executed. -/
theorem execute (h : Tracks m s₀ hs s effects w) {fx : PendingEffect κ × Context × Event}
    (hw : remaining w = fx :: remaining w') :
  Tracks m s₀ hs s (effects ++ [fx]) w'
  := by
  cases h with
  | opening hnone =>
    rw [hw] at hnone
    cases hnone
  | going hreplay =>
    apply Tracks.going
    rw [hreplay, hw, List.append_assoc, List.singleton_append]

theorem congr (h : Tracks m s₀ hs s effects w) (hw : remaining w' = remaining w) :
  Tracks m s₀ hs s effects w'
  := by
  cases h with
  | opening hnone => exact .opening (hw.trans hnone)
  | going hreplay => exact .going (hw ▸ hreplay)

end Tracks

/-- An instance of a machine without invocations ignores reports about children. -/
theorem Instance.resolution_of_childless {x : Instance κ} (hx : x.machine.Childless)
    {e : Envelope} (hplain : e.isPlain = true) (hevent : e.event? = none) :
  x.resolution e = .ignore
  := by
  have hinvoke (id state : String) : x.activeInvoke? id state = none := by
    rw [activeInvoke?]
    split
    · split
      · next chart hchart =>
        cases hn : chart.nodes.get? state with
        | none => rfl
        | some n => simp [Node.invoke?, hx chart hchart state n hn]
      · rfl
    · rfl
  cases e with
  | start | after => cases hplain
  | event => cases hevent
  | childDone | invokeFailed => simp only [resolution, hinvoke, ite_self]

namespace Configuration

variable {H : Host κ π σ} {cs : List (Configuration κ π σ)} {c d : Configuration κ π σ}
  {i : Nat} {x y : Instance κ}

/-- An instance that takes an envelope goes where folding `next` leads to. -/
theorem Goes.tracks {mid : Engine κ} (hgoes : Goes H c mid d)
    (hvalid : c.engine.All Instance.Valid) {e : Envelope}
    (htaken : (signal H c).taken = some (i, e)) (hx : c.engine.get? i = some x)
    (hrunning : x.isRunning = true) (hchildless : x.machine.Childless)
    (hw : workOf i c.stack = some []) (hy : d.engine.get? i = some y)
    {s₀ : Snapshot κ} {hs : List Envelope} {effects : List (PendingEffect κ × Context × Event)}
    (htracks : Tracks x.machine s₀ hs x.snapshot effects (workOf i c.stack))
    (hstart : hs = [] → e = .start) (hplain : hs ≠ [] → e.isPlain = true) :
  Tracks x.machine s₀ (hs ++ [e]) y.snapshot effects (workOf i d.stack)
  := by
  obtain ⟨hignore, hbegin, hattempt⟩ := hgoes.of_taken hvalid htaken hx hy
  rw [hw] at htracks
  cases htracks with
  | opening _ =>
    obtain rfl := hstart rfl
    obtain ⟨hsnapshot, hw'⟩ := hbegin (by simp [Instance.resolution, hrunning])
    rw [hsnapshot, hw', List.nil_append]
    apply Tracks.going
    rw [List.nil_append, remaining_startPhases]
    rfl
  | going hreplay =>
    have hplain := hplain (List.cons_ne_nil _ _)
    rw [remaining_nil, List.append_nil] at hreplay
    rw [List.cons_append]
    apply Tracks.going
    rw [List.filterMap_append]
    cases hevent : e.event? with
    | none =>
      obtain ⟨hsnapshot, hw'⟩ :=
        hignore (Instance.resolution_of_childless hchildless hplain hevent)
      rw [hsnapshot, hw', remaining_nil, List.append_nil, List.filterMap_cons_none hevent,
        List.filterMap_nil, List.append_nil]
      exact hreplay
    | some event =>
      obtain rfl : e = .event event := by
        cases e <;> cases hevent
        rfl
      have hxvalid := hvalid i x hx
      obtain ⟨s, hs, -⟩ :=
        hxvalid.compiled.sound.exists_transition hxvalid.fits x.snapshot.context event
      obtain ⟨hsnapshot, hw'⟩ := hattempt event .always
        ((fun r => r.map some) <$>
          x.machine.transition x.snapshot.value x.snapshot.context event) s
        (by simp [Instance.resolution, hrunning]) (by rw [Evaluated.value_map, hs]; rfl)
      rw [hsnapshot, hw', remaining_transitionPhases]
      exact Machine.replay_concat hreplay hs

/-- An instance that is started runs, and is where it was. -/
theorem of_start {c : Configuration κ π σ} (hx : c.engine.get? i = some x)
    (hnot : x.status = .notStarted) (hy : (c.start i).engine.get? i = some y) :
  y.snapshot = x.snapshot ∧ y.isRunning = true
  := by
  have hsets := (start_of_notStarted hx hnot).1
  obtain rfl := Option.some.inj (hsets.get?_self.symm.trans hy)
  exact ⟨rfl, rfl⟩

/-- An instance that is started from a state runs, and is at this state. -/
theorem of_startWith {c : Configuration κ π σ} (hx : c.engine.get? i = some x)
    (hnot : x.status = .notStarted) {value : StateValue} {context : Context} {s : Snapshot κ}
    (hs : x.machine.snapshotAt value context = .ok s)
    (hy : (c.startWith i value context).engine.get? i = some y) :
  y.snapshot = s ∧ y.isRunning = true
  := by
  simp only [startWith, hx, hnot, if_true, hs] at hy
  have hx' : (c.withEngine (c.engine.modify i fun x => { x with snapshot := s })).engine.get? i
      = some { x with snapshot := s } :=
    (Engine.sets_modify hx _).get?_self
  exact of_start hx' hnot hy

/-- An instance begins to run at the initial snapshot, or at the one that it is started at. -/
theorem Run.snapshot_of_started (h : Run H cs c) (hstep : Evolves H c d)
    (hx : c.engine.get? i = some x) (hnot : x.status = .notStarted)
    (hy : d.engine.get? i = some y) (hrunning : y.isRunning = true) :
  y.snapshot = x.machine.initial ∨ StartsAt i y.snapshot c
  := by
  obtain ⟨mid, hgoes⟩ := h.goes hstep
  have hposted := hgoes.move.posted_of_started hx hnot (hgoes.releases.get?_of_get? hy) hrunning
  have hcalling (stack : List (Frame κ π)) : (c.withStack stack).engine.get? i = some x := hx
  have hsignals := signals H c
  generalize signal H c = s at hposted hsignals
  cases hsignals with
  | start hcontrol =>
    cases hposted
    obtain rfl := hstep.eq_perform hcontrol
    rw [perform] at hy
    left
    rw [(of_start (hcalling _) hnot hy).1, (h.untouched_of_notStarted hx hnot).1]
  | startAt hcontrol hx' _ hs =>
    cases hposted
    obtain rfl := Option.some.inj (hx'.symm.trans hx)
    obtain rfl := hstep.eq_perform hcontrol
    simp only [perform, startAt, hcalling] at hy
    right
    rw [(of_startWith (hcalling _) hnot hs hy).1]
    exact ⟨_, _, _, _, hx, hs, .inr ⟨hcontrol, rfl⟩⟩
  | startWith hcontrol hx' _ hs =>
    cases hposted
    obtain rfl := Option.some.inj (hx'.symm.trans hx)
    obtain rfl := hstep.eq_perform hcontrol
    rw [perform] at hy
    right
    rw [(of_startWith (hcalling _) hnot hs hy).1]
    exact ⟨_, _, _, _, hx, hs, .inl hcontrol⟩
  | invoke =>
    cases hposted
    exact absurd (Engine.lt_next_of_get? hx) (Nat.lt_irrefl _)
  | _ => cases hposted

/-- A step of an instance without invocations goes where folding `next` leads to. -/
theorem Run.tracks_next (h : Run H cs c) (hstill : ∀ b ∈ cs ++ [c], b.Still)
    (hstep : Evolves H c d) (hx : c.engine.get? i = some x) (hxrunning : x.isRunning = true)
    (hchildless : x.machine.Childless) (hy : d.engine.get? i = some y)
    (hrunning : y.isRunning = true) {s₀ : Snapshot κ}
    (htracks : Tracks x.machine s₀ (handled H i cs) x.snapshot (executed i cs)
      (workOf i c.stack)) :
  Tracks x.machine s₀ (handled H i (cs ++ [c])) y.snapshot (executed i (cs ++ [c]))
    (workOf i d.stack)
  := by
  have hstill' : ∀ b ∈ cs, b.Still := fun b hb => hstill b (List.mem_append_left _ hb)
  obtain ⟨mid, hgoes⟩ := h.goes hstep
  have hruns := Engine.isRunning_of_get? hx hxrunning
  have hhandled : handled H i (cs ++ [c])
      = handled H i cs ++ ((signal H c).takenBy i).toList := by
    rw [handled, filterMap_concat, handles, hruns, if_pos rfl, ← handled]
  have hexecuted : executed i (cs ++ [c]) = executed i cs ++ (executesAs i c).toList :=
    filterMap_concat _
  rw [hhandled, hexecuted]
  cases hfx : executesAs i c with
  | some fx =>
    obtain ⟨htaken, hsnapshot, hremaining⟩ := hgoes.of_executesAs hstep hfx hx hy hrunning
    rw [htaken, hsnapshot, Option.toList_none, List.append_nil, Option.toList_some]
    exact htracks.execute hremaining
  | none =>
    rw [Option.toList_none, List.append_nil]
    cases htaken : (signal H c).takenBy i with
    | none =>
      obtain ⟨hsnapshot, hremaining⟩ :=
        h.rests hstep htaken hfx hx hxrunning hy hrunning
      rw [hsnapshot, Option.toList_none, List.append_nil]
      exact htracks.congr hremaining
    | some e =>
      have htaken' := taken_of_takenBy htaken
      obtain ⟨x', more, o, below, hx', hmail, hstack, -⟩ := step?_of_taken htaken'
      obtain rfl := Option.some.inj (hx'.symm.trans hx)
      -- What is taken comes next after what was handled.
      have hposts := h.posts_eq_of_isRunning hx hxrunning
      obtain ⟨es, hes, hplain⟩ := h.posts_of_isRunning hstill' hx hxrunning
      rw [hes, hmail] at hposts
      rw [Option.toList_some]
      refine hgoes.tracks h.valid.1 htaken' hx hxrunning hchildless
        (by rw [hstack, workOf_working_self]) hy htracks ?_ ?_
      · intro hnil
        rw [hnil] at hposts
        exact (List.cons.inj hposts).1.symm
      · intro hne
        obtain ⟨e', hs, hcons⟩ := List.exists_cons_of_ne_nil hne
        rw [hcons, List.cons_append] at hposts
        exact hplain e (by rw [(List.cons.inj hposts).2]; simp)

/-- In a run in which the clock is never advanced, an instance without invocations is where it
was started, or where folding `next` over the events that it has handled leads to. -/
theorem Run.tracks (h : Run H cs c) (hstill : ∀ b ∈ cs, b.Still)
    (hx : c.engine.get? i = some x) (hrunning : x.isRunning = true)
    (hchildless : x.machine.Childless) :
  ∃ s₀, (s₀ = x.machine.initial ∨ ∃ b ∈ cs, StartsAt i s₀ b)
    ∧ Tracks x.machine s₀ (handled H i cs) x.snapshot (executed i cs) (workOf i c.stack)
  := by
  induction h generalizing x with
  | start => cases hx
  | @next cs c d hrun hstep ih =>
    have hstill' : ∀ b ∈ cs, b.Still := fun b hb => hstill b (List.mem_append_left _ hb)
    obtain ⟨mid, hgoes⟩ := hrun.goes hstep
    have hmid := hgoes.releases.get?_of_get? hx
    have hopening (hran : ∀ b ∈ cs ++ [c], b.engine.isRunning i = false) {s₀ : Snapshot κ}
        {w : Option (List (Phase κ))} (hw : remaining w = []) :
        Tracks x.machine s₀ (handled H i (cs ++ [c])) s₀ (executed i (cs ++ [c])) w := by
      obtain ⟨hhandled, hexecuted⟩ := handled_of_not_ran (H := H) hran
      rw [hhandled, hexecuted]
      exact .opening hw
    obtain ⟨z, hz⟩ | ⟨hnew, harrives⟩ := hgoes.arrives hmid
    · have hturn := hgoes.turn hz hmid
      by_cases hnot : z.status = .notStarted
      · refine ⟨x.snapshot, ?_, hopening (hrun.not_ran (.inr ⟨z, hz, hnot⟩)) ?_⟩
        · rw [hturn.machine_eq.1]
          refine (hrun.snapshot_of_started hstep hz hnot hx hrunning).imp_right ?_
          exact fun hstarts => ⟨c, List.mem_append_right _ (List.mem_singleton_self c), hstarts⟩
        · exact hturn.remaining_of_started hnot hrunning
      · have hruns := hturn.isRunning hrunning hnot
        rw [hturn.machine_eq.1] at hchildless ⊢
        obtain ⟨s₀, horigin, htracks⟩ := ih hstill' hz hruns hchildless
        refine ⟨s₀, ?_, ?_⟩
        · refine horigin.imp_right ?_
          rintro ⟨b, hb, hstarts⟩
          exact ⟨b, List.mem_append_left _ hb, hstarts⟩
        · exact hrun.tracks_next hstill hstep hz hruns hchildless hx hrunning htracks
    · refine ⟨x.snapshot, ?_, hopening (hrun.not_ran (.inl (Nat.le_of_eq hnew.symm))) ?_⟩
      · left
        generalize workOf i d.stack = w at harrives
        cases harrives <;> rfl
      · generalize workOf i d.stack = w at harrives
        cases harrives <;> rfl

/-- The events that have been sent to an instance, in order. -/
def sent (H : Host κ π σ) (i : Nat) (cs : List (Configuration κ π σ)) : List Event :=
  (posts H i cs).filterMap Envelope.event?

/-- An instance that is not at work has no mail, and is not busy. -/
theorem Run.rests_of_idle (h : Run H cs c) (hx : c.engine.get? i = some x)
    (hidle : workOf i c.stack = none) :
  x.mailbox = [] ∧ x.busy = false
  := by
  have hnot := workOf_eq_none_iff.mp hidle
  constructor
  · by_contra hne
    exact hnot (h.orderly.mail i x hx hne)
  · rwa [← Bool.not_eq_true, h.orderly.busy i x hx]

/-- An instance that was not started is not at work. -/
theorem Run.workOf_of_notStarted (h : Run H cs c) (hx : c.engine.get? i = some x)
    (hnot : x.status = .notStarted) :
  workOf i c.stack = none
  := by
  rw [workOf_eq_none_iff, ← h.orderly.busy i x hx, (h.started.mail i x hx hnot).2]
  exact Bool.false_ne_true

/-- An instance that takes an envelope was started. -/
theorem Run.begun_of_takenBy (h : Run H cs c) (hstep : Evolves H c d) {e : Envelope}
    (htaken : (signal H c).takenBy i = some e) :
  c.engine.Begun i
  := by
  obtain ⟨mid, hgoes⟩ := h.goes hstep
  obtain ⟨x, hx, hnot⟩ := hgoes.move.status_of_taken h.started (taken_of_takenBy htaken)
  exact Engine.begun_of_status hx hnot

/-- What has been posted to an instance that runs and is not at work has been handled. -/
theorem Run.handled_eq_posts (h : Run H cs c) (hx : c.engine.get? i = some x)
    (hrunning : x.isRunning = true) (hidle : workOf i c.stack = none) :
  handled H i cs = posts H i cs
  := by
  rw [h.posts_eq_of_isRunning hx hrunning, (h.rests_of_idle hx hidle).1, List.append_nil]

/-- An instance that is not at work is where folding `next` over the events that were sent to it
leads to, and the effects on the way have been executed. -/
theorem Run.replay_of_tracks (h : Run H cs c) (hstill : ∀ b ∈ cs, b.Still)
    (hx : c.engine.get? i = some x) (hrunning : x.isRunning = true)
    (hidle : workOf i c.stack = none) {s₀ : Snapshot κ}
    (htracks : Tracks x.machine s₀ (handled H i cs) x.snapshot (executed i cs)
      (workOf i c.stack)) :
  x.machine.replay s₀ (sent H i cs) = .ok (x.snapshot, executed i cs)
  := by
  obtain ⟨es, hes, -⟩ := h.posts_of_isRunning hstill hx hrunning
  rw [h.handled_eq_posts hx hrunning hidle, hes, hidle] at htracks
  cases htracks with
  | going hreplay =>
    rw [remaining_none, List.append_nil] at hreplay
    rwa [sent, hes, List.filterMap_cons_none rfl]

/-- In a run in which the clock is never advanced, an instance without invocations that is not at
work is where folding `next` over the events that were sent to it leads to, from where it was
started, and it has executed the effects of the snapshots on the way. -/
theorem Run.replays (h : Run H cs c) (hstill : ∀ b ∈ cs, b.Still)
    (hx : c.engine.get? i = some x) (hrunning : x.isRunning = true)
    (hchildless : x.machine.Childless) (hidle : workOf i c.stack = none) :
  ∃ s₀, (s₀ = x.machine.initial ∨ ∃ b ∈ cs, StartsAt i s₀ b)
    ∧ x.machine.replay s₀ (sent H i cs) = .ok (x.snapshot, executed i cs)
  := by
  obtain ⟨s₀, horigin, htracks⟩ := h.tracks hstill hx hrunning hchildless
  exact ⟨s₀, horigin, h.replay_of_tracks hstill hx hrunning hidle htracks⟩

end Configuration

end Statechart
