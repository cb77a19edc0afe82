import Statechart.Proofs.Engine
import Statechart.Proofs.Run

/-!
# Moves

What one small step does to the engine and to the stack, as a relation `Move` with one
rule for each kind of step.
-/

namespace Statechart

variable {κ π σ : Type}

/-! ### Pieces of work -/

/-- What an instance makes of an envelope: nothing, its start, or a transition if one is
found. -/
inductive Resolution (κ : Type) where
  | ignore
  | begin
  | attempt (event : Event) (rearm : Configuration.Rearm)
      (found : Evaluated (Except MachineError (Option (Snapshot κ))))

namespace Instance

/-- What an instance makes of a reaction of its active state. -/
def reaction (x : Instance κ) (state : String) (event : Event) :
    Option (Reaction (Candidate κ)) → Resolution κ
  | none => .ignore
  | some (.event kind) =>
    .attempt ⟨kind, event.payload⟩ .always
      ((fun r => r.map some) <$>
        x.machine.transition x.snapshot.value x.snapshot.context ⟨kind, event.payload⟩)
  | some (.transition t) =>
    .attempt event .always (x.machine.react state t x.snapshot.context event)

/-- What an instance makes of an envelope. -/
def resolution (x : Instance κ) (e : Envelope) : Resolution κ :=
  if !x.isRunning then .ignore
  else
    match e with
    | .start => .begin
    | .event event =>
      .attempt event .always
        ((fun r => r.map some) <$>
          x.machine.transition x.snapshot.value x.snapshot.context event)
    | .after state key generation =>
      if Configuration.isFresh x state key generation then
        .attempt (.after key) .onChange
          (x.machine.fireAfter state key x.snapshot.context (.after key))
      else .ignore
    | .childDone id state =>
      match x.activeInvoke? id state with
      | some v =>
        if x.children.contains id then x.reaction state (.doneInvoke id) v.onDone else .ignore
      | none => .ignore
    | .invokeFailed id state message =>
      match x.activeInvoke? id state with
      | some v => x.reaction state (.invokeError id message) v.onError
      | none => .ignore

/-- Only the start leads to the start. -/
theorem eq_start_of_resolution {x : Instance κ} {e : Envelope} (h : x.resolution e = .begin) :
  e = .start
  := by
  have hreaction : ∀ state event r, x.reaction state event r ≠ .begin := by
    intro state event r
    rcases r with _ | _ | _ <;> rw [reaction] <;> rintro ⟨⟩
  unfold resolution at h
  split at h
  · cases h
  · split at h
    · rfl
    · cases h
    · split at h <;> cases h
    · split at h
      · split at h
        · exact absurd h (hreaction _ _ _)
        · cases h
      · cases h
    · split at h
      · exact absurd h (hreaction _ _ _)
      · cases h

/-- The phases of the start of an instance. -/
def startPhases (x : Instance κ) : List (Phase κ) :=
  [.perform x.snapshot.actions x.snapshot.context .init, .startChildren, .rearm,
    .report x.snapshot.value]

/-- The instance with an envelope put into its mailbox. -/
def enqueued (x : Instance κ) (e : Envelope) : Instance κ :=
  { x with mailbox := x.mailbox ++ [e], busy := true }

/-- A child that has just been started. -/
def newborn (m : Machine κ) (services : Services κ) (pool : Nat) (link : ParentLink) :
    Instance κ :=
  enqueued { Instance.new m services pool (some link) with status := .running } .start

/-- An envelope from the host, and the instance just before it is posted: an event to an
instance that runs, or the start of one that was never started. -/
inductive Accepts (x : Instance κ) : Envelope → Instance κ → Prop where
  | event (event : Event) : x.isRunning = true → x.Accepts (.event event) x
  | start : x.status = .notStarted → x.Accepts .start { x with status := .running }
  | startAt {value : StateValue} {context : Context} {s : Snapshot κ} :
    x.status = .notStarted → x.machine.snapshotAt value context = .ok s →
      x.Accepts .start { x with status := .running, snapshot := s }

/-- What may become of the listeners of an instance, and of the number of the next one: none
changes; a new one is registered, unless the instance is stopped, and gets its number either
way; one is removed. -/
inductive Listens (x : Instance κ) : List (Nat × κ) → Nat → Prop where
  | same : x.Listens x.listeners x.nextListener
  | add (listener : κ) : x.status ≠ .stopped →
    x.Listens (x.listeners ++ [(x.nextListener, listener)]) (x.nextListener + 1)
  | pass : x.status = .stopped → x.Listens x.listeners (x.nextListener + 1)
  | remove (listener : Nat) :
    x.Listens (x.listeners.filter fun l => l.1 ≠ listener) x.nextListener

end Instance

namespace Configuration

/-- The invocations of the active state are those of the leaf. -/
theorem leaf?_of_activeInvocations {x : Instance κ} {state : String} {vs : List (Invocation κ)}
    (h : activeInvocations x = .ok (some (state, vs))) :
  x.snapshot.value.leaf? = some state
  := by
  rw [activeInvocations] at h
  split at h
  · next chart state' _ hleaf =>
    split at h
    · cases h
    · simp only [Except.ok.injEq, Option.some.injEq, Prod.mk.injEq] at h
      rw [hleaf, h.1]
  · cases h

/-- The phases of a transition. -/
def transitionPhases (x : Instance κ) (next : Snapshot κ) (event : Event) (rearm : Rearm) :
    List (Phase κ) :=
  phasesOf next event (!(x.snapshot.value == next.value)) rearm

/-- The phases of a transition, each of which it has once at most. -/
theorem mem_transitionPhases {x : Instance κ} {next : Snapshot κ} {event : Event}
    {rearm : Rearm} {p : Phase κ} (h : p ∈ transitionPhases x next event rearm) :
  p = .perform next.actions next.context event ∨ p = .stopChildren ∨ p = .startChildren
    ∨ p = .publish next ∨ p = .rearm ∨ p = .report next.value
  := by
  simp only [transitionPhases, phasesOf, List.mem_append, List.mem_singleton] at h
  obtain (((h | h) | h) | h) | h := h
  · exact .inl h
  · split at h
    · simp only [List.mem_cons, List.not_mem_nil, or_false] at h
      exact .inr (h.imp_right .inl)
    · cases h
  · exact .inr (.inr (.inr (.inl h)))
  · split at h
    · exact .inr (.inr (.inr (.inr (.inl (List.mem_singleton.mp h)))))
    · cases h
  · exact .inr (.inr (.inr (.inr (.inr h))))

/-- The children are stopped at the end of a stay, and not before. -/
theorem stopChildren_mem_transitionPhases {x : Instance κ} {next : Snapshot κ} {event : Event}
    {rearm : Rearm} :
  .stopChildren ∈ transitionPhases x next event rearm ↔ (x.snapshot.value == next.value) = false
  := by
  rw [transitionPhases, phasesOf]
  cases x.snapshot.value == next.value <;> cases rearm <;> simp

/-- No child is invoked by the phases of a transition before it is begun. -/
theorem invoke_notMem_transitionPhases (x : Instance κ) (next : Snapshot κ) (event : Event)
    (rearm : Rearm) (state : String) (context : Context) (vs : List (Invocation κ)) :
  .invoke state context vs ∉ transitionPhases x next event rearm
  := by
  intro hmem
  obtain h | h | h | h | h | h := mem_transitionPhases hmem <;> cases h

/-- To resolve a child is to change the memory of the host, and what comes of it is a matter of
this memory. -/
theorem resolveChild_of_memory {H : Host κ π σ} {c d : Configuration κ π σ}
    (hmemory : d.memory = c.memory) (x : Instance κ) (v : Invocation κ) (context : Context) :
  resolveChild H d x v context = ((resolveChild H c x v context).1,
    { d with memory := (resolveChild H c x v context).2.memory })
  := by
  simp only [resolveChild, observe, hmemory]
  split
  · rfl
  · split
    · rw [← hmemory]
    · rfl

/-- To resolve a child changes the memory of the host and nothing else. -/
theorem snd_resolveChild (H : Host κ π σ) (c : Configuration κ π σ) (x : Instance κ)
    (v : Invocation κ) (context : Context) :
  (resolveChild H c x v context).2
    = { c with memory := (resolveChild H c x v context).2.memory }
  := congrArg Prod.snd (resolveChild_of_memory rfl x v context)

/-- To process an envelope is to carry out its resolution. -/
theorem process_eq (H : Host κ π σ) (c : Configuration κ π σ) (i : Nat) (x : Instance κ)
    (outcome : Except MachineError Unit) (below : List (Frame κ π)) (e : Envelope) :
  process H c i x outcome below e =
    match x.resolution e with
    | .ignore => c.work i outcome [] below
    | .begin => c.work i outcome x.startPhases below
    | .attempt event rearm found => settleTransition H c i x outcome below event rearm found
  := by
  have hreact : ∀ state event reaction, react H c i x outcome below state event reaction =
      match x.reaction state event reaction with
      | .ignore => c.work i outcome [] below
      | .begin => c.work i outcome x.startPhases below
      | .attempt event rearm found =>
        settleTransition H c i x outcome below event rearm found := by
    intro state event reaction
    cases reaction with
    | none => rfl
    | some reaction => cases reaction <;> rfl
  rw [process.eq_def, Instance.resolution.eq_def]
  cases x.isRunning with
  | false => rfl
  | true =>
    cases e with
    | start => rfl
    | event event => rfl
    | after state key generation =>
      cases h : isFresh x state key generation <;> simp [h]
    | childDone id state =>
      cases hv : x.activeInvoke? id state with
      | none => simp [hv]
      | some v =>
        cases h : x.children.contains id with
        | false => simp [hv, h]
        | true => simpa [hv, h] using hreact state (.doneInvoke id) v.onDone
    | invokeFailed id state message =>
      cases hv : x.activeInvoke? id state with
      | none => simp [hv]
      | some v => simpa [hv] using hreact state (.invokeError id message) v.onError

end Configuration

/-! ### Workers -/

/-- The instance that an activity works for. -/
def Frame.worker? : Frame κ π → Option Nat
  | working owner _ _ => some owner
  | _ => none

/-- The instances at work, innermost first. -/
def workers (st : List (Frame κ π)) : List Nat := st.filterMap Frame.worker?

/-- The instances that activities keep alive. -/
def owners (st : List (Frame κ π)) : List Nat := st.filterMap Frame.owner?

/-- Stacks that differ on top, in activities that are no work. -/
inductive Shift : List (Frame κ π) → List (Frame κ π) → Prop where
  | same {st : List (Frame κ π)} : Shift st st
  | push {f : Frame κ π} {st st' : List (Frame κ π)} :
    f.worker? = none → Shift st st' → Shift st (f :: st')
  | pop {f : Frame κ π} {st st' : List (Frame κ π)} :
    f.worker? = none → Shift st st' → Shift (f :: st) st'

/-- The stack after an envelope was posted to an instance. -/
def wake (busy : Bool) (i : Nat) (st : List (Frame κ π)) : List (Frame κ π) :=
  if busy then st else .working i (.ok ()) [] :: st

/-- What is left of a phase after a step that changes nothing but the stack. -/
inductive Phase.Advances (x : Instance κ) : Phase κ → List (Phase κ) → Prop where
  | performed (context : Context) (event : Event) :
    Advances x (.perform [] context event) []
  | perform (a : PendingEffect κ) (more : List (PendingEffect κ)) (context : Context)
      (event : Event) :
    Advances x (.perform (a :: more) context event) [.perform more context event]
  | noChildren : Advances x .startChildren []
  | startChildren {state : String} {vs : List (Invocation κ)} (context : Context) :
    Configuration.activeInvocations x = .ok (some (state, vs)) →
      Advances x .startChildren [.invoke state context vs]
  | invoked (state : String) (context : Context) (vs : List (Invocation κ)) :
    Advances x (.invoke state context vs) []
  | invoke (state : String) (context : Context) (v : Invocation κ)
      (more : List (Invocation κ)) :
    Advances x (.invoke state context (v :: more)) [.invoke state context more]
  | publish (s : Snapshot κ) : Advances x (.publish s) [.notify s x.listeners]
  | notified (s : Snapshot κ) : Advances x (.notify s []) []
  | notify (s : Snapshot κ) (l : Nat × κ) (more : List (Nat × κ)) :
    Advances x (.notify s (l :: more)) [.notify s more]
  | rearm : x.isRunning = false → Advances x .rearm []
  | report (value : StateValue) : Advances x (.report value) []

namespace Engine

/-- Time goes on by nothing but what the host does. -/
def Quiet (r r' : Engine κ) : Prop :=
  r.timing.Follows (fun _ cb => ∃ code, cb = .code code) (fun cb => ∃ code, cb = .code code)
    r'.timing

/-- A callback that the clock may call: it belongs to a task that waits or to a timer
that runs. -/
def Due (r : Engine κ) (cb : Callback κ) : Prop :=
  (∃ p ∈ r.timing.scheduler.queue, p.task = .task cb)
    ∨ ∃ id t, r.timing.timers.get? id = some t ∧ t.status = .running ∧ t.callback = some cb

end Engine

/-- No instance is stopped on the way from `r` to `r'`, and no timer is armed. -/
structure Engine.Gentle (r r' : Engine κ) : Prop where
  stops : ∀ {i y}, r'.get? i = some y → y.status = .stopped →
    ∃ x, r.get? i = some x ∧ x.status = .stopped
  quiet : Engine.Quiet r r'

/-- Where instances stay the same, none is stopped. -/
theorem Engine.Same.gentle {r r' : Engine κ} (h : Engine.Same r r')
    (hquiet : Engine.Quiet r r') :
  Engine.Gentle r r'
  where
  stops {i y} hy hstopped := ⟨y, h.get? i ▸ hy, hstopped⟩
  quiet := hquiet

theorem Engine.Gentle.refl (r : Engine κ) :
  Engine.Gentle r r
  := (Engine.Same.refl r).gentle (.refl _)

/-- A change that keeps the status stops no instance. -/
theorem Engine.Sets.gentle {r r' : Engine κ} {i : Nat} {x y : Instance κ}
    (h : Engine.Sets r r' i y) (hx : r.get? i = some x) (hstatus : y.status = x.status) :
  Engine.Gentle r r'
  := by
  constructor
  · intro j z hz hstopped
    rw [h.get?] at hz
    split at hz
    · next hj =>
      obtain rfl := Option.some.inj hz
      exact ⟨x, hj ▸ hx, hstatus ▸ hstopped⟩
    · exact ⟨z, hz, hstopped⟩
  · rw [Engine.Quiet, h.timing]
    exact .refl _

/-! ### The rules -/

open Engine in
/-- What a step with a signal does to the engine and to the stack, but for letting
go. -/
inductive Move : Signal κ → Engine κ → List (Frame κ π) → Engine κ → List (Frame κ π) → Prop
    where
  /-- No instance is concerned. -/
  | quiet {r r' : Engine κ} {st st' : List (Frame κ π)} :
    Same r r' → Quiet r r' → Shift st st' → Move {} r st r' st'
  | create {r r' : Engine κ} {st st' : List (Frame κ π)} {m : Machine κ} {pool : Nat} :
    Adds r r' (.new m m.services pool none) → Shift st st' →
      Move { handed := some m } r st r' st'
  | interpret {r r' : Engine κ} {st st' : List (Frame κ π)} {m : Machine κ} :
    Same r r' → Quiet r r' → Shift st st' → Move { handed := some m } r st r' st'
  | listen {r r' : Engine κ} {st st' : List (Frame κ π)} {i : Nat} {x : Instance κ}
      {listeners : List (Nat × κ)} {n : Nat} :
    r.get? i = some x → x.Listens listeners n →
      Sets r r' i { x with listeners := listeners, nextListener := n } →
      Shift st st' → Move {} r st r' st'
  | stop {r : Engine κ} {st st' : List (Frame κ π)} (i : Nat) :
    Shift st st' → Move { stopped := some i } r st (r.stop i) st'
  | call {r r' : Engine κ} {st st' : List (Frame κ π)} {i : Nat} {x y : Instance κ}
      {e : Envelope} :
    r.get? i = some x → x.Accepts e y → Sets r r' i (y.enqueued e) → Shift st st' →
      Move { posted := some ⟨i, e, none⟩ } r st r' (wake x.busy i st')
  | fire {r r₁ r' : Engine κ} {st st' : List (Frame κ π)} {i : Nat} {x : Instance κ}
      {state key : String} {generation : Nat} :
    r.get? i = some x → Due r (.after i state key generation) → Same r r₁ → Quiet r r₁ →
      Sets r₁ r' i (x.enqueued (.after state key generation)) → Shift st st' →
      Move { posted := some ⟨i, .after state key generation, none⟩ } r st r'
        (wake x.busy i st')
  /-- An instance takes the next envelope. -/
  | ignore {r r' : Engine κ} {below : List (Frame κ π)} {i : Nat} {x : Instance κ}
      {o : Except MachineError Unit} {e : Envelope} {more : List Envelope} :
    r.get? i = some x → x.mailbox = e :: more →
      (x.resolution e = .ignore ∨
        ∃ event rearm found, x.resolution e = .attempt event rearm found
          ∧ found.value = .ok none) →
      Sets r r' i { x with mailbox := more } →
      Move { taken := some (i, e) } r (.working i o [] :: below) r' (.working i o [] :: below)
  | stumble {r r' : Engine κ} {below : List (Frame κ π)} {i : Nat} {x : Instance κ}
      {o : Except MachineError Unit} {e : Envelope} {more : List Envelope} {event : Event}
      {rearm : Configuration.Rearm} {error : MachineError}
      {found : Evaluated (Except MachineError (Option (Snapshot κ)))} :
    r.get? i = some x → x.mailbox = e :: more →
      x.resolution e = .attempt event rearm found → found.value = .error error →
      Sets r r' i { x with mailbox := more } →
      Move { taken := some (i, e) } r (.working i o [] :: below) r'
        (.working i (Configuration.firstError o (.error error)) [] :: below)
  | begin {r r' : Engine κ} {below : List (Frame κ π)} {i : Nat} {x : Instance κ}
      {o : Except MachineError Unit} {e : Envelope} {more : List Envelope} :
    r.get? i = some x → x.mailbox = e :: more → x.resolution e = .begin →
      Sets r r' i { x with mailbox := more } →
      Move { taken := some (i, e) } r (.working i o [] :: below) r'
        (.working i o x.startPhases :: below)
  | commit {r r' : Engine κ} {below : List (Frame κ π)} {i : Nat} {x : Instance κ}
      {o : Except MachineError Unit} {e : Envelope} {more : List Envelope} {event : Event}
      {rearm : Configuration.Rearm} {next : Snapshot κ} {now : Nat}
      {found : Evaluated (Except MachineError (Option (Snapshot κ)))} :
    r.get? i = some x → x.mailbox = e :: more →
      x.resolution e = .attempt event rearm found → found.value = .ok (some next) →
      Sets r r' i (Configuration.commitTo { x with mailbox := more } next event now) →
      Move { taken := some (i, e) } r (.working i o [] :: below) r'
        (.working i o (Configuration.transitionPhases x next event rearm) :: below)
  | finish {r r' : Engine κ} {below : List (Frame κ π)} {i : Nat} {x : Instance κ}
      {o : Except MachineError Unit} :
    r.get? i = some x → x.mailbox = [] → Sets r r' i { x with busy := false } →
      Move {} r (.working i o [] :: below) r' below
  | vanish {r : Engine κ} {below : List (Frame κ π)} {i : Nat}
      {o : Except MachineError Unit} {ps : List (Phase κ)} :
    r.get? i = none → Move {} r (.working i o ps :: below) r below
  /-- An instance goes on with a piece of work. -/
  | advance {r : Engine κ} {below : List (Frame κ π)} {i : Nat} {x : Instance κ}
      {o : Except MachineError Unit} {p : Phase κ} {ps rest : List (Phase κ)} :
    r.get? i = some x → p.Advances x ps →
      Move {} r (.working i o (p :: rest) :: below) r (.working i o (ps ++ rest) :: below)
  | drop {r : Engine κ} {below : List (Frame κ π)} {i : Nat} {x : Instance κ}
      {o : Except MachineError Unit} {p : Phase κ} {rest : List (Phase κ)} :
    r.get? i = some x → x.isRunning = false →
      Move {} r (.working i o (p :: rest) :: below) r (.working i o [] :: below)
  | fail {r : Engine κ} {below : List (Frame κ π)} {i : Nat} {x : Instance κ}
      {o : Except MachineError Unit} {p : Phase κ} {rest : List (Phase κ)}
      {error : MachineError} :
    r.get? i = some x →
      Configuration.activeInvocations x = .error error ∨ activeDelays x = .error error →
      Move {} r (.working i o (p :: rest) :: below) r
        (.working i (Configuration.firstError o (.error error)) [] :: below)
  | stopChildren {r : Engine κ} {below : List (Frame κ π)} {i : Nat} {x : Instance κ}
      {o : Except MachineError Unit} {rest : List (Phase κ)} :
    r.get? i = some x →
      Move {} r (.working i o (.stopChildren :: rest) :: below) (r.stopChildren i)
        (.working i o rest :: below)
  | spawn {r r' : Engine κ} {below : List (Frame κ π)} {i : Nat} {x : Instance κ}
      {o : Except MachineError Unit} {rest : List (Phase κ)} {state : String}
      {context : Context} {v : Invocation κ} {more : List (Invocation κ)} {m : Machine κ}
      {services : Services κ} :
    r.get? i = some x → x.isRunning = true → x.children.get? v.id = none →
      Spawns r r' i { x with children := x.children.insert v.id r.instances.next }
        (.newborn m services x.pool ⟨v.id, state, i⟩) →
      Move { handed := some m, posted := some ⟨r.instances.next, .start, none⟩ } r
        (.working i o (.invoke state context (v :: more) :: rest) :: below) r'
        (.working r.instances.next (.ok ()) []
          :: .working i o (.invoke state context more :: rest) :: below)
  | missing {r r' : Engine κ} {below : List (Frame κ π)} {i : Nat} {x : Instance κ}
      {o : Except MachineError Unit} {rest : List (Phase κ)} {state message : String}
      {context : Context} {v : Invocation κ} {more : List (Invocation κ)} :
    r.get? i = some x → x.isRunning = true → x.children.get? v.id = none →
      Sets r r' i { x with mailbox := x.mailbox ++ [.invokeFailed v.id state message] } →
      Move { posted := some ⟨i, .invokeFailed v.id state message, none⟩ } r
        (.working i o (.invoke state context (v :: more) :: rest) :: below) r'
        (.working i o (.invoke state context more :: rest) :: below)
  | rearm {r r' : Engine κ} {below : List (Frame κ π)} {i : Nat} {x : Instance κ}
      {o : Except MachineError Unit} {rest : List (Phase κ)} :
    r.get? i = some x → x.isRunning = true → (r.armTimers i).value = .ok r' →
      Move {} r (.working i o (.rearm :: rest) :: below) r' (.working i o rest :: below)
  | conclude {r r' : Engine κ} {below : List (Frame κ π)} {i : Nat} {x : Instance κ}
      {o : Except MachineError Unit} {rest : List (Phase κ)} {value : StateValue} :
    r.get? i = some x → Sets r r' i { x with doneReported := true } →
      Move {} r (.working i o (.report value :: rest) :: below) r'
        (.working i o rest :: below)
  | report {r r₁ r' : Engine κ} {below : List (Frame κ π)} {i : Nat} {x y : Instance κ}
      {o : Except MachineError Unit} {rest : List (Phase κ)} {value : StateValue}
      {link : ParentLink} :
    r.get? i = some x → x.isRunning = true → x.parent = some link →
      Sets r r₁ i { x with doneReported := true } → r₁.get? link.parent = some y →
      Sets r₁ r' link.parent (y.enqueued (.childDone link.id link.state)) →
      Move { posted := some ⟨link.parent, .childDone link.id link.state, some i⟩ } r
        (.working i o (.report value :: rest) :: below) r'
        (wake y.busy link.parent (.working i o rest :: below))

end Statechart
