import Statechart.Proofs.Conclusion
import Statechart.Proofs.Delays
import Statechart.Proofs.Ownership
import Statechart.Proofs.Recording

/-!
# Attempts to start children

The invocations of a state are requests, which an instance resolves one after another.  Each time
the host is asked for a machine, and a child is stored and started, or a report of failure goes
into the mail (`Attempt.Settles`).  New children and reports of failure come from nowhere else
(`Configuration.Run.invoked_next`, `Configuration.filter_posts`).
-/

namespace Statechart

variable {κ π σ : Type}

/-! ### Identifiers of invocations -/

/-- The invocations of a compiled state have different identifiers, and none that has been
seen. -/
theorem nodup_invocations (b : Bundle κ) (seen : List String) (is : List (InvokeDescriptor κ)) :
  ((invocations b seen is).map Invocation.id).Nodup ∧ ∀ v ∈ invocations b seen is, v.id ∉ seen
  := by
  induction is generalizing seen with
  | nil => exact ⟨.nil, fun _ hv => absurd hv List.not_mem_nil⟩
  | cons i rest ih =>
    rw [invocations]
    split
    · exact ih seen
    · next hnew =>
      obtain ⟨hnodup, hseen⟩ := ih (i.id :: seen)
      rw [List.map_cons, List.nodup_cons, List.forall_mem_cons]
      refine ⟨⟨fun hmem => ?_, hnodup⟩, fun hi => hnew (List.contains_iff_mem.mpr hi), ?_⟩
      · obtain ⟨v, hv, hid⟩ := List.mem_map.mp hmem
        exact hseen v hv (hid ▸ List.mem_cons_self)
      · exact fun v hv hmem => hseen v hv (List.mem_cons_of_mem _ hmem)

/-- The invocations of a state of a compiled machine have different identifiers. -/
theorem Machine.IsCompiled.distinct_invocations {m : Machine κ} (h : m.IsCompiled)
    {chart : Chart κ} (hflat : m.flat? = some chart) {key : String} {n : Node κ}
    (hn : chart.nodes.get? key = some n) :
  (n.invoke.map Invocation.id).Nodup
  := by
  obtain ⟨d, b, -, hm⟩ := h
  obtain ⟨-, topology, initial, htopology, -, rfl⟩ := exists_of_compile hm
  rw [MachineDescriptor.topology] at htopology
  split at htopology
  · obtain rfl := Except.ok.inj htopology
    cases hflat
  · split at htopology
    · obtain rfl := Except.ok.inj htopology
      obtain rfl := Option.some.inj hflat
      obtain ⟨desc, -, rfl⟩ := Chart.exists_of_get?_ofStates hn
      exact (nodup_invocations b [] desc.invoke).1
    · cases htopology

/-! ### Requests -/

/-- An invocation of a state that is to be resolved, with the context of the invoking machine. -/
structure Request (κ : Type) where
  state : String
  context : Context
  invocation : Invocation κ

/-- The invocations of the active state of an instance, to be resolved with its context. -/
def Instance.requests (x : Instance κ) : List (Request κ) :=
  match Configuration.activeInvocations x with
  | .ok (some (state, vs)) => vs.map fun v => ⟨state, x.snapshot.context, v⟩
  | _ => []

/-- What is resolved in a phase of the work of an instance. -/
def Phase.requests (x : Instance κ) : Phase κ → List (Request κ)
  | .startChildren => x.requests
  | .invoke state context vs => vs.map fun v => ⟨state, context, v⟩
  | _ => []

/-- What is still to be resolved in the work of an instance. -/
def ahead (x : Instance κ) (ps : List (Phase κ)) : List (Request κ) :=
  ps.flatMap (Phase.requests x)

theorem ahead_cons (x : Instance κ) (p : Phase κ) (ps : List (Phase κ)) :
  ahead x (p :: ps) = p.requests x ++ ahead x ps
  := rfl

theorem ahead_append (x : Instance κ) (ps qs : List (Phase κ)) :
  ahead x (ps ++ qs) = ahead x ps ++ ahead x qs
  := List.flatMap_append

namespace Instance

variable {x y : Instance κ}

theorem requests_of_activeInvocations {state : String} {vs : List (Invocation κ)}
    (h : Configuration.activeInvocations x = .ok (some (state, vs))) :
  x.requests = vs.map fun v => ⟨state, x.snapshot.context, v⟩
  := by
  rw [requests, h]

/-- The requests are a matter of the machine and the snapshot. -/
theorem requests_congr (hmachine : y.machine = x.machine) (hsnapshot : y.snapshot = x.snapshot) :
  y.requests = x.requests
  := by
  rw [requests, requests, Configuration.activeInvocations, Configuration.activeInvocations,
    hmachine, hsnapshot]

theorem ahead_congr (hmachine : y.machine = x.machine) (hsnapshot : y.snapshot = x.snapshot)
    (ps : List (Phase κ)) :
  ahead y ps = ahead x ps
  := by
  have hphase : Phase.requests y = Phase.requests x := by
    funext p
    cases p with
    | startChildren => exact requests_congr hmachine hsnapshot
    | _ => rfl
  rw [ahead, ahead, hphase]

/-- The requests of an instance have different identifiers. -/
theorem Valid.distinct_requests (h : x.Valid) :
  (x.requests.map fun q => q.invocation.id).Nodup
  := by
  rw [requests]
  split
  · next state vs hactive =>
    rw [List.map_map]
    rw [Configuration.activeInvocations] at hactive
    split at hactive
    · next chart _ hflat _ =>
      split at hactive
      · cases hactive
      · next n hn =>
        obtain ⟨-, rfl⟩ := Prod.mk.inj (Option.some.inj (Except.ok.inj hactive))
        exact h.compiled.distinct_invocations hflat (Chart.node_eq_ok_iff.mp hn)
    · cases hactive
  · exact .nil

theorem Valid.beq_self (h : x.Valid) :
  (x.snapshot.value == x.snapshot.value) = true
  := (h.fits.beq_iff h.compiled.sound.topology h.fits).mpr rfl

end Instance

theorem ahead_startPhases (x y : Instance κ) :
  ahead x y.startPhases = x.requests
  := by
  simp [ahead, Instance.startPhases, Phase.requests]

/-- The requests of a state that is entered are ahead, and no others. -/
theorem ahead_transitionPhases (x y : Instance κ) (next : Snapshot κ) (event : Event)
    (rearm : Configuration.Rearm) :
  ahead x (Configuration.transitionPhases y next event rearm)
    = if y.snapshot.value == next.value then [] else x.requests
  := by
  rw [Configuration.transitionPhases, Configuration.phasesOf, ahead]
  cases y.snapshot.value == next.value <;> cases rearm <;> simp [Phase.requests]

/-! ### Answers -/

/-- How the machine of a request is found, from one memory of the host to another.  Code in place
gets the context of the invoking machine.  A service that is registered gets the data of the
invocation: what is given, or what is derived from the context, or else an empty context. -/
inductive Request.Answers (H : Host κ π σ) (services : Services κ) (q : Request κ) (memory : σ) :
    Except InvokeError (Machine κ) × σ → Prop where
  | factory {code : κ} : q.invocation.source = .factory code →
      Answers H services q memory (H.build code q.context .init memory)
  | unknown {name : String} : q.invocation.source = .service name → services.get? name = none →
      Answers H services q memory (.error (.unknownService name), memory)
  | empty {name : String} {code : κ} : q.invocation.source = .service name →
      services.get? name = some code → q.invocation.data = none →
      Answers H services q memory (H.build code .empty .init (H.observe [] memory))
  | literal {name : String} {code : κ} {data : Context} : q.invocation.source = .service name →
      services.get? name = some code → q.invocation.data = some (.literal data) →
      Answers H services q memory (H.build code data .init (H.observe [] memory))
  | derived {name : String} {code : κ} {rule : Context → Event → Context} :
      q.invocation.source = .service name → services.get? name = some code →
      q.invocation.data = some (.derived rule) →
      Answers H services q memory
        (H.build code (rule q.context .init) .init (H.observe [.derive .init] memory))

/-- A request, the number that its child gets if it has one, and the machine of the child or the
reason why there is none. -/
structure Attempt (κ : Type) where
  request : Request κ
  child : Nat
  result : Except InvokeError (Machine κ)

namespace Attempt

/-- The child of an attempt that succeeds, under its identifier. -/
def stored? (t : Attempt κ) : Option (String × Nat) :=
  match t.result with
  | .ok _ => some (t.request.invocation.id, t.child)
  | .error _ => none

/-- The report of an attempt that fails. -/
def failure? (t : Attempt κ) : Option Envelope :=
  match t.result with
  | .ok _ => none
  | .error e => some (.invokeFailed t.request.invocation.id t.request.state e.message)

theorem stored?_eq_some {t : Attempt κ} {e : String × Nat} (h : t.stored? = some e) :
  e = (t.request.invocation.id, t.child) ∧ ∃ machine, t.result = .ok machine
  := by
  rw [stored?] at h
  split at h
  · next machine hresult => exact ⟨(Option.some.inj h).symm, machine, hresult⟩
  · cases h

end Attempt

/-- Whether an envelope reports that a child could not be started. -/
def Envelope.isFailure : Envelope → Bool
  | invokeFailed _ _ _ => true
  | _ => false

namespace Configuration

variable {H : Host κ π σ} {cs : List (Configuration κ π σ)} {c d : Configuration κ π σ} {i : Nat}
  {x y : Instance κ} {t : Attempt κ}

theorem answers_resolveChild (c : Configuration κ π σ) (x : Instance κ) (q : Request κ) :
  q.Answers H x.services c.memory ((resolveChild H c x q.invocation q.context).1,
    (resolveChild H c x q.invocation q.context).2.memory)
  := by
  cases hsource : q.invocation.source with
  | factory code =>
    simp only [resolveChild, hsource]
    exact .factory hsource
  | service name =>
    cases hservice : x.services.get? name with
    | none =>
      simp only [resolveChild, hsource, hservice]
      exact .unknown hsource hservice
    | some code =>
      simp only [resolveChild, hsource, hservice]
      cases hdata : q.invocation.data with
      | none => exact .empty hsource hservice hdata
      | some data =>
        cases data with
        | literal data => exact .literal hsource hservice hdata
        | derived rule => exact .derived hsource hservice hdata

/-- The attempt of an instance to start a child in the next step. -/
def attempt? (H : Host κ π σ) (i : Nat) (c : Configuration κ π σ) : Option (Attempt κ) :=
  match c.control, c.stack with
  | .back _, .working j _ (.invoke state context (v :: _) :: _) :: _ =>
    match c.engine.get? j with
    | some x =>
      if j = i ∧ x.isRunning = true ∧ x.children.contains v.id = false then
        some ⟨⟨state, context, v⟩, c.engine.instances.next, (resolveChild H c x v context).1⟩
      else none
    | none => none
  | _, _ => none

/-- The attempts of an instance to start children, in order. -/
def attempts (H : Host κ π σ) (i : Nat) (cs : List (Configuration κ π σ)) : List (Attempt κ) :=
  cs.filterMap (attempt? H i)

/-- An instance that makes an attempt is the innermost activity. -/
theorem exists_of_attempt? (h : attempt? H i c = some t) :
  ∃ reply o more rest below x, c.control = .back reply
    ∧ c.stack = .working i o
      (.invoke t.request.state t.request.context (t.request.invocation :: more) :: rest) :: below
    ∧ c.engine.get? i = some x ∧ x.isRunning = true
    ∧ x.children.contains t.request.invocation.id = false
    ∧ t.child = c.engine.instances.next
    ∧ t.result = (resolveChild H c x t.request.invocation t.request.context).1
  := by
  rw [attempt?] at h
  split at h
  · next reply j o state context v more rest below hcontrol hstack =>
    split at h
    · next x hx =>
      split at h
      · next hcond =>
        obtain ⟨rfl, hrunning, hnew⟩ := hcond
        obtain rfl := Option.some.inj h
        exact ⟨reply, o, more, rest, below, x, hcontrol, hstack, hx, hrunning, hnew, rfl, rfl⟩
      · cases h
    · cases h
  · cases h

theorem attempt?_eq {reply : Reply κ} {o : Except MachineError Unit} {state : String}
    {context : Context} {v : Invocation κ} {more : List (Invocation κ)} {rest : List (Phase κ)}
    {below : List (Frame κ π)} (hcontrol : c.control = .back reply)
    (hstack : c.stack = .working i o (.invoke state context (v :: more) :: rest) :: below)
    (hx : c.engine.get? i = some x) (hrunning : x.isRunning = true)
    (hnew : x.children.contains v.id = false) :
  attempt? H i c = some ⟨⟨state, context, v⟩, c.engine.instances.next,
    (resolveChild H c x v context).1⟩
  := by
  simp only [attempt?, hcontrol, hstack, hx, hrunning, hnew, and_self, if_true]

/-- Whoever is sent a report of failure makes an attempt. -/
theorem exists_attempt? {post : Post} (h : (signal H c).posted = some post)
    (hfailure : post.envelope.isFailure = true) :
  ∃ t, attempt? H post.owner c = some t
  := by
  have hsignals := signals H c
  generalize signal H c = s at h hsignals
  cases hsignals with
  | fail hcontrol hstack hx hrunning hnew =>
    obtain rfl := Option.some.inj h
    exact ⟨_, attempt?_eq hcontrol hstack hx hrunning hnew⟩
  | _ => cases h <;> cases hfailure

/-- The reports of failure that are posted to an instance are those of its attempts that fail. -/
theorem filter_postedTo (H : Host κ π σ) (i : Nat) (c : Configuration κ π σ) :
  ((signal H c).postedTo i).filter Envelope.isFailure = (attempt? H i c).bind Attempt.failure?
  := by
  cases hattempt : attempt? H i c with
  | some t =>
    obtain ⟨_, _, _, _, _, x, hcontrol, hstack, hx, hrunning, hnew, -, hresult⟩ :=
      exists_of_attempt? hattempt
    have hne := Nat.ne_of_gt (Engine.lt_next_of_get? hx)
    simp only [signal, hcontrol, hstack, hx, phaseSignal, hrunning, hnew, if_true,
      Bool.false_eq_true, if_false, ← hresult, Option.bind_some, Attempt.failure?]
    cases t.result with
    | ok machine => simp [Signal.postedTo, hne]
    | error e => simp [Signal.postedTo, Envelope.isFailure]
  | none =>
    rw [Option.bind_none, Option.filter_eq_none_iff]
    intro e hposted hfailure
    obtain ⟨sender, hposted⟩ := posted_of_postedTo hposted
    obtain ⟨t, ht⟩ := exists_attempt? hposted hfailure
    rw [hattempt] at ht
    cases ht

/-- The reports of failure that are posted to an instance are those of its attempts that fail, in
order. -/
theorem filter_posts (H : Host κ π σ) (i : Nat) (cs : List (Configuration κ π σ)) :
  (posts H i cs).filter Envelope.isFailure = (attempts H i cs).filterMap Attempt.failure?
  := by
  rw [posts, attempts, List.filter_filterMap, List.filterMap_filterMap]
  exact congrArg (fun f => List.filterMap f cs) (funext fun c => filter_postedTo H i c)

/-- An instance that takes an envelope makes no attempt. -/
theorem attempt?_of_taken (htaken : (signal H c).takenBy i = some e) :
  attempt? H i c = none
  := by
  obtain ⟨reply, o, below, hcontrol, hstack⟩ := exists_of_takenBy htaken
  simp only [attempt?, hcontrol, hstack]

theorem attempts_concat (H : Host κ π σ) (i : Nat) (cs : List (Configuration κ π σ))
    (c : Configuration κ π σ) :
  attempts H i (cs ++ [c]) = attempts H i cs ++ (attempt? H i c).toList
  := filterMap_concat _

/-! ### Steps of an instance at work -/

theorem memory_deliver (c : Configuration κ π σ) (i : Nat) (e : Envelope) :
  (c.deliver i e).memory = c.memory
  := by
  rw [deliver]
  split
  · rfl
  · split <;> rfl

theorem memory_start (c : Configuration κ π σ) (i : Nat) :
  (c.start i).memory = c.memory
  := by
  rw [start]
  split
  · rfl
  · split
    · exact memory_deliver _ i .start
    · rfl

end Configuration

namespace Attempt

/-- What comes of an attempt, from `c` to `d`.  If there is a machine, then its instance is stored
as a child, with its start still before it; otherwise the reason goes into the mail.  All else is
as before. -/
inductive Leads (i : Nat) (x : Instance κ) (c d : Configuration κ π σ) : Attempt κ → Prop where
  | stored {q : Request κ} {machine : Machine κ} :
      Engine.Spawns c.engine d.engine i
        { x with children := x.children.insert q.invocation.id c.engine.instances.next }
        (.newborn machine (machine.services.withFallback x.services) x.pool
          ⟨q.invocation.id, q.state, i⟩) →
      workOf c.engine.instances.next d.stack = some [] →
      Leads i x c d ⟨q, c.engine.instances.next, .ok machine⟩
  | failed {q : Request κ} {error : InvokeError} :
      Engine.Sets c.engine d.engine i
        { x with
          mailbox := x.mailbox ++ [.invokeFailed q.invocation.id q.state error.message] } →
      Leads i x c d ⟨q, c.engine.instances.next, .error error⟩

/-- An attempt of the instance `x` in the step from `c` to `d`. -/
structure Settles (H : Host κ π σ) (i : Nat) (x : Instance κ) (c d : Configuration κ π σ)
    (t : Attempt κ) : Prop where
  there : c.engine.get? i = some x
  running : x.isRunning = true
  fresh : x.children.contains t.request.invocation.id = false
  answers : t.request.Answers H x.services c.memory (t.result, d.memory)
  leads : t.Leads i x c d

namespace Settles

variable {H : Host κ π σ} {i : Nat} {x y : Instance κ} {c d : Configuration κ π σ} {t : Attempt κ}

/-- After an attempt the instance has the new child last, if there is one. -/
theorem children (h : t.Settles H i x c d) (hy : d.engine.get? i = some y) :
  y.children.entries = x.children.entries ++ t.stored?.toList
  := by
  obtain ⟨hx, -, hfresh, -, hleads⟩ := h
  cases hleads with
  | stored hspawns =>
    obtain rfl := Option.some.inj ((hspawns.get?_self hx).symm.trans hy)
    refine OrderedMap.put_eq_append fun hmem => ?_
    rw [(OrderedMap.contains_iff _ _).mpr hmem] at hfresh
    cases hfresh
  | failed hsets =>
    obtain rfl := Option.some.inj (hsets.get?_self.symm.trans hy)
    exact (List.append_nil _).symm

/-- An attempt leaves the machine, the value and the context of the instance. -/
theorem snapshot (h : t.Settles H i x c d) (hy : d.engine.get? i = some y) :
  y.snapshot = x.snapshot ∧ y.machine = x.machine
  := by
  obtain ⟨hx, -, -, -, hleads⟩ := h
  cases hleads with
  | stored hspawns =>
    obtain rfl := Option.some.inj ((hspawns.get?_self hx).symm.trans hy)
    exact ⟨rfl, rfl⟩
  | failed hsets =>
    obtain rfl := Option.some.inj (hsets.get?_self.symm.trans hy)
    exact ⟨rfl, rfl⟩

end Settles

end Attempt

namespace Configuration

variable {H : Host κ π σ} {cs : List (Configuration κ π σ)} {c d : Configuration κ π σ} {i : Nat}
  {x y : Instance κ} {t : Attempt κ}

/-- An attempt settles a request, which is not ahead any more. -/
theorem settles_of_attempt? (hstep : step? H c = some d) (h : attempt? H i c = some t) :
  ∃ x more rest, t.Settles H i x c d
    ∧ workOf i c.stack = some
      (.invoke t.request.state t.request.context (t.request.invocation :: more) :: rest)
    ∧ workOf i d.stack = some (.invoke t.request.state t.request.context more :: rest)
  := by
  obtain ⟨_, o, more, rest, below, x, hcontrol, hstack, hx, hrunning, hfresh, hchild, hresult⟩ :=
    exists_of_attempt? h
  have hne := Nat.ne_of_gt (Engine.lt_next_of_get? hx)
  have hanswers := answers_resolveChild (H := H) c x t.request
  obtain ⟨⟨state, context, v⟩, child, result⟩ := t
  simp only at hstack hfresh hchild hresult hanswers
  subst hchild hresult
  have hresolve := resolveChild_of_memory (H := H)
    (d := c.work i o (.invoke state context more :: rest) below) (c := c) rfl x v context
  simp only [step?, hcontrol, hstack, hx, stepPhase, hrunning, if_true, startChild, hfresh,
    Bool.false_eq_true, if_false, hresolve, Option.some.injEq] at hstep
  have hw : workOf i c.stack = some (.invoke state context (v :: more) :: rest) := by
    rw [hstack, workOf_working_self]
  generalize (resolveChild H c x v context).2.memory = memory at hstep hanswers
  generalize hb : ({ c.work i o (.invoke state context more :: rest) below with
    memory := memory } : Configuration κ π σ) = b at hstep
  have hengine : b.engine = c.engine := by rw [← hb]; rfl
  have hwork : b.stack = .working i o (.invoke state context more :: rest) :: below := by
    rw [← hb]; rfl
  have hmemory : b.memory = memory := by rw [← hb]
  cases hresult : (resolveChild H c x v context).1 with
  | ok machine =>
    simp only [hresult] at hstep hanswers
    obtain ⟨hspawns, hstack'⟩ := spawns_start (c := b) (hengine ▸ hx) machine v.id state
    rw [hengine] at hstep hspawns hstack'
    rw [hstep] at hspawns hstack'
    have hmemory' : d.memory = memory := by
      rw [← hstep, memory_start]
      exact hmemory
    refine ⟨x, more, rest, ⟨hx, hrunning, hfresh, hmemory' ▸ hanswers, .stored hspawns ?_⟩, hw, ?_⟩
    · rw [hstack', workOf_working_self]
    · rw [hstack', workOf_working_of_ne hne, hwork, workOf_working_self]
  | error e =>
    simp only [hresult] at hstep hanswers
    subst hstep
    refine ⟨x, more, rest, ⟨hx, hrunning, hfresh, hmemory ▸ hanswers, .failed ?_⟩, hw, ?_⟩
    · rw [hengine]
      exact Engine.sets_modify hx _
    · rw [withEngine, hwork, workOf_working_self]

/-- To begin with the children is to put the requests of the active state ahead. -/
theorem work_of_startChildren {reply : Reply κ} {o : Except MachineError Unit}
    {rest : List (Phase κ)} {below : List (Frame κ π)} (hstep : step? H c = some d)
    (hcontrol : c.control = .back reply)
    (hstack : c.stack = .working i o (.startChildren :: rest) :: below)
    (hx : c.engine.get? i = some x) (hrunning : x.isRunning = true) (hvalid : x.Valid) :
  ∃ ps, d = c.work i o (ps ++ rest) below ∧ ahead x ps = x.requests ∧ .stopChildren ∉ ps
  := by
  simp only [step?, hcontrol, hstack, hx, stepPhase, hrunning, if_true, Option.some.injEq] at hstep
  cases hactive : activeInvocations x with
  | error e => exact absurd hactive (hvalid.active_ne_error e).1
  | ok active =>
    rw [hactive] at hstep
    cases active with
    | none =>
      refine ⟨[], hstep.symm, ?_, List.not_mem_nil⟩
      rw [Instance.requests, hactive]
      rfl
    | some active =>
      obtain ⟨state, vs⟩ := active
      refine ⟨[.invoke state x.snapshot.context vs], hstep.symm, ?_, by simp⟩
      rw [Instance.requests_of_activeInvocations hactive, ahead_cons]
      exact List.append_nil _

end Configuration

/-- A phase that resolves nothing leaves nothing to be resolved. -/
theorem Phase.Advances.ahead_eq_nil {x : Instance κ} {p : Phase κ} {ps : List (Phase κ)}
    (h : p.Advances x ps) (hp : p.requests x = []) :
  ahead x ps = []
  := by
  cases h with
  | startChildren context hactive =>
    rw [requests, Instance.requests_of_activeInvocations hactive, List.map_eq_nil_iff] at hp
    rw [hp]
    rfl
  | invoke state context v more => cases hp
  | _ => rfl

/-- The children of an instance are stopped before any is invoked. -/
theorem Instance.Tidy.settled_of_invoke {x : Instance κ} {w : Option (List (Phase κ))}
    (h : x.Tidy w) {state : String} {context : Context} {vs : List (Invocation κ)}
    {rest : List (Phase κ)} (hw : w = some (.invoke state context vs :: rest)) :
  .stopChildren ∉ .invoke state context vs :: rest
  := by
  rintro (_ | ⟨_, hmem⟩)
  obtain ⟨_, _, _, hperform⟩ := (List.rel_of_pairwise_cons (h.order _ hw) hmem).1 rfl
  cases hperform

/-- What becomes of the children of an instance that goes on with its work: they are kept, or
stopped, or there is a new one. -/
theorem Turn.children_of_working {i : Nat} {r r' : Engine κ} {x y : Instance κ} {p : Phase κ}
    {ps : List (Phase κ)} {w' : Option (List (Phase κ))}
    (h : Turn i r r' x (some (p :: ps)) y w') (hx : x.isRunning = true) (hy : y.isRunning = true) :
  y.snapshot = x.snapshot
    ∧ ((y.children = x.children ∧ ∃ qs, w' = some (qs ++ ps)
        ∧ (.stopChildren ∈ qs ↔ p = .stopChildren) ∧ (p.requests x = [] → ahead x qs = []))
      ∨ (p = .stopChildren ∧ w' = some ps ∧ y.children = .empty)
      ∨ ∃ state context v more, p = .invoke state context (v :: more)
        ∧ w' = some (.invoke state context more :: ps))
  := by
  cases h with
  | keep hw _ =>
    obtain rfl | ⟨hw, -⟩ | ⟨hw, -⟩ := hw
    · refine ⟨rfl, .inl ⟨rfl, [p], rfl, by simp [eq_comm], fun hp => ?_⟩⟩
      rw [ahead_cons, hp]
      rfl
    · cases hw
    · cases hw
  | @advance _ qs _ _ _ _ hadvances =>
    refine ⟨rfl, .inl ⟨rfl, qs, rfl, ?_, hadvances.ahead_eq_nil⟩⟩
    exact iff_of_false hadvances.ne_stopChildren.2 hadvances.ne_stopChildren.1
  | drop hnot _ =>
    rw [hx] at hnot
    cases hnot
  | stopChildren _ => exact ⟨rfl, .inr (.inl ⟨rfl, rfl, rfl⟩)⟩
  | spawn _ _ _ => exact ⟨rfl, .inr (.inr ⟨_, _, _, _, rfl, rfl⟩)⟩
  | rearm _ _ => exact ⟨rfl, .inl ⟨rfl, [], rfl, by simp, fun _ => rfl⟩⟩
  | halt _ _ => cases hy

/-- A child that is stored in a turn comes from the invocation that comes first. -/
theorem Turn.of_new_child {i : Nat} {r r' : Engine κ} {x y : Instance κ}
    {w w' : Option (List (Phase κ))} (h : Turn i r r' x w y w') {child : Nat}
    (hold : child ∉ x.children.values) (hnew : child ∈ y.children.values) :
  ∃ state context v more rest, w = some (.invoke state context (v :: more) :: rest)
    ∧ w' = some (.invoke state context more :: rest) ∧ x.isRunning = true
    ∧ x.children.contains v.id = false
  := by
  cases h with
  | spawn hrunning hnone =>
    refine ⟨_, _, _, _, _, rfl, rfl, hrunning, ?_⟩
    rw [OrderedMap.contains, hnone]
    rfl
  | stopChildren | halt => cases hnew
  | _ => exact absurd hnew hold

namespace Configuration

variable {H : Host κ π σ} {cs before inner : List (Configuration κ π σ)}
  {a b c d : Configuration κ π σ} {i : Nat} {x y : Instance κ} {t : Attempt κ}

/-- An instance at work that makes no attempt keeps its children, or stops them, and nothing is
resolved. -/
theorem Run.ahead_eq (h : Run H cs c) (hstep : Evolves H c d) {p : Phase κ} {ps : List (Phase κ)}
    (hx : c.engine.get? i = some x) (hw : workOf i c.stack = some (p :: ps))
    (hxrunning : x.isRunning = true) (hy : d.engine.get? i = some y)
    (hrunning : y.isRunning = true) (hnone : attempt? H i c = none)
    (hfresh : ∀ state context v more, p = .invoke state context (v :: more) →
      x.children.contains v.id = false) :
  y.snapshot = x.snapshot ∧ ∃ qs, workOf i d.stack = some qs ∧ ahead x qs = ahead x (p :: ps)
    ∧ (y.children = x.children ∧ (.stopChildren ∈ qs ↔ .stopChildren ∈ p :: ps)
      ∨ p = .stopChildren ∧ qs = ps ∧ y.children = .empty)
  := by
  obtain ⟨mid, hgoes⟩ := h.goes hstep
  have hturn := hgoes.turn hx (hgoes.releases.get?_of_get? hy)
  rw [hw] at hturn
  obtain ⟨hsnapshot, hcases⟩ := hturn.children_of_working hxrunning hrunning
  refine ⟨hsnapshot, ?_⟩
  by_cases hp : p.requests x = []
  · obtain ⟨hchildren, qs, hw', hclears, hahead⟩ | ⟨rfl, hw', hchildren⟩
      | ⟨_, _, _, _, rfl, -⟩ := hcases
    · refine ⟨qs ++ ps, hw', ?_, .inl ⟨hchildren, ?_⟩⟩
      · rw [ahead_append, hahead hp, ahead_cons, hp]
      · rw [List.mem_append, List.mem_cons, hclears, eq_comm]
    · exact ⟨ps, hw', rfl, .inr ⟨rfl, rfl, hchildren⟩⟩
    · cases hp
  · obtain hsame | ⟨reply, o, below, hcontrol, hstack⟩ := h.workOf_eq hstep hw
    · refine ⟨p :: ps, hsame, rfl, .inl ⟨?_, Iff.rfl⟩⟩
      obtain ⟨hchildren, -⟩ | ⟨rfl, -⟩ | ⟨_, _, _, _, rfl, hw'⟩ := hcases
      · exact hchildren
      · exact absurd rfl hp
      · simp [hsame] at hw'
    · -- It is the turn of the instance.
      have hnext := hstep.step?_of_stack hstack
      cases p with
      | startChildren =>
        obtain ⟨qs, rfl, hahead, hnot⟩ :=
          work_of_startChildren hnext hcontrol hstack hx hxrunning (h.valid.1 i x hx)
        obtain rfl := Option.some.inj (hx.symm.trans hy)
        refine ⟨qs ++ ps, workOf_working_self .., ?_, .inl ⟨rfl, ?_⟩⟩
        · rw [ahead_append, hahead, ahead_cons]
          rfl
        · simp [hnot]
      | invoke state context vs =>
        cases vs with
        | nil => exact absurd rfl hp
        | cons v more =>
          rw [attempt?_eq hcontrol hstack hx hxrunning (hfresh _ _ _ _ rfl)] at hnone
          cases hnone
      | _ => exact absurd rfl hp

/-- What an attempt does, in a step of a run. -/
theorem Run.settles (h : Run H (before ++ c :: inner) b) (hattempt : attempt? H i c = some t) :
  ∃ z d, Evolves H c d ∧ t.Settles H i z c d
  := by
  obtain ⟨d, hstep⟩ := h.exists_evolves
  obtain ⟨_, _, _, _, _, _, -, hstack, -⟩ := exists_of_attempt? hattempt
  obtain ⟨z, -, -, hsettles, -⟩ := settles_of_attempt? (hstep.step?_of_stack hstack) hattempt
  exact ⟨z, d, hstep, hsettles⟩

/-- A child that is there after a step was there before, or it comes from an attempt. -/
theorem Run.invoked_next (h : Run H cs c) (hstep : Evolves H c d) (hj : Invoked [d] i j) :
  Invoked [c] i j ∨ ∃ t id, attempt? H i c = some t ∧ t.stored? = some (id, j)
  := by
  obtain ⟨b, hb, z, link, hz, hparent, rfl⟩ := hj
  obtain rfl := List.mem_singleton.mp hb
  obtain ⟨mid, hgoes⟩ := h.goes hstep
  have hmid := hgoes.releases.get?_of_get? hz
  obtain ⟨w, hw⟩ | ⟨rfl, harrives⟩ := hgoes.arrives hmid
  · have hparent' := (hgoes.turn hw hmid).machine_eq.2.symm.trans hparent
    exact .inl ⟨c, List.mem_singleton_self c, w, link, hw, hparent', rfl⟩
  · right
    obtain ⟨y, hy, hnew, -⟩ := h.stored_of_arrives hgoes harrives hparent
    obtain ⟨x, hx⟩ | ⟨-, hempty⟩ := hgoes.arrives hy
    · have hold : c.engine.instances.next ∉ x.children.values := fun hmem =>
        Nat.lt_irrefl _ (h.whole.older _ x hx _ hmem).2
      obtain ⟨state, context, v, more, rest, hw, hw', hrunning, hfresh⟩ :=
        (hgoes.turn hx hy).of_new_child hold hnew
      obtain hsame | ⟨reply, o, below, hcontrol, hstack⟩ := h.workOf_eq hstep hw
      · simp [hsame] at hw'
      · have hattempt := attempt?_eq (H := H) hcontrol hstack hx hrunning hfresh
        refine ⟨_, v.id, hattempt, ?_⟩
        obtain ⟨x', -, -, hsettles, -⟩ := settles_of_attempt? (hstep.step?_of_stack hstack) hattempt
        cases hresult : (resolveChild H c x v context).1 with
        | ok machine => rfl
        | error error =>
          rw [hresult] at hsettles
          obtain ⟨-, -, -, -, hleads⟩ := hsettles
          cases hleads with
          | failed hsets =>
            have hlt := Engine.lt_next_of_get? hz
            rw [hsets.next] at hlt
            exact absurd hlt (Nat.lt_irrefl _)
    · rw [hempty.children_eq] at hnew
      cases hnew

end Configuration

end Statechart
