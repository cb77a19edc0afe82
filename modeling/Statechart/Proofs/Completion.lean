import Statechart.Proofs.Replay

/-!
# Calls that come to an end

An instance without invocations and without parent whose effects and listeners make no calls is
done with an envelope after finitely many steps, and a call that has posted the envelope returns.
-/

namespace Statechart

variable {κ π σ : Type}

/-! ### Steps without calls -/

namespace Configuration

variable {H : Host κ π σ}

/-- Steps in which the host makes no call, no machine is handed over and nothing is posted, with
the configurations that are passed. -/
inductive Glides (H : Host κ π σ) :
    Configuration κ π σ → List (Configuration κ π σ) → Configuration κ π σ → Prop where
  | refl (c : Configuration κ π σ) : Glides H c [] c
  | step {c d e : Configuration κ π σ} {cs : List (Configuration κ π σ)} :
    step? H c = some d → (∀ call point, c.control ≠ .host (.call call point)) →
      (signal H c).handed = none → (signal H c).posted = none → Glides H d cs e →
      Glides H c (c :: cs) e

namespace Glides

variable {cs cs' : List (Configuration κ π σ)} {c d e : Configuration κ π σ}

theorem trans (h : Glides H c cs d) (h' : Glides H d cs' e) :
  Glides H c (cs ++ cs') e
  := by
  induction h with
  | refl => exact h'
  | step hstep hcontrol hhanded hposted _ ih =>
    exact .step hstep hcontrol hhanded hposted (ih h')

/-- A step of an engine that has control, in which nothing is handed over and nothing is
posted. -/
theorem single {reply : Reply κ} (hcontrol : c.control = .back reply)
    (hstep : step? H c = some d) (hhanded : (signal H c).handed = none)
    (hposted : (signal H c).posted = none) :
  Glides H c [c] d
  := by
  refine .step hstep ?_ hhanded hposted (.refl d)
  rintro call point h
  rw [hcontrol] at h
  cases h

/-- A run goes on without calls. -/
theorem run (h : Glides H c cs d) {before : List (Configuration κ π σ)} (hrun : Run H before c) :
  Run H (before ++ cs) d
  := by
  induction h generalizing before with
  | refl => rwa [List.append_nil]
  | @step c d e cs hstep _ hhanded _ _ ih =>
    have hnext := hrun.next (.step (fun m hm => by rw [hhanded] at hm; cases hm) hstep)
    rw [List.append_cons]
    exact ih hnext

theorem posts_eq (h : Glides H c cs d) (i : Nat) :
  posts H i cs = []
  := by
  induction h with
  | refl => rfl
  | step _ _ _ hposted _ ih =>
    rw [posts, List.filterMap_cons_none, ← posts, ih]
    rw [Signal.postedTo, hposted, Option.bind_none]

end Glides

end Configuration

/-! ### Instances without children -/

/-- An instance of a machine without invocations has no children, and there are none to
start. -/
def Instance.Barren (x : Instance κ) (w : Option (List (Phase κ))) : Prop :=
  x.machine.Childless → x.children = .empty
    ∧ ∀ ps state context vs, w = some ps → .invoke state context vs ∈ ps → vs = []

theorem activeInvocations_of_childless {x : Instance κ} (h : x.machine.Childless)
    {state : String} {vs : List (Invocation κ)}
    (hactive : Configuration.activeInvocations x = .ok (some (state, vs))) :
  vs = []
  := by
  rw [Configuration.activeInvocations] at hactive
  split at hactive
  · next chart key hchart _ =>
    cases hn : chart.node key with
    | error e => simp [hn] at hactive
    | ok n =>
      simp only [hn, Except.ok.injEq, Option.some.injEq, Prod.mk.injEq] at hactive
      rw [← hactive.2]
      exact h chart hchart key n (Chart.node_eq_ok_iff.mp hn)
  · cases hactive

/-- Every turn leaves an instance without children so. -/
theorem Turn.barren {i : Nat} {r r' : Engine κ} {x y : Instance κ}
    {w w' : Option (List (Phase κ))} (h : Turn i r r' x w y w') (hx : x.Barren w) :
  y.Barren w'
  := by
  intro hchildless
  rw [h.machine_eq.1] at hchildless
  obtain ⟨hchildren, hinvoke⟩ := hx hchildless
  have hrest {p : Phase κ} {rest : List (Phase κ)} (hw : w = some (p :: rest)) (ps state context vs)
      (hps : some rest = some ps) (hmem : .invoke state context vs ∈ ps) : vs = [] := by
    obtain rfl := Option.some.inj hps
    exact hinvoke _ state context vs hw (List.mem_cons_of_mem _ hmem)
  cases h with
  | keep hw =>
    refine ⟨hchildren, ?_⟩
    obtain rfl | ⟨-, rfl⟩ | ⟨-, rfl⟩ := hw
    · exact hinvoke
    · rintro _ _ _ _ ⟨⟩ hmem
      cases hmem
    · rintro _ _ _ _ ⟨⟩
  | start =>
    refine ⟨hchildren, ?_⟩
    rintro _ _ _ _ ⟨⟩ hmem
    cases hmem
  | begin =>
    refine ⟨hchildren, ?_⟩
    rintro _ _ _ _ ⟨⟩ hmem
    simp [Instance.startPhases] at hmem
  | @commit _ _ _ rearm next _ _ _ _ _ =>
    refine ⟨hchildren, ?_⟩
    rintro _ _ _ _ ⟨⟩ hmem
    exact absurd hmem (Configuration.invoke_notMem_transitionPhases _ _ _ _ _ _ _)
  | advance hadvances =>
    refine ⟨hchildren, ?_⟩
    rintro _ state context vs ⟨⟩ hmem
    rcases List.mem_append.mp hmem with hmem | hmem
    · cases hadvances with
      | startChildren _ hactive =>
        cases List.mem_singleton.mp hmem
        exact activeInvocations_of_childless hchildless hactive
      | invoke state context v more =>
        cases hinvoke _ state context _ rfl List.mem_cons_self
      | _ => simp at hmem
    · exact hrest rfl _ _ _ _ rfl hmem
  | drop _ hw =>
    refine ⟨hchildren, ?_⟩
    rintro _ _ _ _ hps hmem
    rw [hw] at hps
    cases hps
    cases hmem
  | stopChildren => exact ⟨rfl, hrest rfl⟩
  | spawn => cases hinvoke _ _ _ _ rfl List.mem_cons_self
  | rearm => exact ⟨hchildren, hrest rfl⟩
  | halt hw =>
    refine ⟨rfl, ?_⟩
    obtain rfl | ⟨p, rest, hw, rfl⟩ := hw
    · exact hinvoke
    · exact hrest hw

namespace Configuration

variable {H : Host κ π σ} {cs : List (Configuration κ π σ)} {c d : Configuration κ π σ}
  {i : Nat} {x y : Instance κ}

/-- In a run an instance without invocations has no children. -/
theorem Run.barren (h : Run H cs c) (hx : c.engine.get? i = some x) :
  x.Barren (workOf i c.stack)
  := by
  refine h.each (p := fun _ x w => x.Barren w) ?_ (fun _ hturn => hturn.barren) hx
  intro s r i y w harrives _ _
  cases harrives with
  | created => exact ⟨rfl, fun _ _ _ _ h => by cases h⟩
  | spawned =>
    refine ⟨rfl, ?_⟩
    rintro _ _ _ _ ⟨⟩ hmem
    cases hmem

end Configuration

/-! ### Phases -/

/-- The code of the host makes no call. -/
def Silent (code : Engine κ → σ → Next κ π × σ) : Prop :=
  ∀ r memory, (code r memory).1 = .done

/-- The code that is run in a phase makes no call, with these listeners to be told. -/
def Phase.Silent (H : Host κ π σ) (listeners : List (Nat × κ)) : Phase κ → Prop
  | .perform actions context event =>
    ∀ a ∈ actions, Statechart.Silent (H.execute a.code context event a.metadata)
  | .invoke _ _ vs => vs = []
  | .publish s => ∀ l ∈ listeners, Statechart.Silent (H.notify l.2 s)
  | .notify s ls => ∀ l ∈ ls, Statechart.Silent (H.notify l.2 s)
  | _ => True

/-- A relation between engines that is kept in work for an instance: when the instance is changed,
but not its machine, its parent and its timers, and when others are let go that the host does not
hold. -/
structure Engine.Bears (H : Host κ π σ) (R : Engine κ → Engine κ → Prop) (i : Nat) : Prop where
  refl : ∀ r, R r r
  trans : ∀ {r r' r''}, R r r' → R r' r'' → R r r''
  modify : ∀ (r : Engine κ) {f : Instance κ → Instance κ},
    (∀ x, (f x).machine = x.machine ∧ (f x).parent = x.parent ∧ (f x).timers = x.timers) →
    R r (r.modify i f)
  release : ∀ (r : Engine κ) (memory : σ) {owners : List Nat}, i ∈ H.held memory ++ owners →
    R r (r.release (H.held memory ++ owners))

theorem Engine.bears_true (H : Host κ π σ) (i : Nat) :
  Bears H (fun _ _ : Engine κ => True) i
  := ⟨fun _ => trivial, fun _ _ => trivial, fun _ _ _ => trivial, fun _ _ _ _ => trivial⟩

/-- An instance that runs with the same machine, snapshot, parent, listeners and mail. -/
structure Instance.Resembles (x y : Instance κ) : Prop where
  machine : y.machine = x.machine
  snapshot : y.snapshot = x.snapshot
  parent : y.parent = x.parent
  listeners : y.listeners = x.listeners
  mailbox : y.mailbox = x.mailbox
  running : y.isRunning = true

namespace Instance.Resembles

variable {x y z : Instance κ}

theorem refl (hrunning : x.isRunning = true) :
  x.Resembles x
  := ⟨rfl, rfl, rfl, rfl, rfl, hrunning⟩

theorem trans (h : x.Resembles y) (h' : y.Resembles z) :
  x.Resembles z
  where
  machine := h'.machine.trans h.machine
  snapshot := h'.snapshot.trans h.snapshot
  parent := h'.parent.trans h.parent
  listeners := h'.listeners.trans h.listeners
  mailbox := h'.mailbox.trans h.mailbox
  running := h'.running

end Instance.Resembles

namespace Configuration

variable {H : Host κ π σ} {cs : List (Configuration κ π σ)} {c d : Configuration κ π σ}
  {i : Nat} {x y : Instance κ} {below : List (Frame κ π)} {p : Phase κ}
  {ps rest : List (Phase κ)}

/-- An instance is the innermost activity, with phases left of its work. -/
structure Engaged (i : Nat) (ps : List (Phase κ)) (below : List (Frame κ π)) (x : Instance κ)
    (c : Configuration κ π σ) : Prop where
  control : ∃ reply, c.control = .back reply
  stack : c.stack = .working i (.ok ()) ps :: below
  get? : c.engine.get? i = some x

/-- A run goes on without calls until an instance has other phases left, with a relation between
the engines before and after. -/
def Comes (H : Host κ π σ) (R : Engine κ → Engine κ → Prop) (i : Nat) (x : Instance κ)
    (c : Configuration κ π σ) (ps : List (Phase κ)) (below : List (Frame κ π)) : Prop :=
  ∃ cs d y, Glides H c cs d ∧ Engaged i ps below y d ∧ x.Resembles y ∧ R c.engine d.engine

variable {R : Engine κ → Engine κ → Prop}

theorem Comes.trans {qs : List (Phase κ)} (h : Comes H R i x c ps below) (hR : Engine.Bears H R i)
    (h' : ∀ {cs d y}, Glides H c cs d → Engaged i ps below y d → x.Resembles y →
      Comes H R i y d qs below) :
  Comes H R i x c qs below
  := by
  obtain ⟨cs, d, y, hglides, hengaged, hresembles, hrelated⟩ := h
  obtain ⟨cs', e, z, hglides', hengaged', hresembles', hrelated'⟩ :=
    h' hglides hengaged hresembles
  exact ⟨_, e, z, hglides.trans hglides', hengaged', hresembles.trans hresembles',
    hR.trans hrelated hrelated'⟩

/-- Code without calls ends at once, and the instance that it is run for is kept. -/
theorem Glides.of_enter (hR : Engine.Bears H R i) {code : Engine κ → σ → Next κ π × σ}
    (hcode : Silent code) (hstack : c.stack = .working i (.ok ()) ps :: below)
    (hx : c.engine.get? i = some x) :
  ∃ d, Glides H (enter H c code) [enter H c code] d ∧ Engaged i ps below x d
    ∧ R c.engine d.engine
  := by
  have hheld : ∀ memory, i ∈ H.held memory ++ c.stack.filterMap Frame.owner? := by
    intro memory
    rw [hstack]
    exact List.mem_append_right _ List.mem_cons_self
  have hcontrol : (enter H c code).control = .host .done :=
    congrArg Control.host (hcode c.engine c.memory)
  refine ⟨(enter H c code).back .done, .step ?_ ?_ ?_ ?_ (.refl _), ⟨⟨_, rfl⟩, hstack, ?_⟩,
    hR.release _ _ (hheld _)⟩
  · rw [step?, hcontrol]
  · rintro call point h
    rw [hcontrol] at h
    cases h
  · rw [signal, hcontrol]
  · rw [signal, hcontrol]
  · exact ((Engine.releases_release _ _).get?_of_mem (hheld _)).trans hx

namespace Engaged

/-- A step of a phase. -/
theorem single (h : Engaged i (p :: rest) below x c)
    (hd : stepPhase H c i x (.ok ()) rest below p = d)
    (hsignal : phaseSignal H c i x p = {}) :
  Glides H c [c] d
  := by
  obtain ⟨⟨reply, hcontrol⟩, hstack, hx⟩ := h
  refine .single hcontrol ?_ ?_ ?_
  · simp only [step?, hcontrol, hstack, hx, hd]
  · simp only [signal, hcontrol, hstack, hx, hsignal]
  · simp only [signal, hcontrol, hstack, hx, hsignal]

/-- A step of a phase that changes the instance, but not what matters of it. -/
theorem comes_of_change (h : Engaged i (p :: rest) below x c)
    (hd : stepPhase H c i x (.ok ()) rest below p = d)
    (hsignal : phaseSignal H c i x p = {}) (hcontrol : d.control = c.control)
    (hstack : d.stack = .working i (.ok ()) ps :: below) (hy : d.engine.get? i = some y)
    (hresembles : x.Resembles y) (hrelated : R c.engine d.engine) :
  Comes H R i x c ps below
  := ⟨_, d, y, h.single hd hsignal, ⟨hcontrol ▸ h.control, hstack, hy⟩, hresembles, hrelated⟩

section

variable (hR : Engine.Bears H R i)

include hR

/-- A step of a phase that leaves the engine. -/
theorem comes_of_work (h : Engaged i (p :: rest) below x c) (hrunning : x.isRunning = true)
    (hd : stepPhase H c i x (.ok ()) rest below p = c.work i (.ok ()) ps below)
    (hsignal : phaseSignal H c i x p = {}) :
  Comes H R i x c ps below
  := h.comes_of_change hd hsignal rfl rfl h.get? (.refl hrunning) (hR.refl _)

/-- A step of a phase in which code without calls is run. -/
theorem comes_of_enter (h : Engaged i (p :: rest) below x c) (hrunning : x.isRunning = true)
    {code : Engine κ → σ → Next κ π × σ} (hcode : Silent code)
    (hd : stepPhase H c i x (.ok ()) rest below p = enter H (c.work i (.ok ()) ps below) code)
    (hsignal : phaseSignal H c i x p = {}) :
  Comes H R i x c ps below
  := by
  obtain ⟨d, hglides, hengaged, hrelated⟩ :=
    Glides.of_enter (H := H) (c := c.work i (.ok ()) ps below) hR hcode rfl h.get?
  exact ⟨_, d, x, (h.single hd hsignal).trans hglides, hengaged, .refl hrunning, hrelated⟩

theorem comes_of_perform {actions : List (PendingEffect κ)} {context : Context} {event : Event}
    (h : Engaged i (.perform actions context event :: rest) below x c)
    (hrunning : x.isRunning = true)
    (hsilent : ∀ a ∈ actions, Silent (H.execute a.code context event a.metadata)) :
  Comes H R i x c rest below
  := by
  induction actions generalizing c x with
  | nil => exact h.comes_of_work hR hrunning rfl rfl
  | cons a more ih =>
    obtain ⟨ha, hmore⟩ := List.forall_mem_cons.mp hsilent
    have hcomes : Comes H R i x c (.perform more context event :: rest) below := by
      refine h.comes_of_enter hR hrunning ha ?_ rfl
      rw [stepPhase, if_pos hrunning]
    exact hcomes.trans hR fun _ hengaged hresembles => ih hengaged hresembles.running hmore

theorem comes_of_notify {s : Snapshot κ} {ls : List (Nat × κ)}
    (h : Engaged i (.notify s ls :: rest) below x c) (hrunning : x.isRunning = true)
    (hsilent : ∀ l ∈ ls, Silent (H.notify l.2 s)) :
  Comes H R i x c rest below
  := by
  induction ls generalizing c x with
  | nil => exact h.comes_of_work hR hrunning rfl rfl
  | cons l more ih =>
    obtain ⟨hl, hmore⟩ := List.forall_mem_cons.mp hsilent
    have hcomes : Comes H R i x c (.notify s more :: rest) below :=
      h.comes_of_enter hR hrunning hl rfl rfl
    exact hcomes.trans hR fun _ hengaged hresembles => ih hengaged hresembles.running hmore

theorem comes_of_stopChildren (h : Engaged i (.stopChildren :: rest) below x c)
    (hrunning : x.isRunning = true) (hchildren : x.children = .empty) :
  Comes H R i x c rest below
  := by
  have hengine : c.engine.stopChildren i
      = c.engine.modify i fun x => { x with children := .empty } := by
    rw [Engine.stopChildren, h.get?]
    simp only [hchildren]
    rfl
  have hget : (c.engine.stopChildren i).get? i = some { x with children := .empty } := by
    rw [hengine, Engine.get?_modify, if_pos rfl, h.get?]
    rfl
  exact h.comes_of_change (d := (c.work i (.ok ()) rest below).withEngine (c.engine.stopChildren i))
    rfl rfl rfl rfl hget ⟨rfl, rfl, rfl, rfl, rfl, hrunning⟩
    (hengine ▸ hR.modify _ fun _ => ⟨rfl, rfl, rfl⟩)

theorem comes_of_startChildren (h : Engaged i (.startChildren :: rest) below x c)
    (hvalid : x.Valid) (hrunning : x.isRunning = true) (hchildless : x.machine.Childless) :
  Comes H R i x c rest below
  := by
  cases hactive : activeInvocations x with
  | error e => exact absurd hactive (hvalid.active_ne_error e).1
  | ok active =>
    cases active with
    | none =>
      refine h.comes_of_work hR hrunning ?_ rfl
      simp only [stepPhase, hrunning, if_true, hactive]
    | some active =>
      obtain ⟨state, vs⟩ := active
      obtain rfl := activeInvocations_of_childless hchildless hactive
      have hcomes : Comes H R i x c (.invoke state x.snapshot.context [] :: rest) below := by
        refine h.comes_of_work hR hrunning ?_ rfl
        simp only [stepPhase, hrunning, if_true, hactive]
      exact hcomes.trans hR fun _ hengaged hresembles =>
        hengaged.comes_of_work hR hresembles.running rfl rfl

omit hR in
theorem comes_of_rearm (h : Engaged i (.rearm :: rest) below x c) (hvalid : x.Valid)
    (hrunning : x.isRunning = true)
    (hrelated : ∀ r, (c.engine.armTimers i).value = .ok r → R c.engine r) :
  Comes H R i x c rest below
  := by
  cases harmed : (c.engine.armTimers i).value with
  | error e =>
    exact absurd (activeDelays_of_armTimers h.get? harmed) (hvalid.active_ne_error e).2
  | ok r =>
    obtain ⟨active, ds, es, -, -, hrearms⟩ := Engine.rearms_of_armTimers h.get? harmed
    have hget := hrearms.get? i
    rw [if_pos rfl] at hget
    refine h.comes_of_change (d := ((c.observe H (c.engine.armTimers i).evaluations).withEngine
      r).work i (.ok ()) rest below) ?_ rfl rfl rfl hget ⟨rfl, rfl, rfl, rfl, rfl, hrunning⟩
      (hrelated r harmed)
    simp only [stepPhase, hrunning, if_true, harmed]

/-- An instance without a parent reports to nobody. -/
theorem comes_of_report {value : StateValue} (h : Engaged i (.report value :: rest) below x c)
    (hrunning : x.isRunning = true) (hparent : x.parent = none) :
  Comes H R i x c rest below
  := by
  have hsignal : phaseSignal H c i x (.report value) = {} := by
    simp only [phaseSignal, hparent, ite_self]
  by_cases hdone : (x.isRunning && x.machine.isFinal value && !x.doneReported) = true
  · have hget := (Engine.sets_modify h.get? fun x => { x with doneReported := true }).get?_self
    refine h.comes_of_change (d := (c.work i (.ok ()) rest below).withEngine
      (c.engine.modify i fun x => { x with doneReported := true })) ?_ hsignal rfl rfl hget
      ⟨rfl, rfl, rfl, rfl, rfl, hrunning⟩ (hR.modify _ fun _ => ⟨rfl, rfl, rfl⟩)
    simp only [stepPhase, report, hdone, if_true, hparent]
    rfl
  · refine h.comes_of_work hR hrunning ?_ hsignal
    simp only [stepPhase, report, hdone]
    rfl

/-- A phase comes to an end. -/
theorem comes_of_phase (h : Engaged i (p :: rest) below x c) (hrun : Run H cs c)
    (hrunning : x.isRunning = true) (hparent : x.parent = none)
    (hchildless : x.machine.Childless) (hsilent : p.Silent H x.listeners)
    (hrelated : p = .rearm → ∀ r, (c.engine.armTimers i).value = .ok r → R c.engine r) :
  Comes H R i x c rest below
  := by
  have hvalid := hrun.valid.1 i x h.get?
  obtain ⟨hchildren, -⟩ := hrun.barren h.get? hchildless
  cases p with
  | perform actions context event => exact h.comes_of_perform hR hrunning hsilent
  | stopChildren => exact h.comes_of_stopChildren hR hrunning hchildren
  | startChildren => exact h.comes_of_startChildren hR hvalid hrunning hchildless
  | invoke state context vs =>
    obtain rfl : vs = [] := hsilent
    exact h.comes_of_work hR hrunning rfl rfl
  | publish s =>
    have hcomes : Comes H R i x c (.notify s x.listeners :: rest) below := by
      refine h.comes_of_work hR hrunning ?_ rfl
      rw [stepPhase, if_pos hrunning]
    exact hcomes.trans hR fun _ hengaged hresembles =>
      hengaged.comes_of_notify hR hresembles.running hsilent
  | notify s ls => exact h.comes_of_notify hR hrunning hsilent
  | rearm => exact h.comes_of_rearm hvalid hrunning (hrelated rfl)
  | report value => exact h.comes_of_report hR hrunning hparent

/-- Phases come to an end. -/
theorem comes_of_phases (h : Engaged i (ps ++ rest) below x c) (hrun : Run H cs c)
    (hrunning : x.isRunning = true) (hparent : x.parent = none)
    (hchildless : x.machine.Childless) (hsilent : ∀ p ∈ ps, p.Silent H x.listeners)
    (hrelated : .rearm ∈ ps → ∀ r r', (Engine.armTimers r i).value = .ok r' → R r r') :
  Comes H R i x c rest below
  := by
  induction ps generalizing cs c x with
  | nil => exact ⟨[], c, x, .refl c, h, .refl hrunning, hR.refl _⟩
  | cons p ps ih =>
    obtain ⟨hp, hps⟩ := List.forall_mem_cons.mp hsilent
    refine (h.comes_of_phase hR hrun hrunning hparent hchildless hp ?_).trans hR ?_
    · rintro rfl
      exact hrelated List.mem_cons_self c.engine
    · intro _ _ _ hglides hengaged hresembles
      refine ih hengaged (hglides.run hrun) hresembles.running
        (hresembles.parent.trans hparent) ?_ ?_ fun hmem => hrelated (List.mem_cons_of_mem _ hmem)
      · rwa [hresembles.machine]
      · rwa [hresembles.listeners]

end

end Engaged

end Configuration

/-! ### Envelopes -/

/-- An effect, with what it is executed with, makes no call. -/
def Host.Silences (H : Host κ π σ) (fx : PendingEffect κ × Context × Event) : Prop :=
  Silent (H.execute fx.1.code fx.2.1 fx.2.2 fx.1.metadata)

namespace Configuration

variable {H : Host κ π σ} {cs : List (Configuration κ π σ)} {c d : Configuration κ π σ}
  {i : Nat} {x y : Instance κ} {below : List (Frame κ π)}

/-- The phases of a start run no code but effects of the snapshot. -/
theorem silent_startPhases {listeners : List (Nat × κ)}
    (h : ∀ fx ∈ x.snapshot.effects .init, H.Silences fx) :
  ∀ p ∈ x.startPhases, p.Silent H listeners
  := by
  intro p hp
  simp only [Instance.startPhases, List.mem_cons, List.not_mem_nil, or_false] at hp
  obtain rfl | rfl | rfl | rfl := hp
  · intro a ha
    exact h (a, _, _) (List.mem_map_of_mem ha)
  all_goals trivial

/-- The phases of a transition run no code but effects of the snapshot and listeners that are
told about it. -/
theorem silent_transitionPhases {listeners : List (Nat × κ)} {next : Snapshot κ} {event : Event}
    {rearm : Rearm} (h : ∀ fx ∈ next.effects event, H.Silences fx)
    (hlisteners : ∀ l ∈ listeners, Silent (H.notify l.2 next)) :
  ∀ p ∈ transitionPhases x next event rearm, p.Silent H listeners
  := by
  intro p hp
  obtain rfl | rfl | rfl | rfl | rfl | rfl := mem_transitionPhases hp
  · intro a ha
    exact h (a, _, _) (List.mem_map_of_mem ha)
  · trivial
  · trivial
  · exact hlisteners
  · trivial
  · trivial

/-- A run goes on without calls until the work for an instance is over, without error. -/
def Returns (H : Host κ π σ) (i : Nat) (x : Instance κ) (c : Configuration κ π σ)
    (below : List (Frame κ π)) : Prop :=
  ∃ cs d y, Glides H c cs d ∧ d.control = .back (.outcome (.ok ())) ∧ d.stack = below
    ∧ d.engine.get? i = some y ∧ x.Resembles y

theorem Returns.of_glides (h : Returns H i y d below) (hglides : Glides H c cs d)
    (hresembles : x.Resembles y) :
  Returns H i x c below
  := by
  obtain ⟨ds, e, z, hglides', hcontrol, hstack, hget, hresembles'⟩ := h
  exact ⟨_, e, z, hglides.trans hglides', hcontrol, hstack, hget, hresembles.trans hresembles'⟩

namespace Engaged

/-- An instance that has no mail left ends its work, and is kept as it is held. -/
theorem done (h : Engaged i [] below x c) (hR : Engine.Bears H R i) (hmail : x.mailbox = [])
    (hheld : ∀ memory, i ∈ H.held memory) :
  ∃ d, Glides H c [c] d ∧ d.control = .back (.outcome (.ok ())) ∧ d.stack = below
    ∧ d.engine.get? i = some { x with busy := false } ∧ R c.engine d.engine
  := by
  obtain ⟨⟨reply, hcontrol⟩, hstack, hx⟩ := h
  let idled := c.engine.modify i fun x => { x with busy := false }
  have hmem : i ∈ H.held c.memory ++ below.filterMap Frame.owner? :=
    List.mem_append_left _ (hheld c.memory)
  have hget : idled.get? i = some { x with busy := false } := (Engine.sets_modify hx _).get?_self
  have hidled : R c.engine idled := hR.modify _ fun _ => ⟨rfl, rfl, rfl⟩
  refine ⟨settle H (((c.withEngine idled).withStack below).back (.outcome (.ok ()))),
    .single hcontrol ?_ ?_ ?_, rfl, rfl, ((Engine.releases_release idled _).get?_of_mem hmem).trans
      hget, hR.trans hidled (hR.release idled _ hmem)⟩
  · simp only [step?, hcontrol, hstack, hx, nextEnvelope, hmail]
    rfl
  · simp only [signal, hcontrol, hstack, hx, hmail]
  · simp only [signal, hcontrol, hstack, hx, hmail]

/-- An instance goes through its phases, and ends its work if it has no mail left. -/
theorem returns_of_phases {ps : List (Phase κ)} (h : Engaged i ps below x c) (hrun : Run H cs c)
    (hrunning : x.isRunning = true) (hparent : x.parent = none)
    (hchildless : x.machine.Childless) (hheld : ∀ memory, i ∈ H.held memory)
    (hmail : x.mailbox = []) (hsilent : ∀ p ∈ ps, p.Silent H x.listeners) :
  Returns H i x c below
  := by
  have hphases : Engaged i (ps ++ []) below x c := by rwa [List.append_nil]
  obtain ⟨cs', d, y, hglides, hengaged, hresembles, -⟩ :=
    hphases.comes_of_phases (Engine.bears_true H i) hrun hrunning hparent hchildless hsilent
      fun _ _ _ _ => trivial
  obtain ⟨e, hglides', hcontrol, hstack, hget, -⟩ :=
    hengaged.done (Engine.bears_true H i) (hresembles.mailbox.trans hmail) hheld
  have hreturns : Returns H i y d below :=
    ⟨_, e, _, hglides', hcontrol, hstack, hget, rfl, rfl, rfl, rfl, rfl, hresembles.running⟩
  exact hreturns.of_glides hglides hresembles

/-- An instance takes the next envelope. -/
theorem take (h : Engaged i [] below x c) {e : Envelope} {more : List Envelope}
    (hmail : x.mailbox = e :: more)
    (hd : process H (c.withEngine (c.engine.modify i fun x => { x with mailbox := more })) i
      { x with mailbox := more } (.ok ()) below e = d) :
  Glides H c [c] d
  := by
  obtain ⟨⟨reply, hcontrol⟩, hstack, hx⟩ := h
  refine .single hcontrol ?_ ?_ ?_
  · simp only [step?, hcontrol, hstack, hx, nextEnvelope, hmail, hd]
  · simp only [signal, hcontrol, hstack, hx, hmail]
  · simp only [signal, hcontrol, hstack, hx, hmail]

/-- An instance is about to start. -/
theorem take_start (h : Engaged i [] below x c) (hR : Engine.Bears H R i)
    (hrunning : x.isRunning = true) (hmail : x.mailbox = [.start]) :
  ∃ d, Glides H c [c] d ∧ Engaged i x.startPhases below { x with mailbox := [] } d
    ∧ R c.engine d.engine
  := by
  have hres : Instance.resolution { x with mailbox := [] } .start = .begin := by
    have hx : Instance.isRunning { x with mailbox := [] } = true := hrunning
    simp [Instance.resolution, hx]
  refine ⟨_, h.take hmail rfl, ?_⟩
  rw [process_eq, hres]
  exact ⟨⟨h.control, rfl, (Engine.sets_modify h.get? _).get?_self⟩,
    hR.modify _ fun _ => ⟨rfl, rfl, rfl⟩⟩

/-- An instance has made the transition on an event. -/
theorem take_event (h : Engaged i [] below x c) (hR : Engine.Bears H R i)
    (hrunning : x.isRunning = true) {event : Event} (hmail : x.mailbox = [.event event])
    {s : Snapshot κ} (hs : (x.machine.next x.snapshot event).value = .ok s) :
  ∃ d now, Glides H c [c] d
    ∧ Engaged i (transitionPhases { x with mailbox := [] } s event .always) below
      (commitTo { x with mailbox := [] } s event now) d
    ∧ R c.engine d.engine
  := by
  let taken : Instance κ := { x with mailbox := [] }
  have hres : taken.resolution (.event event) = .attempt event .always
      ((fun r => r.map some) <$>
        x.machine.transition x.snapshot.value x.snapshot.context event) := by
    have hx : taken.isRunning = true := hrunning
    simp [Instance.resolution, hx]
    rfl
  have hfound : ((fun r => r.map some) <$>
      x.machine.transition x.snapshot.value x.snapshot.context event).value = .ok (some s) := by
    rw [Evaluated.value_map]
    exact congrArg (Except.map some) hs
  refine ⟨_, c.engine.timing.now, h.take hmail rfl, ?_⟩
  rw [process_eq, hres]
  simp only [settleTransition, hfound]
  have hsets := Engine.sets_modify h.get? fun x => { x with mailbox := [] }
  have htaken : R c.engine (c.engine.modify i fun x => { x with mailbox := [] }) :=
    hR.modify _ fun _ => ⟨rfl, rfl, rfl⟩
  refine ⟨⟨h.control, rfl, (Engine.sets_modify hsets.get?_self _).get?_self⟩, hR.trans htaken ?_⟩
  exact hR.modify _ (f := fun x => commitTo x s event c.engine.timing.now)
    fun _ => ⟨rfl, rfl, rfl⟩

/-- The start of an instance comes to an end. -/
theorem returns_of_start (h : Engaged i [] below x c) (hrun : Run H cs c)
    (hrunning : x.isRunning = true) (hparent : x.parent = none)
    (hchildless : x.machine.Childless) (hheld : ∀ memory, i ∈ H.held memory)
    (hmail : x.mailbox = [.start]) (hsilent : ∀ fx ∈ x.snapshot.effects .init, H.Silences fx) :
  Returns H i { x with mailbox := [] } c below
  := by
  obtain ⟨d, hglides, hengaged, -⟩ := h.take_start (Engine.bears_true H i) hrunning hmail
  refine Returns.of_glides
    (hengaged.returns_of_phases (hglides.run hrun) hrunning hparent hchildless hheld rfl ?_)
    hglides (.refl hrunning)
  exact silent_startPhases hsilent

/-- The transition on an event comes to an end. -/
theorem returns_of_event (h : Engaged i [] below x c) (hrun : Run H cs c)
    (hrunning : x.isRunning = true) (hparent : x.parent = none)
    (hchildless : x.machine.Childless) (hheld : ∀ memory, i ∈ H.held memory) {event : Event}
    (hmail : x.mailbox = [.event event]) {s : Snapshot κ}
    (hs : (x.machine.next x.snapshot event).value = .ok s)
    (hsilent : ∀ fx ∈ s.effects event, H.Silences fx)
    (hlisteners : ∀ l ∈ x.listeners, Silent (H.notify l.2 s)) :
  Returns H i { x with mailbox := [], snapshot := s } c below
  := by
  obtain ⟨d, now, hglides, hengaged, -⟩ := h.take_event (Engine.bears_true H i) hrunning hmail hs
  refine Returns.of_glides
    (hengaged.returns_of_phases (hglides.run hrun) hrunning hparent hchildless hheld rfl ?_)
    hglides ⟨rfl, rfl, rfl, rfl, rfl, hrunning⟩
  exact silent_transitionPhases hsilent hlisteners

end Engaged

end Configuration

end Statechart
