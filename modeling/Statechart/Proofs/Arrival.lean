import Statechart.Proofs.Delays
import Statechart.Proofs.Sight
import Statechart.Proofs.Simulation

/-!
# On the way to an arming

Where the host holds all instances, and none of them has a parent or invocations, nothing is let
go of, and an instance that takes an event or starts leaves the clock alone until its timers are
armed (`Configuration.Run.poised_of_send` and `Configuration.Run.poised_of_startWith`).  After
that nothing is left to do that touches the clock (`Configuration.Engaged.rests`).
-/

namespace Statechart

variable {κ π σ : Type}

/-! ### Instances that are kept -/

namespace Engine

/-- Every instance is one that the host holds, without parent and without invocations. -/
def Kept (H : Host κ π σ) (r : Engine κ) : Prop :=
  ∀ i x, r.get? i = some x → H.Holds i ∧ x.parent = none ∧ x.machine.Childless

/-- If all instances are kept, then the clock is left alone and no instance gets other timers. -/
def Dwells (H : Host κ π σ) (r r' : Engine κ) : Prop :=
  r.Kept H → r'.timing = r.timing ∧ ∀ i y, r'.get? i = some y →
    ∃ x, r.get? i = some x ∧ y.machine = x.machine ∧ y.parent = x.parent ∧ y.timers = x.timers

variable {H : Host κ π σ} {r r' r'' : Engine κ} {i : Nat} {x : Instance κ}

/-- A release lets go of nothing if all instances are held. -/
theorem release_eq_self {held : List Nat} (h : ∀ i x, r.get? i = some x → i ∈ held) :
  r.release held = r
  := by
  refine foldl_letGo_of_none fun i hi => ?_
  rw [← Option.not_isSome_iff_eq_none, Option.isSome_iff_exists]
  rintro ⟨x, hx⟩
  have hreached : i ∈ r.reach r.instances.next (held ++ r.registered).eraseDups :=
    subset_reach _ _ _ (List.mem_eraseDups.mpr (List.mem_append_left _ (h i x hx)))
  simp [hreached] at hi

/-- Instances that are kept stay so. -/
theorem Dwells.kept (h : Dwells H r r') (hkept : r.Kept H) :
  r'.Kept H
  := by
  intro i y hy
  obtain ⟨x, hx, hmachine, hparent, -⟩ := (h hkept).2 i y hy
  obtain ⟨hholds, hnone, hchildless⟩ := hkept i x hx
  exact ⟨hholds, hparent.trans hnone, hmachine ▸ hchildless⟩

theorem bears_dwells (H : Host κ π σ) (i : Nat) :
  Bears H (Dwells H) i
  where
  refl r _ := ⟨rfl, fun _ x hx => ⟨x, hx, rfl, rfl, rfl⟩⟩
  trans h h' hkept := by
    obtain ⟨htiming, hold⟩ := h hkept
    obtain ⟨htiming', hold'⟩ := h' (h.kept hkept)
    refine ⟨htiming'.trans htiming, fun j z hz => ?_⟩
    obtain ⟨y, hy, hmachine', hparent', htimers'⟩ := hold' j z hz
    obtain ⟨x, hx, hmachine, hparent, htimers⟩ := hold j y hy
    exact ⟨x, hx, hmachine'.trans hmachine, hparent'.trans hparent, htimers'.trans htimers⟩
  modify r f hf _ := by
    refine ⟨rfl, fun j y hy => ?_⟩
    rw [get?_modify] at hy
    split at hy
    · obtain ⟨x, hx, rfl⟩ := Option.map_eq_some_iff.mp hy
      exact ⟨x, hx, hf x⟩
    · exact ⟨y, hy, rfl, rfl, rfl⟩
  release r memory _ _ hkept := by
    rw [release_eq_self fun j x hx => List.mem_append_left _ ((hkept j x hx).1 memory)]
    exact ⟨rfl, fun _ x hx => ⟨x, hx, rfl, rfl, rfl⟩⟩

/-! ### Paused timers -/

/-- If no timer is paused after an arming, then none was kept. -/
theorem leftover_of_armTimers (hx : r.get? i = some x) (harmed : (r.armTimers i).value = .ok r')
    (harmory : Armory r.timing x.timers) (hvalid : x.Valid)
    (hunpaused : ∀ y, r'.get? i = some y → ∀ a ∈ y.timers,
      r'.timing.status? a.timer ≠ some .paused)
    (lead : Int) {active : Option (String × Option Meta)} {ds : List (Delayed κ)}
    (hactive : activeDelays x = .ok (active, ds)) :
  Leftover [] lead (armingOf i x active).state ds r.timing x.timers []
  := by
  refine .alone (fun p hp => ⟨harmory.lt_next hp, List.forall_mem_nil _⟩) ?_
  intro p hp d hd hkey hpaused
  obtain ⟨es, harms⟩ := armsAll_armEach (a := ⟨r.timing, x.timers, []⟩) harmory
    (armingOf i x active) (hvalid.activeDelays_eq hactive).1
  have hmem : p ∈ es := by
    obtain ⟨e, he, hfor⟩ := Configuration.exists_of_mem_left harms.each hd
    cases hfor with
    | kept hprevious hkey' _ =>
      rwa [harmory.eq_of_key_eq hp hprevious (hkey.trans hkey'.symm)]
    | fresh hnot => exact absurd hpaused (hnot p hp hkey)
  obtain ⟨y, hy, hes⟩ : ∃ y, r'.get? i = some y ∧ y.timers = es := by
    obtain ⟨_, _, es', hactive', hes', hrearms⟩ := rearms_of_armTimers hx harmed
    obtain ⟨rfl, rfl⟩ := Prod.mk.inj (Except.ok.inj (hactive.symm.trans hactive'))
    have hget := hrearms.get? i
    rw [if_pos rfl] at hget
    exact ⟨_, hget, hes'.trans (harms.armed.trans (List.nil_append _))⟩
  refine hunpaused y hy p (hes ▸ hmem) ?_
  obtain ⟨_, _, hactive', rfl⟩ := armTimers_eq_ok hx harmed
  obtain ⟨rfl, rfl⟩ := Prod.mk.inj (Except.ok.inj (hactive.symm.trans hactive'))
  -- What is left over in the end is destroyed, and a timer that was kept is not among it.
  have hkept := Timing.get?_destroyEach_of_notMem (arming r i x active ds).timing
    (harms.apart p hmem)
  obtain ⟨u, hu, hstatus⟩ := Option.map_eq_some_iff.mp hpaused
  have hget := hkept.trans (get?_armEach_of_paused (armingOf i x active) ds
    ⟨r.timing, x.timers, []⟩ hu hstatus)
  exact (congrArg (Option.map Timer.status) hget).trans (congrArg some hstatus)

end Engine

/-! ### Up to the arming -/

namespace Configuration

variable {H : Host κ π σ} {bs cs : List (Configuration κ π σ)} {c d : Configuration κ π σ}
  {i : Nat} {x : Instance κ} {s : Snapshot κ} {point : π}

/-- An instance at work for a call has got to a snapshot, and arms its timers next. -/
structure Poised (i : Nat) (s : Snapshot κ) (point : π) (x : Instance κ)
    (c : Configuration κ π σ) : Prop where
  engaged : Engaged i [.rearm, .report s.value] [.waiting point] x c
  snapshot : x.snapshot = s
  running : x.isRunning = true
  mailbox : x.mailbox = []

/-- An instance goes through phases before the arming. -/
theorem Engaged.poised {ps : List (Phase κ)}
    (h : Engaged i (ps ++ [.rearm, .report s.value]) [.waiting point] x c) (hrun : Run H cs c)
    (hkept : c.engine.Kept H) (hsnapshot : x.snapshot = s) (hrunning : x.isRunning = true)
    (hmail : x.mailbox = []) (hps : .rearm ∉ ps) (hsilent : ∀ p ∈ ps, p.Silent H x.listeners) :
  ∃ ds d y, Glides H c ds d ∧ Poised i s point y d ∧ y.machine = x.machine
    ∧ Engine.Dwells H c.engine d.engine
  := by
  obtain ⟨-, hparent, hchildless⟩ := hkept i x h.get?
  obtain ⟨ds, d, y, hglides, hengaged, hresembles, hdwells⟩ :=
    h.comes_of_phases (Engine.bears_dwells H i) hrun hrunning hparent hchildless hsilent
      fun hmem => absurd hmem hps
  exact ⟨ds, d, y, hglides, ⟨hengaged, hresembles.snapshot.trans hsnapshot, hresembles.running,
    hresembles.mailbox.trans hmail⟩, hresembles.machine, hdwells⟩

/-- A start arms timers and reports at its end, and is silent before. -/
theorem startPhases_eq (hcalm : H.Calm) (x : Instance κ) (listeners : List (Nat × κ)) :
  ∃ ps, x.startPhases = ps ++ [.rearm, .report x.snapshot.value] ∧ .rearm ∉ ps
    ∧ ∀ p ∈ ps, p.Silent H listeners
  := by
  have heq : x.startPhases = [.perform x.snapshot.actions x.snapshot.context .init, .startChildren]
    ++ [.rearm, .report x.snapshot.value] := rfl
  refine ⟨_, heq, by simp, fun p hp => ?_⟩
  exact silent_startPhases (fun fx _ => hcalm.execute fx.1.code fx.2.1 fx.2.2 _) p
    (heq ▸ List.mem_append_left _ hp)

/-- A transition that rearms does so at its end, and is silent before. -/
theorem transitionPhases_eq (hcalm : H.Calm) (x : Instance κ) (s : Snapshot κ) (event : Event)
    (listeners : List (Nat × κ)) :
  ∃ ps, transitionPhases x s event .always = ps ++ [.rearm, .report s.value] ∧ .rearm ∉ ps
    ∧ ∀ p ∈ ps, p.Silent H listeners
  := by
  obtain ⟨ps, heq, hps⟩ : ∃ ps, transitionPhases x s event .always
      = ps ++ [.rearm, .report s.value] ∧ .rearm ∉ ps := by
    refine ⟨[.perform s.actions s.context event]
      ++ (if !(x.snapshot.value == s.value) then [.stopChildren, .startChildren] else [])
      ++ [.publish s], ?_, ?_⟩
    · simp [transitionPhases, phasesOf]
    · split <;> simp
  refine ⟨ps, heq, hps, fun p hp => ?_⟩
  exact silent_transitionPhases (fun fx _ => hcalm.execute fx.1.code fx.2.1 fx.2.2 _)
    (fun l _ => hcalm.notify l.2 s) p (heq ▸ List.mem_append_left _ hp)

theorem dwells_deliver (c : Configuration κ π σ) (i : Nat) (e : Envelope) :
  Engine.Dwells H c.engine (c.deliver i e).engine
  := by
  rw [deliver]
  split
  · exact (Engine.bears_dwells H i).refl _
  · split
    · exact (Engine.bears_dwells H i).modify _ fun _ => ⟨rfl, rfl, rfl⟩
    · exact (Engine.bears_dwells H i).modify _ fun _ => ⟨rfl, rfl, rfl⟩

/-- An event is put into a mailbox at most. -/
theorem dwells_send (c : Configuration κ π σ) (i : Nat) (event : Event) :
  Engine.Dwells H c.engine (c.send i event).engine
  := by
  rw [send]
  split
  · exact dwells_deliver c i _
  · exact (Engine.bears_dwells H i).refl _

/-- A start is put into a mailbox at most. -/
theorem dwells_start (c : Configuration κ π σ) (i : Nat) :
  Engine.Dwells H c.engine (c.start i).engine
  := by
  rw [start]
  split
  · exact (Engine.bears_dwells H i).refl _
  · split
    · refine (Engine.bears_dwells H i).trans ?_ (dwells_deliver _ i .start)
      exact (Engine.bears_dwells H i).modify _ fun _ => ⟨rfl, rfl, rfl⟩
    · exact (Engine.bears_dwells H i).refl _

theorem dwells_startWith (c : Configuration κ π σ) (i : Nat) (value : StateValue)
    (context : Context) :
  Engine.Dwells H c.engine (c.startWith i value context).engine
  := by
  rw [startWith]
  split
  · exact (Engine.bears_dwells H i).refl _
  · split
    · split
      · exact (Engine.bears_dwells H i).refl _
      · refine (Engine.bears_dwells H i).trans ?_ (dwells_start _ i)
        exact (Engine.bears_dwells H i).modify _ fun _ => ⟨rfl, rfl, rfl⟩
    · exact (Engine.bears_dwells H i).refl _

/-- An instance begins to work when it is started at a value with a context. -/
theorem engaged_startWith (hx : c.engine.get? i = some x) (hnot : x.status = .notStarted)
    (hbusy : x.busy = false) {value : StateValue} {context : Context}
    (hs : x.machine.snapshotAt value context = .ok s) :
  Engaged i [] c.stack (Instance.enqueued { x with snapshot := s, status := .running } .start)
    (c.startWith i value context)
  := by
  simp only [startWith, hx, hnot, if_true, hs]
  exact engaged_start
    (c := c.withEngine (c.engine.modify i fun x => { x with snapshot := s }))
    (Engine.sets_modify hx _).get?_self hnot hbusy

/-- The engine is the same when the host has made a call, if all instances are kept. -/
theorem engine_calling (hkept : c.engine.Kept H) (call : Call κ) (point : π) :
  (c.calling H call point).engine = c.engine
  := Engine.release_eq_self fun j x hx => List.mem_append_left _ ((hkept j x hx).1 _)

/-- A call that posts an envelope is performed. -/
theorem Run.performs (h : Run H cs c) (hidle : c.IsIdle) (hkept : c.engine.Kept H)
    {call : Call κ} {post : Post} (hsignal : call.signal c.engine = { posted := some post })
    (point : π) :
  Run H (cs ++ [c] ++ [c.calling H call point])
    (perform H ((c.calling H call point).withStack [.waiting point]) call)
  := by
  have hcalling : call.signal (c.calling H call point).engine = { posted := some post } := by
    rwa [engine_calling hkept]
  have hevolves : Evolves H (c.calling H call point)
      (perform H ((c.calling H call point).withStack [.waiting point]) call) :=
    (evolves_of_call rfl hcalling).2
  exact (h.next (.enter _ _ hidle)).next hevolves

/-- A call that leads to the phases of an instance before the arming leads on to the arming. -/
theorem Run.poised_of_engaged {b : Configuration κ π σ} {call : Call κ} {ps : List (Phase κ)}
    (h : Run H (cs ++ [c] ++ [c.calling H call point]) b) (hkept : c.engine.Kept H)
    (hstep : step? H (c.calling H call point) = some b) (hglides : Glides H b bs d)
    (hengaged : Engaged i (ps ++ [.rearm, .report s.value]) [.waiting point] x d)
    (hdwells : Engine.Dwells H c.engine d.engine) (hsnapshot : x.snapshot = s)
    (hrunning : x.isRunning = true) (hmail : x.mailbox = []) (hps : .rearm ∉ ps)
    (hsilent : ∀ p ∈ ps, p.Silent H x.listeners) :
  ∃ ds e y, Steps H (c.calling H call point) ds e ∧ Run H (cs ++ c :: ds) e
    ∧ Poised i s point y e ∧ y.machine = x.machine ∧ Engine.Dwells H c.engine e.engine
  := by
  obtain ⟨es, e, y, hglides', hpoised, hmachine, hdwells'⟩ := hengaged.poised (hglides.run h)
    (hdwells.kept hkept) hsnapshot hrunning hmail hps hsilent
  have hrun := hglides'.run (hglides.run h)
  refine ⟨_, e, y, .step hstep (hglides.steps.trans hglides'.steps), ?_, hpoised, hmachine,
    (Engine.bears_dwells H i).trans hdwells hdwells'⟩
  simpa using hrun

/-- An instance that is sent an event gets to the snapshot after it. -/
theorem Run.poised_of_send (h : Run H cs c) (hidle : c.IsIdle) (hkept : c.engine.Kept H)
    (hcalm : H.Calm) (hx : c.engine.get? i = some x) (hrunning : x.isRunning = true)
    (event : Event) (point : π) :
  ∃ s ds d y, Steps H (c.calling H (.send i event) point) ds d ∧ Run H (cs ++ c :: ds) d
    ∧ Poised i s point y d ∧ y.machine = x.machine
    ∧ x.machine.snapshotAt s.value s.context = .ok (.resting s.value s.context s.metadata)
    ∧ Engine.Dwells H c.engine d.engine
  := by
  have hvalid := h.valid.1 i x hx
  obtain ⟨s, hs, hfits, hlabels⟩ :=
    hvalid.compiled.sound.exists_transition hvalid.fits x.snapshot.context event
  have hmetadata := hvalid.compiled.sound.metadataAt_eq_ok_iff.mpr ⟨hfits, hlabels⟩
  obtain ⟨hmail, hbusy⟩ := h.rests_of_idle hx (by rw [hidle.1]; rfl)
  have hbears := Engine.bears_dwells H i
  let calls := (c.calling H (.send i event) point).withStack [.waiting point]
  have hengine : calls.engine = c.engine := engine_calling hkept _ point
  have hget : calls.engine.get? i = some x := hengine ▸ hx
  have hsignal : (Call.send i event).signal c.engine = { posted := some ⟨i, .event event, none⟩ } :=
    if_pos (Engine.isRunning_of_get? hx hrunning)
  have hrun : Run H _ (calls.send i event) := h.performs hidle hkept hsignal point
  have hsent : Engine.Dwells H c.engine (calls.send i event).engine :=
    hengine ▸ dwells_send calls i event
  obtain ⟨d, now, hglides, htaken, hdwells⟩ :=
    (engaged_send hget hrunning hbusy event).take_event hbears hrunning
      (by simp [Instance.enqueued, hmail]) hs
  obtain ⟨ps, hphases, hps, hsilent⟩ := transitionPhases_eq hcalm
    { x.enqueued (.event event) with mailbox := [] } s event x.listeners
  rw [hphases] at htaken
  obtain ⟨ds, e, y, hsteps, hrun', hpoised, hmachine, hdwells'⟩ := hrun.poised_of_engaged hkept rfl
    hglides htaken (hbears.trans hsent hdwells) rfl hrunning rfl hps hsilent
  refine ⟨s, ds, e, y, hsteps, hrun', hpoised, hmachine, ?_, hdwells'⟩
  rw [Machine.snapshotAt, hmetadata]

/-- An instance that is started at a value with a context gets to the snapshot there. -/
theorem Run.poised_of_startWith (h : Run H cs c) (hidle : c.IsIdle) (hkept : c.engine.Kept H)
    (hcalm : H.Calm) (hx : c.engine.get? i = some x) (hnot : x.status = .notStarted)
    {value : StateValue} {context : Context} (hs : x.machine.snapshotAt value context = .ok s)
    (point : π) :
  ∃ ds d y, Steps H (c.calling H (.startWith i value context) point) ds d
    ∧ Run H (cs ++ c :: ds) d ∧ Poised i s point y d ∧ y.machine = x.machine
    ∧ Engine.Dwells H c.engine d.engine
  := by
  obtain ⟨hmail, hbusy⟩ := h.rests_of_idle hx (by rw [hidle.1]; rfl)
  have hbears := Engine.bears_dwells H i
  let calls := (c.calling H (.startWith i value context) point).withStack [.waiting point]
  have hengine : calls.engine = c.engine := engine_calling hkept _ point
  have hget : calls.engine.get? i = some x := hengine ▸ hx
  have hsignal : (Call.startWith i value context).signal c.engine
      = { posted := some ⟨i, .start, none⟩ } := by
    simp [Call.signal, hx, hnot, hs]
  have hrun : Run H _ (calls.startWith i value context) := h.performs hidle hkept hsignal point
  have hstarted : Engine.Dwells H c.engine (calls.startWith i value context).engine :=
    hengine ▸ dwells_startWith calls i value context
  obtain ⟨d, hglides, htaken, hdwells⟩ :=
    (engaged_startWith hget hnot hbusy hs).take_start hbears rfl
      (by simp [Instance.enqueued, hmail])
  obtain ⟨ps, hphases, hps, hsilent⟩ := startPhases_eq hcalm
    (Instance.enqueued { x with snapshot := s, status := .running } .start) x.listeners
  rw [hphases] at htaken
  obtain ⟨ds, e, y, hsteps, hrun', hpoised, hmachine, hdwells'⟩ := Run.poised_of_engaged (s := s)
    hrun hkept rfl hglides htaken (hbears.trans hstarted hdwells) rfl rfl rfl hps hsilent
  exact ⟨ds, e, y, hsteps, hrun', hpoised, hmachine, hdwells'⟩

/-! ### The arming and after -/

namespace Poised

/-- The timers of an instance are armed. -/
theorem arms (h : Poised i s point x c) (hrun : Run H cs c) :
  ∃ ds d y, Steps H c ds d ∧ Run H (cs ++ ds) d
    ∧ Engaged i [.report s.value] [.waiting point] y d ∧ x.Resembles y
    ∧ (c.engine.armTimers i).value = .ok d.engine
  := by
  obtain ⟨ds, d, y, hglides, hengaged, hresembles, harmed⟩ := h.engaged.comes_of_rearm (H := H)
    (R := fun r r' => (r.armTimers i).value = .ok r') (hrun.valid.1 i x h.engaged.get?) h.running
    fun r hr => hr
  exact ⟨ds, d, y, hglides.steps, hglides.run hrun, hengaged, hresembles, harmed⟩

end Poised

/-- After the arming of its timers an instance ends its work, and the call returns. -/
theorem Engaged.rests {value : StateValue}
    (h : Engaged i [.report value] [.waiting point] x c) (hrun : Run H cs c)
    (hkept : c.engine.Kept H) (hrunning : x.isRunning = true) (hmail : x.mailbox = [])
    (hpoint : H.Ends point) :
  ∃ ds d y, Steps H c ds d ∧ d.IsIdle ∧ d.engine.get? i = some y ∧ y.snapshot = x.snapshot
    ∧ Engine.Dwells H c.engine d.engine
  := by
  obtain ⟨hholds, hparent, hchildless⟩ := hkept i x h.get?
  have hbears := Engine.bears_dwells H i
  obtain ⟨ds, d, y, hglides, hengaged, hresembles, hdwells⟩ :=
    h.comes_of_phase hbears hrun hrunning hparent hchildless trivial (by simp)
  obtain ⟨e, hglides', hcontrol, hstack, hget, hdwells'⟩ :=
    hengaged.done hbears (hresembles.mailbox.trans hmail) hholds
  let resumed := enter H (e.withStack []) (H.resume point (.outcome (.ok ())))
  have hstep : step? H e = some resumed := by
    rw [step?, hcontrol, hstack]
  have hresumed : resumed.control = .host .done :=
    congrArg Control.host (hpoint _ e.engine e.memory)
  have hmem : ∀ memory, i ∈ H.held memory ++ [] :=
    fun memory => List.mem_append_left _ (hholds memory)
  have hend : Steps H e [e, resumed] (resumed.back .done) := by
    refine .step hstep (.step ?_ (.refl _))
    rw [step?, hresumed]
  refine ⟨_, resumed.back .done, _, hglides.steps.trans (hglides'.steps.trans hend),
    ⟨rfl, _, rfl⟩, ((Engine.releases_release e.engine _).get?_of_mem (hmem _)).trans hget,
    hresembles.snapshot, ?_⟩
  exact hbears.trans hdwells (hbears.trans hdwells' (hbears.release _ _ (hmem _)))

end Configuration

end Statechart
