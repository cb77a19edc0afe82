import Statechart.Proofs.Accounting
import Statechart.Proofs.Arrival

/-!
# Started where another one has got to

An instance that is started at a value with a context, on a clock of its own that shows the same
time, does from then on what an instance of the same machine does that has just got there with an
event, and none of whose timers is paused (`Configuration.Run.resumes`).  Right after the armings
both are alike: no timer was kept on either side.
-/

namespace Statechart

variable {κ π σ : Type}

/-! ### Clocks -/

/-- A callback for a delayed transition. -/
def Callback.Transits (cb : Callback κ) : Prop :=
  ∃ i state key generation, cb = .after i state key generation

namespace Timing

/-- The clock calls delayed transitions alone. -/
structure Reserved (t : Timing (Callback κ)) : Prop where
  queue : ∀ p ∈ t.scheduler.queue, ∃ id, p.task = .timer id
  callback : ∀ id u cb, t.timers.get? id = some u → u.callback = some cb → cb.Transits

variable {τ : Type} {t u : Timing τ}

/-- A queue without tasks of the host is alike to an empty one. -/
theorem queued_nil {ps : List (Pending (Job τ))} (h : ∀ p ∈ ps, ∃ id, p.task = .timer id) :
  Queued [] ps []
  := by
  induction ps with
  | nil => exact .nil
  | cons p ps ih =>
    obtain ⟨⟨id, hp⟩, hps⟩ := List.forall_mem_cons.mp h
    exact .skip hp (List.forall_mem_nil _) (ih hps)

/-- A blank clock is like any other, as long as no timers are paired. -/
theorem Reserved.alike {R : Callback κ → Callback κ → Prop} {t u : Timing (Callback κ)}
    (h : t.Reserved) (haccurate : t.Accurate) (hawake : t.Awake) (hu : u.Blank)
    (hordered : u.scheduler.Ordered) :
  Alike R Callback.Transits [] t u
  where
  left := haccurate
  right := hu.accurate hordered
  awake := hawake
  awake' := hu.awake
  pair := List.forall_mem_nil _
  matched := List.forall_mem_nil _
  other id u cb hget _ hcb := h.callback id u cb hget hcb
  queue := by
    rw [hu.queue]
    exact queued_nil h.queue

/-- What engines do with timers by themselves does not end the pause of a pool. -/
theorem manages_awake :
  Manages (τ := τ) fun t t' => t'.Awake → t.Awake
  where
  refl _ h := h
  trans h h' hawake := h (h' hawake)
  arm t pool delay callback h pool' :=
    (isPaused_newTimer t pool delay callback pool').symm.trans
      (h.congr (pools_start _ _).symm pool')
  destroy t id h := h.congr (pools_destroy t id).symm

end Timing

/-! ### The first arming on the right -/

namespace Engine

/-- The timers that are armed for an instance: under which keys, in which state, how long they run
and since when. -/
def alarms (r : Engine κ) (i : Nat) : List (String × Option (TimerStatus × Nat × Option Nat)) :=
  match r.get? i with
  | some x => x.timers.map fun a =>
    (a.key, (r.timing.timers.get? a.timer).map fun t => (t.status, t.remaining, t.startedAt))
  | none => []

variable {r r' s s' : Engine κ} {i j : Nat} {x y : Instance κ} {lead : Int}

/-- Armed timers that are paired ring under the same keys at the same time. -/
theorem alarms_of_alike {R : Callback κ → Callback κ → Prop} {F : Callback κ → Prop}
    {T : List (Nat × Nat)} {t u : Timing (Callback κ)} (h : Timing.Alike R F T t u)
    {as bs : List Armed} (hforall : List.Forall₂ (Armed.Alike T lead) as bs) :
  (as.map fun a => (a.key, (t.timers.get? a.timer).map fun z =>
      (z.status, z.remaining, z.startedAt)))
    = bs.map fun b => (b.key, (u.timers.get? b.timer).map fun z =>
      (z.status, z.remaining, z.startedAt))
  := by
  induction hforall with
  | nil => rfl
  | @cons a b as bs hab _ ih =>
    obtain ⟨x, y, hx, hy, hxy⟩ := h.pair _ hab.timer
    rw [List.map_cons, List.map_cons, ih, hab.key, hx, hy]
    simp [hxy.status, hxy.remaining, hxy.startedAt]

/-- Counterparts have the same timers. -/
theorem Alike.alarms_eq {P : Pairing} (h : Alike P r s) (hr : r.Nested) (hs : s.Nested) :
  r.alarms P.root.left = s.alarms P.root.right
  := by
  have hlikened := h.likened _ h.root
  rw [alarms, alarms]
  generalize hx : r.get? P.root.left = a, hy : s.get? P.root.right = b at hlikened
  cases hlikened with
  | alike hxy => exact alarms_of_alike h.timing hxy.timers
  | left hstopped => simp [hr.empty _ _ hx hstopped]
  | right hstopped => simp [hs.empty _ _ hy hstopped]
  | none => rfl

/-- An instance arms its timers and so does one that had none before, at the same time.  If the two
are alike but for the timers before, and the others keep apart, then the engines are alike after
that. -/
theorem alike_of_armTimers (hx : r.get? i = some x) (hy : s.get? j = some y)
    (hxy : Instance.Alike (.ofRoot ⟨i, j, lead⟩ false) lead { x with timers := [] } y)
    (htiming : Timing.Alike (Callback.Alike (.ofRoot ⟨i, j, lead⟩ false)) Callback.Transits []
      r.timing s.timing)
    (hnow : r.timing.now = s.timing.now)
    (hleftover : ∀ active ds, activeDelays x = .ok (active, ds) →
      Leftover [] lead (armingOf i x active).state ds r.timing x.timers [])
    (hr : r.Regular) (hapart : r.Apart) (hstill : ∀ k z, s.get? k = some z → z.timers = [])
    (harmed : (r.armTimers i).value = .ok r') (harmed' : (s.armTimers j).value = .ok s')
    (hwound : r'.Wound) :
  ∃ T, Alike (Pairing.withTimers (.ofRoot ⟨i, j, lead⟩ false) T) r' s'
  := by
  let P := Pairing.ofRoot ⟨i, j, lead⟩ false
  have hroot : ⟨i, j, lead⟩ ∈ P.ties := List.mem_singleton_self _
  have hback : y.timers = [] := hstill j y hy
  have hlead : (x.generation : Int) = y.generation + lead := hxy.generation
  obtain ⟨e, herror, -⟩ | ⟨T, t, u, as, bs, -, hnew, htiming', hforall, heq, heq'⟩ :=
    armTimers_alike (F := Callback.Transits) (R := Callback.Alike P) hx hy
      (show activeDelays x = activeDelays y from hxy.activeDelays_eq) hxy.context hlead
      (fun state key => .after hroot (by push_cast; omega)) htiming hnow (by rwa [hback])
  · rw [harmed] at herror
    cases herror
  have hset : Sets { r with timing := t } r' i
      { x with timers := as, generation := x.generation + 1 } := by
    obtain rfl := Except.ok.inj (harmed.symm.trans heq)
    exact sets_modify (r := { r with timing := t }) hx _
  have hset' : Sets { s with timing := u } s' j
      { y with timers := bs, generation := y.generation + 1 } := by
    obtain rfl := Except.ok.inj (harmed'.symm.trans heq')
    exact sets_modify (r := { s with timing := u }) hy _
  have hgrows : P.Grows (P.withTimers T) := Pairing.grows_withTimers (List.nil_subset _)
  refine ⟨T, alike_ofRoot hset.get?_self hset'.get?_self ?_ ?_ ?_ ?_ ?_⟩
  · refine { hxy.mono hgrows with timers := hforall, generation := ?_ }
    push_cast
    omega
  · rw [hset.timing, hset'.timing]
    refine htiming'.imp (fun _ _ hcb => hcb.mono hgrows) ?_
    rintro id z cb hz hfree hcb ⟨k, state, key, generation, rfl⟩
    refine ⟨k, state, key, generation, rfl, fun tie htie hk => ?_⟩
    obtain rfl := List.mem_singleton.mp htie
    obtain rfl := hk
    -- The timer is one of those that were just armed, and these are paired.
    have hentry := hwound.entry id z i state key generation _ (hset.timing ▸ hz) hcb hset.get?_self
    obtain ⟨b, -, hab⟩ := Configuration.exists_of_mem_left hforall hentry
    exact hfree _ hab.timer rfl
  · intro k z hz
    rw [hset.get?] at hz
    split at hz
    · obtain rfl := Option.some.inj hz
      exact hapart i x hx
    · exact hapart k z hz
  · intro k z hz hk a ha e he
    rw [hset.get?, if_neg hk.symm] at hz
    obtain hmem | hle := hnew e he
    · cases hmem
    · exact Nat.ne_of_gt ((hr.lt_next k z hz a ha).trans_le hle)
  · intro k z hz hk
    rw [hset'.get?, if_neg hk.symm] at hz
    exact hstill k z hz

end Engine

namespace Configuration

variable {H : Host κ π σ} {cs ds as bs : List (Configuration κ π σ)}
  {c c' c₁ d d' : Configuration κ π σ} {i j : Nat} {x x' y y' : Instance κ} {s s' : Snapshot κ}
  {point : π} {lead : Int}

/-- An instance without parent has the services of its machine. -/
theorem Run.services_eq (h : Run H cs c) (hx : c.engine.get? i = some x)
    (hparent : x.parent = none) :
  x.services = x.machine.services
  := by
  refine h.each (p := fun _ x _ => x.parent = none → x.services = x.machine.services) ?_ ?_ hx
    hparent
  · intro s r i y w harrives _ hparent
    cases harrives with
    | created => rfl
    | spawned => cases hparent
  · intro r r' i x y w w' _ hturn ih hparent
    cases hturn <;> exact ih hparent

/-- Instances that are kept have nothing to do with each other. -/
theorem Run.apart (h : Run H cs c) (hkept : c.engine.Kept H) :
  c.engine.Apart
  := by
  intro i x hx
  obtain ⟨-, hparent, hchildless⟩ := hkept i x hx
  exact ⟨hparent, (h.barren hx hchildless).1⟩

/-- Two instances of one machine that are poised at the same state are alike but for the timers
before. -/
theorem Poised.alike (h : Poised i s point x c) (h' : Poised j s' point y d) (hr : Run H cs c)
    (hs : Run H ds d) (hkept : c.engine.Kept H) (hkept' : d.engine.Kept H)
    (hmachine : x.machine = y.machine) (hvalue : s.value = s'.value)
    (hcontext : s.context = s'.context) (hmetadata : s.metadata = s'.metadata)
    (htimers : y.timers = []) (hlead : (x.generation : Int) = y.generation + lead) :
  Instance.Alike (.ofRoot ⟨i, j, lead⟩ false) lead { x with timers := [] } y
  := by
  have hx := h.engaged.get?
  have hy := h'.engaged.get?
  obtain ⟨hparent, hchildren⟩ := hr.apart hkept i x hx
  obtain ⟨hparent', hchildren'⟩ := hs.apart hkept' j y hy
  have hbusy : x.busy = true := (hr.orderly.busy i x hx).mpr (by simp [h.engaged.stack])
  have hbusy' : y.busy = true := (hs.orderly.busy j y hy).mpr (by simp [h'.engaged.stack])
  have hstatus := Instance.status_of_isRunning h.running
  constructor
  case machine => exact hmachine
  case services =>
    exact (hr.services_eq hx hparent).trans
      ((congrArg Machine.services hmachine).trans (hs.services_eq hy hparent').symm)
  case status => exact hstatus.trans (Instance.status_of_isRunning h'.running).symm
  case value => simpa only [h.snapshot, h'.snapshot]
  case context => simpa only [h.snapshot, h'.snapshot]
  case metadata => simpa only [h.snapshot, h'.snapshot]
  case actions => exact .inr ⟨by simp [hstatus], by simp [h.mailbox]⟩
  case parent =>
    rw [hparent, hparent']
    exact .none
  case timers =>
    rw [htimers]
    exact .nil
  case generation => exact hlead
  case children =>
    rw [hchildren, hchildren']
    exact .nil
  case doneReported => exact .inl hparent
  case mailbox =>
    rw [h.mailbox, h'.mailbox]
    exact .nil
  case busy => rw [hbusy, hbusy']
  case listeners => exact fun hheeds => by cases hheeds

/-- From `b` on an instance gets to a snapshot, where it is poised, and then it arms its timers. -/
structure Winds (H : Host κ π σ) (b : Configuration κ π σ) (i : Nat) (s : Snapshot κ) (point : π)
    (x y : Instance κ) (c d : Configuration κ π σ) : Prop where
  poised : Poised i s point x c
  engaged : Engaged i [.report s.value] [.waiting point] y d
  resembles : x.Resembles y
  armed : (c.engine.armTimers i).value = .ok d.engine
  run : ∃ cs, Run H cs c
  run' : ∃ ds, Run H ds d
  steps : ∃ ds, Steps H b ds d
  kept : c.engine.Kept H

variable {b b' : Configuration κ π σ}

/-- An instance that is poised goes on to arm its timers. -/
theorem Poised.winds (h : Poised i s point x c) (hrun : Run H cs c) (hkept : c.engine.Kept H)
    (hsteps : Steps H b ds c) :
  ∃ d y, Winds H b i s point x y c d
  := by
  obtain ⟨es, d, y, hsteps', hrun', hengaged, hresembles, harmed⟩ := h.arms hrun
  exact ⟨d, y, h, hengaged, hresembles, harmed, ⟨_, hrun⟩, ⟨_, hrun'⟩,
    ⟨_, hsteps.trans hsteps'⟩, hkept⟩

namespace Winds

variable (h : Winds H b i s point x y c c')

include h

/-- No time passes while timers are armed. -/
theorem now_eq :
  c'.engine.timing.now = c.engine.timing.now
  := by
  obtain ⟨cs, hr⟩ := h.run
  exact (Timing.Keeps.covers.toManages.armTimers h.armed hr.tasked).now

/-- The instances are kept while timers are armed. -/
theorem kept_after :
  c'.engine.Kept H
  := by
  intro k z hz
  obtain ⟨_, _, es, -, -, hrearms⟩ := Engine.rearms_of_armTimers h.poised.engaged.get? h.armed
  rw [hrearms.get?] at hz
  split at hz
  · next heq =>
    subst heq
    obtain rfl := Option.some.inj hz
    exact h.kept i x h.poised.engaged.get?
  · exact h.kept k z hz

/-- What the steps end with has the clock and the timers that are there after the arming. -/
theorem rests {as : List (Configuration κ π σ)} (hsteps : Steps H b as c₁) (hidle : c₁.IsIdle)
    (hpoint : H.Ends point) :
  ∃ rest z, Steps H c' rest c₁ ∧ c₁.engine.timing = c'.engine.timing
    ∧ c₁.engine.get? i = some z ∧ z.snapshot = s ∧ z.timers = y.timers
  := by
  obtain ⟨cs, hr⟩ := h.run'
  obtain ⟨bs, hbefore⟩ := h.steps
  obtain ⟨rest, -, hrest⟩ := hsteps.split hidle hbefore
  obtain ⟨ds, d, z, hafter, hidle', hz, hsnapshot, hdwells⟩ :=
    h.engaged.rests hr h.kept_after h.resembles.running
      (h.resembles.mailbox.trans h.poised.mailbox) hpoint
  obtain ⟨more, -, hmore⟩ := hrest.split hidle hafter
  obtain ⟨-, rfl⟩ := hmore.eq_of_idle hidle'
  obtain ⟨htiming, hold⟩ := hdwells h.kept_after
  obtain ⟨w, hw, -, -, htimers⟩ := hold i z hz
  obtain rfl := Option.some.inj (h.engaged.get?.symm.trans hw)
  have hstate : z.snapshot = s :=
    hsnapshot.trans (h.resembles.snapshot.trans h.poised.snapshot)
  exact ⟨rest, z, hrest, htiming, hz, hstate, htimers⟩

end Winds

/-- After the armings both do the same, if no timer is paused and none was there on the right. -/
theorem Winds.follows (h : Winds H b i s point x y c c')
    (h' : Winds H b' j s' point x' y' d d') (hmachine : x.machine = x'.machine)
    (hvalue : s.value = s'.value) (hcontext : s.context = s'.context)
    (hmetadata : s.metadata = s'.metadata) (hreserved : c.engine.timing.Reserved)
    (haccurate : c.engine.timing.Accurate) (hblank : d.engine.timing.Blank)
    (hstill : ∀ k z, d.engine.get? k = some z → z.timers = [])
    (hnow : c.engine.timing.now = d.engine.timing.now) (hawake : c'.engine.timing.Awake)
    (hunpaused : ∀ a ∈ y.timers, c'.engine.timing.status? a.timer ≠ some .paused)
    (hpoint : H.Ends point) :
  ∃ lead T, Follows H (Pairing.withTimers (.ofRoot ⟨i, j, lead⟩ false) T) c' d'
  := by
  obtain ⟨cs, hr⟩ := h.run
  obtain ⟨as, hr'⟩ := h.run'
  obtain ⟨ds, hs⟩ := h'.run
  have hx := h.poised.engaged.get?
  have hx' := h'.poised.engaged.get?
  obtain ⟨lead, hlead⟩ : ∃ lead : Int, (x.generation : Int) = x'.generation + lead :=
    ⟨x.generation - x'.generation, by omega⟩
  have hxx' := h.poised.alike h'.poised hr hs h.kept h'.kept hmachine hvalue hcontext
    hmetadata (hstill j x' hx') hlead
  have hleftover (active : Option (String × Option Meta)) (ds : List (Delayed κ))
      (hactive : Engine.activeDelays x = .ok (active, ds)) :
      Engine.Leftover [] lead (Engine.armingOf i x active).state ds c.engine.timing x.timers []
      := by
    refine Engine.leftover_of_armTimers hx h.armed (hr.wound.armory i x hx) (hr.valid.1 i x hx) ?_
      lead hactive
    intro z hz
    obtain rfl := Option.some.inj (h.engaged.get?.symm.trans hz)
    exact hunpaused
  obtain ⟨T, halike⟩ := Engine.alike_of_armTimers hx hx' hxx'
    (hreserved.alike haccurate (Timing.manages_awake.armTimers h.armed hawake) hblank
      hs.tasked.ordered)
    hnow hleftover hr.regular (hr.apart h.kept) hstill h.armed h'.armed hr'.wound
  refine ⟨lead, T, .alike ⟨halike, ?_, ?_⟩ ⟨.inl ?_, .inl ?_⟩⟩
  · rw [h.engaged.stack, h'.engaged.stack, hvalue]
    exact .cons (.working (t := ⟨i, j, lead⟩) (List.mem_singleton_self _) (.cons (.same _) .nil))
      (.cons (.waiting hpoint) .nil)
  · obtain ⟨reply, hcontrol⟩ := h.engaged.control
    obtain ⟨reply', hcontrol'⟩ := h'.engaged.control
    rw [hcontrol, hcontrol']
    exact .back reply reply'
  · rw [h.now_eq, h'.now_eq, hnow]
  · rw [h.engaged.stack]
    rfl

/-! ### From then on -/

/-- What is done to an instance, and to the clock. -/
inductive Input where
  | send (event : Event)
  | advance (millis : Nat)

/-- The call for an instance. -/
def Input.call (i : Nat) : Input → Call κ
  | send event => .send i event
  | advance ms => .advance ms

/-- The same inputs are given on both sides, and none of them is left out. -/
theorem picked_inputs {P : Pairing} (hroot : P.root ∈ P.ties) (inputs : List Input) :
  Picked (κ := κ) P 0 (inputs.map (Input.call P.root.left))
    (inputs.map (Input.call P.root.right))
  := by
  induction inputs with
  | nil => exact .nil
  | cons input inputs ih =>
    cases input with
    | send event => exact .both (.send event hroot) ih
    | advance ms => exact .both (.advance ms) ih

/-- An instance that is started at a value with a context does from then on what another one of the
same machine does that has got there with an event at the same time, with no timer and no pool
paused, on a clock that it has for itself.  Whatever is sent to both and however their clocks
advance, the same is seen of both at the same times, they have the same state, and the same timers
are armed.  Nothing else of what the first one has been through matters. -/
theorem Run.resumes (h : Run H cs c) (hidle : c.IsIdle) (hkept : c.engine.Kept H)
    (hspares : ∀ b ∈ cs, b.spares = true) (hreserved : c.engine.timing.Reserved) (hcalm : H.Calm)
    (hpoint : H.Ends point) (hx : c.engine.get? i = some x) (hrunning : x.isRunning = true)
    {event : Event} (hsteps : Steps H (c.calling H (.send i event) point) as c₁)
    (hidle₁ : c₁.IsIdle) (hy : c₁.engine.get? i = some y)
    (hunpaused : ∀ a ∈ y.timers, c₁.engine.timing.status? a.timer ≠ some .paused)
    (hawake : c₁.engine.timing.Awake) (h' : Run H ds d) (hidle' : d.IsIdle)
    (hkept' : d.engine.Kept H) (hfresh : d.engine.Fresh) (hx' : d.engine.get? j = some x')
    (hmachine : x.machine = x'.machine) (hnow : c.engine.timing.now = d.engine.timing.now) :
  ∃ bs d₁, Steps H (d.calling H (.startWith j y.snapshot.value y.snapshot.context) point) bs d₁
    ∧ d₁.IsIdle ∧ ∀ (inputs : List Input) as₁ c₂,
      Performs H point c₁ (inputs.map (Input.call i)) as₁ c₂ →
        ∃ bs₁ d₂, Performs H point d₁ (inputs.map (Input.call j)) bs₁ d₂
          ∧ seen false i as₁ = seen false j bs₁
          ∧ c₂.engine.outline i = d₂.engine.outline j
          ∧ c₂.engine.alarms i = d₂.engine.alarms j
          ∧ (c₂.IsIdle → d₂.IsIdle ∧ c₂.engine.timing.now = d₂.engine.timing.now)
  := by
  obtain ⟨s, bs, b, z, hsteps₁, hrun₁, hpoised, hmachine₁, hsnapshot, hdwells⟩ :=
    h.poised_of_send hidle hkept hcalm hx hrunning event point
  obtain ⟨e, z', hwinds⟩ := hpoised.winds hrun₁ (hdwells.kept hkept) hsteps₁
  obtain ⟨rest, w, hrest, htiming, hw, rfl, htimers⟩ := hwinds.rests hsteps hidle₁ hpoint
  obtain rfl := Option.some.inj (hw.symm.trans hy)
  rw [htimers, htiming] at hunpaused
  rw [htiming] at hawake
  obtain ⟨hclock, -⟩ := hdwells hkept
  let s' : Snapshot κ := .resting w.snapshot.value w.snapshot.context w.snapshot.metadata
  obtain ⟨bs', b', u, hsteps₁', hrun₁', hpoised', hmachine₁', hdwells'⟩ :=
    h'.poised_of_startWith (s := s') hidle' hkept' hcalm hx' (hfresh.notStarted j x' hx')
      (hmachine ▸ hsnapshot) point
  obtain ⟨e', u', hwinds'⟩ := hpoised'.winds hrun₁' (hdwells'.kept hkept') hsteps₁'
  obtain ⟨hclock', hold'⟩ := hdwells' hkept'
  have hstill : ∀ k v, b'.engine.get? k = some v → v.timers = [] := by
    intro k v hv
    obtain ⟨v', hv', -, -, htimers'⟩ := hold' k v hv
    exact htimers'.trans (h'.empty_of_notStarted hv' (hfresh.notStarted k v' hv')).2
  obtain ⟨lead, T, hfollows⟩ := hwinds.follows hwinds'
    (hmachine₁.trans (hmachine.trans hmachine₁'.symm)) rfl rfl rfl (hclock ▸ hreserved)
    (hclock ▸ h.accurate hspares) (hclock' ▸ hfresh.blank) hstill
    (by rw [hclock, hclock', hnow]) hawake hunpaused hpoint
  obtain ⟨cs', hr⟩ := hwinds.run'
  obtain ⟨ds', hs⟩ := hwinds'.run'
  obtain ⟨before, hbefore⟩ := hwinds'.steps
  have hheld : H.Holds i := (hkept i x hx).1
  have hheld' : H.Holds j := (hkept' j x' hx').1
  obtain ⟨P, after, d₁, hgrows, hafter, hfollows₁, hr₁, hs₁, hsure, hsure', -⟩ :=
    hfollows.steps hcalm (.inr fun k v hv => (hwinds.kept_after k v hv).2.2)
      (.inr fun k v hv => (hwinds'.kept_after k v hv).2.2) hr hs hheld hheld' hrest
  have hroot : P.root = ⟨i, j, lead⟩ := hgrows.root
  have hmeets := hfollows₁.meets hidle₁
  refine ⟨_, d₁, hbefore.trans hafter, hmeets.right, fun inputs as₁ c₂ hperforms => ?_⟩
  have hpicked := picked_inputs (κ := κ) hmeets.engine.root inputs
  rw [hroot] at hpicked
  obtain ⟨P', _, _, bs₁, d₂, hgrows', hperforms', hmatched⟩ := hperforms.matched hpicked hcalm
    hpoint (by rwa [hroot]) (by rwa [hroot]) (.refl P) ⟨Nat.zero_le _, by omega⟩ hsure hsure' hr₁
    hs₁ hmeets.engine fun _ => hmeets
  have hseen := hmatched.seen
  have houtline := hmatched.engine.outline_eq
  have halarms := hmatched.engine.alarms_eq hmatched.run.nested hmatched.run'.nested
  rw [hgrows'.root, hroot] at hseen houtline halarms
  rw [hgrows'.heeds, hgrows.heeds] at hseen
  exact ⟨bs₁, d₂, hperforms', hseen, houtline, halarms, fun hidle₂ =>
    ⟨(hmatched.meets hidle₂).right, (hmatched.meets hidle₂).now⟩⟩

/-! ### Two relays -/

/-- The run in which a relay is started, up to ten milliseconds later. -/
def startedRelay : List (Configuration Unit (Script Unit) Unit)
    × Configuration Unit (Script Unit) Unit :=
  played (fun _ => []) (fun _ => .error (.unknownService "")) 1 relay [.start 0, .advance 10] 40

/-- Then it is sent an event. -/
def sentRelay : List (Configuration Unit (Script Unit) Unit)
    × Configuration Unit (Script Unit) Unit :=
  trail meterHost 40 (startedRelay.2.calling meterHost (.send 0 (.named "GO")) [])

/-- The run in which a relay is made that is not started for ten milliseconds. -/
def newRelay : List (Configuration Unit (Script Unit) Unit)
    × Configuration Unit (Script Unit) Unit :=
  played (fun _ => []) (fun _ => .error (.unknownService "")) 1 relay [.advance 10] 40

/-- It goes back before its delayed transition, and takes the other one after fifty more. -/
def relayInputs : List Input := [.advance 3, .send (.named "BACK"), .advance 50]

theorem run_startedRelay :
  Run meterHost startedRelay.1 startedRelay.2
  := run_played isCompiled_relay (fun _ _ h => by cases h) (by decide +kernel)

theorem run_newRelay :
  Run meterHost newRelay.1 newRelay.2
  := run_played isCompiled_relay (fun _ _ h => by cases h) (by decide +kernel)

theorem childless_relay :
  relay.Childless
  := by
  intro chart hchart key n hn
  have hall : chart.nodes.values.all (fun n => n.invoke.isEmpty) = true := by
    obtain rfl := Option.some.inj hchart
    rfl
  exact List.isEmpty_iff.mp (List.all_eq_true.mp hall n (OrderedMap.mem_values_of_get? hn))

theorem calm_meterHost :
  meterHost.Calm
  where
  execute _ _ _ _ _ _ := rfl
  notify _ _ _ _ := rfl

/-- An engine with one relay that has no parent keeps it. -/
theorem kept_relay {r : Engine Unit} {x : Instance Unit} (hnext : r.instances.next = 1)
    (hx : r.get? 0 = some x) (hparent : x.parent = none) (hmachine : x.machine = relay) :
  r.Kept meterHost
  := by
  intro i y hy
  have hlt := Engine.lt_next_of_get? hy
  obtain rfl : i = 0 := by omega
  obtain rfl := Option.some.inj (hx.symm.trans hy)
  exact ⟨fun _ => List.mem_cons_self, hparent, hmachine ▸ childless_relay⟩

theorem kept_startedRelay :
  startedRelay.2.engine.Kept meterHost
  := kept_relay rfl rfl rfl rfl

theorem kept_newRelay :
  newRelay.2.engine.Kept meterHost
  := kept_relay rfl rfl rfl rfl

theorem reserved_startedRelay :
  startedRelay.2.engine.timing.Reserved
  where
  queue p hp := by
    obtain rfl := List.mem_singleton.mp hp
    exact ⟨0, rfl⟩
  callback
    | 0, u, cb, hu, hcb => by
      obtain rfl := Option.some.inj hu
      obtain rfl := Option.some.inj hcb
      exact ⟨0, "a", "1_5", 1, rfl⟩
    | id + 1, u, cb, hu, hcb => by cases hu

theorem fresh_newRelay :
  newRelay.2.engine.Fresh
  where
  notStarted
    | 0, x, hx => by obtain rfl := Option.some.inj hx; rfl
    | i + 1, x, hx => nomatch hx
  timers id := rfl
  queue := rfl
  awake
    | 0 => rfl
    | pool + 1 => rfl

/-- A relay that is started where the other one has got to arms the same timer, and takes the same
delayed transition at the same time. -/
theorem relay_resumes :
  ∃ y bs d₁ as₁ c₂ bs₁ d₂, sentRelay.2.engine.get? 0 = some y
    ∧ Steps meterHost
      (newRelay.2.calling meterHost (.startWith 0 y.snapshot.value y.snapshot.context) []) bs d₁
    ∧ d₁.engine.alarms 0 = [("a_1_5", some (.running, 5, some 10))]
    ∧ Performs meterHost [] sentRelay.2 (relayInputs.map (Input.call 0)) as₁ c₂
    ∧ Performs meterHost [] d₁ (relayInputs.map (Input.call 0)) bs₁ d₂
    ∧ seen false 0 as₁ = seen false 0 bs₁ ∧ 63 ∈ (seen false 0 bs₁).map Sight.time
    ∧ (d₂.engine.outline 0).bind (fun o => o.1.leaf?) = some "late"
  := by
  have hstate : (sentRelay.2.engine.get? 0).map
      (fun y => y.timers.all fun a => sentRelay.2.engine.timing.status? a.timer ≠ some .paused)
        = some true := by decide +kernel
  obtain ⟨y, hy, hstate⟩ := Option.map_eq_some_iff.mp hstate
  have hunpaused : ∀ a ∈ y.timers,
      sentRelay.2.engine.timing.status? a.timer ≠ some .paused := by
    simpa only [List.all_eq_true, decide_eq_true_eq] using hstate
  have hawake : sentRelay.2.engine.timing.Awake
    | 0 => rfl
    | pool + 1 => rfl
  obtain ⟨bs, d₁, hsteps, -, hafter⟩ := run_startedRelay.resumes (by decide +kernel)
    kept_startedRelay (List.all_eq_true.mp (by decide +kernel)) reserved_startedRelay calm_meterHost
    (fun _ _ _ => rfl) (i := 0) rfl rfl (steps_trail _ 40 _) (by decide +kernel) hy hunpaused hawake
    run_newRelay (by decide +kernel) kept_newRelay fresh_newRelay (j := 0) rfl rfl rfl
  obtain ⟨bs₀, d₀, hnone, -, -, halarms, -⟩ := hafter [] [] _ (.nil _)
  cases hnone
  have hperforms : Performs meterHost [] sentRelay.2 (relayInputs.map (Input.call 0))
      (performed meterHost [] 60 sentRelay.2 (relayInputs.map (Input.call 0))).1
      (performed meterHost [] 60 sentRelay.2 (relayInputs.map (Input.call 0))).2 :=
    performs_performed (by decide +kernel)
  obtain ⟨bs₁, d₂, hperforms', hseen, houtline, -⟩ := hafter relayInputs _ _ hperforms
  refine ⟨y, bs, d₁, _, _, bs₁, d₂, hy, hsteps, ?_, hperforms, hperforms', hseen, ?_, ?_⟩
  · rw [← halarms]
    decide +kernel
  · rw [← hseen]
    decide +kernel
  · rw [← houtline]
    decide +kernel

end Configuration

end Statechart
