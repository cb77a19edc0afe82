import Statechart.Proofs.Turn

/-!
# Armed timers in runs

The timers of an instance are there, each under its own key, and a timer that may still
call a delayed transition is one of them (`Engine.Wound`).  A timer that was armed for an
instance is one of its timers ever since, or it is destroyed
(`Configuration.Run.accounts`); and when it fires in its state the delayed transition is
attempted (`Configuration.Run.attempts_of_fires`).
-/

namespace Statechart

variable {κ π σ : Type}

/-! ### Arming -/

namespace Instance.Valid

variable {x : Instance κ}

/-- The delays of the active state are distinct, and they are those of its node. -/
theorem activeDelays_eq (h : x.Valid) {active : Option (String × Option Meta)}
    {ds : List (Delayed κ)} (hactive : Engine.activeDelays x = .ok (active, ds)) :
  (ds.map Delayed.key).Nodup ∧ ∀ state, x.snapshot.value.leaf? = some state →
    ∃ chart n, x.machine.flat? = some chart ∧ chart.nodes.get? state = some n
      ∧ active = some (state, n.metadata) ∧ ds = n.after
  := by
  rw [Engine.activeDelays] at hactive
  split at hactive
  · next chart state hflat hleaf =>
    obtain ⟨htopology, n, hn⟩ := h.flat_leaf hflat hleaf
    rw [Chart.node_eq_ok_iff.mpr hn] at hactive
    obtain ⟨rfl, rfl⟩ := Prod.mk.inj (Except.ok.inj hactive)
    constructor
    · have hsound := h.compiled.sound.topology
      rw [htopology] at hsound
      exact hsound.delays hn
    · intro state' hleaf'
      rw [hleaf] at hleaf'
      obtain rfl := Option.some.inj hleaf'
      exact ⟨chart, n, hflat, hn, rfl, rfl⟩
  · next hnone =>
    obtain ⟨rfl, rfl⟩ := Prod.mk.inj (Except.ok.inj hactive)
    refine ⟨List.nodup_nil, ?_⟩
    intro state hleaf
    -- A single state is a value of a flat machine only.
    have hfits := h.fits
    cases ht : x.machine.topology with
    | flat chart => exact (hnone chart state (by rw [Machine.flat?, ht]) hleaf).elim
    | parallel regions =>
      rw [ht] at hfits
      obtain ⟨parts, hvalue, -⟩ := hfits
      rw [hvalue] at hleaf
      cases hleaf

end Instance.Valid

namespace Engine

variable {r r' : Engine κ} {i : Nat} {x y : Instance κ}

/-- What arming does to a valid instance: each delay has its timer, and the others are
destroyed. -/
theorem armTimers_cases (hx : r.get? i = some x) (hvalid : x.Valid)
    (harmory : Armory r.timing x.timers) (h : (r.armTimers i).value = .ok r')
    (hy : r'.get? i = some y) :
  ∃ active ds, activeDelays x = .ok (active, ds)
    ∧ List.Forall₂ (Arms (armingOf i x active) r.timing x.timers r'.timing) ds y.timers
    ∧ (∀ p ∈ x.timers, p ∈ y.timers ∨ r'.timing.status? p.timer = some .destroyed)
    ∧ Armory r'.timing y.timers
  := by
  obtain ⟨active, ds, es, hactive, hes, hrearms⟩ := rearms_of_armTimers hx h
  obtain ⟨harms, hold, harmory'⟩ := arms_of_armTimers hx h harmory hactive
    (hvalid.activeDelays_eq hactive).1 hes
  rw [hrearms.get?, if_pos rfl] at hy
  obtain rfl := Option.some.inj hy
  exact ⟨active, ds, hactive, harms, hold, harmory'⟩

/-- A callback belongs to the host, or to the timer of an instance that has it under the
key of the delay. -/
inductive Files (r : Engine κ) (id : Nat) : Callback κ → Prop where
  | code (code : κ) : Files r id (.code code)
  | after {i : Nat} {state key : String} {generation : Nat} {y : Instance κ} :
    r.get? i = some y → ⟨armedKey state key, id, generation⟩ ∈ y.timers →
      Files r id (.after i state key generation)

/-- The timers of an instance are there under different keys, a timer with a delayed
transition is one of them, and what is destroyed calls nothing. -/
structure Wound (r : Engine κ) : Prop where
  armory : ∀ i x, r.get? i = some x → Armory r.timing x.timers
  entry : ∀ id t i state key generation x, r.timing.timers.get? id = some t →
    t.callback = some (.after i state key generation) → r.get? i = some x →
    ⟨armedKey state key, id, generation⟩ ∈ x.timers
  silent : r.timing.Silent

/-- A timer is one of those of an instance that is there, or it is destroyed. -/
def Holds (r : Engine κ) (i id : Nat) : Prop :=
  (∃ x, r.get? i = some x ∧ ∃ e ∈ x.timers, e.timer = id) ∨ r.timing.status? id = some .destroyed

/-- No timer is armed on the way. -/
theorem Quiet.follows {Q : Callback κ → Prop} (h : Quiet r r')
    (hQ : ∀ code, Q (.code code)) :
  r.timing.Follows r'.Files Q r'.timing
  := by
  refine h.mono ?_ ?_
  · rintro id _ - ⟨code, rfl⟩
    exact .code code
  · rintro _ ⟨code, rfl⟩
    exact hQ code

end Engine

/-- New timers of a move that have a delayed transition are timers of their instance. -/
theorem Move.follows {s : Signal κ} {r r' : Engine κ} {st st' : List (Frame κ π)}
    (hmove : Move s r st r' st') :
  r.timing.Follows r'.Files (fun _ => True) r'.timing
  := by
  -- The clock stands still in a move that changes an instance.
  have hsets : ∀ {r₁ r₂ : Engine κ} {i : Nat} {y : Instance κ}, Engine.Sets r₁ r₂ i y →
      r₁.timing = r.timing → r₂ = r' → r.timing.Follows r'.Files (fun _ => True) r'.timing := by
    rintro r₁ r₂ i y hsets htiming rfl
    rw [hsets.timing, htiming]
    exact .refl _
  cases hmove with
  | quiet _ hquiet _ => exact hquiet.follows fun _ => trivial
  | create hadds _ =>
    rw [hadds.timing]
    exact .refl _
  | interpret _ hquiet _ => exact hquiet.follows fun _ => trivial
  | listen _ _ h _ => exact hsets h rfl rfl
  | stop j _ => exact (Engine.halts_stop r j).timing.mono (fun _ h => h.elim) fun _ => trivial
  | call _ _ h _ => exact hsets h rfl rfl
  | fire _ _ hsame hquiet h _ =>
    have hquiet' : Engine.Quiet r r' := by
      rw [Engine.Quiet, h.timing]
      exact hquiet
    exact hquiet'.follows fun _ => trivial
  | ignore _ _ _ h => exact hsets h rfl rfl
  | stumble _ _ _ _ h => exact hsets h rfl rfl
  | begin _ _ _ h => exact hsets h rfl rfl
  | commit _ _ _ _ h => exact hsets h rfl rfl
  | finish _ _ h => exact hsets h rfl rfl
  | vanish _ => exact .refl _
  | advance _ _ => exact .refl _
  | drop _ _ => exact .refl _
  | fail _ _ => exact .refl _
  | stopChildren hx =>
    obtain ⟨r₁, h, hhalts, -⟩ := Engine.halts_stopChildren hx
    rw [← h.timing]
    exact hhalts.timing.mono (fun _ h => h.elim) fun _ => trivial
  | spawn _ _ _ hspawns =>
    rw [hspawns.timing]
    exact .refl _
  | missing _ _ _ h => exact hsets h rfl rfl
  | rearm hx _ harmed =>
    obtain ⟨active, ds, es, -, -, hrearms⟩ := Engine.rearms_of_armTimers hx harmed
    refine hrearms.timing.mono ?_ fun h => h.elim
    rintro id _ - ⟨⟨key, timer, generation⟩, he, rfl, delay, rfl, rfl⟩
    exact .after (hrearms.get? _ |>.trans (if_pos rfl)) he
  | conclude _ h => exact hsets h rfl rfl
  | report _ _ _ h _ h' => exact hsets h' h.timing rfl

/-- Letting go keeps the timers in order. -/
theorem Engine.Wound.releases {r r' : Engine κ} {held : List Nat} (h : r.Wound)
    (hreleases : Engine.Releases held r r') :
  r'.Wound
  where
  armory i x hx :=
    (h.armory i x (hreleases.get?_of_get? hx)).of_sublist (List.Sublist.refl _) hreleases.timing
  entry id t i state key generation x ht hcallback hx := by
    obtain ⟨u, hu, hbecomes⟩ | ⟨-, -, hnone⟩ := hreleases.timing.origin ht
    · exact h.entry id u i state key generation x hu (hbecomes.callback_eq hcallback)
        (hreleases.get?_of_get? hx)
    · exact (hnone _ hcallback).elim
  silent := hreleases.timing.silent h.silent

/-- The timer of an instance under a key. -/
theorem Instance.armed?_eq {x : Instance κ} {t : Timing (Callback κ)}
    (harmory : Engine.Armory t x.timers) {e : Armed} (he : e ∈ x.timers) :
  x.armed? e.key = some e
  := by
  rw [Instance.armed?]
  cases hfind : x.timers.find? fun a => a.key = e.key with
  | none => simpa using List.find?_eq_none.mp hfind e he
  | some a =>
    have hkey : a.key = e.key := by simpa using List.find?_some hfind
    rw [harmory.eq_of_key_eq (List.mem_of_find?_eq_some hfind) he hkey]

/-- A new instance has no timers. -/
theorem Arrives.timers_eq {s : Signal κ} {r : Engine κ} {i : Nat} {y : Instance κ}
    {w : Option (List (Phase κ))} (h : Arrives s r i y w) :
  y.timers = []
  := by
  cases h <;> rfl

/-- A timer of an instance before a turn is one of its timers after it, or it is
destroyed. -/
theorem Turn.timers {i : Nat} {r r' : Engine κ} {x y : Instance κ}
    {w w' : Option (List (Phase κ))} (h : Turn i r r' x w y w') (hx : r.get? i = some x)
    (hy : r'.get? i = some y) (hvalid : x.Valid) (harmory : Engine.Armory r.timing x.timers)
    (hfollows : r.timing.Follows r'.Files (fun _ => True) r'.timing) :
  Engine.Armory r'.timing y.timers
    ∧ ∀ p ∈ x.timers, p ∈ y.timers ∨ r'.timing.status? p.timer = some .destroyed
  := by
  have hkeep : Engine.Armory r'.timing x.timers :=
    harmory.of_sublist (List.Sublist.refl _) hfollows
  cases h with
  | rearm _ harmed =>
    obtain ⟨active, ds, -, -, hold, harmory'⟩ := Engine.armTimers_cases hx hvalid harmory harmed hy
    exact ⟨harmory', hold⟩
  | halt _ hdestroyed =>
    refine ⟨⟨List.nodup_nil, List.nodup_nil, fun _ h => by cases h⟩, ?_⟩
    intro p hp
    obtain ⟨t, ht⟩ := harmory.present p hp
    right
    exact hdestroyed p hp t.status (congrArg (Option.map Timer.status) ht)
  | _ => exact ⟨hkeep, fun p hp => .inl hp⟩

namespace Configuration

variable {H : Host κ π σ} {cs : List (Configuration κ π σ)} {c d : Configuration κ π σ}
  {mid : Engine κ}

/-- A step of a run keeps the timers in order. -/
theorem Goes.wound (hgoes : Goes H c mid d) (hrun : Run H cs c) (h : c.engine.Wound) :
  mid.Wound
  := by
  have hfollows := hgoes.move.follows
  have hsilent : mid.timing.Silent := hfollows.silent h.silent
  constructor
  · intro i y hy
    obtain ⟨x, hx⟩ | ⟨-, harrives⟩ := hgoes.arrives hy
    · exact ((hgoes.turn hx hy).timers hx hy (hrun.valid.1 i x hx) (h.armory i x hx) hfollows).1
    · rw [harrives.timers_eq]
      exact ⟨List.nodup_nil, List.nodup_nil, fun _ h => by cases h⟩
  · intro id t i state key generation y ht hcallback hy
    obtain ⟨u, hu, hbecomes⟩ | ⟨-, -, hfiles⟩ := hfollows.origin ht
    · have hcallback' := hbecomes.callback_eq hcallback
      have hbegun := hrun.started.timer id u i state key generation hu hcallback'
      obtain ⟨x, hx⟩ | ⟨heq, -⟩ := hgoes.arrives hy
      · have hentry := h.entry id u i state key generation x hu hcallback' hx
        obtain hmem | hdestroyed := ((hgoes.turn hx hy).timers hx hy (hrun.valid.1 i x hx)
          (h.armory i x hx) hfollows).2 _ hentry
        · exact hmem
        · rw [Timing.status?, ht] at hdestroyed
          rw [hsilent ht (Option.some.inj hdestroyed)] at hcallback
          cases hcallback
      · exact absurd hbegun.1 (by rw [heq]; exact Nat.lt_irrefl _)
    · cases hfiles _ hcallback with
      | after hy' hmem =>
        rw [hy] at hy'
        obtain rfl := Option.some.inj hy'
        exact hmem
  · exact hsilent

/-- In a run the timers are in order. -/
theorem Run.wound (h : Run H cs c) :
  c.engine.Wound
  := by
  induction h with
  | start memory =>
    constructor
    · intro i x hx
      simp [idle] at hx
    · intro id t i state key generation x ht
      simp [idle, Engine.empty, Timing.empty] at ht
    · intro id t ht
      simp [idle, Engine.empty, Timing.empty] at ht
  | next hrun hstep ih =>
    obtain ⟨mid, hgoes⟩ := hrun.goes hstep
    exact (hgoes.wound hrun ih).releases hgoes.releases

/-! ### Timers that were armed -/

/-- A timer calls something when it fires. -/
def Calls (c : Configuration κ π σ) (id : Nat) (cb : Callback κ) : Prop :=
  ∃ t, c.engine.timing.timers.get? id = some t ∧ t.callback = some cb

/-- The clock of a run goes on. -/
theorem Run.follows (h : Run H cs c) (hd : d ∈ cs) :
  d.engine.timing.Later c.engine.timing
  := by
  refine h.related (p := fun d c => d.engine.timing.Later c.engine.timing) ?_
    (fun hab hbc => hab.trans hbc) hd
  intro cs c d hrun hstep
  obtain ⟨mid, hgoes⟩ := hrun.goes hstep
  exact hgoes.move.follows.later.trans hgoes.releases.timing.later

/-- What is let go at the end of a step loses its timers. -/
theorem Goes.holds_of_mid (hgoes : Goes H c mid d) (hrun : Run H cs c) {i id : Nat}
    (h : mid.Holds i id) :
  d.engine.Holds i id
  := by
  obtain ⟨y, hy, e, he, rfl⟩ | hdestroyed := h
  · obtain hsame | ⟨z, hz, -, -, hgone⟩ := hgoes.releases.instances i
    · exact .inl ⟨y, hsame.trans hy, e, he, rfl⟩
    · rw [hy] at hz
      obtain rfl := Option.some.inj hz
      obtain ⟨t, ht⟩ := ((hgoes.wound hrun hrun.wound).armory i y hy).present e he
      exact .inr (hgone e he t.status (congrArg (Option.map Timer.status) ht))
  · exact .inr (hgoes.releases.timing.status?_destroyed hdestroyed)

theorem Goes.holds (hgoes : Goes H c mid d) (hrun : Run H cs c) {i id : Nat}
    (h : c.engine.Holds i id) :
  d.engine.Holds i id
  := by
  apply hgoes.holds_of_mid hrun
  have hfollows := hgoes.move.follows
  obtain ⟨x, hx, e, he, rfl⟩ | hdestroyed := h
  · obtain ⟨y, hy⟩ := hgoes.move.exists_get? hx
    obtain hmem | hdestroyed := ((hgoes.turn hx hy).timers hx hy (hrun.valid.1 i x hx)
      (hrun.wound.armory i x hx) hfollows).2 e he
    · exact .inl ⟨y, hy, e, hmem, rfl⟩
    · exact .inr hdestroyed
  · exact .inr (hfollows.status?_destroyed hdestroyed)

/-- A timer that an instance had is one of its timers ever since, or it is destroyed. -/
theorem Run.holds (h : Run H cs c) (hd : d ∈ cs) {i id : Nat} (hholds : d.engine.Holds i id) :
  c.engine.Holds i id
  := by
  refine h.related (p := fun d c => d.engine.Holds i id → c.engine.Holds i id) ?_
    (fun hab hbc ha => hbc (hab ha)) hd hholds
  intro cs c d hrun hstep hholds
  obtain ⟨mid, hgoes⟩ := hrun.goes hstep
  exact hgoes.holds hrun hholds

/-- A timer that was armed for an instance is one of its timers, or it is destroyed. -/
theorem Run.accounts (h : Run H cs c) (hd : d ∈ cs) {i id generation : Nat}
    {state key : String} (hcalls : Calls d id (.after i state key generation))
    {x : Instance κ} (hx : c.engine.get? i = some x) :
  (∃ e ∈ x.timers, e.timer = id) ∨ c.engine.timing.status? id = some .destroyed
  := by
  have hdrun : ∃ cs', Run H cs' d := by
    obtain ⟨before, after, rfl⟩ := List.append_of_mem hd
    exact ⟨before, h.of_append⟩
  obtain ⟨cs', hdrun⟩ := hdrun
  obtain ⟨t, ht, hcallback⟩ := hcalls
  have hlt := (hdrun.started.timer id t i state key generation ht hcallback).1
  obtain ⟨z, hz⟩ := (h.later hd).2 i x hlt hx
  have hentry := hdrun.wound.entry id t i state key generation z ht hcallback hz
  obtain ⟨y, hy, hmem⟩ | hdestroyed := h.holds hd (.inl ⟨z, hz, _, hentry, rfl⟩)
  · rw [hx] at hy
    obtain rfl := Option.some.inj hy
    exact .inl hmem
  · exact .inr hdestroyed

/-! ### Firing -/

/-- What the clock calls with a timer is the callback of the timer, which runs. -/
theorem exists_timer_of_due? {r : Engine κ} {target id : Nat} {cb : Callback κ}
    (h : r.due? target = some (cb, some id)) :
  ∃ t, r.timing.timers.get? id = some t ∧ t.status = .running ∧ t.callback = some cb
  := by
  rw [Engine.due?] at h
  split at h
  · cases h
  · next p scheduler _ =>
    split at h
    · simp at h
    · next id' _ =>
      split at h
      · next callback channel hfire =>
        simp only [Option.some.injEq, Prod.mk.injEq] at h
        obtain ⟨rfl, rfl⟩ := h
        obtain ⟨t, ht, hrunning, hcallback⟩ := Timing.fire_eq_some hfire
        exact ⟨t, ht, hrunning, hcallback⟩
      · cases h

theorem calls_of_due? {target id : Nat} {cb : Callback κ}
    (h : c.engine.due? target = some (cb, some id)) :
  Calls c id cb
  := by
  obtain ⟨t, ht, -, hcallback⟩ := exists_timer_of_due? h
  exact ⟨t, ht, hcallback⟩

/-- When the clock calls a delayed transition of an instance that is not at work, the
instance has an envelope to take, and no other. -/
theorem exists_step_of_due? {target id i generation : Nat} {below : List (Frame κ π)}
    {reply : Reply κ} {state key : String} (hcontrol : c.control = .back reply)
    (hstack : c.stack = .advancing target :: below)
    (hdue : c.engine.due? target = some (.after i state key generation, some id))
    {x : Instance κ} (hx : c.engine.get? i = some x) (hbusy : x.busy = false) :
  ∃ d channel, step? H c = some d ∧ d.control = .back .done
    ∧ d.stack = .working i (.ok ()) [] :: .fired channel :: c.stack
    ∧ d.engine.get? i = some (x.enqueued (.after state key generation))
  := by
  rw [Engine.due?] at hdue
  split at hdue
  · cases hdue
  · next p scheduler htake =>
    split at hdue
    · simp at hdue
    · next id' htask =>
      split at hdue
      · next callback channel hfire =>
        simp only [Option.some.injEq, Prod.mk.injEq] at hdue
        obtain ⟨rfl, rfl⟩ := hdue
        let fired := Timing.fire { c.engine.timing with scheduler := scheduler } id'
        let called : Configuration κ π σ :=
          (c.withEngine { c.engine with timing := fired.2 }).withStack (.fired channel :: c.stack)
        have hstep : step? H c
            = some (called.deliver i (.after state key generation)) := by
          have hfired : (c.withEngine (c.engine.withTiming fun t =>
              { t with scheduler := scheduler })).engine.timing.fire id'
              = (some (some (.after i state key generation), channel), fired.2) := by
            rw [← hfire]
            rfl
          rw [step?, hcontrol]
          simp only [hstack, stepClock, htake, runJob, htask]
          rw [hfired]
          rfl
        have hcalled : called.engine.get? i = some x := hx
        refine ⟨_, channel, hstep, ?_⟩
        rw [deliver, hcalled]
        simp only [hbusy, Bool.false_eq_true, if_false]
        refine ⟨rfl, rfl, ?_⟩
        exact (Engine.sets_modify hcalled _).get?_self
      · cases hdue

/-- The clock calls something with a timer in the next step. -/
def Fires (id : Nat) (cb : Callback κ) (c : Configuration κ π σ) : Prop :=
  ∃ target below reply, c.control = .back reply ∧ c.stack = .advancing target :: below
    ∧ c.engine.due? target = some (cb, some id)

/-- In the step after the next one the transition of a delay of a state is attempted. -/
def Attempts (H : Host κ π σ) (i : Nat) (state key : String) (c : Configuration κ π σ) : Prop :=
  ∃ d y generation, step? H c = some d
    ∧ (signal H d).taken = some (i, .after state key generation)
    ∧ d.engine.get? i = some y
    ∧ y.resolution (.after state key generation)
      = .attempt (.after key) .onChange
        (y.machine.fireAfter state key y.snapshot.context (.after key))

/-- When a timer of the active state fires and its instance is not at work, the delayed
transition is attempted. -/
theorem Run.attempts_of_fires (h : Run H cs c) {id i generation : Nat} {state key : String}
    (hfires : Fires id (.after i state key generation) c) {x : Instance κ}
    (hx : c.engine.get? i = some x) (hrunning : x.isRunning = true)
    (hleaf : x.snapshot.value.leaf? = some state) (hidle : workOf i c.stack = none) :
  Attempts H i state key c
  := by
  obtain ⟨target, below, reply, hcontrol, hstack, hdue⟩ := hfires
  have hnot : i ∉ workers c.stack := workOf_eq_none_iff.mp hidle
  have hbusy : x.busy = false := by
    rw [← Bool.not_eq_true, h.orderly.busy i x hx]
    exact hnot
  have hmail : x.mailbox = [] := by
    by_contra hne
    exact hnot (h.orderly.mail i x hx hne)
  obtain ⟨t, ht, hcallback⟩ := calls_of_due? hdue
  have hentry := h.wound.entry id t i state key generation x ht hcallback hx
  have harmed := Instance.armed?_eq (h.wound.armory i x hx) hentry
  obtain ⟨d, channel, hstep, hcontrol', hstack', hy⟩ :=
    exists_step_of_due? (H := H) hcontrol hstack hdue hx hbusy
  refine ⟨d, _, generation, hstep, ?_, hy, ?_⟩
  · rw [signal, hcontrol']
    simp only [hstack', hy, Instance.enqueued, hmail, List.nil_append]
  · have hfresh : isFresh (x.enqueued (.after state key generation)) state key generation
        = true := by
      rw [isFresh]
      have harmed' : (x.enqueued (.after state key generation)).armed? (armedKey state key)
          = some ⟨armedKey state key, id, generation⟩ := harmed
      have hleaf' : (x.enqueued (.after state key generation)).snapshot.value.leaf? = some state :=
        hleaf
      simp only [hleaf', harmed', decide_true, Bool.and_self]
    have hrunning' : (x.enqueued (.after state key generation)).isRunning = true := hrunning
    rw [Instance.resolution.eq_def]
    simp only [hrunning', Bool.not_true, Bool.false_eq_true, if_false, hfresh, if_true]

end Configuration

end Statechart
