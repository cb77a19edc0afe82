import Statechart.Proofs.Custody

/-!
# Pools on standby

A pool on standby has paused its running timers, and stashed them until it wakes.  A call to
start all timers of the pool starts these too, and leaves them in the stash: from then on they
run, and although none of them waits the pool counts as being on standby, so that another call
to put it there does nothing (`Configuration.Run.standby_iff`).
-/

namespace Statechart

variable {κ π σ τ : Type}

namespace Timing

variable {t t' t'' : Timing τ} {pool pool' : Nat} {p : TimerPool} {ids : List Nat}
  {status : TimerStatus}

/-! ### The stash -/

/-- The stashed timers of a pool that are not over have the same status. -/
def Stays (t : Timing τ) (pool : Nat) (status : TimerStatus) : Prop :=
  ∀ id ∈ t.stashOf pool, ∀ s, t.standing? id = some (pool, s) → s.isFinished = false → s = status

/-- The stash of a pool that is there. -/
theorem stashOf_of_get? (h : t.pools.get? pool = some p) :
  t.stashOf pool = p.stash
  := by
  rw [stashOf, h]

/-- Stashes depend on the pools alone. -/
theorem stashOf_congr (h : t'.pools = t.pools) (pool : Nat) :
  t'.stashOf pool = t.stashOf pool
  := by
  rw [stashOf, h, stashOf]

/-- The stash of a pool after a change of it. -/
theorem stashOf_updatePool (t : Timing τ) (pool : Nat) (g : TimerPool → TimerPool)
    (h : t.pools.get? pool = some p) :
  (t.updatePool pool g).stashOf pool = (g p).stash
  := by
  refine stashOf_of_get? ?_
  rw [updatePool, Table.get?_modify, if_pos rfl, h]
  rfl

/-- A pool is on standby while it stashes a timer that is not over. -/
theorem inStandby_iff :
  t.inStandby pool = true ↔ ∃ id ∈ t.stashOf pool, t.isFinished id = false
  := by
  rw [inStandby, decide_eq_true_iff, stashed, List.length_pos_iff_exists_mem]
  simp [List.mem_filter]

/-- Timers that are stashed are neither started nor paused. -/
theorem Stays.stirs (h : t.Stays pool status) (ht : t.Homed) (hp : t.Owns pool p)
    (hstirs : t.Stirs ids t') (hstatus : status ≠ .idle)
    (hids : ∀ id ∈ ids, id ∈ t.stashOf pool → t.status? id = some .idle) :
  t'.Stays pool status
  := by
  intro id hid s' hs' hunfinished
  obtain ⟨p', hp', -, hstash⟩ := hstirs.pool pool p hp.there
  rw [stashOf_of_get? hp', hstash] at hid
  obtain ⟨s, hs⟩ := ht pool p hp.there id (.inr hid)
  rw [← stashOf_of_get? hp.there] at hid
  obtain ⟨s'', hs'', hshift⟩ := hstirs.shift id pool s hs
  rw [hs'] at hs''
  cases hs''
  obtain rfl | hfinished | htouched := hshift
  · exact h id hid _ hs hunfinished
  · rw [hfinished] at hunfinished
    cases hunfinished
  · -- A timer that was never started is not stashed.
    have hidle := hids id htouched hid
    rw [status?_of_standing? hs] at hidle
    obtain rfl := Option.some.inj hidle
    exact absurd (h id hid _ hs rfl).symm hstatus

/-! ### Other pools -/

/-- An operation on a pool leaves the other ones and their timers alone. -/
structure Spares (pool : Nat) (t t' : Timing τ) : Prop where
  pools : ∀ pool', pool' ≠ pool → t'.pools.get? pool' = t.pools.get? pool'
  timers : ∀ id pool' s, pool' ≠ pool → t.standing? id = some (pool', s) →
    t'.standing? id = some (pool', s)

/-- What is spared twice is spared. -/
theorem Spares.trans (h : Spares pool t t') (h' : Spares pool t' t'') :
  Spares pool t t''
  where
  pools pool' hne := (h'.pools pool' hne).trans (h.pools pool' hne)
  timers id pool' s hne hs := h'.timers id pool' s hne (h.timers id pool' s hne hs)

/-- A change of one pool spares the others. -/
theorem spares_updatePool (t : Timing τ) (pool : Nat) (g : TimerPool → TimerPool) :
  Spares pool t (t.updatePool pool g)
  where
  pools pool' hne := by
    rw [updatePool, Table.get?_modify, if_neg hne.symm]
  timers _ _ _ _ hs := hs

/-- Timers of a pool are operated on. -/
theorem Spares.of_map (hpools : t'.pools = t.pools) {m : Nat → Option (Nat × TimerStatus)}
    (hmap : ∀ id, t'.standing? id = if id ∈ ids then m id else t.standing? id)
    (hids : ∀ id ∈ ids, ∃ s, t.standing? id = some (pool, s)) :
  Spares pool t t'
  where
  pools pool' _ := by rw [hpools]
  timers id pool' s hne hs := by
    rw [hmap, if_neg, hs]
    intro hid
    obtain ⟨s', hs'⟩ := hids id hid
    rw [hs] at hs'
    cases hs'
    exact hne rfl

/-- The stash of a pool stays as it is when another pool is operated on. -/
theorem Stays.spares (h : t.Stays pool status) (hs : Spares pool' t t') (ht : t.Homed)
    (hp : t.Owns pool p) (hne : pool ≠ pool') :
  t'.Stays pool status
  := by
  intro id hid s' hs' hunfinished
  have hstash : t'.stashOf pool = t.stashOf pool := by
    rw [stashOf, hs.pools pool hne, stashOf]
  rw [hstash] at hid
  obtain ⟨s, hstanding⟩ := ht pool p hp.there id (.inr (stashOf_of_get? hp.there ▸ hid))
  have hsame := hs.timers id pool s hne hstanding
  rw [hs'] at hsame
  cases hsame
  exact h id hid _ hstanding hunfinished

/-- What is listed or stashed in a pool is a timer of it. -/
theorem Homed.of_listed (ht : t.Homed) {id : Nat}
    (hid : id ∈ t.timersOf pool ∨ id ∈ t.stashOf pool) :
  ∃ s, t.standing? id = some (pool, s)
  := by
  rw [timersOf, stashOf] at hid
  cases hp : t.pools.get? pool with
  | none => simp [hp] at hid
  | some p =>
    rw [hp] at hid
    exact ht pool p hp id hid

/-- A pause reaches the timers of one pool. -/
theorem Homed.spares_pauseAll (ht : t.Homed) (pool : Nat) :
  Spares pool t (t.pauseAll pool)
  := (spares_updatePool t pool _).trans
    (.of_map (pools_pauseEach _ _) (standing?_pauseEach _ _) fun _ hid => ht.of_listed (.inl hid))

/-- A start reaches the timers of one pool. -/
theorem Homed.spares_startAll (ht : t.Homed) (pool : Nat) :
  Spares pool t (t.startAll pool)
  := (spares_updatePool t pool _).trans
    (.of_map (pools_startEach _ _) (standing?_startEach _ _) fun _ hid => ht.of_listed (.inl hid))

/-- Waking reaches the timers of one pool. -/
theorem Homed.spares_wake (ht : t.Homed) (pool : Nat) :
  Spares pool t (t.wake pool)
  := (spares_updatePool t pool _).trans
    (.of_map (pools_startEach _ _) (standing?_startEach _ _)
      fun _ hid => ht.of_listed (.inr (List.mem_reverse.mp hid)))

/-- A pool that is emptied destroys its own timers. -/
theorem Homed.spares_destroyAll (ht : t.Homed) (pool : Nat) :
  Spares pool t (t.destroyAll pool)
  := (spares_updatePool t pool _).trans
    (.of_map (pools_destroyEach _ _) (standing?_destroyEach _ _)
      fun _ hid => ht.of_listed (.inl hid))

/-- Standby reaches the timers of one pool. -/
theorem Homed.spares_standby (ht : t.Homed) (pool : Nat) :
  Spares pool t (t.standby pool)
  := by
  rw [standby]
  split
  · exact spares_updatePool t pool _
  · refine Spares.trans ?_ (spares_updatePool _ pool _)
    refine (spares_updatePool t pool fun p =>
      { p with stash := p.stash.filter fun id => !t.isFinished id }).trans ?_
    exact .of_map (pools_pauseEach _ _) (standing?_pauseEach _ _)
      fun _ hid => ht.of_listed (.inl (List.mem_filter.mp hid).1)

/-! ### Operations on the pool -/

/-- After a start of their pool all stashed timers run that are not over. -/
theorem stays_startAll (hp : t.Owns pool p) :
  (t.startAll pool).Stays pool .running
  := by
  intro id _ s hs hunfinished
  refine (standing?_startAll hp hs).resolve_right ?_
  rw [hunfinished]
  exact Bool.false_ne_true

/-- A pause of their pool pauses the stashed timers that run. -/
theorem Stays.pauseAll (h : t.Stays pool status) (hp : t.Owns pool p)
    (hstatus : status.suspended = .paused) :
  (t.pauseAll pool).Stays pool .paused
  := by
  intro id hid s hs hunfinished
  rw [Timing.pauseAll, stashOf_congr (pools_pauseEach _ _), stashOf_updatePool t pool _ hp.there,
    ← stashOf_of_get? hp.there] at hid
  rw [Timing.pauseAll, standing?_pauseEach, timersOf_of_get? hp.there] at hs
  split at hs
  · obtain ⟨⟨pool', s'⟩, hs', heq⟩ := Option.map_eq_some_iff.mp hs
    obtain ⟨rfl, rfl⟩ := Prod.mk.inj heq
    cases hfinished : s'.isFinished with
    | true =>
      rw [TimerStatus.suspended_of_isFinished hfinished, hfinished] at hunfinished
      cases hunfinished
    | false => rw [h id hid s' hs' hfinished, hstatus]
  · next hnot => exact absurd (hp.listed id s hs hunfinished) hnot

/-- A pool that wakes or destroys its timers stashes none. -/
theorem Stays.of_stash_nil (hstash : t.stashOf pool = []) :
  t.Stays pool status
  := by
  intro id hid
  rw [hstash] at hid
  cases hid

/-- After waking nothing is stashed. -/
theorem stays_wake (hp : t.Owns pool p) :
  (t.wake pool).Stays pool status
  := .of_stash_nil ((stashOf_congr (pools_startEach _ _) pool).trans
    (stashOf_updatePool t pool _ hp.there))

theorem stays_destroyAll (hp : t.Owns pool p) :
  (t.destroyAll pool).Stays pool status
  := .of_stash_nil ((stashOf_congr (pools_destroyEach _ _) pool).trans
    (stashOf_updatePool t pool _ hp.there))

/-- A pool that is on standby stays so. -/
theorem Stays.standby (h : t.Stays pool status) (hp : t.Owns pool p)
    (hstandby : t.inStandby pool = true) :
  (t.standby pool).Stays pool status
  := by
  intro id hid s hs hunfinished
  rw [Timing.standby] at hid hs
  simp only [hstandby, if_true] at hid hs
  rw [stashOf_updatePool t pool _ hp.there] at hid
  exact h id (stashOf_of_get? hp.there ▸ (List.mem_filter.mp hid).1) s hs hunfinished

/-- What a pool does to the standing of its timers when it is put on standby. -/
theorem standing?_standby (hstandby : t.inStandby pool = false) (id : Nat) :
  (t.standby pool).standing? id
    = if id ∈ (t.timersOf pool).filter t.isRunning
      then (t.standing? id).map fun q => (q.1, q.2.suspended) else t.standing? id
  := by
  rw [Timing.standby]
  simp only [hstandby, Bool.false_eq_true, if_false]
  exact standing?_pauseEach (t.updatePool pool fun p =>
    { p with stash := p.stash.filter fun id => !t.isFinished id }) _ id

/-- A pool that is put on standby pauses the timers that it stashes. -/
theorem stays_standby (hp : t.Owns pool p) (hstandby : t.inStandby pool = false) :
  (t.standby pool).Stays pool .paused
  := by
  intro id hid s hs hunfinished
  have hmem : id ∈ (t.timersOf pool).filter t.isRunning := by
    rw [Timing.standby] at hid
    simp only [hstandby, Bool.false_eq_true, if_false] at hid
    have hthere : ((t.updatePool pool fun p => { p with
        stash := p.stash.filter fun id => !t.isFinished id }).pauseEach
          ((t.timersOf pool).filter t.isRunning)).pools.get? pool
        = some { p with stash := p.stash.filter fun id => !t.isFinished id } := by
      rw [pools_pauseEach, updatePool, Table.get?_modify, if_pos rfl, hp.there]
      rfl
    rw [stashOf_updatePool _ pool _ hthere, List.mem_append] at hid
    refine hid.resolve_left fun hold => ?_
    -- What was stashed before is over.
    obtain ⟨hstash, hunfinished⟩ := List.mem_filter.mp hold
    have hnot : ¬t.inStandby pool = true := by simp [hstandby]
    refine hnot (inStandby_iff.mpr ⟨id, stashOf_of_get? hp.there ▸ hstash, ?_⟩)
    simpa using hunfinished
  rw [standing?_standby hstandby, if_pos hmem] at hs
  obtain ⟨⟨pool', s'⟩, hs', heq⟩ := Option.map_eq_some_iff.mp hs
  obtain ⟨rfl, rfl⟩ := Prod.mk.inj heq
  have hrunning := (List.mem_filter.mp hmem).2
  rw [isRunning, status?_of_standing? hs'] at hrunning
  obtain rfl := Option.some.inj (of_decide_eq_true hrunning)
  rfl

/-- After a pool was put on standby, none of its timers runs. -/
theorem standing?_standby_ne {id : Nat} {s : TimerStatus} (hp : t.Owns pool p)
    (hstandby : t.inStandby pool = false) (hs : (t.standby pool).standing? id = some (pool, s)) :
  s ≠ .running
  := by
  rintro rfl
  rw [standing?_standby hstandby] at hs
  split at hs
  · obtain ⟨q, -, heq⟩ := Option.map_eq_some_iff.mp hs
    exact TimerStatus.suspended_ne_running q.2 (Prod.mk.inj heq).2
  · next hnot =>
    refine hnot (List.mem_filter.mpr ⟨?_, ?_⟩)
    · rw [timersOf_of_get? hp.there]
      exact hp.listed id _ hs rfl
    · rw [isRunning, status?_of_standing? hs]
      rfl

end Timing

/-! ### Calls -/

/-- The status of stashed timers that are not over, by whether all timers of the pool were
started since. -/
def TimerStatus.stashed (released : Bool) : TimerStatus :=
  if released then running else paused

@[simp]
theorem TimerStatus.stashed_true :
  stashed true = running
  := rfl

@[simp]
theorem TimerStatus.stashed_false :
  stashed false = paused
  := rfl

/-- Whether the stashed timers of a pool run after a call, if they did before it or not. -/
def Call.releases (pool : Nat) (t : Timing (Callback κ)) (released : Bool) : Call κ → Bool
  | .startAll pool' => pool' = pool || released
  | .pauseAll pool' => pool' ≠ pool && released
  | .standby pool' => (pool' ≠ pool || t.inStandby pool) && released
  | _ => released

/-- The timer that a call starts or pauses. -/
def Call.timer? : Call κ → Option Nat
  | .startTimer timer => some timer
  | .pauseTimer timer => some timer
  | .restartTimer timer => some timer
  | .completion timer => some timer
  | _ => none

section

open Timing

variable {t : Timing (Callback κ)} {pool : Nat} {p : TimerPool} {released : Bool}

/-- An operation of the host on timers, unless it starts or pauses a timer that is stashed. -/
theorem Call.stays {call : Call κ} {f : Timing (Callback κ) → Timing (Callback κ)}
    (hf : call.operation? = some f) (ht : t.Homed) (hp : t.Owns pool p)
    (hcall : ∀ id, call.timer? = some id → id ∈ t.stashOf pool → t.status? id = some .idle)
    (h : t.Stays pool (.stashed released)) :
  (f t).Stays pool (.stashed (call.releases pool t released))
  := by
  have hstatus : TimerStatus.stashed released ≠ .idle := by cases released <;> decide
  have hone {id : Nat} (hid : call.timer? = some id) :
      ∀ id' ∈ [id], id' ∈ t.stashOf pool → t.status? id' = some .idle := by
    intro id' hid'
    obtain rfl := List.mem_singleton.mp hid'
    exact hcall id' hid
  have hnone : ∀ id ∈ ([] : List Nat), id ∈ t.stashOf pool → t.status? id = some .idle :=
    fun _ hid => absurd hid List.not_mem_nil
  cases call with
  | schedule | cancel =>
    cases hf
    exact h.stirs ht hp (.frame rfl rfl) hstatus hnone
  | newTimer =>
    cases hf
    exact h.stirs ht hp (.newTimer t _ _ _) hstatus hnone
  | startTimer =>
    cases hf
    exact h.stirs ht hp (.start t _) hstatus (hone rfl)
  | pauseTimer =>
    cases hf
    exact h.stirs ht hp (.pause t _) hstatus (hone rfl)
  | restartTimer =>
    cases hf
    exact h.stirs ht hp (.restart t _) hstatus (hone rfl)
  | destroyTimer =>
    cases hf
    exact h.stirs ht hp (.destroy t _) hstatus hnone
  | completion =>
    cases hf
    exact h.stirs ht hp (.completion t _) hstatus (hone rfl)
  | receive =>
    cases hf
    exact h.stirs ht hp (.receive t _) hstatus hnone
  | startAll pool' =>
    cases hf
    by_cases heq : pool' = pool
    · subst heq
      simpa [releases] using stays_startAll hp
    · simpa [releases, heq] using h.spares (ht.spares_startAll pool') ht hp (Ne.symm heq)
  | pauseAll pool' =>
    cases hf
    by_cases heq : pool' = pool
    · subst heq
      simpa [releases] using h.pauseAll hp (by cases released <;> rfl)
    · simpa [releases, heq] using h.spares (ht.spares_pauseAll pool') ht hp (Ne.symm heq)
  | standby pool' =>
    cases hf
    by_cases heq : pool' = pool
    · subst heq
      cases hstandby : t.inStandby pool' with
      | true => simpa [releases, hstandby] using h.standby hp hstandby
      | false => simpa [releases, hstandby] using stays_standby hp hstandby
    · simpa [releases, heq] using h.spares (ht.spares_standby pool') ht hp (Ne.symm heq)
  | wake pool' =>
    cases hf
    by_cases heq : pool' = pool
    · exact heq ▸ stays_wake (heq ▸ hp)
    · exact h.spares (ht.spares_wake pool') ht hp (Ne.symm heq)
  | destroyAll pool' =>
    cases hf
    by_cases heq : pool' = pool
    · exact heq ▸ stays_destroyAll (heq ▸ hp)
    · exact h.spares (ht.spares_destroyAll pool') ht hp (Ne.symm heq)
  | _ => cases hf

end

namespace Configuration

variable {H : Host κ π σ} {cs before after : List (Configuration κ π σ)}
  {a c d : Configuration κ π σ} {pool : Nat} {p : TimerPool}

/-! ### Runs -/

/-- Whether the host starts or pauses a timer in the next step that is stashed and was
started. -/
def disturbs (pool : Nat) (c : Configuration κ π σ) : Bool :=
  match c.control with
  | .host (.call call _) =>
    match call.timer? with
    | some id =>
      (c.engine.timing.stashOf pool).contains id && c.engine.timing.status? id ≠ some .idle
    | none => false
  | _ => false

/-- Whether the stashed timers of a pool run after successive configurations: all timers of
the pool were started since it was put on standby, and not paused again. -/
def released (pool : Nat) (cs : List (Configuration κ π σ)) : Bool :=
  cs.foldl (fun released c =>
    match c.control with
    | .host (.call call _) => call.releases pool c.engine.timing released
    | _ => released) false

/-- Whether stashed timers run, by the call that was made last. -/
theorem released_concat (pool : Nat) (cs : List (Configuration κ π σ))
    (c : Configuration κ π σ) :
  released pool (cs ++ [c])
    = match c.control with
      | .host (.call call _) => call.releases pool c.engine.timing (released pool cs)
      | _ => released pool cs
  := List.foldl_concat _ _ _ _

/-- However a run goes on, the stashed timers of a pool that are not over have one status. -/
theorem Evolves.stays (h : Evolves H c d) (hc : c.engine.timing.Homed)
    (hp : c.engine.timing.Owns pool p) (hquiet : c.disturbs pool = false)
    (hstays : c.engine.timing.Stays pool (.stashed (released pool cs))) :
  d.engine.timing.Stays pool (.stashed (released pool (cs ++ [c])))
  := by
  have hstatus : TimerStatus.stashed (released pool cs) ≠ .idle := by
    cases released pool cs <;> decide
  have hstirs (hstirs : c.engine.timing.Stirs [] d.engine.timing)
      (hsame : released pool (cs ++ [c]) = released pool cs) :
      d.engine.timing.Stays pool (.stashed (released pool (cs ++ [c]))) :=
    hsame ▸ hstays.stirs hc hp hstirs hstatus fun _ hid => absurd hid List.not_mem_nil
  have hidle (hidle : c.IsIdle) : released pool (cs ++ [c]) = released pool cs := by
    obtain ⟨-, reply, hcontrol⟩ := hidle
    rw [released_concat, hcontrol]
  cases h with
  | enter memory code h =>
    exact hstirs (Timing.Stirs.covers.enter (c := idle c.engine memory) (.refl _) code) (hidle h)
  | addRegistry pool h => exact hstirs (.refl _) (hidle h)
  | addPool h => exact hstirs (.addPool _) (hidle h)
  | step _ hstep =>
    have hoperation (hnone : c.operation? = none) :
        released pool (cs ++ [c]) = released pool cs := by
      rw [released_concat]
      split
      · next call point hcontrol =>
        rw [operation?, hcontrol] at hnone
        cases call <;> first | rfl | cases hnone
      · rfl
    obtain ⟨f, hf, -, htiming⟩ | ⟨target, hnone, -, hcovered⟩ | ⟨hnone, -, hcovered⟩ :=
      Timing.Stirs.covers.step hstep
    · obtain ⟨call, point, hcontrol, hf⟩ := exists_call_of_operation? hf
      rw [htiming, released_concat, hcontrol]
      rw [disturbs, hcontrol] at hquiet
      refine call.stays hf hc hp ?_ hstays
      intro id hid hstash
      simp only [hid] at hquiet
      simpa [hstash] using hquiet
    · exact hstirs ((Timing.Stirs.tick _ target).trans hcovered) (hoperation hnone)
    · exact hstirs hcovered (hoperation hnone)

/-- Through a run in which no stashed timer is started or paused by itself, all stashed timers
that are not over have one status. -/
theorem Run.stays (h : Run H (before ++ a :: after) c)
    (hpool : a.engine.timing.pools.get? pool = some .empty)
    (hnew : ∀ id x, a.engine.timing.timers.get? id = some x → x.pool ≠ pool)
    (hquiet : ∀ b ∈ a :: after, b.disturbs pool = false) :
  c.engine.timing.Stays pool (.stashed (released pool (a :: after)))
  := by
  refine h.since (p := fun passed b => (∀ b ∈ passed, b.disturbs pool = false) →
    (∃ p, b.engine.timing.Owns pool p)
      ∧ b.engine.timing.Stays pool (.stashed (released pool passed))) ?_ ?_ hquiet |>.2
  · exact fun _ => ⟨⟨.empty, Timing.owns_of_new hpool hnew⟩,
      .of_stash_nil (Timing.stashOf_of_get? hpool)⟩
  · intro rest c d hrun hstep hc hquiet
    obtain ⟨⟨p, hp⟩, hstays⟩ := hc fun b hb => hquiet b (List.mem_append_left _ hb)
    exact ⟨hstep.guards.owns hrun.homed pool p hp,
      hstep.stays hrun.homed hp (hquiet c (by simp)) hstays⟩

/-- When the stashed timers of a pool wait, and what a call to put the pool on standby does, in a
run in which the host starts and pauses timers that are stashed by calls for the whole pool
alone.

A stashed timer that is not over is paused, unless all timers of the pool were started since it
was put on standby: then it runs, although it is still stashed.  So a pool that is on standby
has a timer that waits until all are started.  When none waits, a call to put the pool on
standby leaves none of its timers running if and only if no timer is stashed that is not
over. -/
theorem Run.standby_iff (h : Run H (before ++ a :: after) c)
    (hpool : a.engine.timing.pools.get? pool = some .empty)
    (hnew : ∀ id x, a.engine.timing.timers.get? id = some x → x.pool ≠ pool)
    (hquiet : ∀ b ∈ a :: after, b.disturbs pool = false) :
  (∀ id ∈ c.engine.timing.stashOf pool, ∀ x, c.engine.timing.timers.get? id = some x →
      x.status.isFinished = false →
      x.status = if released pool (a :: after) then .running else .paused)
    ∧ (c.engine.timing.inStandby pool = true →
      ((∃ id ∈ c.engine.timing.stashOf pool, c.engine.timing.status? id = some .paused)
        ↔ released pool (a :: after) = false))
    ∧ ∀ point, c.control = .host (.call (.standby pool) point) →
      (∀ id ∈ c.engine.timing.stashOf pool, c.engine.timing.status? id ≠ some .paused) →
      ∃ d, step? H c = some d
        ∧ ((∀ id x, d.engine.timing.timers.get? id = some x → x.pool = pool →
            x.status ≠ .running)
          ↔ c.engine.timing.inStandby pool = false)
  := by
  obtain ⟨p, hp⟩ := h.pool_owns hpool hnew
  have hstays := h.stays hpool hnew hquiet
  have hhomed := h.homed
  -- A pool that is on standby stashes a timer that runs or waits.
  have hstashed (hstandby : c.engine.timing.inStandby pool = true) :
      ∃ id ∈ c.engine.timing.stashOf pool, c.engine.timing.standing? id
        = some (pool, .stashed (released pool (a :: after))) := by
    obtain ⟨id, hid, hunfinished⟩ := Timing.inStandby_iff.mp hstandby
    obtain ⟨s, hs⟩ := hhomed.of_listed (.inr hid)
    rw [Timing.isFinished, Timing.status?_of_standing? hs] at hunfinished
    exact ⟨id, hid, hstays id hid s hs hunfinished ▸ hs⟩
  refine ⟨?_, ?_, ?_⟩
  · intro id hid x hx hunfinished
    obtain ⟨s, hs⟩ := hhomed.of_listed (.inr hid)
    have hxs := Timing.standing?_of_get? hx
    rw [hs] at hxs
    obtain ⟨-, rfl⟩ := Prod.mk.inj (Option.some.inj hxs)
    exact hstays id hid _ hs hunfinished
  · intro hstandby
    constructor
    · rintro ⟨id, hid, hpaused⟩
      obtain ⟨s, hs⟩ := hhomed.of_listed (.inr hid)
      rw [Timing.status?_of_standing? hs] at hpaused
      obtain rfl := Option.some.inj hpaused
      have hstatus := hstays id hid _ hs rfl
      cases hreleased : released pool (a :: after) with
      | false => rfl
      | true =>
        rw [hreleased] at hstatus
        cases hstatus
    · intro hreleased
      obtain ⟨id, hid, hs⟩ := hstashed hstandby
      rw [hreleased] at hs
      exact ⟨id, hid, Timing.status?_of_standing? hs⟩
  · intro point hcontrol hnone
    rw [step?, hcontrol]
    refine ⟨_, rfl, ?_⟩
    cases hstandby : c.engine.timing.inStandby pool with
    | false =>
      refine iff_of_true (fun id x hx hxp => ?_) rfl
      exact Timing.standing?_standby_ne hp hstandby (hxp ▸ Timing.standing?_of_get? hx)
    | true =>
      refine iff_of_false (fun hresting => ?_) Bool.noConfusion
      obtain ⟨id, hid, hs⟩ := hstashed hstandby
      cases hreleased : released pool (a :: after) with
      | false =>
        rw [hreleased] at hs
        exact hnone id hid (Timing.status?_of_standing? hs)
      | true =>
        rw [hreleased] at hs
        have hrunning : (c.engine.timing.standby pool).standing? id = some (pool, .running) := by
          rw [Timing.standby]
          simp only [hstandby, if_true]
          exact hs
        obtain ⟨x, hx, heq⟩ := Option.map_eq_some_iff.mp hrunning
        obtain ⟨hxp, hstatus⟩ := Prod.mk.inj heq
        exact hresting id x hx hxp hstatus

/-- A timer is put on standby twice, and wakes between the two. -/
def woken : Script Unit :=
  [.newTimer 0 5 (some ()), .startTimer 0, .standby 0, .wake 0, .standby 0]

/-- A timer is put on standby twice, and all timers are started between the two. -/
def restarted : Script Unit :=
  [.newTimer 0 5 (some ()), .startTimer 0, .standby 0, .startAll 0, .standby 0]

/-- The timer waits after it was put on standby, and does so again after it has woken and run. -/
theorem relay_standby_iff :
  (relayRun woken 7).2.engine.timing.inStandby 0 = true
    ∧ (∃ id ∈ (relayRun woken 7).2.engine.timing.stashOf 0,
      (relayRun woken 7).2.engine.timing.status? id = some .paused)
    ∧ (relayRun woken 10).2.engine.timing.status? 0 = some .running
    ∧ ∃ d, step? relayHost (relayRun woken 10).2 = some d
      ∧ ∀ id x, d.engine.timing.timers.get? id = some x → x.pool = 0 → x.status ≠ .running
  := by
  have hasleep : (relayRun woken 7).2.engine.timing.inStandby 0 = true := by decide +kernel
  have hawake : (relayRun woken 10).2.engine.timing.inStandby 0 = false := by decide +kernel
  obtain ⟨-, hwaits, -⟩ := (@run_pooledRun woken 7 (by decide +kernel)).standby_iff pools_pooled
    timers_pooled (by decide +kernel)
  obtain ⟨-, -, hstandby⟩ := (@run_pooledRun woken 10 (by decide +kernel)).standby_iff pools_pooled
    timers_pooled (by decide +kernel)
  have hstash : (relayRun woken 10).2.engine.timing.stashOf 0 = [] := by decide +kernel
  obtain ⟨d, hd, hiff⟩ :=
    hstandby [] rfl (by rw [hstash]; exact fun _ h => absurd h List.not_mem_nil)
  exact ⟨hasleep, (hwaits hasleep).mpr (by decide +kernel), by decide +kernel, d, hd,
    hiff.mpr hawake⟩

/-- All timers were started, and with them the one on standby: it runs although it is stashed,
none waits although the pool is on standby, and a call to put it there leaves the timer
running. -/
theorem relay_not_standby :
  ∃ before a after c, Run relayHost (before ++ a :: after) c
    ∧ a.engine.timing.pools.get? 0 = some .empty ∧ (∀ b ∈ a :: after, b.disturbs 0 = false)
    ∧ c.engine.timing.stashOf 0 = [0] ∧ c.engine.timing.status? 0 = some .running
    ∧ c.engine.timing.inStandby 0 = true
    ∧ (∀ id ∈ c.engine.timing.stashOf 0, c.engine.timing.status? id ≠ some .paused)
    ∧ c.control = .host (.call (.standby 0) [])
    ∧ ∃ d, step? relayHost c = some d ∧ d.engine.timing.status? 0 = some .running
  := by
  have hstash : (relayRun restarted 10).2.engine.timing.stashOf 0 = [0] := by decide +kernel
  refine ⟨_, _, _, _, @run_pooledRun restarted 10 (by decide +kernel), pools_pooled,
    by decide +kernel, hstash, by decide +kernel, by decide +kernel, by decide +kernel, rfl,
    (relayRun restarted 11).2, rfl, by decide +kernel⟩

end Configuration

end Statechart
