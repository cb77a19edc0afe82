import Statechart.Proofs.Telling

/-!
# Listeners that are informed

The last snapshot that a listener was told is the current one.  The exception is a listener that was
registered when its instance was started at a snapshot of the host's choice: this one it is not
told, and until something is committed it knows the initial snapshot only
(`Configuration.Run.informed`).
-/

namespace Statechart

variable {κ π σ : Type}

/-- Snapshots with the same value and the same context. -/
def Snapshot.Agrees (s s' : Snapshot κ) : Prop :=
  s.value = s'.value ∧ s.context = s'.context

namespace Configuration

variable {H : Host κ π σ} {cs : List (Configuration κ π σ)} {b c d : Configuration κ π σ}
  {i l : Nat} {x y : Instance κ} {s : Snapshot κ}

/-! ### Starts at a snapshot -/

/-- The snapshot that the host starts an instance at in the next step, if it was never started. -/
def startsAt? (i : Nat) (c : Configuration κ π σ) : Option (Snapshot κ) :=
  match c.control, c.engine.get? i with
  | .host (.call (.startWith j value context) _), some x =>
    if j = i ∧ x.status = .notStarted then (x.machine.snapshotAt value context).toOption else none
  | .host (.call (.startAt j value) _), some x =>
    if j = i ∧ x.status = .notStarted then (x.machine.snapshotAt value x.machine.context).toOption
    else none
  | _, _ => none

theorem startsAt?_of_startsAt (h : StartsAt i s c) (hx : c.engine.get? i = some x)
    (hnot : x.status = .notStarted) :
  startsAt? i c = some s
  := by
  obtain ⟨x', value, context, point, hx', hs, hcontrol⟩ := h
  obtain rfl := Option.some.inj (hx.symm.trans hx')
  obtain hcontrol | ⟨hcontrol, rfl⟩ := hcontrol
  · simp only [startsAt?, hcontrol, hx, hnot, and_self, if_true, hs]
    rfl
  · simp only [startsAt?, hcontrol, hx, hnot, and_self, if_true, hs]
    rfl

theorem startsAt_of_startsAt? (h : startsAt? i c = some s) :
  StartsAt i s c ∧ ∃ x, c.engine.get? i = some x ∧ x.status = .notStarted
  := by
  have hok {result : Except MachineError (Snapshot κ)} (h : result.toOption = some s) :
      result = .ok s := by
    cases result with
    | ok s' => exact congrArg Except.ok (Option.some.inj h)
    | error e => cases h
  rw [startsAt?.eq_def] at h
  split at h
  · next j value context point x hcontrol hx =>
    rw [Option.ite_none_right_eq_some] at h
    obtain ⟨⟨rfl, hnot⟩, hs⟩ := h
    exact ⟨⟨x, value, context, point, hx, hok hs, .inl hcontrol⟩, x, hx, hnot⟩
  · next j value point x hcontrol hx =>
    rw [Option.ite_none_right_eq_some] at h
    obtain ⟨⟨rfl, hnot⟩, hs⟩ := h
    exact ⟨⟨x, value, _, point, hx, hok hs, .inr ⟨hcontrol, rfl⟩⟩, x, hx, hnot⟩
  · cases h

/-- An instance is started at a snapshot by a call of the host. -/
theorem control_of_startsAt? (h : startsAt? i c = some s) :
  ∃ next, c.control = .host next
  := by
  obtain ⟨⟨_, _, _, _, -, -, hcontrol | ⟨hcontrol, -⟩⟩, -⟩ := startsAt_of_startsAt? h
  · exact ⟨_, hcontrol⟩
  · exact ⟨_, hcontrol⟩

/-- An instance that is started at a snapshot runs then, and has this snapshot. -/
theorem Evolves.of_startsAt? (hstep : Evolves H c d) (h : startsAt? i c = some s)
    (hy : d.engine.get? i = some y) :
  y.snapshot = s ∧ y.isRunning = true
  := by
  obtain ⟨⟨x, value, context, point, hx, hs, hcontrol⟩, x', hx', hnot⟩ := startsAt_of_startsAt? h
  obtain rfl := Option.some.inj (hx.symm.trans hx')
  have hcalling : (c.withStack (.waiting point :: c.stack)).engine.get? i = some x := hx
  have hd : (startWith (c.withStack (.waiting point :: c.stack)) i value context).engine
      = d.engine := by
    obtain hcontrol | ⟨hcontrol, rfl⟩ := hcontrol
    · rw [hstep.eq_perform hcontrol, perform]
    · simp only [hstep.eq_perform hcontrol, perform, startAt, hcalling]
  rw [← hd] at hy
  exact of_startWith hcalling hnot hs hy

/-- An instance that is started at a snapshot has been started ever since. -/
theorem Run.begun_of_startsAt? (h : Run H cs c) (hb : b ∈ cs) (hstarts : startsAt? i b = some s) :
  c.engine.Begun i
  := by
  obtain ⟨-, z, hz, -⟩ := startsAt_of_startsAt? hstarts
  obtain ⟨before, after, rfl⟩ := List.append_of_mem hb
  refine h.after (p := fun _ c => c.engine.Begun i) ?_ ?_
  · intro d hrun hstep
    obtain ⟨mid, hgoes⟩ := hrun.goes hstep
    constructor
    · rw [hgoes.releases.next]
      exact Nat.lt_of_lt_of_le (Engine.lt_next_of_get? hz) hgoes.next_le
    · intro y hy
      exact Instance.status_ne_notStarted (hstep.of_startsAt? hstarts hy).2
  · intro passed c d hrun hstep hbegun
    obtain ⟨mid, hgoes⟩ := hrun.goes hstep
    exact hgoes.begun hbegun

/-- An instance is started once. -/
theorem Run.startsAt?_eq_none (h : Run H cs c) (hb : b ∈ cs) (hstarts : startsAt? i b = some s) :
  startsAt? i c = none
  := by
  by_contra hagain
  obtain ⟨s', hagain⟩ := Option.ne_none_iff_exists'.mp hagain
  obtain ⟨-, x, hx, hnot⟩ := startsAt_of_startsAt? hagain
  exact (h.begun_of_startsAt? hb hstarts).2 x hx hnot

/-- The snapshot of an instance changes by being started at one and by committing one. -/
theorem Run.snapshot_next (h : Run H cs c) (hstep : Evolves H c d)
    (hx : c.engine.get? i = some x) (hy : d.engine.get? i = some y) :
  y.snapshot = ((startsAt? i c).or (commits? H i c)).getD x.snapshot
  := by
  cases hstarts : startsAt? i c with
  | some s => exact (hstep.of_startsAt? hstarts hy).1
  | none =>
    rw [Option.none_or]
    by_cases hnew : x.status = .notStarted ∧ y.isRunning = true
    · obtain ⟨hnot, hrunning⟩ := hnew
      -- An instance that was never started has nothing to commit.
      have hcommits : commits? H i c = none := commits?_eq_none fun _ _ _ _ hstack => by
        have hw : workOf i c.stack ≠ none := by
          rw [hstack, workOf_working_self]
          exact nofun
        have hruns := h.isRunning_of_workOf hx hw (by rw [hnot]; exact nofun)
        rw [Instance.isRunning, hnot] at hruns
        cases hruns
      rw [hcommits]
      obtain hinitial | hat := h.snapshot_of_started hstep hx hnot hy hrunning
      · exact hinitial.trans (h.untouched_of_notStarted hx hnot).1.symm
      · rw [startsAt?_of_startsAt hat hx hnot] at hstarts
        cases hstarts
    · exact h.snapshot_step hstep hx hy fun hnot =>
        Bool.not_eq_true _ ▸ fun hrunning => hnew ⟨hnot, hrunning⟩

/-! ### Listeners that are passed over -/

/-- A listener was registered when its instance was started at a snapshot, and nothing has been
committed since. -/
def PassedOver (H : Host κ π σ) (i l : Nat) (s : Snapshot κ) (cs : List (Configuration κ π σ)) :
    Prop :=
  ∃ before b after, cs = before ++ b :: after ∧ startsAt? i b = some s
    ∧ b.engine.hasListener i l = true ∧ committed H i after = []

theorem passedOver_concat :
  PassedOver H i l s (cs ++ [c])
    ↔ (startsAt? i c = some s ∧ c.engine.hasListener i l = true)
      ∨ (PassedOver H i l s cs ∧ commits? H i c = none)
  := by
  constructor
  · rintro ⟨before, b, after, heq, hstarts, hl, hnothing⟩
    obtain rfl | ⟨rest, last, rfl⟩ := List.eq_nil_or_concat after
    · obtain ⟨rfl, hlast⟩ := List.append_inj' heq rfl
      obtain rfl := List.head_eq_of_cons_eq hlast
      exact .inl ⟨hstarts, hl⟩
    · rw [List.concat_eq_append, ← List.cons_append, ← List.append_assoc] at heq
      obtain ⟨rfl, hlast⟩ := List.append_inj' heq rfl
      obtain rfl := List.head_eq_of_cons_eq hlast
      rw [List.concat_eq_append, committed, filterMap_concat, List.append_eq_nil_iff,
        Option.toList_eq_nil_iff] at hnothing
      exact .inr ⟨⟨before, b, rest, rfl, hstarts, hl, hnothing.1⟩, hnothing.2⟩
  · rintro (⟨hstarts, hl⟩ | ⟨⟨before, b, after, rfl, hstarts, hl, hnothing⟩, hcommits⟩)
    · exact ⟨cs, c, [], rfl, hstarts, hl, rfl⟩
    · refine ⟨before, b, after ++ [c], by simp, hstarts, hl, ?_⟩
      rw [committed, filterMap_concat, ← committed, hnothing, hcommits]
      rfl

end Configuration

theorem Turn.nextListener_le {i : Nat} {r r' : Engine κ} {x y : Instance κ}
    {w w' : Option (List (Phase κ))} (h : Turn i r r' x w y w') :
  x.nextListener ≤ y.nextListener
  := by
  cases h with
  | keep _ hlistens =>
    cases hlistens with
    | same | remove => exact Nat.le_refl _
    | add | pass => exact Nat.le_succ _
  | _ => exact Nat.le_refl _

/-- What is due to a listener is the current snapshot. -/
theorem Instance.Publishes.eq_of_mem_due {x : Instance κ} {w : Option (List (Phase κ))}
    (h : x.Publishes w) {l : Nat} {s : Snapshot κ} (hs : s ∈ due l w) :
  s = x.snapshot
  := by
  obtain ⟨p, hp, hs⟩ := List.mem_flatMap.mp hs
  cases w with
  | none => cases hp
  | some ps =>
    cases p with
    | publish s' =>
      obtain rfl := List.mem_singleton.mp hs
      exact (h ps s rfl (.inl hp)).symm
    | notify s' ls =>
      rw [Phase.dueTo] at hs
      split at hs
      · obtain rfl := List.mem_singleton.mp hs
        exact (h ps s rfl (.inr ⟨ls, hp⟩)).symm
      · cases hs
    | _ => cases hs

namespace Configuration

variable {H : Host κ π σ} {cs : List (Configuration κ π σ)} {b c d : Configuration κ π σ}
  {i l : Nat} {x y : Instance κ} {s : Snapshot κ}

/-- The number of a listener that was registered is not given again. -/
theorem Run.lt_nextListener (h : Run H cs c) (hb : b ∈ cs)
    (hl : b.engine.hasListener i l = true) (hx : c.engine.get? i = some x) :
  l < x.nextListener
  := by
  obtain ⟨before, after, rfl⟩ := List.append_of_mem hb
  rw [Engine.hasListener] at hl
  split at hl
  · next z hz =>
    obtain ⟨a, ha, rfl⟩ := Instance.hasListener_iff.mp hl
    refine (h.since (p := fun _ c => i < c.engine.instances.next ∧
      ∀ x, c.engine.get? i = some x → a.1 < x.nextListener) ⟨Engine.lt_next_of_get? hz, ?_⟩ ?_).2
      x hx
    · intro z' hz'
      obtain rfl := Option.some.inj (hz.symm.trans hz')
      exact (h.of_append.numbered hz).below a ha
    · intro passed c d hrun hstep ih
      obtain ⟨mid, hgoes⟩ := hrun.goes hstep
      apply hgoes.kept ih
      intro x y hx hmid hlt
      exact Nat.lt_of_lt_of_le hlt (hgoes.turn hx hmid).nextListener_le
  · cases hl

/-- What a registered listener knows last, when it has been told what is due: the current snapshot,
or the initial one if it has been passed over. -/
structure Knows (H : Host κ π σ) (i l : Nat) (x : Instance κ) (cs : List (Configuration κ π σ))
    (known : List (Snapshot κ)) : Prop where
  current : (∀ s, ¬PassedOver H i l s cs) → known.getLast? = some x.snapshot
  initial : ∀ s, PassedOver H i l s cs →
    x.snapshot = s ∧ known.getLast? = some x.machine.initial

/-- A new listener knows the current snapshot. -/
theorem Run.knows_of_subscribe (h : Run H cs c) (hstep : Evolves H c d) {code : κ} {point : π}
    (hcontrol : c.control = .host (.call (.subscribe i code) point))
    (hx : c.engine.get? i = some x) (hy : d.engine.get? i = some y) :
  Knows H i x.nextListener y (cs ++ [c])
    (told i x.nextListener (cs ++ [c]) ++ due x.nextListener (workOf i d.stack))
  := by
  have hstarts : startsAt? i c = none := by simp [startsAt?, hcontrol]
  have hcommits : commits? H i c = none := commits?_of_host hcontrol
  have hsnapshot := h.snapshot_next hstep hx hy
  rw [hstarts, hcommits] at hsnapshot
  have hpublishes := (h.next hstep).publishes hy
  constructor
  · intro _
    rw [told, filterMap_concat, hears?_of_subscribe hcontrol hx, if_pos rfl, List.append_assoc,
      List.getLast?_append]
    have hlast : ∀ known : List (Snapshot κ), (∀ s ∈ known, s = x.snapshot) →
        ([x.snapshot] ++ known).getLast? = some x.snapshot := by
      intro known hknown
      rw [List.getLast?_append]
      cases hlast : known.getLast? with
      | none => rfl
      | some s => exact congrArg some (hknown s (List.mem_of_getLast? hlast))
    rw [Option.toList_some, hlast _ fun s hs => (hpublishes.eq_of_mem_due hs).trans hsnapshot,
      hsnapshot]
    rfl
  · intro s hpassed
    -- The number of the listener is new.
    obtain ⟨hnow, -⟩ | ⟨⟨before, b, after, rfl, -, hl, -⟩, -⟩ := passedOver_concat.mp hpassed
    · rw [hstarts] at hnow
      cases hnow
    · exact absurd (h.lt_nextListener (by simp) hl hx) (Nat.lt_irrefl _)

/-- A listener that is registered as the instance is started at a snapshot is passed over, and
goes on knowing the initial one. -/
theorem Run.knows_of_startsAt? (h : Run H cs c) (hx : c.engine.get? i = some x)
    (hl : c.engine.hasListener i l = true) (hstarts : startsAt? i c = some s)
    {known : List (Snapshot κ)} (hknows : Knows H i l x cs known) (hsnapshot : y.snapshot = s)
    (hmachine : y.machine = x.machine) :
  Knows H i l y (cs ++ [c]) known
  := by
  obtain ⟨-, x', hx', hfresh⟩ := startsAt_of_startsAt? hstarts
  obtain rfl := Option.some.inj (hx.symm.trans hx')
  have hnot : ∀ s, ¬PassedOver H i l s cs := by
    rintro s ⟨before, b, after, rfl, hb, -⟩
    rw [h.startsAt?_eq_none (by simp) hb] at hstarts
    cases hstarts
  have hknown := hknows.current hnot
  rw [(h.untouched_of_notStarted hx hfresh).1] at hknown
  refine ⟨fun hnone => absurd (passedOver_concat.mpr (.inl ⟨hstarts, hl⟩)) (hnone s), ?_⟩
  intro s' hpassed
  obtain ⟨hs', -⟩ | ⟨hbefore, -⟩ := passedOver_concat.mp hpassed
  · obtain rfl := Option.some.inj (hstarts.symm.trans hs')
    exact ⟨hsnapshot, hmachine ▸ hknown⟩
  · exact absurd hbefore (hnot s')

/-- A listener that is told what is committed knows the current snapshot. -/
theorem Knows.of_commits? (hstarts : startsAt? i c = none) (hcommits : commits? H i c = some s)
    (hsnapshot : y.snapshot = s) (known : List (Snapshot κ)) :
  Knows H i l y (cs ++ [c]) (known ++ [s])
  := by
  constructor
  · intro _
    rw [hsnapshot, List.getLast?_concat]
  · intro s' hpassed
    obtain ⟨hs', -⟩ | ⟨-, hnone⟩ := passedOver_concat.mp hpassed
    · cases hstarts.symm.trans hs'
    · cases hcommits.symm.trans hnone

/-- Nothing changes for a listener while its instance is not started and commits nothing. -/
theorem Knows.concat {known : List (Snapshot κ)} (h : Knows H i l x cs known)
    (hstarts : startsAt? i c = none) (hcommits : commits? H i c = none)
    (hsnapshot : y.snapshot = x.snapshot) (hmachine : y.machine = x.machine) :
  Knows H i l y (cs ++ [c]) known
  := by
  constructor
  · intro hnone
    rw [hsnapshot]
    exact h.current fun s hs => hnone s (passedOver_concat.mpr (.inr ⟨hs, hcommits⟩))
  · intro s hpassed
    obtain ⟨hs, -⟩ | ⟨hs, -⟩ := passedOver_concat.mp hpassed
    · cases hstarts.symm.trans hs
    · rw [hsnapshot, hmachine]
      exact h.initial s hs

/-- What a listener knows, when it has been told what is due, after a step of the run. -/
theorem Run.knows_next (h : Run H cs c) (hstep : Evolves H c d) (hx : c.engine.get? i = some x)
    (hl : x.hasListener l = true) (hy : d.engine.get? i = some y) (hnot : y.status ≠ .stopped)
    (hknows : Knows H i l x cs (told i l cs ++ due l (workOf i c.stack))) :
  Knows H i l y (cs ++ [c]) (told i l (cs ++ [c]) ++ due l (workOf i d.stack))
  := by
  obtain ⟨mid, hgoes⟩ := h.goes hstep
  have hmachine := (hgoes.turn hx (hgoes.releases.get?_of_get? hy)).machine_eq.1
  have hsnapshot := h.snapshot_next hstep hx hy
  rw [told, filterMap_concat, ← told, List.append_assoc, h.hears_step hstep hx hl hy hnot,
    ← List.append_assoc]
  cases hstarts : startsAt? i c with
  | some s =>
    have hthere : c.engine.hasListener i l = true := by rwa [Engine.hasListener, hx]
    obtain ⟨_, hcontrol⟩ := control_of_startsAt? hstarts
    rw [commits?_of_host hcontrol, Option.toList_none, List.append_nil]
    rw [hstarts] at hsnapshot
    exact h.knows_of_startsAt? hx hthere hstarts hknows hsnapshot hmachine
  | none =>
    rw [hstarts, Option.none_or] at hsnapshot
    cases hcommits : commits? H i c with
    | some s =>
      rw [hcommits] at hsnapshot
      exact .of_commits? hstarts hcommits hsnapshot _
    | none =>
      rw [hcommits] at hsnapshot
      rw [Option.toList_none, List.append_nil]
      exact hknows.concat hstarts hcommits hsnapshot hmachine

/-- What a registered listener knows last in a run, when it has been told what is due. -/
theorem Run.knows (h : Run H cs c) (hy : c.engine.get? i = some y)
    (hl : y.hasListener l = true) :
  Knows H i l y cs (told i l cs ++ due l (workOf i c.stack))
  := by
  induction h generalizing y with
  | start memory => simp [idle] at hy
  | @next cs c d hrun hstep ih =>
    have hnot : y.status ≠ .stopped := by
      intro hstopped
      obtain ⟨a, ha, -⟩ := Instance.hasListener_iff.mp hl
      rw [(hrun.next hstep).silent hy hstopped] at ha
      cases ha
    obtain ⟨mid, hgoes⟩ := hrun.goes hstep
    obtain ⟨x, hx⟩ | ⟨-, harrives⟩ := hgoes.arrives (hgoes.releases.get?_of_get? hy)
    · obtain hx' | ⟨rfl, code, point, hcontrol⟩ := hstep.had_listener hx hy hnot hl
      · exact hrun.knows_next hstep hx hx' hy hnot (ih hx hx')
      · exact hrun.knows_of_subscribe hstep hcontrol hx hy
    · obtain ⟨a, ha, -⟩ := Instance.hasListener_iff.mp hl
      generalize workOf i d.stack = w at harrives
      cases harrives <;> cases ha

/-- Whether a listener that is registered with an instance that is not at work is informed: the last
snapshot that it was told has the value and the context of the current one.

This is so if and only if it has not been passed over, or only by a snapshot that has the value and
the context of the initial one.  A listener has been passed over when it was registered as the host
started the instance at a snapshot of its choice, and nothing has been committed since. -/
theorem Run.informed (h : Run H cs c) (hy : c.engine.get? i = some y)
    (hidle : workOf i c.stack = none) (hl : y.hasListener l = true) :
  ∃ s, (told i l cs).getLast? = some s
    ∧ (s.Agrees y.snapshot ↔ ∀ s', PassedOver H i l s' cs → s'.Agrees y.machine.initial)
  := by
  obtain ⟨hcurrent, hinitial⟩ := h.knows hy hl
  rw [hidle, due_none, List.append_nil] at hcurrent hinitial
  by_cases hpassed : ∃ s, PassedOver H i l s cs
  · obtain ⟨s, hs⟩ := hpassed
    obtain ⟨rfl, hlast⟩ := hinitial s hs
    refine ⟨y.machine.initial, hlast, fun h s' hs' => ?_, fun h => ?_⟩
    · obtain ⟨rfl, -⟩ := hinitial s' hs'
      exact ⟨h.1.symm, h.2.symm⟩
    · obtain ⟨hvalue, hcontext⟩ := h _ hs
      exact ⟨hvalue.symm, hcontext.symm⟩
  · have hnone : ∀ s, ¬PassedOver H i l s cs := fun s hs => hpassed ⟨s, hs⟩
    exact ⟨y.snapshot, hcurrent hnone, fun _ s' hs' => absurd hs' (hnone s'), fun _ => ⟨rfl, rfl⟩⟩

/-- A relay with a listener that was subscribed before it was started by a call. -/
def earlyRun (calls : Script Unit) :
    List (Configuration Unit (Script Unit) Unit) × Configuration Unit (Script Unit) Unit :=
  watchedRun [] (.subscribe 0 () :: calls) 30

/-- The relay is there in the end with its listener, and is not at work. -/
theorem exists_early {calls : Script Unit} {state : String}
    (hcalls : ((earlyRun calls).1.drop 3).all (fun c => !c.hands) = true)
    (hend : ((earlyRun calls).2.engine.get? 0).map
      (fun y => (y.hasListener 0, y.isRunning, y.snapshot.value.leaf?))
        = some (true, true, some state)) :
  Run (watchedHost []) (earlyRun calls).1 (earlyRun calls).2
    ∧ ∃ y, (earlyRun calls).2.engine.get? 0 = some y ∧ y.hasListener 0 = true
      ∧ y.isRunning = true ∧ y.snapshot.value.leaf? = some state
  := by
  refine ⟨run_playedBy isCompiled_relay (fun _ _ _ _ hok => by cases hok) hcalls, ?_⟩
  obtain ⟨y, hy, heq⟩ := Option.map_eq_some_iff.mp hend
  obtain ⟨hl, heq⟩ := Prod.mk.inj heq
  obtain ⟨hrunning, hstate⟩ := Prod.mk.inj heq
  exact ⟨y, hy, hl, hrunning, hstate⟩

/-- A listener of a relay that is started at its initial state and goes on is informed. -/
theorem relay_informed :
  ∃ y s, (earlyRun [.start 0, .send 0 (.named "GO")]).2.engine.get? 0 = some y
    ∧ y.snapshot.value.leaf? = some "a_1"
    ∧ (told 0 0 (earlyRun [.start 0, .send 0 (.named "GO")]).1).getLast? = some s
    ∧ s.Agrees y.snapshot
  := by
  obtain ⟨hrun, y, hy, hl, -, hstate⟩ := @exists_early [.start 0, .send 0 (.named "GO")] "a_1"
    (by decide +kernel) (by decide +kernel)
  have hstarts : (earlyRun [.start 0, .send 0 (.named "GO")]).1.all
      (fun b => (startsAt? 0 b).isNone) = true := by decide +kernel
  obtain ⟨s, hlast, hagrees⟩ := hrun.informed hy (by decide +kernel) hl
  refine ⟨y, s, hy, hstate, hlast, hagrees.mpr ?_⟩
  rintro s' ⟨before, b, after, heq, hb, -⟩
  have hnone := List.all_eq_true.mp hstarts b (heq ▸ List.mem_append_right _ List.mem_cons_self)
  rw [hb] at hnone
  cases hnone

/-- A listener of a relay that is started at another state has been told the initial state last. -/
theorem relay_uninformed :
  ∃ cs c y s, Run (watchedHost []) cs c ∧ c.engine.get? 0 = some y
    ∧ workOf 0 c.stack = none ∧ y.hasListener 0 = true ∧ y.isRunning = true
    ∧ (told 0 0 cs).getLast? = some s ∧ ¬s.Agrees y.snapshot
  := by
  obtain ⟨hrun, y, hy, hl, hrunning, hstate⟩ := @exists_early [.startAt 0 (.leaf "a_1")] "a_1"
    (by decide +kernel) (by decide +kernel)
  have htold : ((told 0 0 (earlyRun [.startAt 0 (.leaf "a_1")]).1).getLast?).map
      (fun s => s.value.leaf?) = some (some "a") := by decide +kernel
  obtain ⟨s, hlast, hs⟩ := Option.map_eq_some_iff.mp htold
  refine ⟨_, _, y, s, hrun, hy, by decide +kernel, hl, hrunning, hlast, ?_⟩
  rintro ⟨hvalue, -⟩
  rw [hvalue, hstate] at hs
  exact absurd hs (by decide)

end Configuration

end Statechart
