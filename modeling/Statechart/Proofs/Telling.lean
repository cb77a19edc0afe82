import Statechart.Proofs.Impulse
import Statechart.Proofs.Listening
import Statechart.Proofs.Replay

/-!
# What listeners are told

A listener is told the snapshot that is current when it is subscribed, and then each snapshot that
its instance commits, once and in the order of the commits; what it has not been told yet is due
in the piece of work in progress (`Configuration.Run.stream`).
-/

namespace Statechart

variable {κ π σ : Type}

/-! ### Who listens -/

namespace Configuration

variable {H : Host κ π σ} {c d : Configuration κ π σ} {i l : Nat} {x y z : Instance κ}

/-- The listeners that an instance has after the next step, if it is not stopped then. -/
def listenersAfter (c : Configuration κ π σ) (i : Nat) (x : Instance κ) : List (Nat × κ) :=
  match c.control with
  | .host (.call (.subscribe j listener) _) =>
    if j = i then x.listeners ++ [(x.nextListener, listener)] else x.listeners
  | .host (.call (.unsubscribe j l) _) =>
    if j = i then x.listeners.filter fun a => a.1 ≠ l else x.listeners
  | _ => x.listeners

/-- What comes first in a step changes the listeners of an instance, if the host asks for it, and
not its status. -/
theorem exists_get?_impulse (hx : c.engine.get? i = some x) :
  ∃ z, c.impulse.1.get? i = some z ∧ z.status = x.status
    ∧ (x.status ≠ .stopped → z.listeners = listenersAfter c i x)
  := by
  rw [impulse.eq_def, listenersAfter]
  have hsame : ∃ z, c.engine.get? i = some z ∧ z.status = x.status
      ∧ (x.status ≠ .stopped → z.listeners = x.listeners) :=
    ⟨x, hx, rfl, fun _ => rfl⟩
  cases hcontrol : c.control with
  | back reply =>
    cases hst : c.stack with
    | nil => exact hsame
    | cons f below => cases f <;> exact hsame
  | host next =>
    cases next with
    | done => exact hsame
    | call call point =>
      cases call with
      | subscribe j listener =>
        simp only [Call.impulse, Call.operation?]
        split
        · rw [Engine.addListener, Engine.get?_modify, hx]
          split
          · exact ⟨_, rfl, rfl, fun hnot => if_neg hnot⟩
          · exact ⟨x, rfl, rfl, fun _ => rfl⟩
        · next hnone =>
          rw [if_neg (by rintro rfl; rw [hx] at hnone; cases hnone)]
          exact hsame
      | unsubscribe j l =>
        simp only [Call.impulse, Call.operation?]
        rw [Engine.removeListener, Engine.get?_modify, hx]
        split
        · exact ⟨_, rfl, rfl, fun _ => rfl⟩
        · exact ⟨x, rfl, rfl, fun _ => rfl⟩
      | interpret registry machine =>
        simp only [Call.impulse, Call.operation?, Engine.interpret.eq_def]
        split
        · exact hsame
        · exact hsame
        · next reg _ _ =>
          split
          · exact hsame
          · have hadds : Engine.Adds c.engine (c.engine.create machine reg.pool)
                (.new machine machine.services reg.pool none) := Engine.adds_create rfl rfl
            exact ⟨x, hadds.get?_of_get? hx, rfl, fun _ => rfl⟩
      | register registry d b =>
        simp only [Call.impulse, Call.operation?, Engine.get?, Engine.instances_register]
        exact hsame
      | _ => exact hsame

/-- The listeners of an instance change as the host asks for, as long as it is not stopped. -/
theorem Evolves.listeners_eq (hstep : Evolves H c d) (hx : c.engine.get? i = some x)
    (hy : d.engine.get? i = some y) (hnot : y.status ≠ .stopped) :
  y.listeners = listenersAfter c i x
  := by
  have hidle (hidle : c.IsIdle) (hsame : c.engine.get? i = some y) :
      y.listeners = listenersAfter c i x := by
    obtain rfl := Option.some.inj (hx.symm.trans hsame)
    obtain ⟨-, reply, hcontrol⟩ := hidle
    rw [listenersAfter, hcontrol]
  cases hstep with
  | step _ hstep =>
    obtain ⟨z, hz, hstatus, hlisteners⟩ := exists_get?_impulse hx
    obtain ⟨z', hz', hstopped, hkept⟩ :=
      (retains_step hstep).instances (Engine.lt_next_of_get? hz) hy
    obtain rfl := Option.some.inj (hz.symm.trans hz')
    rw [hkept hnot]
    exact hlisteners fun hx => hnot (hstopped (hstatus.trans hx))
  | enter memory code h =>
    exact hidle h ((Engine.releases_release _ _).get?_of_get? hy)
  | addPool h | addRegistry _ h => exact hidle h hy

/-- A listener stays registered until its subscription is ended, as long as its instance is not
stopped. -/
theorem Evolves.hasListener (hstep : Evolves H c d) (hx : c.engine.get? i = some x)
    (hl : x.hasListener l = true) (hends : ¬Unsubscribes H i l c)
    (hy : d.engine.get? i = some y) (hnot : y.status ≠ .stopped) :
  y.hasListener l = true
  := by
  rw [Instance.hasListener_iff] at hl ⊢
  rw [hstep.listeners_eq hx hy hnot]
  obtain ⟨a, ha, rfl⟩ := hl
  refine ⟨a, ?_, rfl⟩
  rw [listenersAfter]
  split
  · split
    · exact List.mem_append_left _ ha
    · exact ha
  · next j m point hcontrol =>
    split
    · next hj =>
      subst hj
      refine List.mem_filter.mpr ⟨ha, decide_eq_true ?_⟩
      rintro rfl
      refine hends (unsubscribes_iff.mpr ?_)
      have hthere : c.engine.hasListener j a.1 = true := by
        rw [Engine.hasListener, hx]
        exact Instance.hasListener_iff.mpr ⟨a, ha, rfl⟩
      rw [unsubscribes?, hcontrol]
      exact if_pos hthere
    · exact ha
  · exact ha

/-- A listener that is registered has been so before, or it is subscribed in the step. -/
theorem Evolves.had_listener (hstep : Evolves H c d) (hx : c.engine.get? i = some x)
    (hy : d.engine.get? i = some y) (hnot : y.status ≠ .stopped)
    (hl : y.hasListener l = true) :
  x.hasListener l = true
    ∨ l = x.nextListener ∧ ∃ code point, c.control = .host (.call (.subscribe i code) point)
  := by
  rw [Instance.hasListener_iff] at hl ⊢
  rw [hstep.listeners_eq hx hy hnot, listenersAfter] at hl
  obtain ⟨a, ha, rfl⟩ := hl
  split at ha
  · next j listener point hcontrol =>
    split at ha
    · next hj =>
      obtain ha | ha := List.mem_append.mp ha
      · exact .inl ⟨a, ha, rfl⟩
      · obtain rfl := List.mem_singleton.mp ha
        exact .inr ⟨rfl, listener, point, hj ▸ hcontrol⟩
    · exact .inl ⟨a, ha, rfl⟩
  · split at ha
    · exact .inl ⟨a, List.mem_of_mem_filter ha, rfl⟩
    · exact .inl ⟨a, ha, rfl⟩
  · exact .inl ⟨a, ha, rfl⟩

/-- A listener is registered when it has been subscribed to an instance that is not stopped. -/
theorem Evolves.hasListener_of_subscribe (hstep : Evolves H c d) {code : κ} {point : π}
    (hcontrol : c.control = .host (.call (.subscribe i code) point))
    (hx : c.engine.get? i = some x) (hy : d.engine.get? i = some y)
    (hnot : y.status ≠ .stopped) :
  y.hasListener x.nextListener = true
  := by
  rw [Instance.hasListener_iff, hstep.listeners_eq hx hy hnot, listenersAfter, hcontrol]
  refine ⟨(x.nextListener, code), ?_, rfl⟩
  simp

/-! ### What is told -/

/-- The call of a listener in the next step, if there is one: its instance, its number, and the
snapshot that it is told. -/
def notice? (c : Configuration κ π σ) : Option (Nat × Nat × Snapshot κ) :=
  match c.control, c.stack with
  | .host (.call (.subscribe i _) _), _ =>
    (c.engine.get? i).map fun x => (i, x.nextListener, x.snapshot)
  | .back _, .working i _ (.notify s (l :: _) :: _) :: _ =>
    (c.engine.get? i).map fun _ => (i, l.1, s)
  | _, _ => none

/-- The snapshot that a listener is told in the next step. -/
def hears? (i l : Nat) (c : Configuration κ π σ) : Option (Snapshot κ) :=
  (notice? c).bind fun n => if n.1 = i ∧ n.2.1 = l then some n.2.2 else none

/-- The snapshots that a listener has been told, in order. -/
def told (i l : Nat) (cs : List (Configuration κ π σ)) : List (Snapshot κ) :=
  cs.filterMap (hears? i l)

/-- A listener is called when it is told a snapshot. -/
theorem notifies?_eq (c : Configuration κ π σ) :
  notifies? c = (notice? c).map fun n => (n.1, n.2.1)
  := by
  rw [notifies?.eq_def]
  split
  · next hcontrol => simp [notice?, hcontrol, Function.comp_def]
  · next hcontrol hstack => simp [notice?, hcontrol, hstack, Function.comp_def]
  · next hsubscribe hround =>
    rw [notice?.eq_def]
    split
    · next hcontrol => exact absurd hcontrol (hsubscribe _ _ _)
    · next hcontrol hstack => exact absurd hstack (hround _ _ _ _ _ _ _ _ hcontrol)
    · rfl

/-- A listener is told a snapshot by running its code with it. -/
theorem step?_of_notice? {s : Snapshot κ} (h : notice? c = some (i, l, s)) :
  ∃ b code, step? H c = some (enter H b (H.notify code s))
  := by
  rw [notice?.eq_def] at h
  split at h
  · next j code point hcontrol =>
    obtain ⟨x, hx, heq⟩ := Option.map_eq_some_iff.mp h
    cases heq
    have hx' : (c.withStack (.waiting point :: c.stack)).engine.get? i = some x := hx
    simp only [step?, hcontrol, perform, subscribe, hx']
    exact ⟨_, code, rfl⟩
  · next reply j o s' a more rest below hcontrol hstack =>
    obtain ⟨x, hx, heq⟩ := Option.map_eq_some_iff.mp h
    cases heq
    simp only [step?, hcontrol, hstack, hx, stepPhase]
    exact ⟨_, a.2, rfl⟩
  · cases h

/-- A listener that is told something is being subscribed, or it is the next one in the round of
its instance, which is the innermost activity. -/
theorem hears?_cases {s : Snapshot κ} (h : hears? i l c = some s) :
  (∃ code point x, c.control = .host (.call (.subscribe i code) point)
      ∧ c.engine.get? i = some x ∧ l = x.nextListener ∧ s = x.snapshot)
    ∨ ∃ reply o code more rest below, c.control = .back reply
      ∧ c.stack = .working i o (.notify s ((l, code) :: more) :: rest) :: below
  := by
  obtain ⟨⟨j, m, s'⟩, hnotice, heq⟩ := Option.bind_eq_some_iff.mp h
  rw [Option.ite_none_right_eq_some, Option.some.injEq] at heq
  obtain ⟨⟨rfl, rfl⟩, rfl⟩ := heq
  rw [notice?.eq_def] at hnotice
  split at hnotice
  · next j' code point hcontrol =>
    obtain ⟨x, hx, heq⟩ := Option.map_eq_some_iff.mp hnotice
    cases heq
    exact .inl ⟨code, point, x, hcontrol, hx, rfl, rfl⟩
  · next reply j' o s'' a more rest below hcontrol hstack =>
    obtain ⟨x, hx, heq⟩ := Option.map_eq_some_iff.mp hnotice
    cases heq
    exact .inr ⟨reply, o, a.2, more, rest, below, hcontrol, hstack⟩
  · cases hnotice

theorem hears?_of_subscribe {code : κ} {point : π}
    (hcontrol : c.control = .host (.call (.subscribe i code) point))
    (hx : c.engine.get? i = some x) (l : Nat) :
  hears? i l c = if x.nextListener = l then some x.snapshot else none
  := by
  simp [hears?, notice?, hcontrol, hx]

theorem hears?_of_round {reply : Reply κ} {o : Except MachineError Unit} {s : Snapshot κ}
    {a : Nat × κ} {more : List (Nat × κ)} {rest : List (Phase κ)} {below : List (Frame κ π)}
    (hcontrol : c.control = .back reply)
    (hstack : c.stack = .working i o (.notify s (a :: more) :: rest) :: below)
    (hx : c.engine.get? i = some x) (l : Nat) :
  hears? i l c = if a.1 = l then some s else none
  := by
  simp [hears?, notice?, hcontrol, hstack, hx]

/-! ### What is committed -/

end Configuration

/-- The snapshot that an envelope leads an instance to, if it leads to one. -/
def Instance.next? (x : Instance κ) (e : Envelope) : Option (Snapshot κ) :=
  match x.resolution e with
  | .attempt _ _ found =>
    match found.value with
    | .ok next => next
    | .error _ => none
  | _ => none

/-- An event that a running instance takes always leads to a snapshot, also if it is ignored. -/
theorem Instance.Valid.exists_next?_event {x : Instance κ} (h : x.Valid)
    (hrunning : x.isRunning = true) (event : Event) :
  ∃ s, x.next? (.event event) = some s
    ∧ (x.machine.transition x.snapshot.value x.snapshot.context event).value = .ok s
  := by
  obtain ⟨s, hs, -⟩ := h.compiled.sound.exists_transition h.fits x.snapshot.context event
  refine ⟨s, ?_, hs⟩
  have hres : x.resolution (.event event) = .attempt event .always
      ((fun r => r.map some) <$>
        x.machine.transition x.snapshot.value x.snapshot.context event) := by
    simp [Instance.resolution, hrunning]
  rw [Instance.next?, hres]
  simp only [Evaluated.value_map, hs]
  rfl

namespace Configuration

variable {H : Host κ π σ} {c d : Configuration κ π σ} {i l : Nat} {x y : Instance κ}

/-- The snapshot that an instance commits in the next step. -/
def commits? (H : Host κ π σ) (i : Nat) (c : Configuration κ π σ) : Option (Snapshot κ) :=
  (c.engine.get? i).bind fun x => ((signal H c).takenBy i).bind x.next?

/-- The snapshots that an instance has committed, in order. -/
def committed (H : Host κ π σ) (i : Nat) (cs : List (Configuration κ π σ)) :
    List (Snapshot κ) :=
  cs.filterMap (commits? H i)

theorem commits?_of_taken (hx : c.engine.get? i = some x) {e : Envelope}
    (htaken : (signal H c).takenBy i = some e) :
  commits? H i c = x.next? e
  := by
  rw [commits?, hx, htaken, Option.bind_some, Option.bind_some]

theorem commits?_of_not_taken (htaken : (signal H c).takenBy i = none) :
  commits? H i c = none
  := by
  rw [commits?, htaken]
  cases c.engine.get? i <;> rfl

/-! ### What is due -/

end Configuration

/-- The snapshot that a listener is still to be told in a phase, if it is registered when a round
of notifications begins. -/
def Phase.dueTo (l : Nat) : Phase κ → List (Snapshot κ)
  | .publish s => [s]
  | .notify s ls => if ls.any fun a => a.1 = l then [s] else []
  | _ => []

/-- The snapshots that a listener is still to be told in the work of its instance. -/
def due (l : Nat) (w : Option (List (Phase κ))) : List (Snapshot κ) :=
  (w.getD []).flatMap (Phase.dueTo l)

section

variable {l : Nat}

@[simp]
theorem due_none :
  due l (none : Option (List (Phase κ))) = []
  := rfl

theorem due_cons (p : Phase κ) (rest : List (Phase κ)) :
  due l (some (p :: rest)) = p.dueTo l ++ due l (some rest)
  := rfl

theorem due_append (ps rest : List (Phase κ)) :
  due l (some (ps ++ rest)) = due l (some ps) ++ due l (some rest)
  := List.flatMap_append

theorem due_transitionPhases (x : Instance κ) (next : Snapshot κ) (event : Event)
    (rearm : Configuration.Rearm) :
  due l (some (Configuration.transitionPhases x next event rearm)) = [next]
  := by
  rw [Configuration.transitionPhases, Configuration.phasesOf]
  cases !(x.snapshot.value == next.value) <;> cases rearm <;> rfl

/-- A round begins with every listener that is registered, and apart from this a phase that goes on
without a call leaves what is due. -/
theorem Phase.Advances.due_eq {x : Instance κ} {p : Phase κ} {ps : List (Phase κ)}
    (h : p.Advances x ps) (hl : x.hasListener l = true) (hnot : ∀ s ls, p ≠ .notify s ls) :
  due l (some ps) = p.dueTo l
  := by
  cases h with
  | publish s => exact (List.append_nil _).trans (if_pos hl)
  | notified s => exact absurd rfl (hnot s [])
  | notify s a more => exact absurd rfl (hnot s (a :: more))
  | _ => rfl

/-- A turn of an instance that runs leaves what is due, unless a call of a listener is made or a
piece of work begins. -/
theorem Turn.due_eq {i : Nat} {r r' : Engine κ} {x y : Instance κ} {w w' : Option (List (Phase κ))}
    (h : Turn i r r' x w y w') (hl : x.hasListener l = true)
    (hrunning : w ≠ none → x.isRunning = true) (hy : y.status ≠ .stopped)
    (hempty : w ≠ some []) (hround : ∀ s ls rest, w ≠ some (.notify s ls :: rest)) :
  due l w' = due l w
  := by
  cases h with
  | keep hw =>
    obtain rfl | ⟨rfl, rfl⟩ | ⟨rfl, rfl⟩ := hw <;> rfl
  | start => rfl
  | begin | commit => exact absurd rfl hempty
  | advance hadvances =>
    rw [due_append, due_cons, hadvances.due_eq hl]
    rintro s ls rfl
    exact hround s ls _ rfl
  | drop hnot hw =>
    subst hw
    cases w with
    | none => rfl
    | some ps =>
      rw [hrunning nofun] at hnot
      cases hnot
  | halt => exact absurd rfl hy
  | _ => rfl

/-- Nothing is due to an instance that begins to work. -/
theorem Turn.due_of_none {i : Nat} {r r' : Engine κ} {x y : Instance κ}
    {w' : Option (List (Phase κ))} (h : Turn i r r' x none y w') :
  due l w' = []
  := by
  generalize hw : (none : Option (List (Phase κ))) = w at h
  cases h with
  | keep hkept =>
    obtain rfl | ⟨-, rfl⟩ | ⟨rfl, -⟩ := hkept
    · exact hw ▸ rfl
    · rfl
    · cases hw
  | start => rfl
  | drop _ hdropped => exact hdropped ▸ rfl
  | halt hkept =>
    obtain rfl | ⟨p, rest, rfl, -⟩ := hkept
    · exact hw ▸ rfl
    · cases hw
  | _ => cases hw

/-- What is to be told in the work of an instance is its snapshot. -/
def Instance.Publishes (x : Instance κ) (w : Option (List (Phase κ))) : Prop :=
  ∀ ps s, w = some ps → (.publish s ∈ ps ∨ ∃ ls, .notify s ls ∈ ps) → x.snapshot = s

theorem Turn.publishes {i : Nat} {r r' : Engine κ} {x y : Instance κ}
    {w w' : Option (List (Phase κ))} (h : Turn i r r' x w y w') (hx : x.Publishes w) :
  y.Publishes w'
  := by
  have hrest {p : Phase κ} {rest : List (Phase κ)} (hw : w = some (p :: rest)) (s : Snapshot κ)
      (hmem : .publish s ∈ rest ∨ ∃ ls, .notify s ls ∈ rest) : x.snapshot = s :=
    hx _ s hw (hmem.imp (List.mem_cons_of_mem p) fun ⟨ls, hls⟩ => ⟨ls, List.mem_cons_of_mem p hls⟩)
  cases h with
  | keep hw =>
    obtain rfl | ⟨-, rfl⟩ | ⟨-, rfl⟩ := hw
    · exact hx
    · rintro _ s ⟨⟩ hmem
      simp at hmem
    · rintro _ s ⟨⟩
  | start _ =>
    rintro _ s ⟨⟩ hmem
    simp at hmem
  | begin _ =>
    rintro _ s ⟨⟩ hmem
    simp [Instance.startPhases] at hmem
  | commit _ _ _ =>
    rintro _ s ⟨⟩ (hmem | ⟨ls, hmem⟩)
    · have hdue := List.mem_flatMap_of_mem (f := Phase.dueTo 0) hmem (List.mem_singleton_self s)
      exact (List.mem_singleton.mp (due_transitionPhases x _ _ _ ▸ hdue)).symm
    · exact absurd hmem (notMem_transitionPhases _ _ _ _ s ls)
  | @advance p ps rest _ _ _ hadvances =>
    rintro _ s ⟨⟩ hmem
    simp only [List.mem_append, exists_or] at hmem
    obtain (hmem | hmem) | (⟨ls, hmem⟩ | hmem) := hmem
    · cases hadvances <;> simp at hmem
    · exact hrest rfl s (.inl hmem)
    · refine hx _ s rfl ?_
      cases hadvances with
      | publish s' =>
        simp only [List.mem_singleton, Phase.notify.injEq] at hmem
        exact .inl (hmem.1 ▸ List.mem_cons_self)
      | notify s' a more =>
        simp only [List.mem_singleton, Phase.notify.injEq] at hmem
        exact .inr ⟨a :: more, hmem.1 ▸ List.mem_cons_self⟩
      | _ => simp at hmem
    · exact hrest rfl s (.inr hmem)
  | drop _ hw =>
    subst hw
    rintro _ s ⟨⟩ hmem
    simp at hmem
  | stopChildren | rearm =>
    rintro _ s ⟨⟩ hmem
    exact hrest rfl s hmem
  | spawn =>
    rintro _ s ⟨⟩ hmem
    exact hrest rfl s (by simpa using hmem)
  | halt hw =>
    rintro ps s hps hmem
    obtain rfl | ⟨p, rest, hw, rfl⟩ := hw
    · exact hx ps s hps hmem
    · obtain rfl := Option.some.inj hps
      exact hrest hw s hmem

end

namespace Configuration

variable {H : Host κ π σ} {cs before after : List (Configuration κ π σ)}
  {c d : Configuration κ π σ} {i l : Nat} {x y : Instance κ}

theorem Run.publishes (h : Run H cs c) (hx : c.engine.get? i = some x) :
  x.Publishes (workOf i c.stack)
  := by
  refine h.each (p := fun _ x w => x.Publishes w) ?_ (fun _ hturn => hturn.publishes) hx
  intro s r i y w harrives _
  cases harrives with
  | created => rintro ps s ⟨⟩
  | spawned =>
    rintro _ s ⟨⟩ hmem
    simp at hmem

/-- An envelope that leads to no snapshot leaves the one that is current, and nothing is due. -/
theorem of_taken_nothing {e : Envelope} {event : Event} {rearm : Rearm}
    {found : Evaluated (Except MachineError (Option (Snapshot κ)))}
    (htaken : (signal H c).taken = some (i, e)) (hstep : step? H c = some d)
    (hx : c.engine.get? i = some x) (hres : x.resolution e = .attempt event rearm found)
    (hfound : found.value = .ok none) (hy : d.engine.get? i = some y) :
  y.snapshot = x.snapshot ∧ workOf i d.stack = some []
  := by
  obtain ⟨x', more, o, below, hx', -, -, hprocess⟩ := step?_of_taken htaken
  obtain rfl := Option.some.inj (hx'.symm.trans hx)
  have hres' : Instance.resolution { x' with mailbox := more } e = .attempt event rearm found := by
    rw [← hres]
    cases e <;> rfl
  rw [hprocess, process_eq, hres', Option.some.injEq] at hstep
  simp only [settleTransition, hfound] at hstep
  subst hstep
  refine ⟨?_, workOf_working_self _ _ _ _⟩
  have hself := (Engine.sets_modify hx fun x => { x with mailbox := more }).get?_self
  obtain rfl := Option.some.inj (hself.symm.trans hy)
  rfl

/-- An envelope leads to a snapshot, which is current then and due to be told, or to nothing. -/
theorem Run.of_taken (h : Run H cs c) (hstep : Evolves H c d) {e : Envelope}
    (htaken : (signal H c).takenBy i = some e) (hx : c.engine.get? i = some x)
    (hy : d.engine.get? i = some y) (l : Nat) :
  y.snapshot = (commits? H i c).getD x.snapshot
    ∧ due l (workOf i d.stack) = (commits? H i c).toList
  := by
  obtain ⟨mid, hgoes⟩ := h.goes hstep
  rw [commits?_of_taken hx htaken, Instance.next?]
  have htaken := taken_of_takenBy htaken
  obtain ⟨hignore, hbegin, hattempt⟩ := hgoes.of_taken h.valid.1 htaken hx hy
  cases hres : x.resolution e with
  | ignore =>
    obtain ⟨hsnapshot, hw⟩ := hignore hres
    exact ⟨hsnapshot, by rw [hw]; rfl⟩
  | begin =>
    obtain ⟨hsnapshot, hw⟩ := hbegin hres
    exact ⟨hsnapshot, by rw [hw]; rfl⟩
  | attempt event rearm found =>
    obtain ⟨next, hfound, -⟩ := (h.valid.1 i x hx).finds_resolution hres
    simp only [hfound]
    cases next with
    | none =>
      obtain ⟨_, _, _, _, -, -, hstack, -⟩ := step?_of_taken htaken
      obtain ⟨hsnapshot, hw⟩ :=
        of_taken_nothing htaken (hstep.step?_of_stack hstack) hx hres hfound hy
      exact ⟨hsnapshot, by rw [hw]; rfl⟩
    | some s =>
      obtain ⟨hsnapshot, hw⟩ := hattempt event rearm found s hres hfound
      exact ⟨hsnapshot, by rw [hw, due_transitionPhases]; rfl⟩

/-- An instance that takes an envelope is the innermost activity. -/
theorem exists_of_takenBy {e : Envelope} (htaken : (signal H c).takenBy i = some e) :
  ∃ reply o below, c.control = .back reply ∧ c.stack = .working i o [] :: below
  := by
  have htaken := taken_of_takenBy htaken
  have hsignals := signals H c
  generalize signal H c = s at htaken hsignals
  cases hsignals with
  | take hcontrol hstack =>
    obtain ⟨rfl, -⟩ := Prod.mk.inj (Option.some.inj htaken)
    exact ⟨_, _, _, hcontrol, hstack⟩
  | _ => cases htaken

/-- An event that is processed is committed, also if it is ignored. -/
theorem Run.exists_commits? (h : Run H cs c) {event : Event}
    (hevent : handles H i c = some (.event event)) :
  ∃ s, commits? H i c = some s
  := by
  rw [handles, Option.ite_none_right_eq_some] at hevent
  obtain ⟨hruns, htaken⟩ := hevent
  obtain ⟨x, _, _, _, hx, -⟩ := step?_of_taken (taken_of_takenBy htaken)
  rw [Engine.isRunning, hx] at hruns
  obtain ⟨s, hs, -⟩ := (h.valid.1 i x hx).exists_next?_event hruns event
  exact ⟨s, by rw [commits?_of_taken hx htaken, hs]⟩

/-- Only an instance that is the innermost activity, with nothing left of its work, commits
something. -/
theorem commits?_eq_none
    (hnot : ∀ reply o below, c.control = .back reply → c.stack ≠ .working i o [] :: below) :
  commits? H i c = none
  := by
  apply commits?_of_not_taken
  by_contra htaken
  obtain ⟨e, htaken⟩ := Option.ne_none_iff_exists'.mp htaken
  obtain ⟨reply, o, below, hcontrol, hstack⟩ := exists_of_takenBy htaken
  exact hnot reply o below hcontrol hstack

theorem commits?_of_host {next : Next κ π} (hcontrol : c.control = .host next) :
  commits? H i c = none
  := by
  refine commits?_eq_none fun reply o below hback => ?_
  rw [hcontrol] at hback
  cases hback

/-- A listener that is registered hears something only when a round of its instance is the
innermost activity. -/
theorem Run.hears?_eq_none (h : Run H cs c) (hx : c.engine.get? i = some x)
    (hl : x.hasListener l = true)
    (hnot : ∀ reply o s ls rest below, c.control = .back reply →
      c.stack ≠ .working i o (.notify s ls :: rest) :: below) :
  hears? i l c = none
  := by
  cases hhears : hears? i l c with
  | none => rfl
  | some s =>
    obtain ⟨_, _, x', -, hx', rfl, -⟩ | ⟨reply, o, _, _, _, _, hcontrol, hstack⟩ :=
      hears?_cases hhears
    · -- The number of a new listener was not given before.
      obtain rfl := Option.some.inj (hx.symm.trans hx')
      obtain ⟨a, ha, heq⟩ := Instance.hasListener_iff.mp hl
      exact absurd heq (Nat.ne_of_lt ((h.numbered hx).below a ha))
    · exact absurd hstack (hnot reply o s _ _ _ hcontrol)

/-- An instance that is at work was started. -/
theorem Run.isRunning_of_workOf (h : Run H cs c) (hx : c.engine.get? i = some x)
    (hw : workOf i c.stack ≠ none) (hnot : x.status ≠ .stopped) :
  x.isRunning = true
  := by
  cases hstatus : x.status with
  | running => exact decide_eq_true hstatus
  | stopped => exact absurd hstatus hnot
  | notStarted => exact absurd (h.workOf_of_notStarted hx hstatus) hw

/-! ### Steps -/

/-- An instance that is the innermost activity with nothing left of its work commits what is then
due, if anything. -/
theorem Run.due_of_finished (h : Run H cs c) (hstep : Evolves H c d)
    (hx : c.engine.get? i = some x) (hy : d.engine.get? i = some y) {reply : Reply κ}
    {o : Except MachineError Unit} {below : List (Frame κ π)} (hcontrol : c.control = .back reply)
    (hstack : c.stack = .working i o [] :: below) :
  due l (workOf i d.stack) = (commits? H i c).toList
  := by
  cases htaken : (signal H c).takenBy i with
  | some e => exact (h.of_taken hstep htaken hx hy l).2
  | none =>
    rw [h.workOf_of_not_taken hstep hcontrol hstack hx htaken, commits?_of_not_taken htaken]
    rfl

/-- A listener hears what is due to it in a round when it is its turn. -/
theorem Run.due_of_round (h : Run H cs c) (hstep : Evolves H c d)
    (hx : c.engine.get? i = some x) {reply : Reply κ} {o : Except MachineError Unit}
    {s : Snapshot κ} {ls : List (Nat × κ)} {rest : List (Phase κ)} {below : List (Frame κ π)}
    (hcontrol : c.control = .back reply)
    (hstack : c.stack = .working i o (.notify s ls :: rest) :: below) :
  (hears? i l c).toList ++ due l (workOf i d.stack) = due l (workOf i c.stack)
  := by
  have hw : workOf i c.stack = some (.notify s ls :: rest) := by rw [hstack, workOf_working_self]
  rw [hstep.workOf_of_round hcontrol hstack hx, hw, due_cons]
  cases ls with
  | nil =>
    have hnone : hears? i l c = none := by simp [hears?, notice?, hcontrol, hstack]
    rw [hnone]
    rfl
  | cons a more =>
    rw [hears?_of_round hcontrol hstack hx, due_cons, ← List.append_assoc]
    congr 1
    -- The numbers in a round go up, so that nobody is called twice.
    have hround := (h.numbered hx).round _ s _ hw List.mem_cons_self
    by_cases ha : a.1 = l
    · have hnot : (more.any fun b => b.1 = l) = false := by
        rw [List.any_eq_false]
        intro b hb
        have hlt := List.rel_of_pairwise_cons hround hb
        simp only [decide_eq_true_eq]
        omega
      simp [Phase.dueTo, ha, hnot]
    · simp only [Phase.dueTo, List.any_cons, if_neg ha, decide_eq_false ha, Bool.false_or,
        Option.toList_none, List.nil_append]

/-- While something else is the innermost activity, nothing happens to what is due. -/
theorem Run.due_of_other (h : Run H cs c) (hstep : Evolves H c d) (hx : c.engine.get? i = some x)
    (hl : x.hasListener l = true) (hy : d.engine.get? i = some y) (hnot : y.status ≠ .stopped)
    (hother : ∀ reply o ps below, c.control = .back reply → c.stack ≠ .working i o ps :: below) :
  due l (workOf i d.stack) = due l (workOf i c.stack)
  := by
  cases hw : workOf i c.stack with
  | none =>
    obtain ⟨mid, hgoes⟩ := h.goes hstep
    have hturn := hgoes.turn hx (hgoes.releases.get?_of_get? hy)
    rw [hw] at hturn
    exact hturn.due_eq hl (fun hw => absurd rfl hw) hnot nofun nofun
  | some ps =>
    obtain hsame | ⟨reply, o, below, hcontrol, hstack⟩ := h.workOf_eq hstep hw
    · rw [hsame]
    · exact absurd hstack (hother reply o ps below hcontrol)

/-- While an instance does something else than to go on with a round, nothing happens to what is
due. -/
theorem Run.due_of_phase (h : Run H cs c) (hstep : Evolves H c d) (hx : c.engine.get? i = some x)
    (hl : x.hasListener l = true) (hy : d.engine.get? i = some y) (hnot : y.status ≠ .stopped)
    {ps : List (Phase κ)} (hw : workOf i c.stack = some ps) (hsome : ps ≠ [])
    (hround : ∀ s ls rest, ps ≠ .notify s ls :: rest) :
  due l (workOf i d.stack) = due l (workOf i c.stack)
  := by
  obtain ⟨mid, hgoes⟩ := h.goes hstep
  have hturn := hgoes.turn hx (hgoes.releases.get?_of_get? hy)
  refine hturn.due_eq hl (fun hw => ?_) hnot (by rwa [hw, Ne, Option.some.injEq]) ?_
  · exact h.isRunning_of_workOf hx hw (hturn.status_ne_stopped hnot)
  · rintro s ls rest hw'
    exact hround s ls rest (Option.some.inj (hw.symm.trans hw'))

/-- What a listener hears in a step and what is due then are what was due before and what is
committed in the step. -/
theorem Run.hears_step (h : Run H cs c) (hstep : Evolves H c d) (hx : c.engine.get? i = some x)
    (hl : x.hasListener l = true) (hy : d.engine.get? i = some y) (hnot : y.status ≠ .stopped) :
  (hears? i l c).toList ++ due l (workOf i d.stack)
    = due l (workOf i c.stack) ++ (commits? H i c).toList
  := by
  by_cases hinner : ∃ reply o ps below, c.control = .back reply
      ∧ c.stack = .working i o ps :: below
  · obtain ⟨reply, o, ps, below, hcontrol, hstack⟩ := hinner
    have hw : workOf i c.stack = some ps := by rw [hstack, workOf_working_self]
    have hsilent (hround : ∀ s ls rest, ps ≠ .notify s ls :: rest) : hears? i l c = none := by
      refine h.hears?_eq_none hx hl fun _ _ s ls rest below' _ hstack' => ?_
      rw [hstack] at hstack'
      cases hstack'
      exact hround s ls rest rfl
    have hbusy (hsome : ps ≠ []) : commits? H i c = none := by
      refine commits?_eq_none fun _ _ below' _ hstack' => ?_
      rw [hstack] at hstack'
      cases hstack'
      exact hsome rfl
    by_cases hempty : ps = []
    · subst hempty
      rw [h.due_of_finished hstep hx hy hcontrol hstack, hsilent nofun, hw]
      rfl
    · rw [hbusy hempty, Option.toList_none, List.append_nil]
      by_cases hround : ∃ s ls rest, ps = .notify s ls :: rest
      · obtain ⟨s, ls, rest, rfl⟩ := hround
        exact h.due_of_round hstep hx hcontrol hstack
      · have hround : ∀ s ls rest, ps ≠ .notify s ls :: rest :=
          fun s ls rest heq => hround ⟨s, ls, rest, heq⟩
        rw [hsilent hround, h.due_of_phase hstep hx hl hy hnot hw hempty hround]
        rfl
  · have hother : ∀ reply o ps below, c.control = .back reply →
        c.stack ≠ .working i o ps :: below :=
      fun reply o ps below hcontrol hstack => hinner ⟨reply, o, ps, below, hcontrol, hstack⟩
    rw [commits?_eq_none fun reply o below => hother reply o _ below,
      h.hears?_eq_none hx hl fun reply o s ls rest below => hother reply o _ below,
      h.due_of_other hstep hx hl hy hnot hother, Option.toList_none, List.nil_append,
      List.append_nil]

end Configuration

/-- A turn leaves the snapshot of an instance, or it starts the instance, or it begins a piece of
work. -/
theorem Turn.snapshot_cases {i : Nat} {r r' : Engine κ} {x y : Instance κ}
    {w w' : Option (List (Phase κ))} (h : Turn i r r' x w y w') :
  y.snapshot = x.snapshot ∨ (x.status = .notStarted ∧ y.isRunning = true)
    ∨ (w = some [] ∧ ∃ p ps, w' = some (p :: ps))
  := by
  cases h with
  | start hnot => exact .inr (.inl ⟨hnot, rfl⟩)
  | commit => exact .inr (.inr ⟨rfl, _, _, rfl⟩)
  | _ => exact .inl rfl

/-- An instance that runs goes on running unless it is stopped. -/
theorem Turn.runs {i : Nat} {r r' : Engine κ} {x y : Instance κ} {w w' : Option (List (Phase κ))}
    (h : Turn i r r' x w y w') (hx : x.isRunning = true) (hy : y.status ≠ .stopped) :
  y.isRunning = true
  := by
  obtain hsame | hnew | hstopped := h.status
  · rwa [Instance.isRunning, hsame]
  · exact absurd hnew (Instance.status_ne_notStarted hx)
  · exact absurd hstopped hy

namespace Configuration

variable {H : Host κ π σ} {cs before after : List (Configuration κ π σ)}
  {a b c d : Configuration κ π σ} {i l : Nat} {x y : Instance κ}

/-- The snapshot of an instance is the one committed last, unless it is just being started. -/
theorem Run.snapshot_step (h : Run H cs c) (hstep : Evolves H c d)
    (hx : c.engine.get? i = some x) (hy : d.engine.get? i = some y)
    (hstarts : x.status = .notStarted → y.isRunning = false) :
  y.snapshot = (commits? H i c).getD x.snapshot
  := by
  cases htaken : (signal H c).takenBy i with
  | some e => exact (h.of_taken hstep htaken hx hy 0).1
  | none =>
    rw [commits?_of_not_taken htaken]
    obtain ⟨mid, hgoes⟩ := h.goes hstep
    obtain hsame | ⟨hnot, hruns⟩ | ⟨hw, p, ps, hw'⟩ :=
      (hgoes.turn hx (hgoes.releases.get?_of_get? hy)).snapshot_cases
    · exact hsame
    · rw [hstarts hnot] at hruns
      cases hruns
    · exact absurd hw' (h.not_begins hstep hx htaken hw p ps)

/-! ### The stream of a listener -/

/-- An instance goes on with its work in the next step. -/
def Resumes (i : Nat) (c : Configuration κ π σ) : Prop :=
  ∃ reply o ps below, c.control = .back reply ∧ c.stack = .working i o ps :: below

/-- A round of notifications waits while the code of a listener runs. -/
theorem Run.workOf_during (h : Run H (before ++ b :: after) c) {reply : Reply κ}
    {o : Except MachineError Unit} {s : Snapshot κ} {m : Nat × κ} {more : List (Nat × κ)}
    {rest : List (Phase κ)} {below : List (Frame κ π)} (hcontrol : b.control = .back reply)
    (hstack : b.stack = .working i o (.notify s (m :: more) :: rest) :: below)
    (hx : b.engine.get? i = some x) (hnot : ∀ e ∈ after, ¬e.Resumes i) :
  workOf i c.stack = some (.notify s more :: rest)
  := by
  refine h.after (p := fun passed c => (∀ e ∈ passed, ¬e.Resumes i) →
    workOf i c.stack = some (.notify s more :: rest)) ?_ ?_ hnot
  · intro d _ hstep _
    exact hstep.workOf_of_round hcontrol hstack hx
  · intro passed c d hrun hstep ih hnot
    have hw := ih fun e he => hnot e (List.mem_append_left _ he)
    obtain hsame | ⟨reply, o, below, hcontrol, hstack⟩ := hrun.workOf_eq hstep hw
    · exact hsame
    · exact absurd ⟨reply, o, _, below, hcontrol, hstack⟩
        (hnot c (List.mem_append_right _ (List.mem_singleton_self c)))

/-- A listener that was subscribed in the configuration `a`, when `s` was current, is registered
with an instance that runs.  What it has been told since and what is still due to it is `s` followed
by what has been committed since, and the last of this is current. -/
structure Attends (H : Host κ π σ) (i l : Nat) (s : Snapshot κ) (a : Configuration κ π σ)
    (cs : List (Configuration κ π σ)) (c : Configuration κ π σ) (x : Instance κ) : Prop where
  registered : x.hasListener l = true
  running : x.isRunning = true
  stream : told i l (a :: cs) ++ due l (workOf i c.stack) = s :: committed H i cs
  current : (s :: committed H i cs).getLast? = some x.snapshot

/-- A listener attends to a running instance when it has been subscribed outside its work. -/
theorem Run.attends_of_subscribe (h : Run H cs a) (hstep : Evolves H a d) {code : κ} {point : π}
    (hcontrol : a.control = .host (.call (.subscribe i code) point))
    (hx : a.engine.get? i = some x) (hrunning : x.isRunning = true)
    (hidle : workOf i a.stack = none) (hy : d.engine.get? i = some y) (hnot : y.status ≠ .stopped) :
  Attends H i x.nextListener x.snapshot a [] d y
  := by
  obtain ⟨mid, hgoes⟩ := h.goes hstep
  have hturn := hgoes.turn hx (hgoes.releases.get?_of_get? hy)
  have hstarted := Instance.status_ne_notStarted hrunning
  constructor
  · exact hstep.hasListener_of_subscribe hcontrol hx hy hnot
  · exact hturn.runs hrunning hnot
  · rw [hidle] at hturn
    rw [hturn.due_of_none, told, List.filterMap_cons_some (b := x.snapshot)]
    · rfl
    · rw [hears?_of_subscribe hcontrol hx, if_pos rfl]
  · rw [h.snapshot_step hstep hx hy fun hnew => absurd hnew hstarted, commits?_of_host hcontrol]
    rfl

/-- A listener goes on attending to an instance until its subscription is ended or the instance is
stopped. -/
theorem Run.attends_next (h : Run H cs c) (hstep : Evolves H c d) {s : Snapshot κ}
    (hattends : Attends H i l s a after c x) (hx : c.engine.get? i = some x)
    (hends : ¬Unsubscribes H i l c) (hy : d.engine.get? i = some y) (hnot : y.status ≠ .stopped) :
  Attends H i l s a (after ++ [c]) d y
  := by
  obtain ⟨hl, hrunning, hstream, hcurrent⟩ := hattends
  obtain ⟨mid, hgoes⟩ := h.goes hstep
  have hturn := hgoes.turn hx (hgoes.releases.get?_of_get? hy)
  have hstarted := Instance.status_ne_notStarted hrunning
  constructor
  · exact hstep.hasListener hx hl hends hy hnot
  · exact hturn.runs hrunning hnot
  · rw [← List.cons_append, told, filterMap_concat, ← told, List.append_assoc,
      h.hears_step hstep hx hl hy hnot, ← List.append_assoc, hstream, committed, committed,
      filterMap_concat, List.cons_append]
  · rw [h.snapshot_step hstep hx hy fun hnew => absurd hnew hstarted, committed, filterMap_concat,
      ← committed, ← List.cons_append, List.getLast?_append, hcurrent]
    cases commits? H i c <;> rfl

/-- What a listener has been told since it was subscribed to a running instance outside its
work. -/
theorem Run.attends (h : Run H (before ++ a :: after) c) {code : κ} {point : π}
    (hcontrol : a.control = .host (.call (.subscribe i code) point))
    (hx : a.engine.get? i = some x) (hrunning : x.isRunning = true)
    (hidle : workOf i a.stack = none) (hends : ∀ b ∈ after, ¬Unsubscribes H i x.nextListener b)
    (hy : c.engine.get? i = some y) (hnot : y.status ≠ .stopped) :
  Attends H i x.nextListener x.snapshot a after c y
  := by
  refine h.after (p := fun passed c => (∀ b ∈ passed, ¬Unsubscribes H i x.nextListener b) →
    ∀ y, c.engine.get? i = some y → y.status ≠ .stopped →
      Attends H i x.nextListener x.snapshot a passed c y) ?_ ?_ hends y hy hnot
  · intro d hrun hstep _ y hy hnot
    exact hrun.attends_of_subscribe hstep hcontrol hx hrunning hidle hy hnot
  · intro passed c d hrun hstep ih hends z hz hnot
    obtain ⟨mid, hgoes⟩ := hrun.goes hstep
    have hlt : i < c.engine.instances.next :=
      Nat.lt_of_lt_of_le (Engine.lt_next_of_get? hx)
        (hrun.later (List.mem_append_right _ List.mem_cons_self)).1
    obtain ⟨y, hy, hmid⟩ := hgoes.was_there hlt hz
    have hnot' := (hgoes.turn hy hmid).status_ne_stopped hnot
    have hattends := ih (fun b hb => hends b (List.mem_append_left _ hb)) y hy hnot'
    exact hrun.attends_next hstep hattends hy (hends c (by simp)) hz hnot

/-- The stream of a listener that is subscribed to a running instance outside its work, for as long
as it is not unsubscribed and the instance is not stopped.

What it has been told since, and what is still due to it in the work in progress, is the snapshot
current at the subscription followed by the snapshots committed since, in this order; when the
instance is not at work, it has been told all of them.  While a call of it for a snapshot that was
committed since is in progress, this snapshot is current.  The current snapshot is the one committed
last, or that at the subscription, so that the latter is current during the first call until
another one is committed.  Every event that is processed leads to a commit, also if it is
ignored. -/
theorem Run.stream (h : Run H (before ++ a :: after) c) {code : κ} {point : π}
    (hcontrol : a.control = .host (.call (.subscribe i code) point))
    (hx : a.engine.get? i = some x) (hrunning : x.isRunning = true)
    (hidle : workOf i a.stack = none) (hends : ∀ b ∈ after, ¬Unsubscribes H i x.nextListener b)
    (hy : c.engine.get? i = some y) (hlasts : y.isRunning = true) :
  told i x.nextListener (a :: after) ++ due x.nextListener (workOf i c.stack)
      = x.snapshot :: committed H i after
    ∧ (workOf i c.stack = none →
      told i x.nextListener (a :: after) = x.snapshot :: committed H i after)
    ∧ (∀ first b between s, after = first ++ b :: between →
      hears? i x.nextListener b = some s → (∀ e ∈ between, ¬e.Resumes i) → y.snapshot = s)
    ∧ (x.snapshot :: committed H i after).getLast? = some y.snapshot
    ∧ ∀ b ∈ after, ∀ event, handles H i b = some (.event event) → ∃ s, commits? H i b = some s
  := by
  have hnot := Instance.status_ne_stopped hlasts
  obtain ⟨-, -, hstream, hlast⟩ := h.attends hcontrol hx hrunning hidle hends hy hnot
  refine ⟨hstream, ?_, ?_, hlast, ?_⟩
  · intro hdone
    rwa [hdone, due_none, List.append_nil] at hstream
  · rintro first b between s rfl hhears hcalled
    rw [← List.cons_append, ← List.append_assoc] at h
    have hb := h.of_append
    have hlt := Nat.lt_of_lt_of_le (Engine.lt_next_of_get? hx) (hb.later (by simp)).1
    obtain ⟨z, hz⟩ := (h.later (List.mem_append_right _ List.mem_cons_self)).2 i y hlt hy
    have hnot' : z.status ≠ .stopped :=
      fun hstopped => h.never_stopped hy hnot b (by simp) ⟨z, hz, hstopped⟩
    obtain ⟨hl, -⟩ := hb.attends hcontrol hx hrunning hidle
      (fun e he => hends e (List.mem_append_left _ he)) hz hnot'
    obtain ⟨_, _, z', -, hz', heq, -⟩ | ⟨reply, o, m, more, rest, below, hback, hstack⟩ :=
      hears?_cases hhears
    · -- The listener has its number already.
      obtain rfl := Option.some.inj (hz.symm.trans hz')
      obtain ⟨p, hp, hpl⟩ := Instance.hasListener_iff.mp hl
      exact absurd (hpl.trans heq) (Nat.ne_of_lt ((hb.numbered hz).below p hp))
    · have hw := h.workOf_during hback hstack hz hcalled
      exact h.publishes hy _ s hw (.inr ⟨more, List.mem_cons_self⟩)
  · intro b hb event hevent
    obtain ⟨first, between, rfl⟩ := List.append_of_mem hb
    rw [← List.cons_append, ← List.append_assoc] at h
    exact h.of_append.exists_commits? hevent

/-- The host of a relay whose listeners let it go on when they are told of its first state. -/
def eagerHost : Host Unit (Script Unit) Unit :=
  { relayHost with
    notify := fun _ s _ m =>
      (Script.next (if s.value.leaf? = some "a" then [.send 0 (.named "GO")] else []), m) }

/-- The first `n` steps after a relay is made that is started and then gets a listener. -/
def eagerRun (n : Nat) :
    List (Configuration Unit (Script Unit) Unit) × Configuration Unit (Script Unit) Unit :=
  playedBy eagerHost relay [.start 0, .subscribe 0 ()] n

/-- The relay when its listener is subscribed, and after `n` further steps. -/
theorem run_eagerRun {n m : Nat} (hm : 11 + (1 + n) = m)
    (hcalls : ((eagerRun m).1.drop 3).all (fun c => !c.hands) = true) :
  Run eagerHost ((eagerRun 11).1
      ++ (eagerRun 11).2 :: playedSince eagerHost relay [.start 0, .subscribe 0 ()] 11 n)
    (eagerRun m).2
  := run_playedSince hm isCompiled_relay (fun _ _ _ _ hok => by cases hok) (by decide +kernel)
    hcalls

/-- The listener is subscribed to the relay while this runs and is not at work, and is told its
first state. -/
theorem exists_eager :
  ∃ x point, (eagerRun 11).2.engine.get? 0 = some x ∧ x.isRunning = true ∧ x.nextListener = 0
    ∧ (eagerRun 11).2.control = .host (.call (.subscribe 0 ()) point)
    ∧ workOf 0 (eagerRun 11).2.stack = none
  := by
  have hthere : ((eagerRun 11).2.engine.get? 0).map
      (fun x => (x.isRunning, x.nextListener)) = some (true, 0) := by decide +kernel
  obtain ⟨x, hx, heq⟩ := Option.map_eq_some_iff.mp hthere
  obtain ⟨hrunning, hnumber⟩ := Prod.mk.inj heq
  exact ⟨x, [], hx, hrunning, hnumber, rfl, rfl⟩

/-- The listener of a relay is told its first state and then its second, although it is still
being told of the first when the second is committed. -/
theorem eager_stream :
  (told 0 0 ((eagerRun 11).2 :: playedSince eagerHost relay [.start 0, .subscribe 0 ()] 11 18)).map
      (fun s => s.value.leaf?) = [some "a", some "a_1"]
  := by
  obtain ⟨x, point, hx, hrunning, hnumber, hcontrol, hidle⟩ := exists_eager
  have hthere : ((eagerRun 30).2.engine.get? 0).map Instance.isRunning = some true := by
    decide +kernel
  obtain ⟨y, hy, hlasts⟩ := Option.map_eq_some_iff.mp hthere
  have hends : ∀ b ∈ playedSince eagerHost relay [.start 0, .subscribe 0 ()] 11 18,
      ¬Unsubscribes eagerHost 0 x.nextListener b := by
    rw [hnumber]
    decide +kernel
  obtain ⟨-, htold, -⟩ := (run_eagerRun (n := 18) (m := 30) rfl (by decide +kernel)).stream
    hcontrol hx hrunning hidle hends hy hlasts
  have htold := htold rfl
  rw [hnumber] at htold
  rw [htold, List.map_cons]
  have hfirst : ((eagerRun 11).2.engine.get? 0).map (fun x => x.snapshot.value.leaf?)
      = some (some "a") := by decide +kernel
  rw [hx, Option.map_some, Option.some.injEq] at hfirst
  rw [hfirst]
  decide +kernel

/-- Whether the first call of a new listener is in progress. -/
def replays (i l : Nat) (c : Configuration κ π σ) : Bool :=
  c.stack.any fun
    | .replaying j m => j = i && m = l
    | _ => false

/-- The first call of a listener is in progress when the snapshot that it was told is not current
any more: a listener that lets its instance go on while it is being subscribed. -/
theorem eager_overtaken :
  ∃ before a after c code point x y s, Run eagerHost (before ++ a :: after) c
    ∧ a.control = .host (.call (.subscribe 0 code) point)
    ∧ a.engine.get? 0 = some x ∧ x.isRunning = true ∧ workOf 0 a.stack = none
    ∧ hears? 0 x.nextListener a = some s
    ∧ (∀ b ∈ after, ¬Unsubscribes eagerHost 0 x.nextListener b)
    ∧ (∀ b ∈ after ++ [c], b.replays 0 x.nextListener = true)
    ∧ c.engine.get? 0 = some y ∧ y.isRunning = true
    ∧ y.snapshot.value ≠ s.value
  := by
  obtain ⟨x, point, hx, hrunning, hnumber, hcontrol, hidle⟩ := exists_eager
  have hthere : ((eagerRun 14).2.engine.get? 0).map
      (fun y => (y.isRunning, y.snapshot.value.leaf?)) = some (true, some "a_1") := by
    decide +kernel
  have hfirst : ((eagerRun 11).2.engine.get? 0).map (fun x => x.snapshot.value.leaf?)
      = some (some "a") := by decide +kernel
  obtain ⟨y, hy, heq⟩ := Option.map_eq_some_iff.mp hthere
  obtain ⟨hlasts, hsecond⟩ := Prod.mk.inj heq
  rw [hx, Option.map_some, Option.some.injEq] at hfirst
  refine ⟨_, _, _, _, (), point, x, y, x.snapshot,
    run_eagerRun (n := 2) (m := 14) rfl (by decide +kernel), hcontrol, hx, hrunning, hidle,
    by rw [hears?_of_subscribe hcontrol hx, if_pos rfl], ?_, ?_, hy, hlasts, ?_⟩
  · rw [hnumber]
    decide +kernel
  · rw [hnumber]
    decide +kernel
  · intro hsame
    rw [hsame, hfirst] at hsecond
    exact absurd hsecond (by decide)

end Configuration

end Statechart
