import Statechart.Proofs.Telling
import Statechart.Proofs.Invocations

/-!
# Reports of completion

A child tells its parent that it is complete at the end of the first step after which it runs and
is at a final value, and at no other time (`Configuration.Run.reports_once`).
-/

namespace Statechart

variable {κ π σ : Type}

/-! ### The last phase -/

/-- The phases end with the report of a value, and there is no other report among them. -/
def Phase.LeadToReport (v : StateValue) (ps : List (Phase κ)) : Prop :=
  ∃ qs, ps = qs ++ [.report v] ∧ ∀ v', .report v' ∉ qs

namespace Phase.LeadToReport

variable {v v' : StateValue} {p p' : Phase κ} {ps : List (Phase κ)}

theorem tail (h : LeadToReport v (p :: ps)) (hne : ps ≠ []) :
  LeadToReport v ps
  := by
  obtain ⟨_ | ⟨q, qs⟩, heq, hqs⟩ := h
  · exact absurd (List.cons.inj heq).2 hne
  · exact ⟨qs, (List.cons.inj heq).2, fun v' hmem => hqs v' (List.mem_cons_of_mem _ hmem)⟩

/-- A first phase that is no report can be replaced by another one. -/
theorem replace (h : LeadToReport v (p :: ps)) (hp : ∀ v', p ≠ .report v')
    (hp' : ∀ v', p' ≠ .report v') :
  LeadToReport v (p' :: ps)
  := by
  obtain ⟨_ | ⟨q, qs⟩, heq, hqs⟩ := h
  · exact absurd (List.cons.inj heq).1 (hp v)
  · obtain ⟨-, rfl⟩ := List.cons.inj heq
    refine ⟨p' :: qs, rfl, fun v' hmem => ?_⟩
    obtain hmem | hmem := List.mem_cons.mp hmem
    · exact hp' v' hmem.symm
    · exact hqs v' (List.mem_cons_of_mem _ hmem)

/-- Nothing comes after a report. -/
theorem eq_of_report (h : LeadToReport v (.report v' :: ps)) :
  v' = v ∧ ps = []
  := by
  obtain ⟨_ | ⟨q, qs⟩, heq, hqs⟩ := h
  · obtain ⟨heq, rfl⟩ := List.cons.inj heq
    cases heq
    exact ⟨rfl, rfl⟩
  · obtain ⟨rfl, -⟩ := List.cons.inj heq
    exact absurd List.mem_cons_self (hqs v')

theorem eq_report (h : LeadToReport v [p]) :
  p = .report v
  := by
  obtain ⟨_ | ⟨q, qs⟩, heq, -⟩ := h
  · exact (List.cons.inj heq).1
  · exact absurd (List.cons.inj heq).2.symm (by simp)

theorem startPhases (x : Instance κ) :
  LeadToReport x.snapshot.value x.startPhases
  := ⟨[.perform x.snapshot.actions x.snapshot.context .init, .startChildren, .rearm], rfl, by simp⟩

theorem transitionPhases (x : Instance κ) (next : Snapshot κ) (event : Event)
    (rearm : Configuration.Rearm) :
  LeadToReport next.value (Configuration.transitionPhases x next event rearm)
  := by
  refine ⟨_, rfl, fun v' hmem => ?_⟩
  simp only [List.mem_append, List.mem_singleton, reduceCtorEq, or_false, false_or] at hmem
  obtain hmem | hmem := hmem
  · split at hmem <;> simp at hmem
  · split at hmem <;> simp at hmem

end Phase.LeadToReport

/-- The work of an instance that runs ends with the report of its value. -/
def Instance.Reports (x : Instance κ) (w : Option (List (Phase κ))) : Prop :=
  x.isRunning = true → ∀ p ps, w = some (p :: ps) →
    Phase.LeadToReport x.snapshot.value (p :: ps)

theorem Turn.reports {i : Nat} {r r' : Engine κ} {x y : Instance κ}
    {w w' : Option (List (Phase κ))} (h : Turn i r r' x w y w') (hx : x.Reports w) :
  y.Reports w'
  := by
  have hrest {p : Phase κ} {rest : List (Phase κ)} (hw : w = some (p :: rest))
      (hrunning : x.isRunning = true) {q : Phase κ} {qs : List (Phase κ)}
      (hps : some rest = some (q :: qs)) : Phase.LeadToReport x.snapshot.value (q :: qs) := by
    obtain rfl := Option.some.inj hps
    exact (hx hrunning _ _ hw).tail nofun
  intro hrunning q qs hps
  cases h with
  | keep hw =>
    obtain rfl | ⟨-, rfl⟩ | ⟨-, rfl⟩ := hw
    · exact hx hrunning q qs hps
    · cases hps
    · cases hps
  | start => cases hps
  | begin =>
    rw [← Option.some.inj hps]
    exact .startPhases x
  | commit =>
    rw [← Option.some.inj hps]
    exact .transitionPhases ..
  | @advance p ps rest _ _ _ hadvances =>
    obtain rfl | ⟨q', rfl⟩ := hadvances.eq_nil_or_singleton
    · exact hrest rfl hrunning hps
    · rw [← Option.some.inj hps]
      refine (hx hrunning _ _ rfl).replace ?_ ?_
      · rintro v rfl
        cases hadvances
      · rintro v rfl
        cases hadvances
  | drop hnot =>
    rw [hnot] at hrunning
    cases hrunning
  | stopChildren | rearm => exact hrest rfl hrunning hps
  | spawn =>
    rw [← Option.some.inj hps]
    exact (hx hrunning _ _ rfl).replace nofun nofun
  | halt => cases hrunning

namespace Configuration

variable {H : Host κ π σ} {cs : List (Configuration κ π σ)} {b c d : Configuration κ π σ}
  {i : Nat} {x y : Instance κ}

theorem Run.reports (h : Run H cs c) (hx : c.engine.get? i = some x) :
  x.Reports (workOf i c.stack)
  := by
  refine h.each (p := fun _ x w => x.Reports w) ?_ (fun _ hturn => hturn.reports) hx
  intro s r i y w harrives _ _ p ps hw
  cases harrives <;> cases hw

/-! ### Reports -/

/-- A delivery changes at most the mail of an instance. -/
theorem get?_deliver (hx : c.engine.get? i = some x) (j : Nat) (e : Envelope) :
  ∃ mailbox busy, (c.deliver j e).engine.get? i
    = some { x with mailbox := mailbox, busy := busy }
  := by
  cases hz : c.engine.get? j with
  | none =>
    rw [deliver_of_none hz]
    exact ⟨x.mailbox, x.busy, hx⟩
  | some z =>
    rw [(deliver_of_some hz e).1.get?]
    split
    · next hj =>
      subst hj
      obtain rfl := Option.some.inj (hz.symm.trans hx)
      exact ⟨_, _, rfl⟩
    · exact ⟨x.mailbox, x.busy, hx⟩

/-- A delivery leaves the work of an instance that is busy. -/
theorem workOf_deliver (hx : c.engine.get? i = some x) (hbusy : x.busy = true) (j : Nat)
    (e : Envelope) :
  workOf i (c.deliver j e).stack = workOf i c.stack
  := by
  cases hz : c.engine.get? j with
  | none =>
    rw [deliver_of_none hz]
    rfl
  | some z =>
    rw [(deliver_of_some hz e).2, wake]
    split
    · rfl
    · next hnot =>
      refine workOf_working_of_ne ?_ _ _ _
      rintro rfl
      obtain rfl := Option.some.inj (hz.symm.trans hx)
      exact hnot hbusy

/-- A report marks the instance if it runs and the value is final; nothing else changes of the
instance but its mail, and its work is left. -/
theorem get?_report (hx : c.engine.get? i = some x) (hbusy : x.busy = true)
    (value : StateValue) :
  (∃ mailbox busy, (c.report i x value).engine.get? i = some { x with
      mailbox := mailbox, busy := busy
      doneReported := x.doneReported || x.isRunning && x.machine.isFinal value })
    ∧ workOf i (c.report i x value).stack = workOf i c.stack
  := by
  rw [report]
  split
  · next hcond =>
    rw [Bool.and_eq_true] at hcond
    rw [hcond.1, Bool.or_true]
    have hmarked := (Engine.sets_modify hx fun x => { x with doneReported := true }).get?_self
    simp only
    split
    · next link _ =>
      obtain ⟨mailbox, busy, hy⟩ := get?_deliver (c := c.withEngine (c.engine.modify i _)) hmarked
        link.parent (.childDone link.id link.state)
      exact ⟨⟨mailbox, busy, hy⟩,
        workOf_deliver (c := c.withEngine (c.engine.modify i _)) hmarked hbusy _ _⟩
    · exact ⟨⟨x.mailbox, x.busy, hmarked⟩, rfl⟩
  · next hcond =>
    have hsame : (x.doneReported || x.isRunning && x.machine.isFinal value) = x.doneReported := by
      revert hcond
      cases x.isRunning <;> cases x.machine.isFinal value <;> cases x.doneReported <;> decide
    rw [hsame]
    exact ⟨⟨x.mailbox, x.busy, hx⟩, rfl⟩

/-- What an instance sends is the report at the end of a step. -/
theorem of_sender {post : Post} (hposted : (signal H c).posted = some post)
    (hsender : post.sender = some i) :
  ∃ reply o value rest below x link, c.control = .back reply
    ∧ c.stack = .working i o (.report value :: rest) :: below ∧ c.engine.get? i = some x
    ∧ x.isRunning = true ∧ x.machine.isFinal value = true ∧ x.doneReported = false
    ∧ x.parent = some link ∧ (∃ y, c.engine.get? link.parent = some y)
    ∧ post = ⟨link.parent, .childDone link.id link.state, some i⟩
  := by
  have hsignals := signals H c
  generalize signal H c = s at hposted hsignals
  cases hsignals with
  | report hcontrol hstack hx hrunning hfinal hfirst hlink hthere =>
    cases hposted
    obtain rfl := Option.some.inj hsender
    exact ⟨_, _, _, _, _, _, _, hcontrol, hstack, hx, hrunning, hfinal, hfirst, hlink,
      ⟨_, hthere⟩, rfl⟩
  | _ => cases hposted <;> cases hsender

end Configuration

/-- Only a report marks an instance, which goes on with its work. -/
theorem Move.doneReported_eq {s : Signal κ} {r r' : Engine κ} {st st' : List (Frame κ π)}
    (hmove : Move s r st r' st') {i : Nat} {x y : Instance κ} (hx : r.get? i = some x)
    (hy : r'.get? i = some y)
    (hnot : ∀ o value rest below, st = .working i o (.report value :: rest) :: below →
      workOf i st' = some (.report value :: rest)) :
  y.doneReported = x.doneReported
  := by
  obtain hdone | ⟨o, value, rest, below, hst, hwork⟩ := (hmove.marks hx hy).done
  · exact hdone
  · exact absurd (hnot o value rest below hst) hwork

namespace Configuration

variable {H : Host κ π σ} {cs : List (Configuration κ π σ)} {b c d : Configuration κ π σ}
  {i : Nat} {x y : Instance κ}

/-- The next step ends what an instance does about an envelope: some of it was left, or the
envelope is just being taken, and then nothing is left. -/
def EndsStep (H : Host κ π σ) (i : Nat) (c d : Configuration κ π σ) : Prop :=
  ((∃ p ps, workOf i c.stack = some (p :: ps)) ∨ ∃ e, (signal H c).takenBy i = some e)
    ∧ workOf i d.stack = some []

/-- An instance ends a step in the next one, and then it runs and is at a final value. -/
def Completes (H : Host κ π σ) (i : Nat) (c : Configuration κ π σ) : Prop :=
  ∃ d y, Evolves H c d ∧ EndsStep H i c d ∧ d.engine.get? i = some y
    ∧ y.isRunning = true ∧ y.machine.isFinal y.snapshot.value = true

/-- A report is made in one step: the instance is marked if it runs and the value is final. -/
theorem Run.step_of_report (h : Run H cs c) {reply : Reply κ} {o : Except MachineError Unit}
    {value : StateValue} {rest : List (Phase κ)} {below : List (Frame κ π)}
    (hcontrol : c.control = .back reply)
    (hstack : c.stack = .working i o (.report value :: rest) :: below)
    (hx : c.engine.get? i = some x) :
  step? H c = some ((c.work i o rest below).report i x value)
    ∧ (∃ mailbox busy, ((c.work i o rest below).report i x value).engine.get? i = some { x with
        mailbox := mailbox, busy := busy
        doneReported := x.doneReported || x.isRunning && x.machine.isFinal value })
    ∧ workOf i ((c.work i o rest below).report i x value).stack = some rest
  := by
  have hbusy : x.busy = true :=
    (h.orderly.busy i x hx).mpr (by rw [hstack]; exact List.mem_cons_self)
  obtain ⟨hget, hwork⟩ := get?_report (c := c.work i o rest below) hx hbusy value
  refine ⟨?_, hget, ?_⟩
  · simp only [step?, hcontrol, hstack, hx, stepPhase]
  · rw [hwork]
    exact workOf_working_self ..

/-- An instance at a final value completes when it reports. -/
theorem Run.completes_of_report (h : Run H cs c) {reply : Reply κ} {o : Except MachineError Unit}
    {value : StateValue} {rest : List (Phase κ)} {below : List (Frame κ π)}
    (hcontrol : c.control = .back reply)
    (hstack : c.stack = .working i o (.report value :: rest) :: below)
    (hx : c.engine.get? i = some x) (hrunning : x.isRunning = true)
    (hfinal : x.machine.isFinal value = true) :
  Completes H i c
  := by
  have hw : workOf i c.stack = some (.report value :: rest) := by rw [hstack, workOf_working_self]
  obtain ⟨rfl, rfl⟩ := (h.reports hx hrunning _ _ hw).eq_of_report
  obtain ⟨hstep, ⟨mailbox, busy, hy⟩, hw'⟩ := h.step_of_report (H := H) hcontrol hstack hx
  refine ⟨_, _, .step ?_ hstep, ⟨.inl ⟨_, _, hw⟩, hw'⟩, hy, hrunning, hfinal⟩
  intro m hm
  have hnone : (signal H c).handed = none := by
    simp only [signal, hcontrol, hstack, hx, phaseSignal]
    repeat' split
    all_goals rfl
  rw [hnone] at hm
  cases hm

end Configuration

/-- An instance that takes an envelope is at work then. -/
theorem Move.workOf_of_taken {s : Signal κ} {r r' : Engine κ} {st st' : List (Frame κ π)}
    (hmove : Move s r st r' st') {i : Nat} {e : Envelope} (htaken : s.taken = some (i, e)) :
  workOf i st' ≠ none
  := by
  cases hmove with
  | ignore | stumble | begin | commit =>
    cases htaken
    rw [workOf_working_self]
    exact nofun
  | _ => cases htaken

/-- Work that is left does not vanish while the instance is there. -/
theorem Turn.ne_none {i : Nat} {r r' : Engine κ} {x y : Instance κ} {p : Phase κ}
    {ps : List (Phase κ)} {w' : Option (List (Phase κ))} (h : Turn i r r' x (some (p :: ps)) y w') :
  w' ≠ none
  := by
  cases h with
  | keep hw =>
    obtain rfl | ⟨hw, -⟩ | ⟨hw, -⟩ := hw
    · exact nofun
    · cases hw
    · cases hw
  | drop _ hw =>
    rw [hw]
    exact nofun
  | halt hw =>
    obtain rfl | ⟨_, _, -, rfl⟩ := hw
    · exact nofun
    · exact nofun
  | _ => exact nofun

/-- Work of an instance that runs comes to an end with the report. -/
theorem Turn.eq_report {i : Nat} {r r' : Engine κ} {x y : Instance κ} {p : Phase κ}
    {ps : List (Phase κ)} {w' : Option (List (Phase κ))} (h : Turn i r r' x (some (p :: ps)) y w')
    (hw' : w' = some []) (hrunning : y.isRunning = true) (hreports : x.Reports (some (p :: ps))) :
  ps = [] ∧ p = .report x.snapshot.value
  := by
  have heq (hx : x.isRunning = true) (hps : some ps = some []) :
      ps = [] ∧ p = .report x.snapshot.value := by
    obtain rfl := Option.some.inj hps
    exact ⟨rfl, (hreports hx p [] rfl).eq_report⟩
  cases h with
  | keep hw =>
    subst hw'
    obtain hw | ⟨hw, -⟩ | ⟨hw, -⟩ := hw <;> cases hw
  | advance hadvances =>
    obtain ⟨-, rfl⟩ := List.append_eq_nil_iff.mp (Option.some.inj hw')
    exact heq hrunning rfl
  | drop hnot =>
    rw [hnot] at hrunning
    cases hrunning
  | stopChildren => exact heq hrunning hw'
  | spawn => cases hw'
  | rearm hx => exact heq hx hw'
  | halt => cases hrunning

namespace Configuration

variable {H : Host κ π σ} {cs : List (Configuration κ π σ)} {b c d : Configuration κ π σ}
  {i : Nat} {x y : Instance κ}

/-- An instance that ends a step is the innermost activity. -/
theorem Run.stack_of_endsStep (h : Run H cs c) (hstep : Evolves H c d) (hends : EndsStep H i c d) :
  ∃ reply o ps below, c.control = .back reply ∧ c.stack = .working i o ps :: below
  := by
  obtain ⟨⟨p, ps, hw⟩ | ⟨e, htaken⟩, hw'⟩ := hends
  · obtain hsame | ⟨reply, o, below, hcontrol, hstack⟩ := h.workOf_eq hstep hw
    · rw [hw'] at hsame
      cases hsame
    · exact ⟨reply, o, _, below, hcontrol, hstack⟩
  · obtain ⟨reply, o, below, hcontrol, hstack⟩ := exists_of_takenBy htaken
    exact ⟨reply, o, [], below, hcontrol, hstack⟩

/-- A step after which an instance runs ends with the report, or with an envelope, other than the
start, that leads to nothing. -/
theorem Run.endsStep_cases (h : Run H cs c) (hstep : Evolves H c d)
    (hx : c.engine.get? i = some x) (hy : d.engine.get? i = some y)
    (hrunning : y.isRunning = true) (hends : EndsStep H i c d) :
  x.isRunning = true ∧ y.snapshot = x.snapshot ∧ y.machine = x.machine
    ∧ ∃ reply o ps below, c.control = .back reply ∧ c.stack = .working i o ps :: below
      ∧ (ps = [.report x.snapshot.value]
        ∨ ps = [] ∧ ∃ e, x.mailbox.head? = some e ∧ e ≠ .start)
  := by
  obtain ⟨mid, hgoes⟩ := h.goes hstep
  have hturn := hgoes.turn hx (hgoes.releases.get?_of_get? hy)
  obtain ⟨reply, o, ps, below, hcontrol, hstack⟩ := h.stack_of_endsStep hstep hends
  have hw : workOf i c.stack = some ps := by rw [hstack, workOf_working_self]
  have hruns : x.isRunning = true := by
    refine h.isRunning_of_workOf hx (by rw [hw]; exact nofun) (hturn.status_ne_stopped ?_)
    exact fun hstopped => absurd hrunning (by simp [Instance.isRunning, hstopped])
  obtain ⟨hsome, hw'⟩ := hends
  have hsnapshot : y.snapshot = x.snapshot := by
    obtain hsame | ⟨hnot, -⟩ | ⟨-, p, qs, hqs⟩ := hturn.snapshot_cases
    · exact hsame
    · exact absurd hnot (Instance.status_ne_notStarted hruns)
    · cases hw'.symm.trans hqs
  refine ⟨hruns, hsnapshot, hturn.machine_eq.1, reply, o, ps, below, hcontrol, hstack, ?_⟩
  obtain ⟨p, qs, hps⟩ | ⟨e, htaken⟩ := hsome
  · left
    obtain rfl := Option.some.inj (hw.symm.trans hps)
    rw [hw] at hturn
    obtain ⟨rfl, rfl⟩ := hturn.eq_report hw' hrunning (hw ▸ h.reports hx)
    rfl
  · right
    obtain ⟨x', more, o', below', hx', hmail, hstack', -⟩ :=
      step?_of_taken (taken_of_takenBy htaken)
    obtain rfl := Option.some.inj (hx.symm.trans hx')
    rw [hstack'] at hstack
    cases hstack
    refine ⟨rfl, e, by rw [hmail]; rfl, ?_⟩
    rintro rfl
    -- The start leads to work.
    obtain ⟨-, hbegin, -⟩ := hgoes.of_taken h.valid.1 (taken_of_takenBy htaken) hx hy
    obtain ⟨-, hwork⟩ := hbegin (by simp [Instance.resolution, hruns])
    cases hw'.symm.trans hwork

/-- A mark is set by a report only. -/
theorem Run.doneReported_next (h : Run H cs c) (hstep : Evolves H c d)
    (hx : c.engine.get? i = some x) (hy : d.engine.get? i = some y) :
  y.doneReported = x.doneReported
    ∨ ∃ reply o value rest below, c.control = .back reply
      ∧ c.stack = .working i o (.report value :: rest) :: below
      ∧ y.doneReported = (x.doneReported || x.isRunning && x.machine.isFinal value)
  := by
  by_cases hnow : ∃ reply o value rest below, c.control = .back reply
      ∧ c.stack = .working i o (.report value :: rest) :: below
  · obtain ⟨reply, o, value, rest, below, hcontrol, hstack⟩ := hnow
    obtain ⟨hnext, ⟨mailbox, busy, hget⟩, -⟩ := h.step_of_report (H := H) hcontrol hstack hx
    obtain rfl := Option.some.inj (hnext.symm.trans (hstep.step?_of_stack hstack))
    obtain rfl := Option.some.inj (hget.symm.trans hy)
    exact .inr ⟨reply, o, value, rest, below, hcontrol, hstack, rfl⟩
  · obtain ⟨mid, hgoes⟩ := h.goes hstep
    refine .inl (hgoes.move.doneReported_eq hx (hgoes.releases.get?_of_get? hy) ?_)
    intro o value rest below hstack
    have hw : workOf i c.stack = some (.report value :: rest) := by
      rw [hstack, workOf_working_self]
    obtain hsame | ⟨reply, _, _, hcontrol, -⟩ := h.workOf_eq hstep hw
    · exact hsame
    · exact absurd ⟨reply, o, value, rest, below, hcontrol, hstack⟩ hnow

/-- Nothing is left of the work of an instance after a step that is not the end of one, if nothing
was left before and the instance takes nothing. -/
theorem Run.rests_before (h : Run H cs c) (hstep : Evolves H c d)
    (hx : c.engine.get? i = some x) (hy : d.engine.get? i = some y)
    (hrests : ∀ p ps, workOf i d.stack ≠ some (p :: ps)) (hends : ¬EndsStep H i c d) :
  (∀ p ps, workOf i c.stack ≠ some (p :: ps)) ∧ (signal H c).takenBy i = none
  := by
  obtain ⟨mid, hgoes⟩ := h.goes hstep
  have hturn := hgoes.turn hx (hgoes.releases.get?_of_get? hy)
  have hnot (hsome : workOf i d.stack ≠ none) : workOf i d.stack = some [] := by
    obtain ⟨_ | ⟨p, ps⟩, hps⟩ := Option.ne_none_iff_exists'.mp hsome
    · exact hps
    · exact absurd hps (hrests p ps)
  constructor
  · intro p ps hw
    refine hends ⟨.inl ⟨p, ps, hw⟩, hnot ?_⟩
    rw [hw] at hturn
    exact hturn.ne_none
  · by_contra htaken
    obtain ⟨e, htaken⟩ := Option.ne_none_iff_exists'.mp htaken
    exact hends ⟨.inr ⟨e, htaken⟩, hnot (hgoes.move.workOf_of_taken (taken_of_takenBy htaken))⟩

/-- The mail of an instance grows by what is posted, at the end, and shrinks by what is taken, at
the front. -/
theorem Run.mailbox_eq (h : Run H cs c) (hstep : Evolves H c d) (hx : c.engine.get? i = some x)
    (hy : d.engine.get? i = some y) (hnot : y.status ≠ .stopped) :
  x.mailbox ++ ((signal H c).postedTo i).toList = ((signal H c).takenBy i).toList ++ y.mailbox
  := by
  obtain ⟨mid, hgoes⟩ := h.goes hstep
  have hmid := hgoes.releases.get?_of_get? hy
  rw [← Engine.mailboxOf_of_get? hx, ← Engine.mailboxOf_of_get? hmid]
  apply hgoes.move.mailboxOf_eq
  rintro ⟨z, hz, hstopped⟩
  obtain rfl := Option.some.inj (hmid.symm.trans hz)
  exact hnot hstopped

/-- What an instance has in its mail, if it takes nothing, stays there and new mail goes last. -/
theorem Run.mailbox_next (h : Run H cs c) (hstep : Evolves H c d)
    (hx : c.engine.get? i = some x) (hy : d.engine.get? i = some y) (hnot : y.status ≠ .stopped)
    (htaken : (signal H c).takenBy i = none) :
  y.mailbox = x.mailbox ++ ((signal H c).postedTo i).toList
  := by
  rw [h.mailbox_eq hstep hx hy hnot, htaken]
  rfl

/-- An instance that runs at a final value at the end of a step is marked then. -/
theorem Run.marks (h : Run H cs c) (hstep : Evolves H c d) (hx : c.engine.get? i = some x)
    (hy : d.engine.get? i = some y) (hrunning : y.isRunning = true)
    (hfinal : y.machine.isFinal y.snapshot.value = true) (hends : EndsStep H i c d)
    (hreported : x.isRunning = true → (∀ p ps, workOf i c.stack ≠ some (p :: ps)) →
      x.machine.isFinal x.snapshot.value = true →
      x.doneReported = true ∨ x.mailbox.head? = some .start) :
  y.doneReported = true
  := by
  obtain ⟨hruns, hsnapshot, hmachine, reply, o, ps, below, hcontrol, hstack, hcases⟩ :=
    h.endsStep_cases hstep hx hy hrunning hends
  rw [hsnapshot, hmachine] at hfinal
  obtain rfl | ⟨rfl, e, he, hne⟩ := hcases
  · obtain ⟨hnext, ⟨mailbox, busy, hget⟩, -⟩ := h.step_of_report (H := H) hcontrol hstack hx
    obtain rfl := Option.some.inj (hnext.symm.trans (hstep.step?_of_stack hstack))
    obtain rfl := Option.some.inj (hget.symm.trans hy)
    simp only [hruns, hfinal, Bool.and_self, Bool.or_true]
  · have hrests : ∀ p ps, workOf i c.stack ≠ some (p :: ps) := by
      rw [hstack, workOf_working_self]
      exact nofun
    obtain hmark | ⟨_, _, _, _, _, -, hstack', -⟩ := h.doneReported_next hstep hx hy
    · rw [hmark]
      refine (hreported hruns hrests hfinal).resolve_right fun hhead => ?_
      exact hne (Option.some.inj (he.symm.trans hhead))
    · rw [hstack] at hstack'
      cases hstack'

/-- An instance that runs at a final value, with nothing left of its work, has reported, unless it
has not handled its start. -/
theorem Run.reported (h : Run H cs c) (hx : c.engine.get? i = some x)
    (hrunning : x.isRunning = true) (hrests : ∀ p ps, workOf i c.stack ≠ some (p :: ps))
    (hfinal : x.machine.isFinal x.snapshot.value = true) :
  x.doneReported = true ∨ x.mailbox.head? = some .start
  := by
  induction h generalizing x with
  | start memory => simp [idle] at hx
  | @next cs c d hrun hstep ih =>
    obtain ⟨mid, hgoes⟩ := hrun.goes hstep
    have hmid := hgoes.releases.get?_of_get? hx
    have hstatus : x.status ≠ .stopped := by
      intro hstopped
      simp [Instance.isRunning, hstopped] at hrunning
    obtain ⟨z, hz⟩ | ⟨-, harrives⟩ := hgoes.arrives hmid
    case inr =>
      generalize workOf i d.stack = w at harrives
      cases harrives with
      | created => cases hrunning
      | spawned => exact .inr rfl
    have hturn := hgoes.turn hz hmid
    by_cases hends : EndsStep H i c d
    · exact .inl (hrun.marks hstep hz hx hrunning hfinal hends (ih hz))
    · obtain ⟨hbefore, htaken⟩ := hrun.rests_before hstep hz hx hrests hends
      have hmail := hrun.mailbox_next hstep hz hx hstatus htaken
      by_cases hnot : z.status = .notStarted
      · right
        have hposted := hgoes.move.posted_of_started hz hnot hmid hrunning
        rw [hmail, (hrun.started.mail i z hz hnot).1, Signal.postedTo, hposted]
        simp
      · have hzruns := hturn.isRunning hrunning hnot
        have hsnapshot := hrun.snapshot_step hstep hz hx fun h => absurd h hnot
        rw [commits?_of_not_taken htaken] at hsnapshot
        rw [hsnapshot, hturn.machine_eq.1] at hfinal
        obtain hmark | ⟨_, _, value, rest, _, -, hstack, -⟩ := hrun.doneReported_next hstep hz hx
        · rw [hmark, hmail]
          refine (ih hz hzruns hbefore hfinal).imp_right fun hhead => ?_
          rw [List.head?_append, hhead]
          rfl
        · exact absurd (by rw [hstack, workOf_working_self]) (hbefore _ _)

/-- An instance that completes is there. -/
theorem Run.get?_of_completes (h : Run H cs c) (hcompletes : Completes H i c) :
  ∃ x, c.engine.get? i = some x
  := by
  obtain ⟨d, y, hstep, hends, -⟩ := hcompletes
  obtain ⟨reply, o, ps, below, -, hstack⟩ := h.stack_of_endsStep hstep hends
  exact h.orderly.there i (by rw [hstack]; exact List.mem_cons_self)

/-- An instance is marked in a step if and only if it completes in it. -/
theorem Run.marks_iff (h : Run H cs c) (hstep : Evolves H c d) (hx : c.engine.get? i = some x)
    (hy : d.engine.get? i = some y) :
  y.doneReported = true ↔ x.doneReported = true ∨ Completes H i c
  := by
  constructor
  · intro hmarked
    obtain hmark | ⟨reply, o, value, rest, below, hcontrol, hstack, hmark⟩ :=
      h.doneReported_next hstep hx hy
    · exact .inl (hmark ▸ hmarked)
    · rw [hmark, Bool.or_eq_true, Bool.and_eq_true] at hmarked
      refine hmarked.imp_right fun ⟨hrunning, hfinal⟩ => ?_
      exact h.completes_of_report hcontrol hstack hx hrunning hfinal
  · rintro (hmarked | ⟨d', y', hstep', hends, hy', hrunning, hfinal⟩)
    · obtain hmark | ⟨_, _, _, _, _, -, -, hmark⟩ := h.doneReported_next hstep hx hy
      · rw [hmark, hmarked]
      · rw [hmark, hmarked, Bool.true_or]
    · obtain ⟨_, _, _, _, -, hstack⟩ := h.stack_of_endsStep hstep' hends
      obtain rfl := Option.some.inj
        ((hstep'.step?_of_stack hstack).symm.trans (hstep.step?_of_stack hstack))
      obtain rfl := Option.some.inj (hy'.symm.trans hy)
      exact h.marks hstep hx hy hrunning hfinal hends fun hruns hrests hfinal =>
        h.reported hx hruns hrests hfinal

/-- The instances that are marked are those that have completed. -/
theorem Run.doneReported_iff (h : Run H cs c) (hx : c.engine.get? i = some x) :
  x.doneReported = true ↔ ∃ b ∈ cs, Completes H i b
  := by
  induction h generalizing x with
  | start memory => simp [idle] at hx
  | @next cs c d hrun hstep ih =>
    obtain ⟨mid, hgoes⟩ := hrun.goes hstep
    have hmid := hgoes.releases.get?_of_get? hx
    obtain ⟨z, hz⟩ | ⟨rfl, harrives⟩ := hgoes.arrives hmid
    · rw [hrun.marks_iff hstep hz hx, ih hz]
      simp only [List.mem_append, List.mem_singleton, or_and_right, exists_or, exists_eq_left]
    · have hnew : x.doneReported = false := by
        generalize workOf c.engine.instances.next d.stack = w at harrives
        cases harrives <;> rfl
      rw [hnew]
      refine iff_of_false Bool.false_ne_true ?_
      rintro ⟨b, hb, hcompletes⟩
      -- Whoever completes has a number that was given.
      obtain hb | hb := List.mem_append.mp hb
      · obtain ⟨before, after, rfl⟩ := List.append_of_mem hb
        obtain ⟨z, hz⟩ := hrun.of_append.get?_of_completes hcompletes
        have hlt := Engine.lt_next_of_get? hz
        have hle := (hrun.later hb).1
        omega
      · obtain rfl := List.mem_singleton.mp hb
        obtain ⟨z, hz⟩ := hrun.get?_of_completes hcompletes
        exact Nat.lt_irrefl _ (Engine.lt_next_of_get? hz)

/-- A report comes last in the mail of the parent. -/
theorem mailboxOf_report (hx : c.engine.get? i = some x) {value : StateValue}
    (hrunning : x.isRunning = true) (hfinal : x.machine.isFinal value = true)
    (hfirst : x.doneReported = false) {link : ParentLink} (hparent : x.parent = some link)
    (hthere : ∃ y, c.engine.get? link.parent = some y) :
  (c.report i x value).engine.mailboxOf link.parent
    = c.engine.mailboxOf link.parent ++ [.childDone link.id link.state]
  := by
  have hmarks := Engine.sets_modify hx fun x => { x with doneReported := true }
  obtain ⟨y, hy⟩ := hthere
  obtain ⟨z, hz⟩ := hmarks.exists_get? hy
  obtain ⟨hposts, -⟩ := deliver_of_some (c := c.withEngine (c.engine.modify i _)) hz
    (.childDone link.id link.state)
  simp only [report, hrunning, hfinal, hfirst, hparent, Bool.and_self, Bool.not_false, if_true]
  rw [hposts.mailboxOf_eq, if_pos rfl, ← hmarks.mailboxOf_keep hx rfl link.parent,
    Engine.mailboxOf_of_get? hz]
  rfl

/-- A child tells its parent that it is complete at the end of the first step after which it runs
and is at a final value, if the parent is still there, and this comes last in the mail of the
parent then.  The child sends nothing else, and once it is stopped it does not complete any more. -/
theorem Run.reports_once (h : Run H cs c) (hx : c.engine.get? i = some x) {link : ParentLink}
    (hparent : x.parent = some link) :
  ((signal H c).posted = some ⟨link.parent, .childDone link.id link.state, some i⟩
      ↔ Completes H i c ∧ (∀ b ∈ cs, ¬Completes H i b)
        ∧ ∃ y, c.engine.get? link.parent = some y)
    ∧ (∀ post, (signal H c).posted = some post → post.sender = some i →
        post = ⟨link.parent, .childDone link.id link.state, some i⟩
          ∧ ∀ d, Evolves H c d → d.engine.mailboxOf link.parent
            = c.engine.mailboxOf link.parent ++ [.childDone link.id link.state])
    ∧ (x.status = .stopped → ¬Completes H i c)
  := by
  have hfirst : x.doneReported = false ↔ ∀ b ∈ cs, ¬Completes H i b := by
    rw [← Bool.not_eq_true, h.doneReported_iff hx]
    simp only [not_exists, not_and]
  refine ⟨⟨fun hposted => ?_, ?_⟩, fun post hposted hsender => ?_, ?_⟩
  · obtain ⟨_, _, _, _, _, x', link', hcontrol, hstack, hx', hrunning, hfinal, hfresh, hlink,
      hthere, heq⟩ := of_sender hposted rfl
    obtain rfl := Option.some.inj (hx.symm.trans hx')
    obtain rfl := Option.some.inj (hparent.symm.trans hlink)
    exact ⟨h.completes_of_report hcontrol hstack hx hrunning hfinal, hfirst.mp hfresh, hthere⟩
  · rintro ⟨⟨d, y, hstep, hends, hy, hrunning, hfinal⟩, hnever, z, hz⟩
    have hfresh := hfirst.mpr hnever
    obtain ⟨hruns, hsnapshot, hmachine, reply, o, ps, below, hcontrol, hstack, hcases⟩ :=
      h.endsStep_cases hstep hx hy hrunning hends
    rw [hsnapshot, hmachine] at hfinal
    obtain rfl | ⟨rfl, e, he, hne⟩ := hcases
    · simp only [signal, hcontrol, hstack, hx, phaseSignal, hruns, hfinal, hfresh, hparent, hz,
        Bool.and_self, Bool.not_false, if_true]
    · have hrests : ∀ p ps, workOf i c.stack ≠ some (p :: ps) := by
        intro p ps hwork
        rw [hstack, workOf_working_self] at hwork
        cases hwork
      obtain hmarked | hhead := h.reported hx hruns hrests hfinal
      · rw [hfresh] at hmarked
        cases hmarked
      · exact absurd (Option.some.inj (he.symm.trans hhead)) hne
  · obtain ⟨reply, o, value, rest, below, x', link', hcontrol, hstack, hx', hrunning, hfinal,
      hfresh, hlink, hthere, rfl⟩ := of_sender hposted hsender
    obtain rfl := Option.some.inj (hx.symm.trans hx')
    obtain rfl := Option.some.inj (hparent.symm.trans hlink)
    refine ⟨rfl, fun d hstep => ?_⟩
    obtain ⟨hnext, -⟩ := h.step_of_report (H := H) hcontrol hstack hx
    obtain rfl := Option.some.inj (hnext.symm.trans (hstep.step?_of_stack hstack))
    exact mailboxOf_report (c := c.work i o rest below) hx hrunning hfinal hfresh hparent hthere
  · rintro hstopped ⟨d, y, hstep, hends, hy, hrunning, -⟩
    obtain ⟨hruns, -⟩ := h.endsStep_cases hstep hx hy hrunning hends
    simp [Instance.isRunning, hstopped] at hruns

/-- The second child of the guardian completes when it has ended, and it has not done so before. -/
theorem guardian_reports_once :
  Completes guardianHost 2 (guardianRun 95).2
    ∧ ∀ b ∈ (guardianRun 95).1, ¬Completes guardianHost 2 b
  := by
  have hrun : Run guardianHost (guardianRun 95).1 (guardianRun 95).2 :=
    run_guardianRun (by decide +kernel)
  have hchild : ((guardianRun 95).2.engine.get? 2).map (fun x => x.parent)
      = some (some ⟨"kid", "s", 0⟩) := by decide +kernel
  obtain ⟨x, hx, hparent⟩ := Option.map_eq_some_iff.mp hchild
  have hposted : (signal guardianHost (guardianRun 95).2).posted
      = some ⟨0, .childDone "kid" "s", some 2⟩ := posted_of_words (by decide +kernel) nofun
  obtain ⟨hcompletes, hnever, -⟩ := (hrun.reports_once hx hparent).1.mp hposted
  exact ⟨hcompletes, hnever⟩

end Configuration

end Statechart
