import Statechart.Proofs.Handling
import Statechart.Proofs.Recording

/-!
# How contexts grow

Every assign lays entries over the context, and each reads the context that those before it have
made.  So a context is the one before it with entries written over it: its keys stay in front, the
new ones follow in the order in which they are first written, and what is not written stays.  The
main statement, `Machine.IsCompiled.contexts_grow`, says this of sequences of events and of runs.
-/

namespace Statechart

variable {κ π σ : Type}

/-! ### Entries over a context -/

/-- The second context is the first with entries written over it one after another.  The keys of
the first stay in front, and those that are new follow in the order in which they are first
written.  A key has the value that is written last, and without one the value that it had. -/
structure Context.Grows (before after : Context) (es : List (String × Json)) : Prop where
  front : before.keys <+: after.keys
  keys : after.keys
    = before.keys ++ ((es.map Prod.fst).filter fun k => k ∉ before.keys).eraseDups
  written : ∀ k v, OrderedMap.find? k es.reverse = some v → after.get? k = some v
  kept : ∀ k, k ∉ es.map Prod.fst → after.get? k = before.get? k

theorem Context.grows_insertAll (context : Context) (es : List (String × Json)) :
  Grows context (context.insertAll es) es
  where
  front := by
    rw [OrderedMap.keys_insertAll]
    exact List.prefix_append _ _
  keys := OrderedMap.keys_insertAll context es
  written k v h := by
    rw [OrderedMap.get?_insertAll, h, Option.some_or]
  kept k h := OrderedMap.get?_insertAll_of_notMem h context

/-! ### Steps -/

namespace Step

/-- The entries that steps write, in order.  Each assign is evaluated in the context that the
steps before it have made. -/
def writes (event : Event) : List (Step κ) → Context → List (String × Json)
  | [], _ => []
  | ⟨.assign change, metadata⟩ :: rest, context =>
    let es := change.entriesIn context event metadata
    es ++ writes event rest (context.insertAll es)
  | ⟨.effect _ _, _⟩ :: rest, context => writes event rest context

/-- To run steps is to write their entries. -/
theorem context_run_eq (event : Event) (steps : List (Step κ)) (context : Context) :
  (run event steps context).value.context = context.insertAll (writes event steps context)
  := by
  induction steps generalizing context with
  | nil => rfl
  | cons s rest ih =>
    obtain ⟨operation, metadata⟩ := s
    cases operation with
    | effect name code => simp [run, writes, ih]
    | assign change =>
      simp only [run, Evaluated.value_bind, Evaluated.value_pure, Assign.value_apply, writes, ih,
        OrderedMap.insertAll_append]

theorem writes_append (event : Event) (xs ys : List (Step κ)) (context : Context) :
  writes event (xs ++ ys) context
    = writes event xs context ++ writes event ys (run event xs context).value.context
  := by
  induction xs generalizing context with
  | nil => rfl
  | cons s rest ih =>
    obtain ⟨operation, metadata⟩ := s
    cases operation with
    | effect name code => simp [run, writes, ih]
    | assign change =>
      simp only [List.cons_append, run, Evaluated.value_bind, Evaluated.value_pure,
        Assign.value_apply, writes, ih, List.append_assoc]

end Step

/-- The keys that an assign gives or lists are among these. -/
def Assign.Within (K : List String) : Assign → Prop
  | transform rule => ∀ context event metadata, (rule.run context event metadata).keys ⊆ K
  | properties entries => entries.map Prod.fst ⊆ K

theorem Assign.Within.entriesIn {K : List String} {a : Assign} (h : a.Within K)
    (context : Context) (event : Event) (metadata : Option Meta) :
  (a.entriesIn context event metadata).map Prod.fst ⊆ K
  := by
  cases a with
  | transform rule => exact h context event metadata
  | properties entries =>
    rw [Assign.entriesIn, List.map_map]
    exact h

/-- Steps whose assigns are within some keys write no others. -/
theorem Step.writes_within {K : List String} {event : Event} {steps : List (Step κ)}
    (h : ∀ s ∈ steps, ∀ change, s.operation = .assign change → change.Within K)
    (context : Context) :
  (writes event steps context).map Prod.fst ⊆ K
  := by
  induction steps generalizing context with
  | nil => exact List.nil_subset K
  | cons s rest ih =>
    obtain ⟨hs, hrest⟩ := List.forall_mem_cons.mp h
    obtain ⟨operation, metadata⟩ := s
    cases operation with
    | effect name code => exact ih hrest context
    | assign change =>
      rw [writes, List.map_append]
      exact List.append_subset.mpr ⟨(hs change rfl).entriesIn _ _ _, ih hrest _⟩

/-! ### What a machine carries out -/

/-- What makes a machine look for a transition: an event, a delay of the active state, or the
transition that one of its invocations has for the end of its child. -/
inductive Trigger (κ : Type) where
  | event
  | delay (key : String)
  | reaction (t : Candidate κ)

/-- The candidates of a state for a trigger. -/
def Trigger.candidates (n : Node κ) (event : Event) : Trigger κ → List (Candidate κ)
  | .event => Chart.candidates n event
  | delay key =>
    match n.after? key with
    | some d => d.candidates
    | none => []
  | reaction t => [t]

namespace Chart

/-- The steps of the first candidate whose guard passes. -/
def stepsOf (c : Chart κ) (source : Node κ) (ts : List (Candidate κ)) (context : Context)
    (event : Event) : List (Step κ) :=
  match ts.find? fun t => t.passes context event source.metadata with
  | none => []
  | some t =>
    match c.plan source t with
    | .error _ => []
    | .ok p => p.steps

/-- The steps that a trigger sets off in a state. -/
def stepsAt (c : Chart κ) (key : String) (trigger : Trigger κ) (context : Context)
    (event : Event) : List (Step κ) :=
  match c.nodes.get? key with
  | none => []
  | some source => c.stepsOf source (trigger.candidates source event) context event

variable {c : Chart κ} {source : Node κ} {ts : List (Candidate κ)} {context : Context}
  {event : Event} {s : Snapshot κ}

theorem stepsOf_of_none
    (h : (ts.find? fun t => t.passes context event source.metadata) = none) :
  c.stepsOf source ts context event = []
  := by
  rw [stepsOf, h]

theorem stepsOf_of_plan {t : Candidate κ} {p : Plan κ}
    (h : (ts.find? fun t => t.passes context event source.metadata) = some t)
    (hplan : c.plan source t = .ok p) :
  c.stepsOf source ts context event = p.steps
  := by
  rw [stepsOf, h]
  simp only [hplan]

/-- If a candidate is taken, then the context is that after its steps, and otherwise there are no
steps. -/
theorem context_takeFirst {s? : Option (Snapshot κ)}
    (h : Option.sequence (c.takeFirst source ts context event).value = Except.ok s?) :
  (s?.map Snapshot.context).getD context
    = (Step.run event (c.stepsOf source ts context event) context).value.context
  := by
  rw [takeFirst, Evaluated.value_bind, Candidate.value_select] at h
  cases hfind : ts.find? fun t => t.passes context event source.metadata with
  | none =>
    rw [hfind] at h
    obtain rfl := Except.ok.inj h
    rw [stepsOf_of_none hfind]
    rfl
  | some t =>
    cases hplan : c.plan source t with
    | error e =>
      simp only [hfind, take, hplan, Evaluated.value_bind, Evaluated.value_pure] at h
      cases h
    | ok p =>
      simp only [hfind, take, hplan, Evaluated.value_bind, Evaluated.value_pure] at h
      obtain rfl := Except.ok.inj h
      rw [stepsOf_of_plan hfind hplan]
      rfl

end Chart

namespace Regions

theorem steps_move {r : Chart κ} {key : String} {context : Context} {event : Event} {m : Move κ}
    (h : (move r key context event).value = .ok m) :
  m.steps = r.stepsAt key .event context event
  := by
  rw [move] at h
  cases hnode : r.node key with
  | error e => simp [hnode] at h
  | ok source =>
    have hsource := Chart.node_eq_ok_iff.mp hnode
    simp only [hnode, Evaluated.value_bind, Candidate.value_select] at h
    simp only [Chart.stepsAt, hsource, Trigger.candidates]
    split at h
    · next hfind =>
      obtain rfl := Except.ok.inj h
      rw [Chart.stepsOf_of_none hfind]
      rfl
    · next t hfind =>
      cases hplan : r.plan source t with
      | error e => simp [hplan] at h
      | ok p =>
        simp only [hplan, Evaluated.value_pure, Except.ok.injEq] at h
        subst h
        rw [Chart.stepsOf_of_plan hfind hplan]
        rfl

/-- The regions carry out the steps that the event sets off in each of them. -/
theorem flatMap_steps_moves {context : Context} {event : Event}
    {keys : List (Chart κ × String)} {ms : List (Move κ)}
    (h : (moves context event keys).value = .ok ms) :
  ms.flatMap Move.steps = keys.flatMap fun k => k.1.stepsAt k.2 .event context event
  := by
  induction keys generalizing ms with
  | nil =>
    obtain rfl := Except.ok.inj h
    rfl
  | cons k rest ih =>
    obtain ⟨r, key⟩ := k
    rw [moves, Evaluated.value_bind] at h
    cases hmove : (move r key context event).value with
    | error e => simp [hmove] at h
    | ok m =>
      cases hrest : (moves context event rest).value with
      | error e => simp [hmove, hrest] at h
      | ok ms' =>
        simp only [hmove, hrest, Evaluated.value_bind, Evaluated.value_pure, Except.ok.injEq] at h
        subst h
        rw [List.flatMap_cons, List.flatMap_cons, steps_move hmove, ih hrest]

end Regions

namespace Machine

/-- What a machine makes of a trigger. -/
def pull (m : Machine κ) (value : StateValue) (context : Context) (event : Event) :
    Trigger κ → Evaluated (Except MachineError (Option (Snapshot κ)))
  | .event => (fun r => r.map some) <$> m.transition value context event
  | .delay key =>
    match value.leaf? with
    | some state => m.fireAfter state key context event
    | none => pure (.ok none)
  | .reaction t =>
    match value.leaf? with
    | some state => m.react state t context event
    | none => pure (.ok none)

/-- The steps that a trigger sets off: of the active state of a flat machine, or of each region
in order, if an event is the trigger. -/
def steps (m : Machine κ) (value : StateValue) (context : Context) (event : Event)
    (trigger : Trigger κ) : List (Step κ) :=
  match m.topology with
  | .flat chart =>
    match value.leaf? with
    | some key => chart.stepsAt key trigger context event
    | none => []
  | .parallel regions =>
    match trigger, Regions.active m.name regions value with
    | .event, .ok keys => keys.flatMap fun k => k.1.stepsAt k.2 .event context event
    | _, _ => []

/-- The entries that a trigger writes. -/
def writes (m : Machine κ) (value : StateValue) (context : Context) (event : Event)
    (trigger : Trigger κ) : List (String × Json) :=
  Step.writes event (m.steps value context event trigger) context

variable {m : Machine κ} {value : StateValue} {context : Context} {event : Event}
  {trigger : Trigger κ} {s? : Option (Snapshot κ)}

theorem steps_of_flat {chart : Chart κ} (hflat : m.topology = .flat chart) {key : String}
    {source : Node κ} (hsource : chart.nodes.get? key = some source) :
  m.steps (.leaf key) context event trigger
    = chart.stepsOf source (trigger.candidates source event) context event
  := by
  simp only [steps, hflat, StateValue.leaf?, Chart.stepsAt, hsource]

/-- In a flat machine a trigger leads where the first of its candidates leads. -/
theorem value_pull_of_flat {chart : Chart κ} (hflat : m.topology = .flat chart) {key : String}
    {source : Node κ} (hsource : chart.nodes.get? key = some source)
    (h : (m.pull (.leaf key) context event trigger).value = .ok s?) :
  (s?.map Snapshot.context).getD context
    = (Step.run event (m.steps (.leaf key) context event trigger) context).value.context
  := by
  rw [steps_of_flat hflat hsource]
  cases trigger with
  | event =>
    simp only [pull, transition, hflat, leaf, Chart.resolve, Chart.node_eq_ok_iff.mpr hsource,
      Evaluated.value_map, Evaluated.value_bind] at h
    have htaken (found : Option (Snapshot κ)) := @Chart.context_takeFirst _ chart source
      (Chart.candidates source event) context event found
    cases hfirst : (chart.takeFirst source (Chart.candidates source event) context event).value with
    | none =>
      rw [hfirst] at h htaken
      obtain rfl := Except.ok.inj h
      exact htaken none rfl
    | some result =>
      rw [hfirst] at h htaken
      cases result with
      | error e => cases h
      | ok s =>
        obtain rfl := Except.ok.inj h
        exact htaken (some s) rfl
  | delay key' =>
    simp only [pull, StateValue.leaf?] at h
    cases hd : source.after? key' with
    | none =>
      simp only [fireAfter, hflat, Chart.node_eq_ok_iff.mpr hsource, hd, Evaluated.value_pure,
        Except.ok.injEq] at h
      subst h
      simp only [Trigger.candidates, hd]
      rfl
    | some d =>
      rw [fireAfter_eq_takeFirst hflat hsource hd, Evaluated.value_map] at h
      simp only [Trigger.candidates, hd]
      exact Chart.context_takeFirst h
  | reaction t =>
    simp only [pull, StateValue.leaf?, react_eq_takeFirst hflat hsource, Evaluated.value_map] at h
    exact Chart.context_takeFirst h

/-- In a machine with regions an event leads where all of them lead together. -/
theorem value_pull_event_of_parallel {regions : List (Chart κ)}
    (hregions : m.topology = .parallel regions)
    (h : (m.pull value context event .event).value = .ok s?) :
  (s?.map Snapshot.context).getD context
    = (Step.run event (m.steps value context event .event) context).value.context
  := by
  simp only [pull, transition, hregions, Evaluated.value_map, Regions.resolve] at h
  simp only [steps, hregions]
  cases hactive : Regions.active m.name regions value with
  | error e =>
    rw [hactive] at h
    cases h
  | ok keys =>
    simp only [hactive, Evaluated.value_bind] at h ⊢
    cases hmoves : (Regions.moves context event keys).value with
    | error e =>
      rw [hmoves] at h
      cases h
    | ok ms =>
      rw [← Regions.flatMap_steps_moves hmoves]
      simp only [hmoves] at h
      split at h
      · next hnone =>
        have hsteps : ms.flatMap Regions.Move.steps = [] := by
          rw [List.flatMap_eq_nil_iff]
          intro move hmove
          have hplan := Option.isNone_iff_eq_none.mp (List.all_eq_true.mp hnone move hmove)
          rw [Regions.Move.steps, hplan]
        obtain rfl := Except.ok.inj h
        rw [hsteps]
        rfl
      · obtain rfl := Except.ok.inj h
        rfl

/-- In a machine with regions nothing but an event leads anywhere. -/
theorem value_pull_of_parallel {regions : List (Chart κ)}
    (hregions : m.topology = .parallel regions)
    (h : (m.pull value context event trigger).value = .ok s?) :
  (s?.map Snapshot.context).getD context
    = (Step.run event (m.steps value context event trigger) context).value.context
  := by
  cases trigger with
  | event => exact value_pull_event_of_parallel hregions h
  | delay key =>
    have hnone : (m.pull value context event (.delay key)).value = .ok none := by
      cases value <;> simp [pull, StateValue.leaf?, fireAfter, hregions]
    obtain rfl := Except.ok.inj (hnone.symm.trans h)
    simp only [steps, hregions]
    rfl
  | reaction t =>
    have hnone : (m.pull value context event (.reaction t)).value = .ok none := by
      cases value <;> simp [pull, StateValue.leaf?, react, hregions]
    obtain rfl := Except.ok.inj (hnone.symm.trans h)
    simp only [steps, hregions]
    rfl

/-- What a trigger leads to has the entries that it writes over the context, and if it leads to
nothing then nothing is written. -/
theorem context_pull (fits : m.topology.Fits value)
    (h : (m.pull value context event trigger).value = .ok s?) :
  (s?.map Snapshot.context).getD context
    = context.insertAll (m.writes value context event trigger)
  := by
  rw [writes, ← Step.context_run_eq]
  cases htopology : m.topology with
  | flat chart =>
    rw [htopology] at fits
    obtain ⟨key, source, rfl, hsource⟩ := fits
    exact value_pull_of_flat htopology hsource h
  | parallel regions => exact value_pull_of_parallel htopology h

/-! ### Events one after another -/

/-- The value and the context after one event after another. -/
def feed (m : Machine κ) (value : StateValue) (context : Context) :
    List Event → Except MachineError (StateValue × Context)
  | [] => .ok (value, context)
  | event :: events =>
    match (m.transition value context event).value with
    | .error e => .error e
    | .ok s => m.feed s.value s.context events

/-- The entries that are written on one event after another. -/
def fed (m : Machine κ) (value : StateValue) (context : Context) :
    List Event → List (String × Json)
  | [] => []
  | event :: events =>
    m.writes value context event .event
      ++ match (m.transition value context event).value with
        | .error _ => []
        | .ok s => m.fed s.value s.context events

/-- From a value that fits, all events are taken, and the context at the end has what is written
over the first one. -/
theorem Sound.exists_feed (sound : m.Sound) (fits : m.topology.Fits value) (context : Context)
    (events : List Event) :
  ∃ value', m.topology.Fits value'
    ∧ m.feed value context events = .ok (value', context.insertAll (m.fed value context events))
  := by
  induction events generalizing value context with
  | nil => exact ⟨value, fits, rfl⟩
  | cons event events ih =>
    obtain ⟨s, hs, hfits, -⟩ := sound.exists_transition fits context event
    have hpull : (m.pull value context event .event).value = .ok (some s) := by
      rw [pull, Evaluated.value_map, hs]
      rfl
    have hcontext : s.context = _ := context_pull fits hpull
    obtain ⟨value', hvalue', hfeed⟩ := ih hfits s.context
    refine ⟨value', hvalue', ?_⟩
    rw [feed, fed, hs, OrderedMap.insertAll_append, ← hcontext]
    exact hfeed

/-- The initial context has what the entry actions write over the context of the machine. -/
theorem IsCompiled.initial_context (h : m.IsCompiled) :
  ∃ entered, m.topology.entry m.metadata = .ok entered
    ∧ m.initial.context = m.context.insertAll (Step.writes .init entered.2.1 m.context)
  := by
  obtain ⟨d, b, -, hm⟩ := h
  obtain ⟨-, topology, initial, -, hinitial, rfl⟩ := exists_of_compile hm
  rw [Topology.initial] at hinitial
  cases hentry : topology.entry d.metadata with
  | error e => simp [hentry] at hinitial
  | ok entered =>
    simp only [hentry, Evaluated.value_bind, Evaluated.value_pure, Except.ok.injEq] at hinitial
    refine ⟨entered, rfl, ?_⟩
    rw [← Step.context_run_eq, ← hinitial]

end Machine

/-! ### Instances -/

namespace Instance

/-- The event and the trigger that a reaction of the active state comes to. -/
def reactionTrigger (event : Event) :
    Option (Reaction (Candidate κ)) → Option (Event × Trigger κ)
  | none => none
  | some (.event kind) => some (⟨kind, event.payload⟩, .event)
  | some (.transition t) => some (event, .reaction t)

/-- The event and the trigger that an envelope comes to, if a transition is looked for. -/
def trigger? (x : Instance κ) (e : Envelope) : Option (Event × Trigger κ) :=
  if !x.isRunning then none
  else
    match e with
    | .start => none
    | .event event => some (event, .event)
    | .after state key generation =>
      if Configuration.isFresh x state key generation then some (.after key, .delay key) else none
    | .childDone id state =>
      match x.activeInvoke? id state with
      | some v =>
        if x.children.contains id then reactionTrigger (.doneInvoke id) v.onDone else none
      | none => none
    | .invokeFailed id state message =>
      match x.activeInvoke? id state with
      | some v => reactionTrigger (.invokeError id message) v.onError
      | none => none

/-- The entries that an instance writes when it takes an envelope. -/
def writes (x : Instance κ) (e : Envelope) : List (String × Json) :=
  match x.trigger? e with
  | some (event, trigger) => x.machine.writes x.snapshot.value x.snapshot.context event trigger
  | none => []

variable {x : Instance κ} {e : Envelope} {event : Event} {trigger : Trigger κ}

/-- An envelope comes to nothing, or to what the machine makes of its trigger. -/
def Pulls (x : Instance κ) (resolution : Resolution κ) (o : Option (Event × Trigger κ)) : Prop :=
  match o with
  | some (event, trigger) =>
    ∃ rearm, resolution = .attempt event rearm
      (x.machine.pull x.snapshot.value x.snapshot.context event trigger)
  | none => resolution = .ignore ∨ resolution = .begin

theorem pulls_ignore :
  x.Pulls .ignore none
  := .inl rfl

theorem pulls_reaction {state : String} (hleaf : x.snapshot.value.leaf? = some state)
    (event : Event) (r : Option (Reaction (Candidate κ))) :
  x.Pulls (x.reaction state event r) (reactionTrigger event r)
  := by
  rcases r with _ | kind | t
  · exact pulls_ignore
  · exact ⟨_, rfl⟩
  · refine ⟨.always, ?_⟩
    rw [reaction, Machine.pull, hleaf]

theorem pulls_resolution (x : Instance κ) (e : Envelope) :
  x.Pulls (x.resolution e) (x.trigger? e)
  := by
  rw [resolution.eq_def, trigger?.eq_def]
  by_cases hrunning : x.isRunning = true
  · simp only [hrunning, Bool.not_true, Bool.false_eq_true, if_false]
    cases e with
    | start => exact .inr rfl
    | event event => exact ⟨_, rfl⟩
    | after state key generation =>
      simp only
      split
      · next hfresh =>
        simp only [Configuration.isFresh, Bool.and_eq_true, decide_eq_true_eq] at hfresh
        refine ⟨.onChange, ?_⟩
        rw [Machine.pull, hfresh.1]
      · exact pulls_ignore
    | childDone id state =>
      cases hv : x.activeInvoke? id state with
      | none =>
        simp only [hv]
        exact pulls_ignore
      | some v =>
        simp only [hv]
        cases x.children.contains id with
        | false => exact pulls_ignore
        | true => exact pulls_reaction (leaf?_of_activeInvoke? hv) _ _
    | invokeFailed id state message =>
      cases hv : x.activeInvoke? id state with
      | none =>
        simp only [hv]
        exact pulls_ignore
      | some v =>
        simp only [hv]
        exact pulls_reaction (leaf?_of_activeInvoke? hv) _ _
  · rw [Bool.not_eq_true] at hrunning
    simp only [hrunning, Bool.not_false, if_true]
    exact pulls_ignore

/-- What an instance commits has the entries that it writes over the context, and if it commits
nothing then nothing is written. -/
theorem Valid.context_next? (h : x.Valid) (e : Envelope) :
  ((x.next? e).map Snapshot.context).getD x.snapshot.context
    = x.snapshot.context.insertAll (x.writes e)
  := by
  have hpulls := x.pulls_resolution e
  rw [writes]
  generalize x.trigger? e = o at hpulls
  cases o with
  | none =>
    obtain hres | hres := hpulls <;> rw [next?, hres] <;> rfl
  | some p =>
    obtain ⟨event, trigger⟩ := p
    obtain ⟨rearm, hres⟩ := hpulls
    obtain ⟨s?, hfound, -⟩ := h.finds_resolution hres
    have hnext : x.next? e = s? := by
      rw [next?, hres]
      simp only [hfound]
    rw [hnext]
    exact Machine.context_pull h.fits hfound

end Instance

/-! ### Runs -/

namespace Configuration

variable {H : Host κ π σ} {cs before after : List (Configuration κ π σ)}
  {b c d : Configuration κ π σ} {i : Nat} {x y : Instance κ}

/-- The entries that an instance writes in the next step. -/
def writes (H : Host κ π σ) (i : Nat) (c : Configuration κ π σ) : List (String × Json) :=
  match c.engine.get? i, (signal H c).takenBy i with
  | some x, some e => x.writes e
  | _, _ => []

/-- The entries that an instance has written, in order. -/
def written (H : Host κ π σ) (i : Nat) (cs : List (Configuration κ π σ)) :
    List (String × Json) :=
  cs.flatMap (writes H i)

theorem written_concat (cs : List (Configuration κ π σ)) (c : Configuration κ π σ) :
  written H i (cs ++ [c]) = written H i cs ++ writes H i c
  := by
  simp [written]

/-- In a step an instance that was started writes its entries over its context. -/
theorem Run.context_next (h : Run H cs c) (hstep : Evolves H c d)
    (hx : c.engine.get? i = some x) (hbegun : x.status ≠ .notStarted)
    (hy : d.engine.get? i = some y) :
  y.snapshot.context = x.snapshot.context.insertAll (writes H i c)
  := by
  rw [h.snapshot_step hstep hx hy fun hnot => absurd hnot hbegun]
  cases htaken : (signal H c).takenBy i with
  | none =>
    rw [commits?_of_not_taken htaken, writes, hx, htaken]
    rfl
  | some e =>
    rw [commits?_of_taken hx htaken, writes, hx, htaken,
      ← (h.valid.1 i x hx).context_next? e]
    cases x.next? e <;> rfl

/-- From one time to another an instance writes its entries over its context. -/
theorem Run.context_since (h : Run H (before ++ b :: after) c) (hx : b.engine.get? i = some x)
    (hbegun : x.status ≠ .notStarted) (hy : c.engine.get? i = some y) :
  y.snapshot.context = x.snapshot.context.insertAll (written H i (b :: after))
  := by
  have hsince : i < c.engine.instances.next ∧ ∀ y, c.engine.get? i = some y →
      y.status ≠ .notStarted
        ∧ y.snapshot.context = x.snapshot.context.insertAll (written H i (b :: after)) := by
    refine h.since (p := fun passed c => i < c.engine.instances.next
      ∧ ∀ y, c.engine.get? i = some y → y.status ≠ .notStarted
        ∧ y.snapshot.context = x.snapshot.context.insertAll (written H i passed)) ?_ ?_
    · refine ⟨Engine.lt_next_of_get? hx, ?_⟩
      intro y hy
      obtain rfl := Option.some.inj (hx.symm.trans hy)
      exact ⟨hbegun, rfl⟩
    · rintro passed c d hrun hstep ⟨hlt, hcontext⟩
      obtain ⟨mid, hgoes⟩ := hrun.goes hstep
      refine ⟨hlt.trans_le (hgoes.releases.next ▸ hgoes.next_le), ?_⟩
      intro z hz
      obtain ⟨y, hy, hmid⟩ := hgoes.was_there hlt hz
      obtain ⟨hbegun, hcontext⟩ := hcontext y hy
      constructor
      · intro hnot
        obtain hsame | hnew | hstopped := (hgoes.turn hy hmid).status
        · exact hbegun (hsame.symm.trans hnot)
        · exact hbegun hnew
        · rw [hnot] at hstopped
          cases hstopped
      · rw [hrun.context_next hstep hy hbegun hz, hcontext, written_concat,
          OrderedMap.insertAll_append]
  exact (hsince.2 y hy).2

/-- An instance that was not started writes nothing. -/
theorem writes_of_value? (h : value? i c = none) :
  writes H i c = []
  := by
  rw [writes]
  cases hx : c.engine.get? i with
  | none => rfl
  | some x =>
    cases (signal H c).takenBy i with
    | none => rfl
    | some e =>
      rw [value?, hx, Option.bind_some, ite_eq_left_iff] at h
      have hstatus : x.status = .notStarted := by
        by_contra hbegun
        cases h hbegun
      have hrunning : x.isRunning = false := by
        rw [Instance.isRunning, hstatus]
        rfl
      simp only [Instance.writes, Instance.trigger?.eq_def, hrunning]
      rfl

/-- Since it was started an instance writes its entries over the context that it was started
with. -/
theorem Run.context_of_start (h : Run H cs c) (hx : c.engine.get? i = some x)
    (hbegun : x.status ≠ .notStarted) :
  x.snapshot.context = (startOf i x.machine cs).context.insertAll (written H i cs)
  := by
  induction h generalizing x with
  | start memory => simp [idle] at hx
  | @next cs c d hrun hstep ih =>
    by_cases hopening : ∃ z, c.engine.get? i = some z ∧ z.status ≠ .notStarted
    · obtain ⟨z, hz, hzbegun⟩ := hopening
      obtain ⟨mid, hgoes⟩ := hrun.goes hstep
      have hturn := hgoes.turn hz (hgoes.releases.get?_of_get? hx)
      rw [hrun.context_next hstep hz hzbegun hx, ih hz hzbegun, startOf_concat hz hzbegun,
        written_concat, OrderedMap.insertAll_append, hturn.machine_eq.1]
    · obtain ⟨hsnapshot, -, hvalues, -⟩ := hrun.opening hstep hx hopening
      have hnothing : written H i (cs ++ [c]) = [] := by
        rw [written, List.flatMap_eq_nil_iff]
        intro b hb
        exact writes_of_value? (List.filterMap_eq_nil_iff.mp hvalues b hb)
      rw [hsnapshot, hnothing]
      rfl

end Configuration

/-! ### The main statement -/

/-- What becomes of contexts in a machine by itself. -/
structure Machine.Accumulates (m : Machine κ) : Prop where
  /-- A transition writes the entries of its steps over the context. -/
  writes : ∀ {value context event trigger s}, m.topology.Fits value →
    (m.pull value context event trigger).value = .ok (some s) →
      context.Grows s.context (m.writes value context event trigger)
  /-- If the assigns of the transition give or list no other keys, then the values of the others
  stay. -/
  confined : ∀ {value context event trigger s K}, m.topology.Fits value →
    (m.pull value context event trigger).value = .ok (some s) →
    (∀ step ∈ m.steps value context event trigger, ∀ change,
      step.operation = .assign change → change.Within K) →
        ∀ k, k ∉ K → s.context.get? k = context.get? k
  /-- All events of a sequence are taken, and the last context has all their entries over the
  first. -/
  events : ∀ {value}, m.topology.Fits value → ∀ context events, ∃ value' context',
    m.feed value context events = .ok (value', context')
      ∧ context.Grows context' (m.fed value context events)
  /-- The initial context has the entries of the entry actions over the default one. -/
  entry : ∃ entered, m.topology.entry m.metadata = .ok entered
    ∧ m.context.Grows m.initial.context (Step.writes .init entered.2.1 m.context)

theorem Machine.IsCompiled.accumulates {m : Machine κ} (h : m.IsCompiled) :
  m.Accumulates
  := by
  have hpull : ∀ {value context event trigger s}, m.topology.Fits value →
      (m.pull value context event trigger).value = .ok (some s) →
        context.Grows s.context (m.writes value context event trigger) := by
    intro value context event trigger s hfits hs
    have hcontext : s.context = _ := context_pull hfits hs
    rw [hcontext]
    exact Context.grows_insertAll _ _
  refine ⟨hpull, ?_, ?_, ?_⟩
  · intro value context event trigger s K hfits hs hwithin k hk
    apply (hpull hfits hs).kept
    exact fun hmem => hk (Step.writes_within hwithin context hmem)
  · intro value hfits context events
    obtain ⟨value', -, hfeed⟩ := h.sound.exists_feed hfits context events
    exact ⟨value', _, hfeed, Context.grows_insertAll _ _⟩
  · obtain ⟨entered, hentry, hinitial⟩ := h.initial_context
    refine ⟨entered, hentry, ?_⟩
    rw [hinitial]
    exact Context.grows_insertAll _ _

open Statechart.Configuration in
/-- Contexts grow.  In a machine by itself a transition, and a sequence of events, write their
entries over the context; and so does an instance in a run, from the context that it is started
with and from every later one.  The entries of an assign are those that it has in the context made
by all steps before it; so a computed property reads this context, whatever the assign itself
writes. -/
theorem Machine.IsCompiled.contexts_grow {m : Machine κ} (compiled : m.IsCompiled) :
  m.Accumulates
    ∧ (∀ {π σ : Type} {H : Host κ π σ} {cs : List (Configuration κ π σ)}
        {c : Configuration κ π σ} {i : Nat} {x : Instance κ}, Run H cs c →
        c.engine.get? i = some x → x.machine = m → x.status ≠ .notStarted →
          (startOf i m cs).context.Grows x.snapshot.context (written H i cs)
          ∧ ∀ {before after : List (Configuration κ π σ)} {b : Configuration κ π σ}
              {y : Instance κ}, cs = before ++ b :: after → b.engine.get? i = some y →
              y.status ≠ .notStarted →
                y.snapshot.context.Grows x.snapshot.context (written H i (b :: after)))
    ∧ ∀ (event : Event) (xs ys : List (Step κ)) (change : Assign) (metadata : Option Meta)
        (context read : Context), read = (Step.run event xs context).value.context →
        Step.writes event (xs ++ ⟨.assign change, metadata⟩ :: ys) context
            = Step.writes event xs context ++ (change.entriesIn read event metadata
              ++ Step.writes event ys (read.insertAll (change.entriesIn read event metadata)))
          ∧ ∀ entries key rule, change = .properties entries → (key, .computed rule) ∈ entries →
              (key, rule.run read event metadata) ∈ change.entriesIn read event metadata
  := by
  refine ⟨compiled.accumulates, ?_, ?_⟩
  · rintro π σ H cs c i x hrun hx rfl hbegun
    constructor
    · rw [hrun.context_of_start hx hbegun]
      exact Context.grows_insertAll _ _
    · rintro before after b y rfl hy hybegun
      rw [hrun.context_since hy hybegun hx]
      exact Context.grows_insertAll _ _
  · rintro event xs ys change metadata context read rfl
    refine ⟨Step.writes_append event xs _ context, ?_⟩
    rintro entries key rule rfl hmem
    exact List.mem_map.mpr ⟨_, hmem, rfl⟩

/-- An account that notes its sum in two assigns.  The first gives a context with the sum before it
and a new sum; the second sets the sum from what the first has made, twice. -/
def accountDescriptor : MachineDescriptor String where
  id := some "account"
  initial := some "open"
  kind := .atomic
  context := ⟨[("owner", .string "me")]⟩
  metadata := none
  states := ⟨[("open", { StateDescriptor.empty with
    on := ⟨[("ENTRY", [⟨none,
      [.assign (.transform ⟨"note", fun context _ _ =>
          ⟨[("last", (context.get? "sum").getD .null), ("sum", .nat 2)]⟩⟩),
        .assign (.properties [
          ("sum", .computed ⟨"last", fun context _ _ => (context.get? "last").getD .null⟩),
          ("first", .constant (.bool true)),
          ("copy", .computed ⟨"sum", fun context _ _ => (context.get? "sum").getD .null⟩)])],
      none⟩])]⟩
    entry := [.assign (.properties [("sum", .constant (.nat 7))])] })]⟩

/-- The machine of `accountDescriptor`. -/
def account : Machine String where
  id := some "account"
  metadata := none
  context := ⟨[("owner", .string "me")]⟩
  topology := .flat
    { owner := "account"
      region := none
      initial := "open"
      nodes := ⟨[("open", ⟨"open", .atomic,
        ⟨[("ENTRY", [⟨none,
          [.assign (.transform ⟨"note", fun context _ _ =>
              ⟨[("last", (context.get? "sum").getD .null), ("sum", .nat 2)]⟩⟩),
            .assign (.properties [
              ("sum", .computed ⟨"last", fun context _ _ => (context.get? "last").getD .null⟩),
              ("first", .constant (.bool true)),
              ("copy", .computed ⟨"sum", fun context _ _ => (context.get? "sum").getD .null⟩)])],
          none⟩])]⟩,
        [.assign (.properties [("sum", .constant (.nat 7))])], [], [], [], none⟩)]⟩ }
  initial := ⟨.leaf "open", ⟨[("owner", .string "me"), ("sum", .nat 7)]⟩, none, [], false, true⟩
  services := .empty

theorem isCompiled_account :
  account.IsCompiled
  := ⟨accountDescriptor, .empty, MachineDescriptor.keyed_of_shallow (by decide) (by decide), rfl⟩

namespace Configuration

def accountHost : Host String (Script String) Unit :=
  scripted (fun _ => []) (fun _ => .error (.failed "")) 1

/-- The first `n` steps after the account is made: it is started with a sum of its own, and there
is an entry. -/
def accountRun (n : Nat) : List (Configuration String (Script String) Unit)
    × Configuration String (Script String) Unit :=
  played (fun _ => []) (fun _ => .error (.failed "")) 1 account
    [.startWith 0 (.leaf "open") ⟨[("sum", .nat 5)]⟩, .send 0 (.named "ENTRY")] n

/-- The first assign notes the sum that the account is started with and sets another, which the
second one reads where it copies it, although it sets the sum itself before. -/
theorem account_contexts_grow :
  account.IsCompiled
    ∧ account.initial.context.Grows
        ⟨[("owner", .string "me"), ("sum", .nat 7), ("last", .nat 7), ("first", .bool true),
          ("copy", .nat 2)]⟩
        (account.fed (.leaf "open") account.initial.context [.named "ENTRY"])
    ∧ Run accountHost (accountRun 16).1 (accountRun 16).2
    ∧ ∃ x, (accountRun 16).2.engine.get? 0 = some x
        ∧ (startOf 0 account (accountRun 16).1).context = ⟨[("sum", .nat 5)]⟩
        ∧ x.snapshot.context
          = ⟨[("sum", .nat 5), ("last", .nat 5), ("first", .bool true), ("copy", .nat 2)]⟩
        ∧ (startOf 0 account (accountRun 16).1).context.Grows x.snapshot.context
            (written accountHost 0 (accountRun 16).1)
  := by
  have hrun : Run accountHost (accountRun 16).1 (accountRun 16).2 := by
    refine run_played isCompiled_account ?_ (by decide +kernel)
    rintro _ m ⟨⟩
  obtain ⟨haccumulates, hruns, -⟩ := Machine.IsCompiled.contexts_grow isCompiled_account
  obtain ⟨value', context', hfeed, hgrows⟩ :=
    haccumulates.events isCompiled_account.sound.initial account.initial.context [.named "ENTRY"]
  obtain ⟨-, rfl⟩ := Prod.mk.inj (Except.ok.inj (hfeed.symm.trans rfl))
  obtain ⟨hstart, -⟩ := hruns hrun (i := 0) rfl rfl nofun
  exact ⟨isCompiled_account, hgrows, hrun, _, rfl, rfl, rfl, hstart⟩

end Configuration

end Statechart
