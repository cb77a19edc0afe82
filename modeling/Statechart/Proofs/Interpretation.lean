import Statechart.Proofs.Soundness

/-!
# Direct interpretation of descriptors

A descriptor can be carried out without being compiled: a name is looked up in the bundle
when it is met, and there is no result if it is unknown.  A machine that was compiled from
a descriptor computes what this interpretation computes, and the interpretation of a
descriptor that compiles always has a result.
-/

namespace Statechart

variable {κ : Type}

namespace Interpretation

/-! ### The interpretation -/

section

variable (b : Bundle κ) (event : Event)

/-- An effect goes last among those that are waiting. -/
def emit (name : String) (code : κ) (metadata : Option Meta) (o : Outcome κ) : Outcome κ :=
  { o with actions := o.actions ++ [⟨name, code, metadata⟩] }

/-- An assign gives the next context. -/
def assign (change : Assign) (metadata : Option Meta) (o : Outcome κ) : Outcome κ :=
  { o with context := (change.apply o.context event metadata).value, assigned := true }

/-- Carries out one action of a state with the given metadata. -/
def perform (o : Outcome κ) : Action κ × Option Meta → Option (Outcome κ)
  | (.inline name code, metadata) => some (emit name code metadata o)
  | (.assign change, metadata) => some (assign event change metadata o)
  | (.named name, metadata) =>
    match b.actions.get? name with
    | some (.effect code) => some (emit name code metadata o)
    | some (.assign change) => some (assign event change metadata o)
    | none => none

/-- Carries out actions one after another. -/
def performAll (actions : List (Action κ × Option Meta)) (context : Context) :
    Option (Outcome κ) :=
  actions.foldlM (perform b event) ⟨[], context, false⟩

/-- The actions of a state, each with its metadata. -/
def ofState (actions : List (Action κ)) (metadata : Option Meta) :
    List (Action κ × Option Meta) :=
  actions.map fun a => (a, metadata)

/-- Whether the guard of a transition passes, if it has one. -/
def admits (t : TransitionDescriptor κ) (context : Context) (metadata : Option Meta) :
    Option Bool :=
  match t.guard with
  | none => some true
  | some (.inline guard) => some (guard.run context event metadata)
  | some (.named name) => (b.guards.get? name).map fun guard => guard.run context event metadata

/-- The first transition whose guard passes, in the order of declaration. -/
def choose (context : Context) (metadata : Option Meta) :
    List (TransitionDescriptor κ) → Option (Option (TransitionDescriptor κ))
  | [] => some none
  | t :: rest => do
    if ← admits b event t context metadata then some (some t)
    else choose context metadata rest

/-- The snapshot after a transition of the state `key`.  With a target, the exit actions
of the source, the actions of the transition and the entry actions of the target are
carried out; without, the actions of the transition alone. -/
def take (states : OrderedMap (StateDescriptor κ)) (key : String) (source : StateDescriptor κ)
    (t : TransitionDescriptor κ) (context : Context) : Option (Snapshot κ) :=
  match t.target with
  | none => do
    let o ← performAll b event (ofState t.actions source.metadata) context
    return ⟨.leaf key, o.context, source.metadata, o.actions, o.assigned, o.assigned⟩
  | some goal => do
    let target ← states.get? goal
    let o ← performAll b event (ofState source.exit source.metadata
      ++ ofState t.actions source.metadata ++ ofState target.entry target.metadata) context
    return ⟨.leaf goal, o.context, target.metadata, o.actions, true, o.assigned⟩

/-- The snapshot after the first of some transitions whose guard passes, if there is
one. -/
def takeFirst (states : OrderedMap (StateDescriptor κ)) (key : String)
    (source : StateDescriptor κ) (ts : List (TransitionDescriptor κ)) (context : Context) :
    Option (Option (Snapshot κ)) := do
  match ← choose b event context source.metadata ts with
  | none => return none
  | some t => return some (← take b event states key source t context)

/-- The milliseconds of a delay, which is spelled by its key or computed by the delay of
that name. -/
def millis (key : String) (context : Context) (metadata : Option Meta) : Option Nat :=
  match millis? key with
  | some ms => some ms
  | none => (b.delays.get? key).map fun delay => delay.run context event metadata

end

section

variable (d : MachineDescriptor κ) (b : Bundle κ)

/-- The initial state of a region. -/
def enterRegion (e : String × StateDescriptor κ) :
    Option (String × String × StateDescriptor κ) := do
  let key ← e.2.initial
  let n ← e.2.states.get? key
  return (e.1, key, n)

/-- The snapshot after entering the initial state, or that of every region in order. -/
def initial : Option (Snapshot κ) :=
  if d.isParallel then do
    let entered ← d.states.entries.mapM enterRegion
    let o ← performAll b .init
      (entered.flatMap fun e => ofState e.2.2.entry e.2.2.metadata) d.context
    return ⟨.ofParts (entered.map fun e => (e.1, .leaf e.2.1)), o.context, d.metadata,
      o.actions, false, o.assigned⟩
  else do
    let key ← d.initial
    let n ← d.states.get? key
    let o ← performAll b .init (ofState n.entry n.metadata) d.context
    return ⟨.leaf key, o.context, n.metadata, o.actions, false, o.assigned⟩

/-- The snapshot after an event in a state.  If no transition may be taken, nothing
changes. -/
def transition (state : String) (context : Context) (event : Event) :
    Option (Snapshot κ) := do
  let source ← d.states.get? state
  let ts := (source.on.get? event.kind).getD []
  match ← takeFirst b event d.states state source ts context with
  | some s => return s
  | none => return ⟨.leaf state, context, source.metadata, [], false, false⟩

/-- The snapshot after the delay `key` of a state, if one of its transitions may be
taken. -/
def fireAfter (state key : String) (context : Context) (event : Event) :
    Option (Option (Snapshot κ)) := do
  let source ← d.states.get? state
  let ts ← source.after.get? key
  takeFirst b event d.states state source ts context

/-- The snapshot after a transition of a state that is a reaction to a child, if it may be
taken. -/
def react (state : String) (t : TransitionDescriptor κ) (context : Context) (event : Event) :
    Option (Option (Snapshot κ)) := do
  let source ← d.states.get? state
  takeFirst b event d.states state source [t] context

end

end Interpretation

/-! ### Known names -/

/-- What an action does is known. -/
def Action.Known (b : Bundle κ) (a : Action κ) : Prop := ∃ o, a.lookUp b = some o

/-- The target, the actions and the guard of a transition are known. -/
structure TransitionDescriptor.Known (b : Bundle κ) (states : OrderedMap (StateDescriptor κ))
    (t : TransitionDescriptor κ) : Prop where
  target : ∀ goal, t.target = some goal → ∃ n, states.get? goal = some n
  actions : ∀ a ∈ t.actions, a.Known b
  guard : ∀ g, t.guard = some g → ∃ guard, g.lookUp b = some guard

/-- The transition of a reaction is known. -/
def Reaction.Known (b : Bundle κ) (states : OrderedMap (StateDescriptor κ)) :
    Reaction (TransitionDescriptor κ) → Prop
  | .event _ => True
  | .transition t => t.Known b states

/-- All names of a state are known, and no two of its invocations have the same
identifier. -/
structure StateDescriptor.Known (b : Bundle κ) (states : OrderedMap (StateDescriptor κ))
    (n : StateDescriptor κ) : Prop where
  on : ∀ kind ts, n.on.get? kind = some ts → ∀ t ∈ ts, t.Known b states
  after : ∀ e ∈ n.after.entries, (∃ delay, Delay.lookUp b e.1 = some delay)
    ∧ ∀ t ∈ e.2, t.Known b states
  entry : ∀ a ∈ n.entry, a.Known b
  exit : ∀ a ∈ n.exit, a.Known b
  invoke : invocations b [] n.invoke = n.invoke.map (InvokeDescriptor.lookUp b)
  reactions : ∀ i ∈ n.invoke,
    (∀ r, i.onDone = some r → r.Known b states) ∧ ∀ r, i.onError = some r → r.Known b states

section

variable {b : Bundle κ} {states : OrderedMap (StateDescriptor κ)} {state : String}

theorem Action.known_of_issues {a : Action κ} (clean : a.issues b state = []) :
  a.Known b
  := by
  cases a with
  | inline name code => exact ⟨_, rfl⟩
  | assign change => exact ⟨_, rfl⟩
  | named name =>
    rw [issues, need_eq_nil_iff] at clean
    obtain ⟨found, hfound⟩ := Option.isSome_iff_exists.mp clean
    rw [Known, lookUp, hfound]
    cases found <;> exact ⟨_, rfl⟩

theorem Action.known_of_flatMap_issues {actions : List (Action κ)}
    (clean : actions.flatMap (Action.issues b state) = []) :
  ∀ a ∈ actions, a.Known b
  := by
  intro a ha
  exact known_of_issues (List.flatMap_eq_nil_iff.mp clean a ha)

theorem GuardRef.exists_lookUp {g : GuardRef} (clean : g.issues b state = []) :
  ∃ guard, g.lookUp b = some guard
  := by
  cases g with
  | inline guard => exact ⟨_, rfl⟩
  | named name =>
    rw [issues, need_eq_nil_iff] at clean
    exact Option.isSome_iff_exists.mp clean

theorem TransitionDescriptor.known_of_issues {event : String} {t : TransitionDescriptor κ}
    (clean : t.issues b states state event = []) :
  t.Known b states
  := by
  rw [issues, List.append_eq_nil_iff, List.append_eq_nil_iff] at clean
  obtain ⟨⟨htarget, hactions⟩, hguard⟩ := clean
  constructor
  · intro goal hgoal
    rw [hgoal] at htarget
    exact Option.isSome_iff_exists.mp ((need_eq_nil_iff _ _).mp htarget)
  · exact Action.known_of_flatMap_issues hactions
  · intro g hg
    rw [hg] at hguard
    exact GuardRef.exists_lookUp hguard

theorem Reaction.known_of_issues {label : String} {r : Reaction (TransitionDescriptor κ)}
    (clean : r.issues b states state label = []) :
  r.Known b states
  := by
  cases r with
  | event kind => trivial
  | transition t => exact TransitionDescriptor.known_of_issues clean

theorem Delay.exists_lookUp {key : String}
    (known : ((millis? key).isSome || b.delays.contains key) = true) :
  ∃ delay, Delay.lookUp b key = some delay
  := by
  rw [lookUp]
  cases hms : millis? key with
  | some ms => exact ⟨_, rfl⟩
  | none =>
    rw [hms, Option.isSome_none, Bool.false_or] at known
    obtain ⟨rule, hrule⟩ := Option.isSome_iff_exists.mp known
    exact ⟨.ruled rule, by rw [hrule, Option.map_some]⟩

/-- Invocations without issues are all kept. -/
theorem invocations_eq_map {seen : List String} {is : List (InvokeDescriptor κ)}
    (clean : invokeIssues b states state seen is = []) :
  invocations b seen is = is.map (InvokeDescriptor.lookUp b)
    ∧ ∀ i ∈ is, i.issues b states state = []
  := by
  induction is generalizing seen with
  | nil => exact ⟨rfl, by simp⟩
  | cons i rest ih =>
    rw [invokeIssues, List.append_eq_nil_iff] at clean
    by_cases hi : seen.contains i.id = true
    · rw [if_pos hi] at clean
      cases clean.1
    · rw [if_neg hi] at clean
      obtain ⟨hrest, hclean⟩ := ih clean.2
      constructor
      · rw [invocations, if_neg hi, hrest, List.map_cons]
      · exact List.forall_mem_cons.mpr ⟨clean.1, hclean⟩

/-- All names of a state without issues are known. -/
theorem StateDescriptor.known_of_issues {inRegion : Bool} {n : StateDescriptor κ}
    (clean : n.issues b states inRegion state = []) :
  n.Known b states
  := by
  simp only [issues, List.append_eq_nil_iff, List.flatMap_eq_nil_iff] at clean
  obtain ⟨⟨⟨⟨-, hon⟩, hafter⟩, hinvoke⟩, hentry⟩ := clean.1
  obtain ⟨hall, hclean⟩ := invocations_eq_map hinvoke
  constructor
  · intro kind ts hts t ht
    have hmem := OrderedMap.mem_entries_of_get? hts
    exact TransitionDescriptor.known_of_issues (hon (kind, ts) hmem t ht)
  · intro e he
    have hdelay := hafter e he
    rw [delayIssues, List.append_eq_nil_iff, List.flatMap_eq_nil_iff, need_eq_nil_iff] at hdelay
    constructor
    · exact Delay.exists_lookUp hdelay.2
    · intro t ht
      exact TransitionDescriptor.known_of_issues (hdelay.1 t ht)
  · intro a ha
    exact Action.known_of_issues (hentry a ha)
  · intro a ha
    exact Action.known_of_issues (clean.2 a ha)
  · exact hall
  · intro i hi
    have hreactions := hclean i hi
    rw [InvokeDescriptor.issues, List.append_eq_nil_iff] at hreactions
    constructor
    · intro r hr
      rw [hr] at hreactions
      exact Reaction.known_of_issues hreactions.1
    · intro r hr
      rw [hr] at hreactions
      exact Reaction.known_of_issues hreactions.2

/-- All names of the states of a machine or region without issues are known, and so is
its initial state. -/
theorem StateDescriptor.known_of_chartIssues {inRegion : Bool} {initial : String}
    (clean : chartIssues b inRegion initial states = []) :
  (∃ n, states.get? initial = some n)
    ∧ ∀ key n, states.get? key = some n → n.Known b states
  := by
  rw [chartIssues, List.append_eq_nil_iff, need_eq_nil_iff, List.flatMap_eq_nil_iff] at clean
  constructor
  · exact Option.isSome_iff_exists.mp clean.1
  · intro key n hn
    have hclean : n.issues b states inRegion key = [] :=
      clean.2 (key, n) (OrderedMap.mem_entries_of_get? hn)
    exact known_of_issues hclean

end

namespace Interpretation

/-! ### Actions -/

section

variable {b : Bundle κ}

/-- The compiled steps of actions. -/
def steps (b : Bundle κ) (actions : List (Action κ × Option Meta)) : List (Step κ) :=
  actions.filterMap fun a => (a.1.lookUp b).map fun o => ⟨o, a.2⟩

theorem steps_append (as as' : List (Action κ × Option Meta)) :
  steps b (as ++ as') = steps b as ++ steps b as'
  := List.filterMap_append

/-- The steps of the actions of a state are those of its compiled actions. -/
theorem steps_ofState (actions : List (Action κ)) (metadata : Option Meta) :
  steps b (ofState actions metadata) = Step.all (actions.filterMap (Action.lookUp b)) metadata
  := by
  rw [steps, ofState, Step.all, List.filterMap_map, List.map_filterMap]
  rfl

theorem steps_flatMap {α : Type} (l : List α) (f : α → List (Action κ × Option Meta)) :
  steps b (l.flatMap f) = l.flatMap fun a => steps b (f a)
  := List.filterMap_flatMap

theorem known_ofState {actions : List (Action κ)} (known : ∀ a ∈ actions, a.Known b)
    (metadata : Option Meta) :
  ∀ a ∈ ofState actions metadata, a.1.Known b
  := by
  intro a ha
  obtain ⟨a', ha', rfl⟩ := List.mem_map.mp ha
  exact known a' ha'

/-- An action is carried out as what it stands for. -/
theorem perform_eq (event : Event) (o : Outcome κ) (a : Action κ) (metadata : Option Meta) :
  perform b event o (a, metadata)
    = (a.lookUp b).map fun operation =>
        match operation with
        | .effect name code => emit name code metadata o
        | .assign change => assign event change metadata o
  := by
  cases a with
  | inline name code => rfl
  | assign change => rfl
  | named name =>
    rw [perform, Action.lookUp]
    cases b.actions.get? name with
    | none => rfl
    | some found => cases found <;> rfl

/-- What is carried out action by action from an outcome is what the compiled steps give,
put behind that outcome. -/
theorem foldlM_perform (event : Event) {actions : List (Action κ × Option Meta)}
    (known : ∀ a ∈ actions, a.1.Known b) (o : Outcome κ) :
  actions.foldlM (perform b event) o
    = some
        { actions := o.actions ++ (Step.run event (steps b actions) o.context).value.actions
          context := (Step.run event (steps b actions) o.context).value.context
          assigned := o.assigned || (Step.run event (steps b actions) o.context).value.assigned }
  := by
  induction actions generalizing o with
  | nil => simp [steps, Step.run]
  | cons a rest ih =>
    obtain ⟨hknown, hrest⟩ := List.forall_mem_cons.mp known
    obtain ⟨action, metadata⟩ := a
    obtain ⟨operation, hoperation⟩ := hknown
    have hsteps : steps b ((action, metadata) :: rest) = ⟨operation, metadata⟩ :: steps b rest :=
      List.filterMap_cons_some (by rw [hoperation, Option.map_some])
    rw [List.foldlM_cons, perform_eq, hoperation, hsteps, Option.map_some, Option.bind_eq_bind,
      Option.bind_some, ih hrest]
    cases operation with
    | effect name code => simp [Step.run, emit]
    | assign change => simp [Step.run, assign]

/-- Actions that are known are carried out as their compiled steps are. -/
theorem performAll_eq (event : Event) {actions : List (Action κ × Option Meta)}
    (known : ∀ a ∈ actions, a.1.Known b) (context : Context) :
  performAll b event actions context = some (Step.run event (steps b actions) context).value
  := by
  rw [performAll, foldlM_perform event known]
  simp

/-! ### Transitions -/

variable {states : OrderedMap (StateDescriptor κ)}

theorem admits_eq {t : TransitionDescriptor κ} (known : t.Known b states) (context : Context)
    (event : Event) (metadata : Option Meta) :
  admits b event t context metadata = some ((t.lookUp b).passes context event metadata)
  := by
  rw [admits, Candidate.passes, TransitionDescriptor.lookUp]
  cases hguard : t.guard with
  | none => rfl
  | some g =>
    obtain ⟨guard, hg⟩ := known.guard g hguard
    rw [Option.bind_some, hg]
    cases g with
    | inline guard' =>
      obtain rfl := Option.some.inj hg
      rfl
    | named name =>
      rw [GuardRef.lookUp] at hg
      simp only [hg, Option.map_some]

/-- The first transition whose guard passes is the one whose candidate is selected. -/
theorem choose_eq {ts : List (TransitionDescriptor κ)} (known : ∀ t ∈ ts, t.Known b states)
    (context : Context) (event : Event) (metadata : Option Meta) :
  choose b event context metadata ts
    = some (ts.find? fun t => (t.lookUp b).passes context event metadata)
  := by
  induction ts with
  | nil => rfl
  | cons t rest ih =>
    obtain ⟨hknown, hrest⟩ := List.forall_mem_cons.mp known
    rw [choose, admits_eq hknown, Option.bind_eq_bind, Option.bind_some, List.find?_cons]
    cases (t.lookUp b).passes context event metadata with
    | true => rfl
    | false => exact ih hrest

/-- The states of a descriptor are in a chart, and all their names are known. -/
structure Renders (b : Bundle κ) (states : OrderedMap (StateDescriptor κ)) (chart : Chart κ) :
    Prop where
  node : ∀ key n, states.get? key = some n → chart.node key = .ok (n.node b key)
  known : ∀ key n, states.get? key = some n → n.Known b states

variable {chart : Chart κ} {key : String} {n : StateDescriptor κ}

/-- To take the candidate of a transition is to take the transition. -/
theorem take_eq (renders : Renders b states chart) (hn : states.get? key = some n)
    {t : TransitionDescriptor κ} (known : t.Known b states) (context : Context)
    (event : Event) :
  ∃ s, (chart.take (n.node b key) (t.lookUp b) context event).value = .ok s
    ∧ take b event states key n t context = some s
  := by
  have hactions := known_ofState known.actions n.metadata
  rw [Chart.take, Chart.plan, take]
  cases htarget : t.target with
  | none =>
    have hnone : (t.lookUp b).target = none := htarget
    rw [performAll_eq event hactions, steps_ofState]
    simp only [hnone]
    exact ⟨_, rfl, rfl⟩
  | some goal =>
    have hsome : (t.lookUp b).target = some goal := htarget
    obtain ⟨target, hgoal⟩ := known.target goal htarget
    have hexit := known_ofState (renders.known key n hn).exit n.metadata
    have hentry := known_ofState (renders.known goal target hgoal).entry target.metadata
    simp only [hsome, renders.node goal target hgoal, hgoal, Option.bind_eq_bind,
      Option.bind_some]
    rw [performAll_eq event, steps_append, steps_append, steps_ofState, steps_ofState,
      steps_ofState]
    · exact ⟨_, rfl, rfl⟩
    · simp only [List.forall_mem_append]
      exact ⟨⟨hexit, hactions⟩, hentry⟩

/-- To take the first candidate that passes is to take the first transition that does. -/
theorem takeFirst_eq (renders : Renders b states chart) (hn : states.get? key = some n)
    {ts : List (TransitionDescriptor κ)} (known : ∀ t ∈ ts, t.Known b states)
    (context : Context) (event : Event) :
  (∃ s, (chart.takeFirst (n.node b key) (ts.map (TransitionDescriptor.lookUp b)) context
        event).value = some (.ok s)
      ∧ takeFirst b event states key n ts context = some (some s))
    ∨ (chart.takeFirst (n.node b key) (ts.map (TransitionDescriptor.lookUp b)) context
        event).value = none
      ∧ takeFirst b event states key n ts context = some none
  := by
  rw [Chart.takeFirst, takeFirst, choose_eq known, Evaluated.value_bind,
    Candidate.value_select, List.find?_map]
  have hcomp : (fun c : Candidate κ => c.passes context event (n.node b key).metadata)
      ∘ TransitionDescriptor.lookUp b
      = fun t => (t.lookUp b).passes context event n.metadata := rfl
  rw [hcomp]
  cases hfind : ts.find? fun t => (t.lookUp b).passes context event n.metadata with
  | none => exact .inr ⟨rfl, rfl⟩
  | some t =>
    obtain ⟨s, hs, htake⟩ :=
      take_eq renders hn (known t (List.mem_of_find?_eq_some hfind)) context event
    left
    use s
    simp only [Option.map_some, Evaluated.value_bind, Evaluated.value_pure, hs, htake,
      Option.bind_eq_bind, Option.bind_some, Option.pure_def, and_self]

/-! ### Delays and invocations -/

/-- A compiled delay comes from a declaration. -/
def Declares (b : Bundle κ) (delayed : Delayed κ)
    (e : String × List (TransitionDescriptor κ)) : Prop :=
  delayed.key = e.1 ∧ Delay.lookUp b e.1 = some delayed.delay
    ∧ delayed.candidates = e.2.map (TransitionDescriptor.lookUp b)

/-- All delays of a state whose names are known are kept, in order. -/
theorem declares_after (key : String) (known : n.Known b states) :
  List.Forall₂ (Declares b) (n.node b key).after n.after.entries
  := by
  have hdelays : ∀ e ∈ n.after.entries, ∃ delay, Delay.lookUp b e.1 = some delay := by
    intro e he
    exact (known.after e he).1
  simp only [StateDescriptor.node]
  generalize n.after.entries = entries at hdelays
  induction entries with
  | nil => exact .nil
  | cons e rest ih =>
    rw [List.forall_mem_cons] at hdelays
    obtain ⟨⟨delay, hdelay⟩, hrest⟩ := hdelays
    simp only [List.filterMap_cons, hdelay, Option.map_some]
    exact .cons ⟨rfl, hdelay, rfl⟩ (ih hrest)

/-- The first delay with a key comes from the first declaration with it. -/
theorem exists_find?_of_declares {ds : List (Delayed κ)}
    {es : List (String × List (TransitionDescriptor κ))} (h : List.Forall₂ (Declares b) ds es)
    {k : String} (hk : k ∈ es.map Prod.fst) :
  ∃ delayed ts, ds.find? (fun d => d.key = k) = some delayed
    ∧ OrderedMap.find? k es = some ts
    ∧ delayed.candidates = ts.map (TransitionDescriptor.lookUp b)
  := by
  induction h with
  | nil => cases hk
  | @cons delayed e _ rest hd _ ih =>
    obtain ⟨a, ts⟩ := e
    obtain ⟨hkey, -, hcandidates⟩ := hd
    by_cases ha : a = k
    · use delayed, ts
      simp [OrderedMap.find?, hkey, ha, hcandidates]
    · have hrest : k ∈ rest.map Prod.fst := by
        rw [List.map_cons, List.mem_cons] at hk
        exact hk.resolve_left (Ne.symm ha)
      obtain ⟨d, ts', hd', hts', hcandidates'⟩ := ih hrest
      use d, ts'
      simp [OrderedMap.find?, hkey, ha, hd', hts', hcandidates']

/-- A delay lasts as long as its key says when it is looked up at the time. -/
theorem millis_eq {k : String} {delay : Delay} (h : Delay.lookUp b k = some delay)
    (context : Context) (event : Event) (metadata : Option Meta) :
  millis b event k context metadata = some (delay.resolve context event metadata).value
  := by
  rw [Delay.lookUp] at h
  rw [millis]
  cases hms : millis? k with
  | some ms =>
    simp only [hms, Option.some.injEq] at h
    subst h
    rfl
  | none =>
    simp only [hms, Option.map_eq_some_iff] at h
    obtain ⟨rule, hrule, rfl⟩ := h
    rw [hrule]
    rfl

end

/-! ### Initial states -/

section

variable {b : Bundle κ}

/-- A state of a descriptor is found in the compiled chart. -/
theorem node_ofStates (b : Bundle κ) {states : OrderedMap (StateDescriptor κ)} {key : String}
    {n : StateDescriptor κ} (hn : states.get? key = some n) (owner : String)
    (region : Option String) (initial : String) :
  (Chart.ofStates b owner region initial states).node key = .ok (n.node b key)
  := by
  rw [Chart.node_eq_ok_iff, Chart.get?_ofStates, hn, Option.map_some]

/-- A region without issues is compiled, and has its initial state. -/
theorem exists_enterRegion {region : String} {desc : StateDescriptor κ}
    (clean : regionIssues b region desc = []) (name : String) :
  ∃ chart initial n, Chart.ofRegion b name region desc = some chart
    ∧ enterRegion (region, desc) = some (region, initial, n)
    ∧ chart.regionKey = region
    ∧ chart.node chart.initial = .ok (n.node b initial) ∧ ∀ a ∈ n.entry, a.Known b
  := by
  rw [regionIssues, List.append_eq_nil_iff] at clean
  cases hinitial : desc.initial with
  | none => simp [hinitial] at clean
  | some initial =>
    simp only [hinitial] at clean
    obtain ⟨⟨n, hn⟩, hstates⟩ := StateDescriptor.known_of_chartIssues clean.2
    use .ofStates b (name ++ "." ++ region) (some region) initial desc.states, initial, n
    constructor
    · rw [Chart.ofRegion, hinitial, Option.map_some]
    · refine ⟨?_, rfl, node_ofStates b hn _ _ _, (hstates initial n hn).entry⟩
      simp [enterRegion, hinitial, hn]

/-- Regions without issues are all compiled, and their initial states are those that are
entered. -/
theorem initialNodes_eq {entries : List (String × StateDescriptor κ)}
    (clean : ∀ e ∈ entries, regionIssues b e.1 e.2 = []) (name : String) :
  ∃ entered, entries.mapM enterRegion = some entered
    ∧ Regions.initialNodes (entries.filterMap fun e => Chart.ofRegion b name e.1 e.2)
        = .ok (entered.map fun e => (e.1, e.2.2.node b e.2.1))
    ∧ ∀ e ∈ entered, ∀ a ∈ e.2.2.entry, a.Known b
  := by
  induction entries with
  | nil => exact ⟨[], rfl, rfl, by simp⟩
  | cons e rest ih =>
    rw [List.forall_mem_cons] at clean
    obtain ⟨entered, hentered, hnodes, hknown⟩ := ih clean.2
    obtain ⟨chart, initial, n, hchart, henter, hkey, hnode, hentry⟩ :=
      exists_enterRegion clean.1 name
    use (e.1, initial, n) :: entered
    refine ⟨?_, ?_, List.forall_mem_cons.mpr ⟨hentry, hknown⟩⟩
    · rw [List.mapM_cons, henter, hentered]
      rfl
    · simp only [List.filterMap_cons, hchart, Regions.initialNodes, hnode, hnodes, hkey,
        List.map_cons]

/-- The initial snapshot of a descriptor without issues is the one that is interpreted. -/
theorem initial_eq {d : MachineDescriptor κ} (clean : d.issues b = []) {topology : Topology κ}
    (ht : d.topology b = .ok topology) {s : Snapshot κ}
    (hs : (topology.initial d.metadata d.context).value = .ok s) :
  initial d b = some s
  := by
  rw [MachineDescriptor.issues] at clean
  rw [MachineDescriptor.topology] at ht
  rw [initial]
  cases hp : d.isParallel with
  | true =>
    simp only [hp, if_true, Except.ok.injEq] at ht
    subst ht
    rw [hp, if_pos rfl, List.flatMap_eq_nil_iff] at clean
    obtain ⟨entered, hentered, hnodes, hknown⟩ := initialNodes_eq clean (Machine.nameOf d.id)
    simp only [Topology.initial, Topology.entry, hnodes, Evaluated.value_bind,
      Evaluated.value_pure, Except.ok.injEq] at hs
    subst hs
    have hall : ∀ a ∈ entered.flatMap fun e => ofState e.2.2.entry e.2.2.metadata,
        a.1.Known b := by
      intro a ha
      obtain ⟨e, he, hae⟩ := List.mem_flatMap.mp ha
      exact known_ofState (hknown e he) _ a hae
    have hsteps : steps b (entered.flatMap fun e => ofState e.2.2.entry e.2.2.metadata)
        = (entered.map fun e => (e.1, e.2.2.node b e.2.1)).flatMap
            fun n => Step.all n.2.entry n.2.metadata := by
      rw [steps_flatMap, List.flatMap_map]
      simp only [steps_ofState]
      rfl
    rw [if_pos rfl, hentered, Option.bind_eq_bind, Option.bind_some, performAll_eq .init hall,
      hsteps, List.map_map]
    rfl
  | false =>
    cases hi : d.initial with
    | none => simp [hp, hi] at ht
    | some key =>
      simp only [hp, hi, Bool.false_eq_true, if_false, Except.ok.injEq] at ht clean
      subst ht
      obtain ⟨⟨n, hn⟩, hstates⟩ := StateDescriptor.known_of_chartIssues clean
      have hentry := known_ofState (hstates key n hn).entry n.metadata
      have hnode : (Chart.ofStates b (Machine.nameOf d.id) none key d.states).node key
          = .ok (n.node b key) := node_ofStates b hn _ _ _
      have hinitial : (Chart.ofStates b (Machine.nameOf d.id) none key d.states).initial = key :=
        rfl
      simp only [Topology.initial, Topology.entry, hinitial, hnode, Evaluated.value_bind,
        Evaluated.value_pure, Except.ok.injEq] at hs
      subst hs
      simp only [Bool.false_eq_true, if_false, hn, Option.bind_eq_bind, Option.bind_some]
      rw [performAll_eq .init hentry, steps_ofState]
      rfl

end

/-! ### Compiled machines -/

section

variable (m : Machine κ) (d : MachineDescriptor κ) (b : Bundle κ) (state : String)

/-- The reaction of a compiled invocation is the one that is interpreted: the same kind of
event, or a transition with the same result. -/
inductive Reacts :
    Option (Reaction (Candidate κ)) → Option (Reaction (TransitionDescriptor κ)) → Prop where
  | none : Reacts none none
  | event (kind : String) : Reacts (some (.event kind)) (some (.event kind))
  | transition {c : Candidate κ} {t : TransitionDescriptor κ}
    (agree : ∀ context event, ∃ o, (m.react state c context event).value = .ok o
      ∧ react d b state t context event = some o) :
    Reacts (some (.transition c)) (some (.transition t))

/-- What a machine computes at a state with the node `n` is what the interpretation of the
state computes. -/
structure Agrees (desc : StateDescriptor κ) (n : Node κ) : Prop where
  kind : n.kind = desc.kind
  metadata : n.metadata = desc.metadata
  event : ∀ context event, ∃ s, (m.transition (.leaf state) context event).value = .ok s
    ∧ transition d b state context event = some s
  delays : List.Forall₂ (fun delayed e => delayed.key = e.1
      ∧ ∀ context event,
          millis b event e.1 context desc.metadata
              = some (delayed.delay.resolve context event n.metadata).value
            ∧ ∃ o, (m.fireAfter state delayed.key context event).value = .ok o
              ∧ fireAfter d b state e.1 context event = some o)
    n.after desc.after.entries
  invocations : List.Forall₂ (fun v i => v.id = i.id ∧ v.source = i.source ∧ v.data = i.data
      ∧ Reacts m d b state v.onDone i.onDone ∧ Reacts m d b state v.onError i.onError)
    n.invoke desc.invoke

end

section

variable {m : Machine κ} {d : MachineDescriptor κ} {b : Bundle κ} {chart : Chart κ}
  {state : String} {desc : StateDescriptor κ}

/-- An event in a state leads where the interpretation leads. -/
theorem transition_eq (ht : m.topology = .flat chart) (renders : Renders b d.states chart)
    (hdesc : d.states.get? state = some desc) (context : Context) (event : Event) :
  ∃ s, (m.transition (.leaf state) context event).value = .ok s
    ∧ transition d b state context event = some s
  := by
  have hcandidates : Chart.candidates (desc.node b state) event
      = ((desc.on.get? event.kind).getD []).map (TransitionDescriptor.lookUp b) := by
    simp only [Chart.candidates, StateDescriptor.node, OrderedMap.get?_map]
    cases desc.on.get? event.kind <;> rfl
  have hknown : ∀ t ∈ (desc.on.get? event.kind).getD [], t.Known b d.states := by
    intro t hmem
    cases hts : desc.on.get? event.kind with
    | none => simp [hts] at hmem
    | some ts =>
      rw [hts] at hmem
      exact (renders.known state desc hdesc).on _ ts hts t hmem
  simp only [Machine.transition, ht, Machine.leaf, Chart.resolve, renders.node state desc hdesc,
    hcandidates, Evaluated.value_bind, transition, hdesc, Option.bind_eq_bind, Option.bind_some]
  obtain ⟨s, hs, hs'⟩ | ⟨hnone, hnone'⟩ := takeFirst_eq renders hdesc hknown context event
  · exact ⟨s, by rw [hs]; rfl, by rw [hs']; rfl⟩
  · exact ⟨_, by rw [hnone]; rfl, by rw [hnone']; rfl⟩

/-- A delay of a state leads where the interpretation leads. -/
theorem fireAfter_eq (ht : m.topology = .flat chart) (renders : Renders b d.states chart)
    (hdesc : d.states.get? state = some desc) {key : String} (hkey : key ∈ desc.after.keys)
    (context : Context) (event : Event) :
  ∃ o, (m.fireAfter state key context event).value = .ok o
    ∧ fireAfter d b state key context event = some o
  := by
  have known := renders.known state desc hdesc
  obtain ⟨delayed, ts, hdelayed, hts, hcandidates⟩ :=
    exists_find?_of_declares (declares_after state known) hkey
  have hknown : ∀ t ∈ ts, t.Known b d.states :=
    (known.after _ (OrderedMap.mem_of_find? hts)).2
  have hafter : (desc.node b state).after? key = some delayed := hdelayed
  have hget : desc.after.get? key = some ts := hts
  simp only [Machine.fireAfter, ht, renders.node state desc hdesc, hafter, hcandidates,
    Evaluated.value_bind, fireAfter, hdesc, hget, Option.bind_eq_bind, Option.bind_some]
  obtain ⟨s, hs, hs'⟩ | ⟨hnone, hnone'⟩ := takeFirst_eq renders hdesc hknown context event
  · exact ⟨some s, by rw [hs]; rfl, hs'⟩
  · exact ⟨none, by rw [hnone]; rfl, hnone'⟩

/-- A transition that is a reaction leads where the interpretation leads. -/
theorem react_eq (ht : m.topology = .flat chart) (renders : Renders b d.states chart)
    (hdesc : d.states.get? state = some desc) {t : TransitionDescriptor κ}
    (known : t.Known b d.states) (context : Context) (event : Event) :
  ∃ o, (m.react state (t.lookUp b) context event).value = .ok o
    ∧ react d b state t context event = some o
  := by
  obtain ⟨s, hs, hs'⟩ := take_eq renders hdesc known context event
  have hmetadata : (desc.node b state).metadata = desc.metadata := rfl
  simp only [Machine.react, ht, renders.node state desc hdesc, Evaluated.value_bind,
    Candidate.value_allows, hmetadata, react, hdesc, takeFirst, choose,
    admits_eq known, Option.bind_eq_bind, Option.bind_some]
  cases (t.lookUp b).passes context event desc.metadata with
  | true => exact ⟨some s, by simp [hs], by simp [hs']⟩
  | false => exact ⟨none, rfl, rfl⟩

/-- A reaction whose names are known is the one that is interpreted. -/
theorem reacts_lookUp (ht : m.topology = .flat chart) (renders : Renders b d.states chart)
    (hdesc : d.states.get? state = some desc) {r : Option (Reaction (TransitionDescriptor κ))}
    (known : ∀ r', r = some r' → r'.Known b d.states) :
  Reacts m d b state (r.map (Reaction.lookUp b)) r
  := by
  cases r with
  | none => exact .none
  | some r =>
    cases r with
    | event kind => exact .event kind
    | transition t =>
      apply Reacts.transition
      exact react_eq ht renders hdesc (known _ rfl)

/-- A machine with the states of a descriptor computes at each of them what is
interpreted. -/
theorem agrees_node (ht : m.topology = .flat chart) (renders : Renders b d.states chart)
    (hdesc : d.states.get? state = some desc) :
  Agrees m d b state desc (desc.node b state)
  := by
  have known := renders.known state desc hdesc
  constructor
  · rfl
  · rfl
  · exact transition_eq ht renders hdesc
  · have hdeclares := declares_after state known
    rw [List.forall₂_iff_zip] at hdeclares ⊢
    refine ⟨hdeclares.1, ?_⟩
    intro delayed e hmem
    obtain ⟨hkey, hdelay, -⟩ := hdeclares.2 hmem
    refine ⟨hkey, ?_⟩
    intro context event
    rw [hkey]
    constructor
    · exact millis_eq hdelay context event desc.metadata
    · apply fireAfter_eq ht renders hdesc
      exact List.mem_map_of_mem (List.of_mem_zip hmem).2
  · rw [StateDescriptor.node, known.invoke, List.forall₂_map_left_iff, List.forall₂_same]
    intro i hi
    obtain ⟨hdone, herror⟩ := known.reactions i hi
    exact ⟨rfl, rfl, rfl, reacts_lookUp ht renders hdesc hdone,
      reacts_lookUp ht renders hdesc herror⟩

end

end Interpretation

/-- A compiled machine computes what the direct interpretation of its descriptor computes:
its initial snapshot, and for a flat machine at every state the snapshot after any event,
after every delay and after every reaction to a child. -/
theorem Machine.compile_interprets {d : MachineDescriptor κ} {b : Bundle κ} {m : Machine κ}
    (h : (Machine.compile d b).value = .ok m) :
  Interpretation.initial d b = some m.initial
    ∧ m.services = b.services
    ∧ (d.isParallel = false → ∃ chart, m.topology = .flat chart
        ∧ chart.nodes.keys = d.states.keys
        ∧ ∀ state desc, d.states.get? state = some desc →
            ∃ n, chart.nodes.get? state = some n ∧ Interpretation.Agrees m d b state desc n)
  := by
  obtain ⟨clean, topology, initial, ht, hi, rfl⟩ := exists_of_compile h
  refine ⟨Interpretation.initial_eq clean ht hi, rfl, ?_⟩
  intro hflat
  rw [MachineDescriptor.topology] at ht
  rw [MachineDescriptor.issues] at clean
  cases hinitial : d.initial with
  | none => simp [hflat, hinitial] at ht
  | some key =>
    simp only [hflat, hinitial, Bool.false_eq_true, if_false, Except.ok.injEq] at ht clean
    subst ht
    refine ⟨_, rfl, ?_, ?_⟩
    · simp [Chart.ofStates, OrderedMap.keys]
    · intro state desc hdesc
      have hknown := (StateDescriptor.known_of_chartIssues clean).2
      have hnode := Interpretation.node_ofStates b hdesc (nameOf d.id) none key
      refine ⟨_, Chart.node_eq_ok_iff.mp hnode, ?_⟩
      apply Interpretation.agrees_node rfl ⟨?_, hknown⟩ hdesc
      intro key' n hn
      exact Interpretation.node_ofStates b hn _ _ _

/-! ### An example -/

/-- A lamp that is switched on by name: the guard, the assign, the effect and the delay are
in the bundle. -/
def lampDescriptor : MachineDescriptor String where
  id := some "lamp"
  initial := some "off"
  kind := .atomic
  context := .empty
  metadata := none
  states := ⟨[
    ("off", { StateDescriptor.empty with
      on := ⟨[("PRESS", [⟨some "on", [.named "count", .named "click"], some (.named "wired")⟩])]⟩
      exit := [.inline "leave" "left"]
      metadata := some (.bool false) }),
    ("on", { StateDescriptor.empty with
      entry := [.named "click"]
      after := ⟨[("night", [.ofTarget "off"])]⟩
      metadata := some (.bool true) })]⟩

/-- The code of the lamp. -/
def lampBundle : Bundle String :=
  (((Bundle.empty.withAssign "count" (.properties [("pressed", .constant (.bool true))])).withEffect
    "click" "clicked").withGuard "wired" ⟨"wired", fun _ _ _ => true⟩).withDelay
    "night" ⟨"night", fun _ _ _ => 500⟩

/-- Pressing the lamp leaves, counts, clicks in the old state and clicks in the new one. -/
theorem lamp_compile_interprets :
  ∃ m, (Machine.compile lampDescriptor lampBundle).value = .ok m
    ∧ (m.transition (.leaf "off") .empty (.named "PRESS")).value
      = .ok ⟨.leaf "on", ⟨[("pressed", .bool true)]⟩, some (.bool true),
          [⟨"leave", "left", some (.bool false)⟩, ⟨"click", "clicked", some (.bool false)⟩,
            ⟨"click", "clicked", some (.bool true)⟩], true, true⟩
  := by
  have hcompile : (Machine.compile lampDescriptor lampBundle).value = .ok _ := rfl
  refine ⟨_, hcompile, ?_⟩
  obtain ⟨-, -, hflat⟩ := Machine.compile_interprets hcompile
  obtain ⟨chart, -, -, hstates⟩ := hflat rfl
  obtain ⟨n, -, agrees⟩ := hstates "off" _ rfl
  obtain ⟨s, hs, hs'⟩ := agrees.event .empty (.named "PRESS")
  rw [hs]
  exact congrArg Except.ok (Option.some.inj (hs'.symm.trans rfl))

end Statechart
