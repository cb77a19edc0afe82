import Mathlib.Data.List.Count
import Mathlib.Data.List.Dedup
import Mathlib.Data.List.Perm.Basic
import Statechart.Proofs.Interpretation

/-!
# What a failed compilation reports

The violations of a descriptor are listed place by place, and at each place by their kind; a
place is a state or region anywhere in the descriptor.  A compilation that fails reports each
of them once, except for those in the parts of the descriptor that it does not look into.
-/

namespace Statechart

variable {κ : Type}

/-! ### Places -/

/-- What a state of a descriptor is: a state of a flat machine, a region, or a state in a
region. -/
inductive Role where
  | state
  | region
  | inner
deriving DecidableEq

/-- The role of the states in a state. -/
def Role.below : Role → Role
  | state => state
  | region => inner
  | inner => inner

/-- A state of a descriptor, with the states next to it. -/
structure Place (κ : Type) where
  role : Role
  siblings : OrderedMap (StateDescriptor κ)
  key : String
  state : StateDescriptor κ

mutual

/-- The places below a state. -/
def StateDescriptor.placesBelow (role : Role) : StateDescriptor κ → List (Place κ)
  | ⟨_, _, _, _, _, _, _, _, ⟨entries⟩⟩ => placesAmong role.below ⟨entries⟩ entries

/-- The places of states that stand next to each other, and those below them. -/
def placesAmong (role : Role) (siblings : OrderedMap (StateDescriptor κ)) :
    List (String × StateDescriptor κ) → List (Place κ)
  | [] => []
  | (key, n) :: rest =>
    ⟨role, siblings, key, n⟩ :: (n.placesBelow role ++ placesAmong role siblings rest)

end

/-- The role of the states that stand directly in a machine. -/
def MachineDescriptor.role (d : MachineDescriptor κ) : Role :=
  if d.isParallel then .region else .state

/-- All places of a machine. -/
def MachineDescriptor.places (d : MachineDescriptor κ) : List (Place κ) :=
  placesAmong d.role d.states d.states.entries

/-! ### Violations -/

/-- The name by which an action is meant, unless it is given in place. -/
def Action.named? : Action κ → Option String
  | .named name => some name
  | _ => none

/-- The name by which a guard is meant, unless it is given in place. -/
def GuardRef.named? : GuardRef → Option String
  | .named name => some name
  | .inline _ => none

/-- The transitions in a map, each with a label made from its key. -/
def labelled (label : String → String) (m : OrderedMap (List (TransitionDescriptor κ))) :
    List (String × TransitionDescriptor κ) :=
  m.entries.flatMap fun e => e.2.map (Prod.mk (label e.1))

/-- The transition of a reaction, with the label of the reaction. -/
def Reaction.labelled (label : String) :
    Reaction (TransitionDescriptor κ) → List (String × TransitionDescriptor κ)
  | .event _ => []
  | .transition t => [(label, t)]

/-- The transitions of an invocation, with the names of the reports that they react to. -/
def InvokeDescriptor.transitions (i : InvokeDescriptor κ) :
    List (String × TransitionDescriptor κ) :=
  i.onDone.toList.flatMap (Reaction.labelled ("done.invoke." ++ i.id))
  ++ i.onError.toList.flatMap (Reaction.labelled ("error.invoke." ++ i.id))

/-- The transitions of a state on events, after delays and on reports about its children,
each with the label under which it is reported. -/
def StateDescriptor.transitions (n : StateDescriptor κ) :
    List (String × TransitionDescriptor κ) :=
  labelled id n.on ++ labelled ("after " ++ ·) n.after
  ++ n.invoke.flatMap InvokeDescriptor.transitions

namespace Place

/-- The targets of transitions that are not among the siblings. -/
def unknownTargets (p : Place κ) (ts : List (String × TransitionDescriptor κ)) : List Issue :=
  ((ts.filterMap fun t => t.2.target.map (Prod.mk t.1)).filter
    fun t => !p.siblings.contains t.2).map fun t => .unknownTarget p.key t.1 t.2

/-- The names of actions that are not in the bundle. -/
def unknownActions (b : Bundle κ) (p : Place κ) (actions : List (Action κ)) : List Issue :=
  ((actions.filterMap Action.named?).filter fun name => !b.actions.contains name).map
    (.unknownAction p.key)

/-- The names of guards that are not in the bundle. -/
def unknownGuards (b : Bundle κ) (p : Place κ) (guards : List GuardRef) : List Issue :=
  ((guards.filterMap GuardRef.named?).filter fun name => !b.guards.contains name).map
    (.unknownGuard p.key)

/-- The unknown names in transitions. -/
def unknownNames (b : Bundle κ) (p : Place κ) (ts : List (String × TransitionDescriptor κ)) :
    List Issue :=
  p.unknownTargets ts
  ++ p.unknownActions b (ts.flatMap fun t => t.2.actions)
  ++ p.unknownGuards b (ts.filterMap fun t => t.2.guard)

/-- The delays that are neither numbers nor in the bundle. -/
def unknownDelays (b : Bundle κ) (p : Place κ) : List Issue :=
  (p.state.after.keys.filter fun key => !((millis? key).isSome || b.delays.contains key)).map
    (.unknownDelay p.key)

/-- The identifiers of invocations that are left when each is taken away once. -/
def duplicateInvokes (p : Place κ) : List Issue :=
  let ids := p.state.invoke.map InvokeDescriptor.id
  (ids.diff ids.dedup).map (.duplicateInvoke p.key)

/-- The constructs that are not supported at the place. -/
def unsupported (p : Place κ) : List Issue :=
  need (p.state.kind ≠ .parallel) (.unsupported p.key .nestedParallel)
  ++ (match p.role with
    | .region => need (!p.state.hasHandlers) (.unsupported p.key .regionHandlers)
    | _ => need p.state.states.isEmpty (.unsupported p.key .nestedStates))
  ++ (match p.role with
    | .inner =>
      need p.state.after.isEmpty (.unsupported p.key .delayedTransitions)
      ++ need p.state.invoke.isEmpty (.unsupported p.key .invocations)
    | _ => [])

/-- What is wrong with the initial state, which is asked of regions only. -/
def initialViolations (p : Place κ) : List Issue :=
  match p.role with
  | .region =>
    (match p.state.initial with
      | some initial => need (p.state.states.contains initial) (.unknownInitial initial)
      | none => [.missingRegionInitial p.key])
  | _ => []

/-- The violations in the handlers of a place: in its transitions, actions, delays and
invocations. -/
def handlerViolations (b : Bundle κ) (p : Place κ) : List Issue :=
  p.unknownNames b p.state.transitions
  ++ p.unknownActions b (p.state.entry ++ p.state.exit)
  ++ p.unknownDelays b
  ++ p.duplicateInvokes

/-- The violations at a place. -/
def violations (b : Bundle κ) (p : Place κ) : List Issue :=
  p.handlerViolations b ++ p.unsupported ++ p.initialViolations

end Place

/-- The violations of a machine with a bundle, wherever they are. -/
def MachineDescriptor.violations (b : Bundle κ) (d : MachineDescriptor κ) : List Issue :=
  (match d.role, d.initial with
    | .state, some initial => need (d.states.contains initial) (.unknownInitial initial)
    | _, _ => [])
  ++ d.places.flatMap (Place.violations b)

/-! ### Parts that are not looked into -/

/-- The invocations that have an identifier seen before. -/
def repeatedInvocations : List String → List (InvokeDescriptor κ) → List (InvokeDescriptor κ)
  | _, [] => []
  | seen, i :: rest =>
    (if seen.contains i.id then [i] else []) ++ repeatedInvocations (i.id :: seen) rest

namespace Place

/-- The violations in the reactions of the invocations of a state that have an identifier
seen before. -/
def hiddenReactions (b : Bundle κ) (p : Place κ) : List Issue :=
  p.unknownNames b ((repeatedInvocations [] p.state.invoke).flatMap InvokeDescriptor.transitions)

/-- The violations at the places below a place. -/
def violationsBelow (b : Bundle κ) (p : Place κ) : List Issue :=
  (p.state.placesBelow p.role).flatMap (Place.violations b)

/-- The violations at a state and below it that are not looked for: those in the reactions
of a repeated invocation, and those of the states in it. -/
def hiddenInState (b : Bundle κ) (p : Place κ) : List Issue :=
  p.hiddenReactions b ++ p.violationsBelow b

/-- The violations at a region and below it that are not looked for: those in its own
handlers, that it is parallel, all those below it if it has no initial state, and those of its
states that are not looked for. -/
def hiddenInRegion (b : Bundle κ) (p : Place κ) : List Issue :=
  p.handlerViolations b
  ++ need (p.state.kind ≠ .parallel) (.unsupported p.key .nestedParallel)
  ++ (match p.state.initial with
    | none => p.violationsBelow b
    | some _ => p.state.states.entries.flatMap fun e =>
        hiddenInState b ⟨.inner, p.state.states, e.1, e.2⟩)

end Place

/-- The violations of a machine that are not looked for. -/
def MachineDescriptor.hidden (b : Bundle κ) (d : MachineDescriptor κ) : List Issue :=
  d.states.entries.flatMap fun e =>
    if d.isParallel then Place.hiddenInRegion b ⟨.region, d.states, e.1, e.2⟩
    else Place.hiddenInState b ⟨.state, d.states, e.1, e.2⟩

/-! ### Issues in a state -/

/-- The issues about the members of a list are about those that do not pass. -/
theorem flatMap_need {α : Type} (ok : α → Bool) (issue : α → Issue) (xs : List α) :
  (xs.flatMap fun x => need (ok x) (issue x)) = (xs.filter fun x => !ok x).map issue
  := by
  induction xs with
  | nil => rfl
  | cons x rest ih =>
    rw [List.flatMap_cons, ih]
    cases h : ok x <;> simp [need, h]

theorem flatMap_placesAmong {β : Type} (f : Place κ → List β) (role : Role)
    (siblings : OrderedMap (StateDescriptor κ)) (es : List (String × StateDescriptor κ)) :
  (placesAmong role siblings es).flatMap f
    = es.flatMap fun e =>
        f ⟨role, siblings, e.1, e.2⟩ ++ (e.2.placesBelow role).flatMap f
  := by
  induction es with
  | nil => rw [placesAmong]; rfl
  | cons e rest ih =>
    obtain ⟨key, n⟩ := e
    rw [placesAmong, List.flatMap_cons, List.flatMap_cons, List.flatMap_append, ih,
      List.append_assoc]

theorem StateDescriptor.placesBelow_eq (role : Role) (n : StateDescriptor κ) :
  n.placesBelow role = placesAmong role.below n.states n.states.entries
  := by
  obtain ⟨_, _, _, _, _, _, _, _, ⟨_⟩⟩ := n
  rw [StateDescriptor.placesBelow]

namespace Place

variable {b : Bundle κ} {p : Place κ}

/-- The issues that are found in transitions. -/
def transitionIssues (b : Bundle κ) (p : Place κ)
    (ts : List (String × TransitionDescriptor κ)) : List Issue :=
  ts.flatMap fun t => t.2.issues b p.siblings p.key t.1

theorem transitionIssues_append (ts ts' : List (String × TransitionDescriptor κ)) :
  p.transitionIssues b (ts ++ ts') = p.transitionIssues b ts ++ p.transitionIssues b ts'
  := List.flatMap_append

theorem unknownActions_append (as as' : List (Action κ)) :
  p.unknownActions b (as ++ as') = p.unknownActions b as ++ p.unknownActions b as'
  := by
  simp only [unknownActions, List.filterMap_append, List.filter_append, List.map_append]

theorem flatMap_actionIssues (as : List (Action κ)) :
  as.flatMap (Action.issues b p.key) = p.unknownActions b as
  := by
  induction as with
  | nil => rfl
  | cons a rest ih =>
    rw [List.flatMap_cons, ih, ← List.singleton_append, unknownActions_append]
    congr 1
    cases a with
    | named name =>
      cases h : b.actions.contains name <;>
        simp [Action.issues, need, unknownActions, Action.named?, h]
    | inline | assign => rfl

/-- The issues in one transition are its unknown names. -/
theorem issues_eq (t : String × TransitionDescriptor κ) :
  t.2.issues b p.siblings p.key t.1 = p.unknownNames b [t]
  := by
  obtain ⟨label, target, actions, guard⟩ := t
  have hactions : actions.flatMap (Action.issues b p.key)
      = p.unknownActions b ([(label, (⟨target, actions, guard⟩ : TransitionDescriptor κ))].flatMap
          fun t => t.2.actions) := by
    rw [flatMap_actionIssues, List.flatMap_singleton]
  rw [TransitionDescriptor.issues, unknownNames, ← hactions]
  congr 1
  · congr 1
    cases target with
    | none => rfl
    | some target =>
      cases h : p.siblings.contains target <;> simp [unknownTargets, need, h]
  · cases guard with
    | none => rfl
    | some guard =>
      cases guard with
      | inline => rfl
      | named name =>
        cases h : b.guards.contains name <;>
          simp [GuardRef.issues, unknownGuards, GuardRef.named?, need, h]

theorem unknownNames_append (ts ts' : List (String × TransitionDescriptor κ)) :
  (p.unknownNames b (ts ++ ts')).Perm (p.unknownNames b ts ++ p.unknownNames b ts')
  := by
  rw [List.perm_iff_count]
  intro issue
  simp only [unknownNames, unknownTargets, unknownActions, unknownGuards, List.filterMap_append,
    List.flatMap_append, List.filter_append, List.map_append, List.count_append]
  omega

/-- The issues in transitions are their unknown names. -/
theorem transitionIssues_perm (ts : List (String × TransitionDescriptor κ)) :
  (p.transitionIssues b ts).Perm (p.unknownNames b ts)
  := by
  induction ts with
  | nil => rfl
  | cons t rest ih =>
    calc p.transitionIssues b (t :: rest)
      _ = p.unknownNames b [t] ++ p.transitionIssues b rest := by
        rw [transitionIssues, List.flatMap_cons, issues_eq]; rfl
      List.Perm _ (p.unknownNames b [t] ++ p.unknownNames b rest) := ih.append_left _
      List.Perm _ (p.unknownNames b (t :: rest)) := (unknownNames_append [t] rest).symm

/-- The issues in the transitions of a map, key by key. -/
theorem flatMap_issues_labelled (label : String → String)
    (m : OrderedMap (List (TransitionDescriptor κ))) :
  (m.entries.flatMap fun e =>
      e.2.flatMap (TransitionDescriptor.issues b p.siblings p.key (label e.1)))
    = p.transitionIssues b (labelled label m)
  := by
  rw [transitionIssues, labelled, List.flatMap_assoc]
  apply List.flatMap_congr
  intro e _
  rw [List.flatMap_map]

/-- The issues in transitions after delays are those of the transitions and the unknown
delays. -/
theorem delayIssues_perm :
  (p.state.after.entries.flatMap fun e => delayIssues b p.siblings p.key e.1 e.2).Perm
    (p.transitionIssues b (labelled ("after " ++ ·) p.state.after) ++ p.unknownDelays b)
  := by
  have hdelays : p.unknownDelays b = p.state.after.entries.flatMap fun e =>
      need ((millis? e.1).isSome || b.delays.contains e.1) (.unknownDelay p.key e.1) := by
    rw [unknownDelays, OrderedMap.keys, ← flatMap_need, List.flatMap_map]
  rw [hdelays, ← flatMap_issues_labelled]
  exact (List.flatMap_append_perm ..).symm

theorem invokeDescriptor_issues (i : InvokeDescriptor κ) :
  i.issues b p.siblings p.key = p.transitionIssues b i.transitions
  := by
  rw [InvokeDescriptor.issues, InvokeDescriptor.transitions, transitionIssues_append]
  congr 1
  · rcases i.onDone with _ | _ | t
    · rfl
    · rfl
    · exact (List.append_nil _).symm
  · rcases i.onError with _ | _ | t
    · rfl
    · rfl
    · exact (List.append_nil _).symm

/-- An identifier is repeated as often as it occurs, but for one time if it was not seen. -/
theorem count_repeatedInvocations (id : String) (is : List (InvokeDescriptor κ))
    (seen : List String) :
  ((repeatedInvocations seen is).map InvokeDescriptor.id).count id
    = (is.map InvokeDescriptor.id).count id - if id ∈ seen then 0 else 1
  := by
  induction is generalizing seen with
  | nil => simp [repeatedInvocations]
  | cons i rest ih =>
    rw [repeatedInvocations]
    by_cases hi : i.id ∈ seen <;> by_cases hid : i.id = id
    · subst hid
      simp [ih, hi]
    · simp [ih, hi, hid, Ne.symm hid]
    · subst hid
      simp [ih, hi]
    · simp [ih, hi, hid, Ne.symm hid]

/-- The repeated identifiers are those left when each is taken away once. -/
theorem repeatedInvocations_perm :
  ((repeatedInvocations [] p.state.invoke).map
      fun i => Issue.duplicateInvoke p.key i.id).Perm p.duplicateInvokes
  := by
  rw [duplicateInvokes, ← Function.comp_def (Issue.duplicateInvoke p.key), ← List.map_map]
  apply List.Perm.map
  rw [List.perm_iff_count]
  intro id
  rw [count_repeatedInvocations, List.count_diff, List.count_dedup]
  by_cases hid : id ∈ p.state.invoke.map InvokeDescriptor.id
  · simp [hid]
  · simp [hid, List.count_eq_zero_of_not_mem hid]

/-- The issues of invocations, and those in the reactions of the repeated ones, are those of
all reactions and one for each repeated invocation. -/
theorem invokeIssues_perm (is : List (InvokeDescriptor κ)) (seen : List String) :
  (invokeIssues b p.siblings p.key seen is
      ++ p.transitionIssues b
        ((repeatedInvocations seen is).flatMap InvokeDescriptor.transitions)).Perm
    (p.transitionIssues b (is.flatMap InvokeDescriptor.transitions)
      ++ (repeatedInvocations seen is).map fun i => .duplicateInvoke p.key i.id)
  := by
  rw [List.perm_iff_count]
  intro issue
  simp only [List.count_append]
  induction is generalizing seen with
  | nil => rfl
  | cons i rest ih =>
    have := ih (i.id :: seen)
    rw [invokeIssues, repeatedInvocations]
    by_cases hi : seen.contains i.id = true
    · simp only [hi, if_true, List.flatMap_append, List.flatMap_cons, List.flatMap_nil,
        transitionIssues_append, List.count_append, List.map_append, List.map_cons, List.map_nil,
        List.append_nil] at this ⊢
      omega
    · simp only [hi, Bool.false_eq_true, if_false, List.nil_append, List.flatMap_cons,
        transitionIssues_append, List.count_append, invokeDescriptor_issues] at this ⊢
      omega

/-- The issues of a state that is no region, and the violations in its hidden reactions, are
the violations at it. -/
theorem stateIssues_perm (hrole : p.role ≠ .region) :
  (p.state.issues b p.siblings (p.role = .inner) p.key ++ p.hiddenReactions b).Perm
    (p.violations b)
  := by
  rw [List.perm_iff_count]
  intro issue
  have hafter := (delayIssues_perm (b := b) (p := p)).count_eq issue
  have hinvoke := (invokeIssues_perm (b := b) (p := p) p.state.invoke []).count_eq issue
  have hrepeated := (repeatedInvocations_perm (p := p)).count_eq issue
  have hall := (transitionIssues_perm (b := b) (p := p) p.state.transitions).count_eq issue
  have hhidden := (transitionIssues_perm (b := b) (p := p)
    ((repeatedInvocations [] p.state.invoke).flatMap InvokeDescriptor.transitions)).count_eq issue
  have hon := flatMap_issues_labelled (b := b) (p := p) id p.state.on
  have hparts : p.transitionIssues b p.state.transitions
      = p.transitionIssues b (labelled id p.state.on)
        ++ p.transitionIssues b (labelled ("after " ++ ·) p.state.after)
        ++ p.transitionIssues b (p.state.invoke.flatMap InvokeDescriptor.transitions) := by
    rw [StateDescriptor.transitions, transitionIssues_append, transitionIssues_append]
  simp only [id_eq] at hon
  rw [StateDescriptor.issues, hon, flatMap_actionIssues, flatMap_actionIssues, violations,
    handlerViolations, unsupported, initialViolations, hiddenReactions, unknownActions_append]
  rw [hparts] at hall
  simp only [List.count_append] at *
  cases hp : p.role with
  | region => exact absurd hp hrole
  | state =>
    simp
    omega
  | inner =>
    simp
    omega

end Place

/-! ### Issues in a machine -/

section

variable {b : Bundle κ}

/-- The issues of states that are no regions, and the violations that are hidden in them, are
the violations at them and below. -/
theorem statesIssues_perm (role : Role) (hrole : role ≠ .region)
    (siblings : OrderedMap (StateDescriptor κ)) (es : List (String × StateDescriptor κ)) :
  ((es.flatMap fun e => e.2.issues b siblings (role = .inner) e.1)
      ++ es.flatMap fun e => Place.hiddenInState b ⟨role, siblings, e.1, e.2⟩).Perm
    ((placesAmong role siblings es).flatMap (Place.violations b))
  := by
  rw [flatMap_placesAmong]
  refine (List.flatMap_append_perm ..).trans (List.Perm.flatMap_left es ?_)
  intro e _
  have h := Place.stateIssues_perm (b := b) (p := ⟨role, siblings, e.1, e.2⟩) hrole
  rw [Place.hiddenInState, ← List.append_assoc]
  exact h.append_right _

/-- The issues of a region, and the violations that are hidden in it, are the violations at it
and below. -/
theorem regionIssues_perm {p : Place κ} (hrole : p.role = .region) :
  (regionIssues b p.key p.state ++ p.hiddenInRegion b).Perm
    (p.violations b ++ p.violationsBelow b)
  := by
  have hstates := statesIssues_perm (b := b) .inner (by decide) p.state.states
    p.state.states.entries
  have hbelow : p.violationsBelow b
      = (placesAmong .inner p.state.states p.state.states.entries).flatMap
          (Place.violations b) := by
    rw [Place.violationsBelow, StateDescriptor.placesBelow_eq, hrole, Role.below]
  rw [List.perm_iff_count]
  intro issue
  have hcount := hstates.count_eq issue
  rw [regionIssues, Place.hiddenInRegion, Place.violations, Place.unsupported,
    Place.initialViolations, hrole]
  cases hinitial : p.state.initial with
  | none =>
    simp only [List.count_append, List.count_nil]
    omega
  | some initial =>
    rw [hbelow]
    simp only [chartIssues, List.count_append, List.count_nil, decide_true] at hcount ⊢
    omega

/-- The issues of a machine that has an initial state if it needs one, and the violations that
are hidden in it, are its violations. -/
theorem MachineDescriptor.issues_perm {d : MachineDescriptor κ} {topology : Topology κ}
    (ht : d.topology b = .ok topology) :
  (d.issues b ++ d.hidden b).Perm (d.violations b)
  := by
  rw [issues, hidden, violations, places, role]
  rw [MachineDescriptor.topology] at ht
  cases hp : d.isParallel with
  | true =>
    simp only [if_true, List.nil_append]
    rw [flatMap_placesAmong]
    refine (List.flatMap_append_perm ..).trans (List.Perm.flatMap_left _ ?_)
    intro e _
    exact regionIssues_perm (p := ⟨.region, d.states, e.1, e.2⟩) rfl
  | false =>
    cases hi : d.initial with
    | none => simp [hp, hi] at ht
    | some initial =>
      have h := statesIssues_perm (b := b) .state (by decide) d.states d.states.entries
      simp only [Bool.false_eq_true, if_false, chartIssues, List.append_assoc]
      exact h.append_left _

/-- The initial states of a descriptor without issues can be entered. -/
theorem MachineDescriptor.exists_initial {d : MachineDescriptor κ} {topology : Topology κ}
    (clean : d.issues b = []) (ht : d.topology b = .ok topology) :
  ∃ s, (topology.initial d.metadata d.context).value = .ok s
  := by
  rw [issues] at clean
  rw [MachineDescriptor.topology] at ht
  cases hp : d.isParallel with
  | true =>
    simp only [hp, if_true, Except.ok.injEq] at ht
    rw [hp, if_pos rfl, List.flatMap_eq_nil_iff] at clean
    obtain ⟨entered, -, hnodes, -⟩ :=
      Interpretation.initialNodes_eq clean (Machine.nameOf d.id)
    rw [← ht, Topology.initial, Topology.entry, hnodes]
    exact ⟨_, rfl⟩
  | false =>
    cases hi : d.initial with
    | none => simp [hp, hi] at ht
    | some key =>
      simp only [hp, hi, Bool.false_eq_true, if_false, Except.ok.injEq] at ht clean
      obtain ⟨⟨n, hn⟩, -⟩ := StateDescriptor.known_of_chartIssues clean
      have hnode : (Chart.ofStates b (Machine.nameOf d.id) none key d.states).node key
          = .ok (n.node b key) := Interpretation.node_ofStates b hn _ _ _
      have hinitial : (Chart.ofStates b (Machine.nameOf d.id) none key d.states).initial = key :=
        rfl
      rw [← ht, Topology.initial, Topology.entry, hinitial, hnode]
      exact ⟨_, rfl⟩

end

/-- A compilation that fails with an invalid definition reports every violation of the
descriptor once for each time that it occurs, but for those that are hidden; so it reports all
of them just if none is hidden. -/
theorem Machine.compile_reports {d : MachineDescriptor κ} {b : Bundle κ} {name : String}
    {issues : List Issue}
    (h : (Machine.compile d b).value = .error (.invalidDefinition name issues)) :
  name = Machine.nameOf d.id ∧ issues ≠ []
    ∧ (issues ++ d.hidden b).Perm (d.violations b)
    ∧ (issues.Perm (d.violations b) ↔ d.hidden b = [])
  := by
  rw [compile] at h
  cases ht : d.topology b with
  | error e =>
    rw [MachineDescriptor.topology] at ht
    cases hp : d.isParallel <;> cases hi : d.initial <;> simp [hp, hi] at ht
    subst ht
    rw [MachineDescriptor.topology, hp, hi] at h
    cases h
  | ok topology =>
    have hperm := MachineDescriptor.issues_perm ht
    by_cases clean : d.issues b = []
    · obtain ⟨s, hs⟩ := MachineDescriptor.exists_initial clean ht
      simp [ht, clean, hs] at h
    · simp only [ht, clean, ne_eq, not_false_eq_true, if_true, Evaluated.value_pure,
        Except.error.injEq, BuildError.invalidDefinition.injEq] at h
      obtain ⟨rfl, rfl⟩ := h
      refine ⟨rfl, clean, hperm, ?_⟩
      constructor
      · intro hall
        have hlength := hall.length_eq.trans hperm.length_eq.symm
        rw [List.length_append] at hlength
        exact List.length_eq_zero_iff.mp (by omega)
      · intro hnone
        rwa [hnone, List.append_nil] at hperm

/-! ### Examples -/

/-- An advertisement whose names are all unknown. -/
def advertDescriptor : MachineDescriptor String where
  id := some "ad"
  initial := some "video"
  kind := .atomic
  context := .empty
  metadata := none
  states := ⟨[
    ("video", { StateDescriptor.empty with
      entry := [.named "mount"]
      on := ⟨[("GO", [⟨some "nowhere", [], some (.named "ready")⟩])]⟩
      after := ⟨[("skipDelay", [.ofTarget "done"])]⟩ }),
    ("done", { StateDescriptor.empty with kind := .final })]⟩

/-- All four unknown names of the advertisement are reported. -/
theorem advert_compile_reports :
  ∃ issues,
    (Machine.compile advertDescriptor .empty).value = .error (.invalidDefinition "ad" issues)
      ∧ issues.Perm (advertDescriptor.violations .empty)
      ∧ advertDescriptor.violations .empty
        = [.unknownTarget "video" "GO" "nowhere", .unknownGuard "video" "ready",
          .unknownAction "video" "mount", .unknownDelay "video" "skipDelay"]
  := by
  have hcompile : (Machine.compile advertDescriptor .empty).value
      = .error (.invalidDefinition "ad" _) := rfl
  obtain ⟨-, -, -, hall⟩ := Machine.compile_reports hcompile
  exact ⟨_, hcompile, hall.mpr rfl, rfl⟩

/-- A panel with a region that has no initial state, and in this region a state with a
transition to an unknown state. -/
def panelDescriptor : MachineDescriptor String where
  id := some "panel"
  initial := none
  kind := .parallel
  context := .empty
  metadata := none
  states := ⟨[
    ("ui", { StateDescriptor.empty with
      states := ⟨[
        ("x", { StateDescriptor.empty with on := ⟨[("GO", [.ofTarget "nowhere"])]⟩ })]⟩ })]⟩

/-- A clerk with two jobs of one name, the second with a transition to an unknown state when it
is done. -/
def clerkDescriptor : MachineDescriptor String where
  id := some "clerk"
  initial := some "busy"
  kind := .atomic
  context := .empty
  metadata := none
  states := ⟨[
    ("busy", { StateDescriptor.empty with
      invoke := [.ofService "job" "work",
        { InvokeDescriptor.ofService "job" "work" with
          onDone := some (.transition (.ofTarget "idle")) }] })]⟩

/-- The unknown target in the region without initial state is not reported, and neither is
that in the reaction to the second child. -/
theorem panel_not_reported :
  (∃ issues,
    (Machine.compile panelDescriptor .empty).value = .error (.invalidDefinition "panel" issues)
      ∧ .unknownTarget "x" "GO" "nowhere" ∈ panelDescriptor.violations .empty
      ∧ .unknownTarget "x" "GO" "nowhere" ∉ issues)
  ∧ ∃ issues,
    (Machine.compile clerkDescriptor .empty).value = .error (.invalidDefinition "clerk" issues)
      ∧ .unknownTarget "busy" "done.invoke.job" "idle" ∈ clerkDescriptor.violations .empty
      ∧ .unknownTarget "busy" "done.invoke.job" "idle" ∉ issues
  := by
  refine ⟨⟨[.missingRegionInitial "ui"], rfl, ?_, by decide⟩,
    [.duplicateInvoke "busy" "job"], rfl, ?_, by decide⟩
  · have hviolations : panelDescriptor.violations .empty
        = [.missingRegionInitial "ui", .unknownTarget "x" "GO" "nowhere"] := rfl
    rw [hviolations]
    decide
  · have hviolations : clerkDescriptor.violations .empty
        = [.unknownTarget "busy" "done.invoke.job" "idle", .duplicateInvoke "busy" "job"] := rfl
    rw [hviolations]
    decide

end Statechart
