import Statechart.Proofs.Reporting
import Statechart.Proofs.Script

/-!
# Well-formed descriptors

What a descriptor must be like to be compiled with a bundle is said here without the
compiler: which states must be there, which names must be in the bundle, and which constructs
must not be used.  `Machine.compile_accepts` says that these are exactly the descriptors that
compile, and which error the others get.
-/

namespace Statechart

variable {κ : Type}

/-! ### Transitions -/

/-- An action is given in place, or its name is in the bundle. -/
def Action.Declared (b : Bundle κ) (a : Action κ) : Prop :=
  ∀ name, a = .named name → name ∈ b.actions.keys

/-- A guard is given in place, or its name is in the bundle. -/
def GuardRef.Declared (b : Bundle κ) (g : GuardRef) : Prop :=
  ∀ name, g = .named name → name ∈ b.guards.keys

/-- A transition stays or leads to one of the siblings, by names of the bundle. -/
structure TransitionDescriptor.WellFormed (b : Bundle κ)
    (siblings : OrderedMap (StateDescriptor κ)) (t : TransitionDescriptor κ) : Prop where
  target : ∀ target, t.target = some target → target ∈ siblings.keys
  actions : ∀ a ∈ t.actions, a.Declared b
  guard : ∀ g, t.guard = some g → g.Declared b

/-! ### States, regions and machines -/

/-- A state of a flat machine, or of a region: there are no states in it, its transitions are
well formed, its names are in the bundle, its delays are numbers or names of the bundle, and no
two of its invocations have the same identifier.  In a region it has neither delays nor
invocations. -/
structure StateDescriptor.WellFormed (b : Bundle κ)
    (siblings : OrderedMap (StateDescriptor κ)) (inRegion : Bool) (n : StateDescriptor κ) :
    Prop where
  states : n.states.keys = []
  kind : n.kind ≠ .parallel
  transitions : ∀ t ∈ n.transitions, t.2.WellFormed b siblings
  actions : ∀ a ∈ n.entry ++ n.exit, a.Declared b
  delays : ∀ delay ∈ n.after.keys, (millis? delay).isSome ∨ delay ∈ b.delays.keys
  invoke : (n.invoke.map InvokeDescriptor.id).Nodup
  region : inRegion → n.after.keys = [] ∧ n.invoke = []

/-- The states of a flat machine or of a region, one of which is the initial one. -/
structure WellFormedChart (b : Bundle κ) (inRegion : Bool) (initial : Option String)
    (states : OrderedMap (StateDescriptor κ)) : Prop where
  initial : ∃ key, initial = some key ∧ key ∈ states.keys
  states : ∀ n ∈ states.values, n.WellFormed b states inRegion

/-- A region, which has no handlers of its own. -/
structure StateDescriptor.WellFormedRegion (b : Bundle κ) (n : StateDescriptor κ) : Prop where
  on : n.on.keys = []
  entry : n.entry = []
  exit : n.exit = []
  after : n.after.keys = []
  invoke : n.invoke = []
  chart : WellFormedChart b true n.initial n.states

/-- A machine: its regions are well formed if it is parallel, and otherwise its states. -/
def MachineDescriptor.WellFormed (b : Bundle κ) (d : MachineDescriptor κ) : Prop :=
  if d.isParallel then ∀ n ∈ d.states.values, n.WellFormedRegion b
  else WellFormedChart b false d.initial d.states

/-- A machine that is not parallel and does not say where to start. -/
def MachineDescriptor.LacksInitial (d : MachineDescriptor κ) : Prop :=
  d.isParallel = false ∧ d.initial = none

/-! ### No issues -/

theorem OrderedMap.isEmpty_iff {α : Type} (m : OrderedMap α) :
  m.isEmpty = true ↔ m.keys = []
  := by
  rw [OrderedMap.isEmpty, OrderedMap.keys, List.isEmpty_iff, List.map_eq_nil_iff]

section

variable {b : Bundle κ} {siblings : OrderedMap (StateDescriptor κ)} {state : String}

/-- An action has no issues if its name is declared. -/
theorem Action.issues_eq_nil_iff {a : Action κ} :
  a.issues b state = [] ↔ a.Declared b
  := by
  cases a with
  | named name => simp [issues, Declared, OrderedMap.contains_iff]
  | inline | assign => simp [issues, Declared]

/-- A guard has no issues if its name is declared. -/
theorem GuardRef.issues_eq_nil_iff {g : GuardRef} :
  g.issues b state = [] ↔ g.Declared b
  := by
  cases g with
  | named name => simp [issues, Declared, OrderedMap.contains_iff]
  | inline => simp [issues, Declared]

/-- A transition has no issues if its target, guard and actions are declared. -/
theorem TransitionDescriptor.issues_eq_nil_iff {event : String} {t : TransitionDescriptor κ} :
  t.issues b siblings state event = [] ↔ t.WellFormed b siblings
  := by
  obtain ⟨target, actions, guard⟩ := t
  simp only [issues, List.append_eq_nil_iff, List.flatMap_eq_nil_iff, Action.issues_eq_nil_iff]
  constructor
  · rintro ⟨⟨htarget, hactions⟩, hguard⟩
    refine ⟨?_, hactions, ?_⟩
    · rintro _ rfl
      exact (OrderedMap.contains_iff _ _).mp ((need_eq_nil_iff _ _).mp htarget)
    · rintro _ rfl
      exact GuardRef.issues_eq_nil_iff.mp hguard
  · rintro ⟨htarget, hactions, hguard⟩
    refine ⟨⟨?_, hactions⟩, ?_⟩
    · cases target with
      | none => rfl
      | some target =>
        exact (need_eq_nil_iff _ _).mpr ((OrderedMap.contains_iff _ _).mpr (htarget _ rfl))
    · cases guard with
      | none => rfl
      | some g => exact GuardRef.issues_eq_nil_iff.mpr (hguard g rfl)

/-- There are no issues in transitions, whatever their labels, if they are well formed. -/
theorem Place.transitionIssues_eq_nil_iff {p : Place κ}
    {ts : List (String × TransitionDescriptor κ)} :
  p.transitionIssues b ts = [] ↔ ∀ t ∈ ts, t.2.WellFormed b p.siblings
  := by
  simp only [transitionIssues, List.flatMap_eq_nil_iff, TransitionDescriptor.issues_eq_nil_iff]

/-- There are no issues in invocations if their reactions are well formed and each has an
identifier of its own that was not seen before. -/
theorem Place.invokeIssues_eq_nil_iff (p : Place κ) (is : List (InvokeDescriptor κ))
    (seen : List String) :
  invokeIssues b p.siblings p.key seen is = []
    ↔ (is.map InvokeDescriptor.id).Nodup ∧ (∀ i ∈ is, i.id ∉ seen)
      ∧ ∀ t ∈ is.flatMap InvokeDescriptor.transitions, t.2.WellFormed b p.siblings
  := by
  induction is generalizing seen with
  | nil => simp [invokeIssues]
  | cons i rest ih =>
    rw [invokeIssues, List.append_eq_nil_iff, ih, invokeDescriptor_issues]
    by_cases hi : i.id ∈ seen
    · simp [hi]
    · have hseen : (∀ j ∈ rest, j.id ∉ i.id :: seen)
          ↔ i.id ∉ rest.map InvokeDescriptor.id ∧ ∀ j ∈ rest, j.id ∉ seen := by
        simp only [List.mem_cons, not_or, List.mem_map, not_exists, not_and]
        exact forall₂_and
      simp only [List.contains_eq_mem, decide_eq_true_eq, hi, if_false,
        transitionIssues_eq_nil_iff, hseen, List.map_cons, List.nodup_cons, List.forall_mem_cons,
        List.flatMap_cons, List.forall_mem_append, not_false_eq_true, true_and]
      tauto

/-- What holds of the transitions under labels holds of all of them. -/
theorem forall_mem_labelled (label : String → String)
    {m : OrderedMap (List (TransitionDescriptor κ))} {p : TransitionDescriptor κ → Prop} :
  (∀ t ∈ labelled label m, p t.2) ↔ ∀ e ∈ m.entries, ∀ t ∈ e.2, p t
  := by
  simp only [labelled, List.forall_mem_flatMap, List.forall_mem_map]

/-- A delay has no issues if it is a number or a name that is declared, and its transitions have
none. -/
theorem delayIssues_eq_nil_iff {delay : String} {candidates : List (TransitionDescriptor κ)} :
  delayIssues b siblings state delay candidates = []
    ↔ (∀ t ∈ candidates, t.WellFormed b siblings)
      ∧ ((millis? delay).isSome ∨ delay ∈ b.delays.keys)
  := by
  simp only [delayIssues, List.append_eq_nil_iff, List.flatMap_eq_nil_iff, need_eq_nil_iff,
    TransitionDescriptor.issues_eq_nil_iff, Bool.or_eq_true, OrderedMap.contains_iff]

/-- There are no issues about a state just if it is well formed. -/
theorem StateDescriptor.issues_eq_nil_iff {inRegion : Bool} {n : StateDescriptor κ} :
  n.issues b siblings inRegion state = [] ↔ n.WellFormed b siblings inRegion
  := by
  have hinvoke := Place.invokeIssues_eq_nil_iff (b := b) ⟨.state, siblings, state, n⟩ n.invoke []
  have hdelays : (∀ e ∈ n.after.entries, (∀ t ∈ e.2, t.WellFormed b siblings)
        ∧ ((millis? e.1).isSome ∨ e.1 ∈ b.delays.keys))
      ↔ (∀ t ∈ labelled ("after " ++ ·) n.after, t.2.WellFormed b siblings)
        ∧ ∀ delay ∈ n.after.keys, (millis? delay).isSome ∨ delay ∈ b.delays.keys := by
    rw [forall_mem_labelled]
    simp only [OrderedMap.keys, List.forall_mem_map]
    exact forall₂_and
  have hregion : (if inRegion then need n.after.isEmpty (.unsupported state .delayedTransitions)
        ++ need n.invoke.isEmpty (.unsupported state .invocations) else []) = []
      ↔ (inRegion → n.after.keys = [] ∧ n.invoke = []) := by
    cases inRegion <;> simp [OrderedMap.isEmpty_iff]
  simp only [issues, List.append_eq_nil_iff, List.flatMap_eq_nil_iff, need_eq_nil_iff,
    TransitionDescriptor.issues_eq_nil_iff, delayIssues_eq_nil_iff, Action.issues_eq_nil_iff,
    OrderedMap.isEmpty_iff, decide_eq_true_eq, hdelays, hinvoke, hregion]
  rw [← forall_mem_labelled id]
  constructor
  · rintro ⟨⟨⟨⟨⟨⟨⟨hstates, hkind⟩, hregion⟩, hon⟩, hafter, hdelays⟩, hids, -, hreactions⟩,
      hentry⟩, hexit⟩
    refine ⟨hstates, hkind, ?_, List.forall_mem_append.mpr ⟨hentry, hexit⟩, hdelays, hids, hregion⟩
    rw [StateDescriptor.transitions, List.forall_mem_append, List.forall_mem_append]
    exact ⟨⟨hon, hafter⟩, hreactions⟩
  · rintro ⟨hstates, hkind, htransitions, hactions, hdelays, hids, hregion⟩
    rw [StateDescriptor.transitions, List.forall_mem_append, List.forall_mem_append]
      at htransitions
    obtain ⟨⟨hon, hafter⟩, hreactions⟩ := htransitions
    obtain ⟨hentry, hexit⟩ := List.forall_mem_append.mp hactions
    exact ⟨⟨⟨⟨⟨⟨⟨hstates, hkind⟩, hregion⟩, hon⟩, hafter, hdelays⟩, hids, by simp, hreactions⟩,
      hentry⟩, hexit⟩

/-- A chart has no issues if it is well formed. -/
theorem WellFormedChart.iff_issues {inRegion : Bool} {initial : String}
    {states : OrderedMap (StateDescriptor κ)} :
  WellFormedChart b inRegion (some initial) states ↔ chartIssues b inRegion initial states = []
  := by
  rw [chartIssues, List.append_eq_nil_iff, need_eq_nil_iff, OrderedMap.contains_iff,
    List.flatMap_eq_nil_iff]
  simp only [StateDescriptor.issues_eq_nil_iff]
  constructor
  · rintro ⟨⟨key, hkey, hmem⟩, hstates⟩
    obtain rfl := Option.some.inj hkey
    exact ⟨hmem, fun e he => hstates e.2 (List.mem_map_of_mem he)⟩
  · rintro ⟨hmem, hstates⟩
    refine ⟨⟨initial, rfl, hmem⟩, ?_⟩
    intro n hn
    obtain ⟨e, he, rfl⟩ := List.mem_map.mp hn
    exact hstates e he

/-- There are no issues about a region just if it is well formed. -/
theorem StateDescriptor.regionIssues_eq_nil_iff {key : String} {n : StateDescriptor κ} :
  regionIssues b key n = [] ↔ n.WellFormedRegion b
  := by
  have hhandlers : (!n.hasHandlers) = true
      ↔ n.on.keys = [] ∧ n.entry = [] ∧ n.exit = [] ∧ n.after.keys = [] ∧ n.invoke = [] := by
    simp [StateDescriptor.hasHandlers, OrderedMap.isEmpty_iff, and_assoc]
  rw [regionIssues, List.append_eq_nil_iff, need_eq_nil_iff, hhandlers]
  cases hinitial : n.initial with
  | none =>
    constructor
    · rintro ⟨-, h⟩
      cases h
    · rintro ⟨-, -, -, -, -, ⟨key, hkey, -⟩, -⟩
      cases hinitial.symm.trans hkey
  | some initial =>
    simp only
    rw [← WellFormedChart.iff_issues, ← hinitial]
    constructor
    · rintro ⟨⟨hon, hentry, hexit, hafter, hinvoke⟩, hchart⟩
      exact ⟨hon, hentry, hexit, hafter, hinvoke, hchart⟩
    · rintro ⟨hon, hentry, hexit, hafter, hinvoke, hchart⟩
      exact ⟨⟨hon, hentry, hexit, hafter, hinvoke⟩, hchart⟩

/-- A machine is well formed just if it says where to start, unless it is parallel, and there
are no issues about it. -/
theorem MachineDescriptor.wellFormed_iff {d : MachineDescriptor κ} :
  d.WellFormed b ↔ ¬d.LacksInitial ∧ d.issues b = []
  := by
  rw [WellFormed, LacksInitial, issues]
  cases d.isParallel with
  | true =>
    simp only [if_true, List.flatMap_eq_nil_iff, StateDescriptor.regionIssues_eq_nil_iff,
      OrderedMap.values, List.forall_mem_map, Bool.true_eq_false, false_and, not_false_eq_true,
      true_and]
  | false =>
    cases hinitial : d.initial with
    | none =>
      constructor
      · rintro ⟨⟨key, hkey, -⟩, -⟩
        cases hkey
      · rintro ⟨hnot, -⟩
        exact absurd ⟨rfl, rfl⟩ hnot
    | some initial => simp [WellFormedChart.iff_issues]

instance (d : MachineDescriptor κ) : Decidable d.LacksInitial :=
  inferInstanceAs (Decidable (d.isParallel = false ∧ d.initial = none))

instance (d : MachineDescriptor κ) : Decidable (d.WellFormed b) :=
  decidable_of_iff _ MachineDescriptor.wellFormed_iff.symm

/-- A machine that says where to start, or is parallel, has a shape. -/
theorem MachineDescriptor.exists_topology {d : MachineDescriptor κ} (h : ¬d.LacksInitial) :
  ∃ topology, d.topology b = .ok topology
  := by
  rw [topology]
  cases hparallel : d.isParallel with
  | true => exact ⟨_, rfl⟩
  | false =>
    cases hinitial : d.initial with
    | none => exact absurd ⟨hparallel, hinitial⟩ h
    | some initial => exact ⟨_, rfl⟩

end

/-! ### What compilation accepts -/

/-- Compilation asks for an initial state just if the machine is not parallel and has none; it
gives a machine just if the descriptor is well formed; and in all other cases it fails with an
invalid definition and at least one issue. -/
theorem Machine.compile_accepts (d : MachineDescriptor κ) (b : Bundle κ) :
  ((Machine.compile d b).value = .error (.missingInitialState (nameOf d.id)) ↔ d.LacksInitial)
    ∧ ((∃ m, (Machine.compile d b).value = .ok m) ↔ d.WellFormed b)
    ∧ ((∃ issues, issues ≠ []
        ∧ (Machine.compile d b).value = .error (.invalidDefinition (nameOf d.id) issues))
      ↔ ¬d.LacksInitial ∧ ¬d.WellFormed b)
  := by
  rw [MachineDescriptor.wellFormed_iff]
  by_cases hlacks : d.LacksInitial
  · have hcompile : (Machine.compile d b).value
        = .error (.missingInitialState (nameOf d.id)) := by
      simp [compile, MachineDescriptor.topology, hlacks.1, hlacks.2]
    simp [hcompile, hlacks]
  · obtain ⟨topology, htopology⟩ := MachineDescriptor.exists_topology (b := b) hlacks
    by_cases clean : d.issues b = []
    · obtain ⟨s, hs⟩ := MachineDescriptor.exists_initial clean htopology
      have hcompile : ∃ m, (Machine.compile d b).value = .ok m := by
        simp [compile, htopology, clean, hs]
      obtain ⟨m, hm⟩ := hcompile
      simp [hm, hlacks, clean]
    · have hcompile : (Machine.compile d b).value
          = .error (.invalidDefinition (nameOf d.id) (d.issues b)) := by
        simp [compile, htopology, clean]
      simp [hcompile, hlacks, clean]

/-- The delay `1_5` is no number, so that it must be in the bundle. -/
example : relayDescriptor.WellFormed relayBundle ∧ ¬relayDescriptor.WellFormed .empty := by
  decide +kernel

end Statechart
