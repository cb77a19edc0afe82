import Mathlib.Data.List.Perm.Subperm
import Mathlib.Tactic.Use
import Statechart.Machine.Resolve

/-!
# Soundness of compiled machines

A chart is sound when its states are stored under their own keys, its initial state is
there, and so is every target of a candidate.  A value fits a machine when it names a
state in every chart of it.  Compilation gives sound machines, and on a sound machine an
event leads from a value that fits to a value that fits.
-/

namespace Statechart

variable {κ : Type}

/-! ### Sound charts -/

/-- The candidates of a state: those of its events, of its delays and of the reactions
of its invocations. -/
inductive Node.Offers (n : Node κ) : Candidate κ → Prop where
  | on {kind : String} {ts : List (Candidate κ)} {t : Candidate κ} :
    n.on.get? kind = some ts → t ∈ ts → n.Offers t
  | after {d : Delayed κ} {t : Candidate κ} :
    d ∈ n.after → t ∈ d.candidates → n.Offers t
  | done {v : Invocation κ} {t : Candidate κ} :
    v ∈ n.invoke → v.onDone = some (.transition t) → n.Offers t
  | failed {v : Invocation κ} {t : Candidate κ} :
    v ∈ n.invoke → v.onError = some (.transition t) → n.Offers t

/-- Every state is stored under its key, and the initial state and all targets are
states of the chart.  The delays of a state are distinct. -/
structure Chart.Sound (c : Chart κ) : Prop where
  key_eq : ∀ {key n}, c.nodes.get? key = some n → n.key = key
  initial : ∃ n, c.nodes.get? c.initial = some n
  target : ∀ {key n t target}, c.nodes.get? key = some n → n.Offers t →
    t.target = some target → ∃ n', c.nodes.get? target = some n'
  delays : ∀ {key n}, c.nodes.get? key = some n → (n.after.map Delayed.key).Nodup

/-- The charts are sound, and regions have different keys. -/
def Topology.Sound : Topology κ → Prop
  | .flat chart => chart.Sound
  | .parallel regions =>
    (∀ r ∈ regions, r.Sound) ∧ (regions.map Chart.regionKey).Nodup

/-- A value that is one state of a flat machine; or that has exactly one entry for each
region, a single state of it. -/
def Topology.Fits : Topology κ → StateValue → Prop
  | .flat chart, value => ∃ key n, value = .leaf key ∧ chart.nodes.get? key = some n
  | .parallel regions, value =>
    ∃ parts, value = .regions parts ∧ parts.keys.Perm (regions.map Chart.regionKey)
      ∧ ∀ r ∈ regions, ∃ key n,
          parts.get? r.regionKey = some (.leaf key) ∧ r.nodes.get? key = some n

/-- The metadata that belongs to a value: that of the state it names, or that of the
machine if there are regions. -/
def Machine.Labels (m : Machine κ) (value : StateValue) (metadata : Option Meta) : Prop :=
  match m.topology with
  | .flat chart =>
    ∃ key n, value = .leaf key ∧ chart.nodes.get? key = some n ∧ metadata = n.metadata
  | .parallel _ => metadata = m.metadata

/-- The charts of a machine are sound, and its initial value fits. -/
structure Machine.Sound (m : Machine κ) : Prop where
  topology : m.topology.Sound
  initial : m.topology.Fits m.initial.value

/-! ### Descriptors -/

/-- No key occurs twice in a map of a state, nor in those of the states below it. -/
inductive StateDescriptor.Keyed : StateDescriptor κ → Prop where
  | mk {n : StateDescriptor κ} (on : n.on.Distinct) (after : n.after.Distinct)
    (states : n.states.Distinct) (below : ∀ e ∈ n.states.entries, e.2.Keyed) : n.Keyed

/-- A state without states in it is keyed if its events and its delays are. -/
theorem StateDescriptor.keyed_of_shallow {n : StateDescriptor κ} (on : n.on.keys.Nodup)
    (after : n.after.keys.Nodup) (states : n.states.keys = []) :
  n.Keyed
  := by
  have hnone : n.states.entries = [] := List.map_eq_nil_iff.mp states
  refine .mk on after ?_ ?_
  · rw [OrderedMap.Distinct, states]
    exact List.nodup_nil
  · intro e he
    rw [hnone] at he
    cases he

/-- No key occurs twice in a map of a descriptor. -/
structure MachineDescriptor.Keyed (d : MachineDescriptor κ) : Prop where
  states : d.states.Distinct
  below : ∀ e ∈ d.states.entries, e.2.Keyed

/-- A machine whose states have no states in them is keyed if its states, their events and
their delays are. -/
theorem MachineDescriptor.keyed_of_shallow {d : MachineDescriptor κ}
    (states : d.states.keys.Nodup)
    (below : ∀ e ∈ d.states.entries,
      e.2.on.keys.Nodup ∧ e.2.after.keys.Nodup ∧ e.2.states.keys = []) :
  d.Keyed
  := by
  refine ⟨states, ?_⟩
  intro e he
  obtain ⟨hon, hafter, hstates⟩ := below e he
  exact StateDescriptor.keyed_of_shallow hon hafter hstates

/-- A machine that compilation gives. -/
def Machine.IsCompiled (m : Machine κ) : Prop :=
  ∃ (d : MachineDescriptor κ) (b : Bundle κ), d.Keyed ∧ (Machine.compile d b).value = .ok m

/-! ### What the absence of issues says -/

@[simp]
theorem need_eq_nil_iff (ok : Bool) (issue : Issue) :
  need ok issue = [] ↔ ok = true
  := by
  cases ok <;> simp [need]

/-- The candidate of a transition without issues has its target among the siblings. -/
theorem TransitionDescriptor.target_lookUp
    {b : Bundle κ} {siblings : OrderedMap (StateDescriptor κ)} {state event : String}
    {t : TransitionDescriptor κ} (clean : t.issues b siblings state event = [])
    {target : String} (h : (t.lookUp b).target = some target) :
  siblings.contains target = true
  := by
  have ht : t.target = some target := h
  rw [TransitionDescriptor.issues, ht] at clean
  simp only [List.append_eq_nil_iff, need_eq_nil_iff] at clean
  exact clean.1.1

/-- A reaction without issues that is a transition has its target among the siblings. -/
theorem Reaction.target_lookUp
    {b : Bundle κ} {siblings : OrderedMap (StateDescriptor κ)} {state label : String}
    {r : Reaction (TransitionDescriptor κ)} (clean : r.issues b siblings state label = [])
    {t : Candidate κ} (h : r.lookUp b = .transition t)
    {target : String} (ht : t.target = some target) :
  siblings.contains target = true
  := by
  cases r with
  | event kind => simp [Reaction.lookUp] at h
  | transition t' =>
    obtain rfl : t'.lookUp b = t := by simpa [Reaction.lookUp] using h
    exact TransitionDescriptor.target_lookUp clean ht

/-- Every invocation without issues is looked up from a descriptor without issues. -/
theorem exists_of_mem_invocations
    {b : Bundle κ} {siblings : OrderedMap (StateDescriptor κ)} {state : String}
    {seen : List String} {is : List (InvokeDescriptor κ)}
    (clean : invokeIssues b siblings state seen is = [])
    {v : Invocation κ} (h : v ∈ invocations b seen is) :
  ∃ i ∈ is, i.issues b siblings state = [] ∧ v = i.lookUp b
  := by
  induction is generalizing seen with
  | nil => simp [invocations] at h
  | cons i rest ih =>
    rw [invokeIssues, List.append_eq_nil_iff] at clean
    by_cases hi : seen.contains i.id = true
    · rw [if_pos hi] at clean
      cases clean.1
    · rw [if_neg hi] at clean
      rw [invocations, if_neg hi] at h
      obtain rfl | h := List.mem_cons.mp h
      · exact ⟨i, List.mem_cons_self, clean.1, rfl⟩
      · obtain ⟨j, hj, hc, hv⟩ := ih clean.2 h
        exact ⟨j, List.mem_cons_of_mem _ hj, hc, hv⟩

/-! ### Compiled charts -/

section

variable {b : Bundle κ} {states : OrderedMap (StateDescriptor κ)}

/-- The states of a compiled chart are those of the descriptor, compiled. -/
theorem Chart.get?_ofStates (owner : String) (region : Option String) (initial key : String) :
  (Chart.ofStates b owner region initial states).nodes.get? key
    = (states.get? key).map fun desc => desc.node b key
  := OrderedMap.find?_map (fun key (desc : StateDescriptor κ) => desc.node b key) key
    states.entries

/-- A state of a compiled chart comes from a state of the descriptor. -/
theorem Chart.exists_of_get?_ofStates
    {owner : String} {region : Option String} {initial key : String} {n : Node κ}
    (h : (Chart.ofStates b owner region initial states).nodes.get? key = some n) :
  ∃ desc, states.get? key = some desc ∧ n = desc.node b key
  := by
  rw [get?_ofStates, Option.map_eq_some_iff] at h
  obtain ⟨desc, hdesc, rfl⟩ := h
  exact ⟨desc, hdesc, rfl⟩

/-- A state of the descriptor is a state of the compiled chart. -/
theorem Chart.exists_get?_ofStates
    (owner : String) (region : Option String) (initial : String) {key : String}
    (h : states.contains key = true) :
  ∃ n, (Chart.ofStates b owner region initial states).nodes.get? key = some n
  := by
  obtain ⟨desc, hdesc⟩ := Option.isSome_iff_exists.mp h
  use desc.node b key
  rw [get?_ofStates, hdesc, Option.map_some]

/-- What a state without issues offers has its target among the siblings. -/
theorem StateDescriptor.target_of_offers
    {inRegion : Bool} {key : String} {desc : StateDescriptor κ}
    (clean : desc.issues b states inRegion key = [])
    {t : Candidate κ} (h : (desc.node b key).Offers t)
    {target : String} (ht : t.target = some target) :
  states.contains target = true
  := by
  simp only [StateDescriptor.issues, List.append_eq_nil_iff, List.flatMap_eq_nil_iff] at clean
  obtain ⟨⟨⟨⟨⟨-, hon⟩, hafter⟩, hinvoke⟩, -⟩, -⟩ := clean
  cases h with
  | @on kind ts _ hts hmem =>
    obtain ⟨e, he, heq⟩ := List.mem_map.mp (OrderedMap.mem_entries_of_get? hts)
    obtain ⟨rfl, rfl⟩ := Prod.mk.inj heq
    obtain ⟨t', ht', rfl⟩ := List.mem_map.mp hmem
    exact TransitionDescriptor.target_lookUp (hon e he t' ht') ht
  | @after d _ hd hmem =>
    obtain ⟨e, he, hsome⟩ := List.mem_filterMap.mp hd
    obtain ⟨delay, -, rfl⟩ := Option.map_eq_some_iff.mp hsome
    obtain ⟨t', ht', rfl⟩ := List.mem_map.mp hmem
    have hdelay := hafter e he
    rw [delayIssues, List.append_eq_nil_iff, List.flatMap_eq_nil_iff] at hdelay
    exact TransitionDescriptor.target_lookUp (hdelay.1 t' ht') ht
  | @done v _ hv hdone =>
    obtain ⟨i, -, hi, rfl⟩ := exists_of_mem_invocations hinvoke hv
    obtain ⟨r, hr, hlook⟩ := Option.map_eq_some_iff.mp hdone
    rw [InvokeDescriptor.issues, hr, List.append_eq_nil_iff] at hi
    exact Reaction.target_lookUp hi.1 hlook ht
  | @failed v _ hv hfailed =>
    obtain ⟨i, -, hi, rfl⟩ := exists_of_mem_invocations hinvoke hv
    obtain ⟨r, hr, hlook⟩ := Option.map_eq_some_iff.mp hfailed
    rw [InvokeDescriptor.issues, hr, List.append_eq_nil_iff] at hi
    exact Reaction.target_lookUp hi.2 hlook ht

/-- The delays of a compiled state are those of its descriptor, as far as they are
known. -/
theorem StateDescriptor.delays_sublist (key : String) (desc : StateDescriptor κ) :
  ((desc.node b key).after.map Delayed.key).Sublist desc.after.keys
  := by
  rw [OrderedMap.keys, StateDescriptor.node]
  induction desc.after.entries with
  | nil => exact List.Sublist.slnil
  | cons e rest ih =>
    cases hd : Delay.lookUp b e.1 with
    | none =>
      simp only [List.filterMap_cons, hd, Option.map_none, List.map_cons]
      exact ih.cons _
    | some delay =>
      simp only [List.filterMap_cons, hd, Option.map_some, List.map_cons]
      exact ih.cons_cons _

/-- The chart of states without issues is sound. -/
theorem Chart.sound_ofStates
    {owner : String} {region : Option String} {initial : String} {inRegion : Bool}
    (keyed : ∀ e ∈ states.entries, e.2.Keyed)
    (clean : chartIssues b inRegion initial states = []) :
  (Chart.ofStates b owner region initial states).Sound
  := by
  rw [chartIssues, List.append_eq_nil_iff, need_eq_nil_iff, List.flatMap_eq_nil_iff] at clean
  constructor
  · intro key n h
    obtain ⟨desc, -, rfl⟩ := exists_of_get?_ofStates h
    rfl
  · exact exists_get?_ofStates owner region initial clean.1
  · intro key n t target h offers ht
    obtain ⟨desc, hdesc, rfl⟩ := exists_of_get?_ofStates h
    have hmem := OrderedMap.mem_entries_of_get? hdesc
    apply exists_get?_ofStates
    exact StateDescriptor.target_of_offers (clean.2 _ hmem) offers ht
  · intro key n h
    obtain ⟨desc, hdesc, rfl⟩ := exists_of_get?_ofStates h
    have hmem := OrderedMap.mem_entries_of_get? hdesc
    obtain ⟨-, after, -, -⟩ := keyed _ hmem
    exact (StateDescriptor.delays_sublist key desc).nodup after

end

/-! ### Transitions of a sound chart -/

namespace Chart

/-- A snapshot at a state of the chart, with the metadata of the state. -/
def Holds (c : Chart κ) (s : Snapshot κ) : Prop :=
  ∃ key n, c.nodes.get? key = some n ∧ s.value = .leaf key ∧ s.metadata = n.metadata

variable {c : Chart κ} {key : String} {source : Node κ}

theorem node_eq_ok_iff {n : Node κ} :
  c.node key = .ok n ↔ c.nodes.get? key = some n
  := by
  rw [node]
  cases c.nodes.get? key <;> simp

theorem node_eq_error {e : MachineError} (h : c.node key = .error e) :
  c.nodes.get? key = none
  := by
  rw [node] at h
  cases hn : c.nodes.get? key with
  | none => rfl
  | some n => simp [hn] at h

/-- A candidate that is offered has a plan, which leads to a state of the chart. -/
theorem Sound.exists_plan (sound : c.Sound) (h : c.nodes.get? key = some source)
    {t : Candidate κ} (offers : source.Offers t) :
  ∃ p key', c.plan source t = .ok p ∧ c.nodes.get? key' = some (landing source p)
  := by
  cases ht : t.target with
  | none =>
    use ⟨Step.all t.actions source.metadata, none⟩, key
    rw [plan, ht]
    exact ⟨rfl, h⟩
  | some target =>
    obtain ⟨n, hn⟩ := sound.target h offers ht
    use ⟨Step.all source.exit source.metadata ++ Step.all t.actions source.metadata
      ++ Step.all n.entry n.metadata, some n⟩, target
    rw [plan, ht]
    simp only [node_eq_ok_iff.mpr hn, true_and]
    exact hn

/-- A candidate that is offered can be taken. -/
theorem Sound.exists_take (sound : c.Sound) (h : c.nodes.get? key = some source)
    {t : Candidate κ} (offers : source.Offers t) (context : Context) (event : Event) :
  ∃ s, (c.take source t context event).value = .ok s ∧ c.Holds s
  := by
  obtain ⟨p, key', hp, hland⟩ := sound.exists_plan h offers
  use finish source p (Step.run event p.steps context).value
  constructor
  · rw [take, hp]
    rfl
  · use key', landing source p, hland
    constructor
    · rw [finish, sound.key_eq hland]
    · rfl

/-- Among candidates that are offered the first one that passes can be taken. -/
theorem Sound.value_takeFirst (sound : c.Sound) (h : c.nodes.get? key = some source)
    {ts : List (Candidate κ)} (offers : ∀ t ∈ ts, source.Offers t)
    (context : Context) (event : Event) :
  (c.takeFirst source ts context event).value = none
    ∨ ∃ s, (c.takeFirst source ts context event).value = some (.ok s) ∧ c.Holds s
  := by
  rw [takeFirst, Evaluated.value_bind, Candidate.value_select]
  cases hfind : ts.find? fun t => t.passes context event source.metadata with
  | none => exact .inl rfl
  | some t =>
    obtain ⟨s, hs, hold⟩ :=
      sound.exists_take h (offers t (List.mem_of_find?_eq_some hfind)) context event
    right
    use s
    constructor
    · simp only [Evaluated.value_bind, Evaluated.value_pure, hs]
    · exact hold

theorem offers_of_mem_candidates {event : Event} {t : Candidate κ}
    (h : t ∈ candidates source event) :
  source.Offers t
  := by
  rw [candidates] at h
  cases hts : source.on.get? event.kind with
  | none => simp [hts] at h
  | some ts =>
    rw [hts] at h
    exact .on hts h

/-- An event in a state of a sound chart leads to a state of it. -/
theorem Sound.exists_resolve (sound : c.Sound) (h : c.nodes.get? key = some source)
    (context : Context) (event : Event) :
  ∃ s, (c.resolve key context event).value = .ok s ∧ c.Holds s
  := by
  rw [resolve, node_eq_ok_iff.mpr h]
  simp only [Evaluated.value_bind]
  obtain hnone | ⟨s, hs, hold⟩ := sound.value_takeFirst h
    (fun t (ht : t ∈ candidates source event) => offers_of_mem_candidates ht) context event
  · rw [hnone]
    exact ⟨_, rfl, key, source, h, rfl, rfl⟩
  · rw [hs]
    exact ⟨s, rfl, hold⟩

end Chart

/-! ### Transitions of sound regions -/

namespace Regions

/-- The active states of regions, each a state of its region. -/
def Active (keys : List (Chart κ × String)) : Prop :=
  ∀ k ∈ keys, k.1.Sound ∧ ∃ n, k.1.nodes.get? k.2 = some n

/-- The move of a region leads to a state of it. -/
def Moves (k : Chart κ × String) (m : Move κ) : Prop :=
  m.region = k.1.regionKey ∧ ∃ key, k.1.nodes.get? key = some m.target ∧ m.target.key = key

theorem exists_move {r : Chart κ} {key : String} {source : Node κ} (sound : r.Sound)
    (h : r.nodes.get? key = some source) (context : Context) (event : Event) :
  ∃ m, (move r key context event).value = .ok m ∧ Moves (r, key) m
  := by
  rw [move, Chart.node_eq_ok_iff.mpr h]
  simp only [Evaluated.value_bind, Candidate.value_select]
  cases hfind : (Chart.candidates source event).find? fun t =>
      t.passes context event source.metadata with
  | none => exact ⟨_, rfl, rfl, key, h, sound.key_eq h⟩
  | some t =>
    have offers := Chart.offers_of_mem_candidates (List.mem_of_find?_eq_some hfind)
    obtain ⟨p, key', hp, hland⟩ := sound.exists_plan h offers
    simp only [hp]
    exact ⟨_, rfl, rfl, key', hland, sound.key_eq hland⟩

/-- Regions in states of theirs can all move. -/
theorem exists_moves (context : Context) (event : Event) {keys : List (Chart κ × String)}
    (active : Active keys) :
  ∃ ms, (moves context event keys).value = .ok ms
    ∧ ms.map Move.region = keys.map (fun k => k.1.regionKey)
    ∧ ∀ k ∈ keys, ∃ m ∈ ms, Moves k m
  := by
  induction keys with
  | nil => exact ⟨[], rfl, rfl, by simp⟩
  | cons k rest ih =>
    obtain ⟨r, key⟩ := k
    obtain ⟨sound, n, hn⟩ := active (r, key) List.mem_cons_self
    obtain ⟨m, hm, hmoves⟩ := exists_move sound hn context event
    obtain ⟨ms, hms, hregions, hrest⟩ := ih fun k hk => active k (List.mem_cons_of_mem _ hk)
    use m :: ms
    refine ⟨?_, ?_, ?_⟩
    · rw [moves]
      simp only [Evaluated.value_bind, hm, hms, Evaluated.value_pure]
    · rw [List.map_cons, List.map_cons, hregions, hmoves.1]
    · intro k hk
      obtain rfl | hk := List.mem_cons.mp hk
      · exact ⟨m, List.mem_cons_self, hmoves⟩
      · obtain ⟨m', hm', h⟩ := hrest k hk
        exact ⟨m', List.mem_cons_of_mem _ hm', h⟩

/-- The first region that is not in a state of it is the one that cannot move. -/
theorem moves_eq_error (context : Context) (event : Event) {keys : List (Chart κ × String)}
    (sound : ∀ k ∈ keys, k.1.Sound) {e : MachineError} (h : checkStates keys = .error e) :
  (moves context event keys).value = .error e
  := by
  induction keys with
  | nil => simp [checkStates] at h
  | cons k rest ih =>
    obtain ⟨r, key⟩ := k
    rw [checkStates] at h
    rw [moves]
    cases hn : r.node key with
    | error e' =>
      rw [hn] at h
      have hmove : (move r key context event).value = .error e' := by
        rw [move, hn]
        rfl
      obtain rfl : e' = e := by simpa using h
      simp only [Evaluated.value_bind, hmove, Evaluated.value_pure]
    | ok n =>
      rw [hn] at h
      obtain ⟨m, hm, -⟩ := exists_move (sound (r, key) List.mem_cons_self)
        (Chart.node_eq_ok_iff.mp hn) context event
      have hrest := ih (fun k hk => sound k (List.mem_cons_of_mem _ hk)) h
      simp only [Evaluated.value_bind, hm, hrest, Evaluated.value_pure]

theorem checkStates_eq_ok_iff {keys : List (Chart κ × String)} :
  checkStates keys = .ok () ↔ ∀ k ∈ keys, ∃ n, k.1.nodes.get? k.2 = some n
  := by
  induction keys with
  | nil => simp [checkStates]
  | cons k rest ih =>
    obtain ⟨r, key⟩ := k
    rw [checkStates, List.forall_mem_cons]
    cases hn : r.node key with
    | error e => simp [Chart.node_eq_error hn]
    | ok n => simpa [Chart.node_eq_ok_iff.mp hn] using ih

/-! ### Values with one entry for each region -/

theorem activeKeys_eq_ok_iff {machine : String} {parts : OrderedMap StateValue}
    {regions : List (Chart κ)} {keys : List (Chart κ × String)} :
  activeKeys machine parts regions = .ok keys
    ↔ keys.map Prod.fst = regions
      ∧ ∀ k ∈ keys, parts.get? k.1.regionKey = some (.leaf k.2)
  := by
  induction regions generalizing keys with
  | nil =>
    rw [activeKeys, List.map_eq_nil_iff, Except.ok.injEq]
    constructor
    · rintro rfl
      simp
    · rintro ⟨rfl, -⟩
      rfl
  | cons r rest ih =>
    rw [activeKeys]
    cases hpart : (parts.get? r.regionKey).bind StateValue.leaf? with
    | none =>
      simp only [reduceCtorEq, false_iff]
      rintro ⟨hmap, h⟩
      obtain ⟨k, keys', rfl, rfl, -⟩ := List.map_eq_cons_iff.mp hmap
      rw [h k List.mem_cons_self] at hpart
      cases hpart
    | some key =>
      obtain ⟨value, hvalue, hleaf⟩ := Option.bind_eq_some_iff.mp hpart
      obtain rfl : value = .leaf key := by
        cases value <;> simp_all [StateValue.leaf?]
      cases hrest : activeKeys machine parts rest with
      | error e =>
        simp only [reduceCtorEq, false_iff]
        rintro ⟨hmap, h⟩
        obtain ⟨k, keys', rfl, -, hkeys⟩ := List.map_eq_cons_iff.mp hmap
        have hok := ih.mpr ⟨hkeys, fun k hk => h k (List.mem_cons_of_mem _ hk)⟩
        rw [hrest] at hok
        cases hok
      | ok keys' =>
        simp only [Except.ok.injEq]
        obtain ⟨hmap, h⟩ := ih.mp hrest
        constructor
        · rintro rfl
          refine ⟨by rw [List.map_cons, hmap], ?_⟩
          exact List.forall_mem_cons.mpr ⟨hvalue, h⟩
        · rintro ⟨hmap', h'⟩
          obtain ⟨k, keys'', rfl, rfl, hkeys⟩ := List.map_eq_cons_iff.mp hmap'
          have hok := ih.mpr ⟨hkeys, fun k hk => h' k (List.mem_cons_of_mem _ hk)⟩
          obtain rfl : keys' = keys'' := by simpa [hrest] using hok
          have hkey := h' k List.mem_cons_self
          obtain rfl : key = k.2 := by simpa [hvalue] using hkey
          rfl

section

variable {machine : String} {regions : List (Chart κ)}

theorem map_fst_of_active {value : StateValue} {keys : List (Chart κ × String)}
    (h : active machine regions value = .ok keys) :
  keys.map Prod.fst = regions
  := by
  cases value with
  | leaf key => simp [active] at h
  | regions parts =>
    rw [active] at h
    split at h
    · exact (activeKeys_eq_ok_iff.mp h).1
    · cases h

/-- The values that fit regions are those in which every region is in a state of it. -/
theorem fits_iff (machine : String) (distinct : (regions.map Chart.regionKey).Nodup)
    {value : StateValue} :
  (Topology.parallel regions).Fits value
    ↔ ∃ keys, active machine regions value = .ok keys ∧ checkStates keys = .ok ()
  := by
  constructor
  · rintro ⟨parts, rfl, perm, h⟩
    have size : parts.size = regions.length := by
      simpa [OrderedMap.keys, OrderedMap.size] using perm.length_eq
    choose! key h' using h
    have hkeys : activeKeys machine parts regions
        = .ok (regions.map fun r => (r, key r)) := by
      apply activeKeys_eq_ok_iff.mpr
      constructor
      · rw [List.map_map]
        exact List.map_id regions
      · intro k hk
        obtain ⟨r, hr, rfl⟩ := List.mem_map.mp hk
        obtain ⟨n, hpart, -⟩ := h' r hr
        exact hpart
    use regions.map fun r => (r, key r)
    constructor
    · rw [active, if_pos size, hkeys]
    · apply checkStates_eq_ok_iff.mpr
      intro k hk
      obtain ⟨r, hr, rfl⟩ := List.mem_map.mp hk
      obtain ⟨n, -, hn⟩ := h' r hr
      exact ⟨n, hn⟩
  · rintro ⟨keys, hactive, hcheck⟩
    cases value with
    | leaf key => simp [active] at hactive
    | regions parts =>
      by_cases size : parts.size = regions.length
      · rw [active, if_pos size] at hactive
        obtain ⟨hmap, hparts⟩ := activeKeys_eq_ok_iff.mp hactive
        have hstates := checkStates_eq_ok_iff.mp hcheck
        have hregions : ∀ r ∈ regions, ∃ key n,
            parts.get? r.regionKey = some (.leaf key) ∧ r.nodes.get? key = some n := by
          intro r hr
          rw [← hmap] at hr
          obtain ⟨k, hk, rfl⟩ := List.mem_map.mp hr
          obtain ⟨n, hn⟩ := hstates k hk
          exact ⟨k.2, n, hparts k hk, hn⟩
        use parts, rfl
        constructor
        · -- As many keys as regions, and every region is among them.
          symm
          apply (distinct.subperm _).perm_of_length_le
          · simpa [OrderedMap.keys, OrderedMap.size] using Nat.le_of_eq size
          · intro key hkey
            obtain ⟨r, hr, rfl⟩ := List.mem_map.mp hkey
            obtain ⟨key, n, hpart, -⟩ := hregions r hr
            by_contra hnot
            rw [(parts.get?_eq_none_iff _).mpr hnot] at hpart
            cases hpart
        · exact hregions
      · simp [active, size] at hactive

/-- After the moves of all regions every region is in a state of it. -/
theorem fits_nextValue (distinct : (regions.map Chart.regionKey).Nodup)
    {keys : List (Chart κ × String)} (hkeys : keys.map Prod.fst = regions)
    {ms : List (Move κ)} (hregions : ms.map Move.region = keys.map (fun k => k.1.regionKey))
    (hmoves : ∀ k ∈ keys, ∃ m ∈ ms, Moves k m) :
  (Topology.parallel regions).Fits (nextValue ms)
  := by
  let parts := ms.map fun m => (m.region, StateValue.leaf m.target.key)
  have hfst : parts.map Prod.fst = regions.map Chart.regionKey := by
    rw [← hkeys, List.map_map, List.map_map]
    exact hregions
  have hnodup : (parts.map Prod.fst).Nodup := hfst ▸ distinct
  have hentries : (OrderedMap.ofList parts).entries = parts := OrderedMap.entries_ofList hnodup
  use .ofList parts, rfl
  constructor
  · rw [OrderedMap.keys, hentries, hfst]
  · intro r hr
    rw [← hkeys] at hr
    obtain ⟨k, hk, rfl⟩ := List.mem_map.mp hr
    obtain ⟨m, hm, hregion, key, hnode, hkey⟩ := hmoves k hk
    use key, m.target
    constructor
    · rw [OrderedMap.get?, hentries, ← hregion, ← hkey]
      exact OrderedMap.find?_eq_some_of_mem hnodup (List.mem_map.mpr ⟨m, hm, rfl⟩)
    · exact hnode

/-- An event at a value that fits sound regions leads to a value that fits. -/
theorem exists_resolve (sound : (Topology.parallel regions).Sound) {value : StateValue}
    (fits : (Topology.parallel regions).Fits value) (metadata : Option Meta)
    (context : Context) (event : Event) :
  ∃ s, (resolve machine regions metadata value context event).value = .ok s
    ∧ (Topology.parallel regions).Fits s.value ∧ s.metadata = metadata
  := by
  obtain ⟨keys, hactive, hcheck⟩ := (fits_iff machine sound.2).mp fits
  have hkeys := map_fst_of_active hactive
  have hstates : Active keys := by
    intro k hk
    exact ⟨sound.1 _ (hkeys ▸ List.mem_map_of_mem hk), checkStates_eq_ok_iff.mp hcheck k hk⟩
  obtain ⟨ms, hms, hregions, hmoves⟩ := exists_moves context event hstates
  rw [resolve, hactive]
  simp only [Evaluated.value_bind, hms]
  split
  · exact ⟨_, rfl, fits, rfl⟩
  · exact ⟨_, rfl, fits_nextValue sound.2 hkeys hregions hmoves, rfl⟩

end

end Regions

/-! ### Sound machines -/

namespace Machine

variable {m : Machine κ}

/-- The values at which a sound machine can rest are those that fit. -/
theorem Sound.metadataAt_eq_ok_iff (sound : m.Sound) {value : StateValue}
    {metadata : Option Meta} :
  m.metadataAt value = .ok metadata ↔ m.topology.Fits value ∧ m.Labels value metadata
  := by
  have htopology := sound.topology
  rw [metadataAt, Labels]
  cases ht : m.topology with
  | flat chart =>
    cases value with
    | regions parts => simp [leaf, Topology.Fits]
    | leaf key =>
      cases hn : chart.nodes.get? key with
      | none => simp [leaf, Topology.Fits, Chart.node, hn]
      | some n => simp [leaf, Topology.Fits, Chart.node, hn, eq_comm]
  | parallel regions =>
    rw [ht] at htopology
    simp only
    rw [Regions.fits_iff m.name htopology.2]
    cases hactive : Regions.active m.name regions value with
    | error e => simp
    | ok keys =>
      cases hcheck : Regions.checkStates keys with
      | error e => simp [hcheck]
      | ok u => simp [hcheck, eq_comm]

/-- On a sound machine an event leads from a value that fits to a value that fits. -/
theorem Sound.exists_transition (sound : m.Sound) {value : StateValue}
    (fits : m.topology.Fits value) (context : Context) (event : Event) :
  ∃ s, (m.transition value context event).value = .ok s
    ∧ m.topology.Fits s.value ∧ m.Labels s.value s.metadata
  := by
  have htopology := sound.topology
  simp only [transition, Labels]
  cases ht : m.topology with
  | flat chart =>
    rw [ht] at htopology fits
    obtain ⟨key, n, rfl, hn⟩ := fits
    obtain ⟨s, hs, key', n', hn', hvalue, hmetadata⟩ :=
      Chart.Sound.exists_resolve htopology hn context event
    exact ⟨s, hs, ⟨key', n', hvalue, hn'⟩, key', n', hvalue, hn', hmetadata⟩
  | parallel regions =>
    rw [ht] at htopology fits
    exact Regions.exists_resolve htopology fits m.metadata context event

/-- A value at which a sound machine cannot rest is rejected by transitions with the
same error. -/
theorem Sound.transition_eq_error (sound : m.Sound) {value : StateValue} {e : MachineError}
    (h : m.metadataAt value = .error e) (context : Context) (event : Event) :
  (m.transition value context event).value = .error e
  := by
  have htopology := sound.topology
  rw [metadataAt] at h
  rw [transition]
  cases ht : m.topology with
  | flat chart =>
    simp only [ht] at h ⊢
    cases hleaf : m.leaf value with
    | error e' =>
      obtain rfl : e' = e := by simpa [hleaf] using h
      rfl
    | ok key =>
      cases hn : chart.node key with
      | error e' =>
        obtain rfl : e' = e := by simpa [hleaf, hn] using h
        simp only [Chart.resolve, hn, Evaluated.value_pure]
      | ok n => simp [hleaf, hn] at h
  | parallel regions =>
    rw [ht] at htopology
    simp only [ht] at h ⊢
    rw [Regions.resolve]
    cases hactive : Regions.active m.name regions value with
    | error e' =>
      obtain rfl : e' = e := by simpa [hactive] using h
      rfl
    | ok keys =>
      cases hcheck : Regions.checkStates keys with
      | ok u => simp [hactive, hcheck] at h
      | error e' =>
        obtain rfl : e' = e := by simpa [hactive, hcheck] using h
        have hsound : ∀ k ∈ keys, k.1.Sound := by
          intro k hk
          have hmap := Regions.map_fst_of_active hactive
          exact htopology.1 _ (hmap ▸ List.mem_map_of_mem hk)
        have hmoves := Regions.moves_eq_error context event hsound hcheck
        simp only [Evaluated.value_bind, hmoves, Evaluated.value_pure]

/-! ### Delays and reactions -/

/-- The snapshot that may be found, if one is, has a value that fits. -/
def Finds (m : Machine κ) (found : Except MachineError (Option (Snapshot κ))) : Prop :=
  ∃ o, found = .ok o ∧ ∀ s ∈ o, m.topology.Fits s.value ∧ m.Labels s.value s.metadata

theorem finds_of_holds {chart : Chart κ} (ht : m.topology = .flat chart) {s : Snapshot κ}
    (hold : chart.Holds s) :
  m.topology.Fits s.value ∧ m.Labels s.value s.metadata
  := by
  obtain ⟨key, n, hn, hvalue, hmetadata⟩ := hold
  simp only [Labels, ht]
  exact ⟨⟨key, n, hvalue, hn⟩, key, n, hvalue, hn, hmetadata⟩

/-- A delay of the active state is resolved without error. -/
theorem Sound.finds_fireAfter (sound : m.Sound) {state : String}
    (fits : m.topology.Fits (.leaf state)) (key : String) (context : Context)
    (event : Event) :
  m.Finds (m.fireAfter state key context event).value
  := by
  have htopology := sound.topology
  rw [fireAfter]
  cases ht : m.topology with
  | parallel regions => exact ⟨none, rfl, by simp⟩
  | flat chart =>
    rw [ht] at htopology fits
    obtain ⟨_, n, ⟨⟩, hn⟩ := fits
    simp only [Chart.node_eq_ok_iff.mpr hn]
    cases hd : n.after? key with
    | none => exact ⟨none, rfl, by simp⟩
    | some d =>
      have offers : ∀ t ∈ d.candidates, n.Offers t := by
        intro t htd
        exact .after (List.mem_of_find?_eq_some hd) htd
      simp only [Evaluated.value_bind]
      obtain hnone | ⟨s, hs, hold⟩ :=
        Chart.Sound.value_takeFirst htopology hn offers context event
      · rw [hnone]
        exact ⟨none, rfl, by simp⟩
      · rw [hs]
        refine ⟨some s, rfl, ?_⟩
        rintro _ ⟨⟩
        exact finds_of_holds ht hold

/-- A reaction of the active state is resolved without error. -/
theorem Sound.finds_react (sound : m.Sound) {chart : Chart κ} (ht : m.topology = .flat chart)
    {state : String} {n : Node κ} (hn : chart.nodes.get? state = some n) {t : Candidate κ}
    (offers : n.Offers t) (context : Context) (event : Event) :
  m.Finds (m.react state t context event).value
  := by
  have htopology := sound.topology
  rw [ht] at htopology
  simp only [react, ht, Chart.node_eq_ok_iff.mpr hn, Evaluated.value_bind,
    Candidate.value_allows]
  split
  · obtain ⟨s, hs, hold⟩ := Chart.Sound.exists_take htopology hn offers context event
    simp only [Evaluated.value_bind, hs]
    refine ⟨some s, rfl, ?_⟩
    rintro _ ⟨⟩
    exact finds_of_holds ht hold
  · exact ⟨none, rfl, by simp⟩

end Machine

/-! ### Compilation -/

/-- The region keys of compiled regions are keys of the descriptor. -/
theorem Chart.regionKeys_sublist (b : Bundle κ) (name : String)
    (entries : List (String × StateDescriptor κ)) :
  ((entries.filterMap fun e => Chart.ofRegion b name e.1 e.2).map Chart.regionKey).Sublist
    (entries.map Prod.fst)
  := by
  induction entries with
  | nil => exact List.Sublist.slnil
  | cons e rest ih =>
    cases hi : e.2.initial with
    | none =>
      simp only [List.filterMap_cons, Chart.ofRegion, hi, Option.map_none, List.map_cons]
      exact ih.cons _
    | some initial =>
      simp only [List.filterMap_cons, Chart.ofRegion, hi, Option.map_some, List.map_cons]
      exact ih.cons_cons _

/-- The charts of a descriptor without issues are sound. -/
theorem MachineDescriptor.sound_topology {d : MachineDescriptor κ} {b : Bundle κ}
    (keyed : d.Keyed) (clean : d.issues b = []) {t : Topology κ} (h : d.topology b = .ok t) :
  t.Sound
  := by
  rw [topology] at h
  rw [issues] at clean
  cases hp : d.isParallel with
  | true =>
    rw [hp, if_pos rfl, List.flatMap_eq_nil_iff] at clean
    obtain rfl : Topology.parallel _ = t := by simpa [hp] using h
    constructor
    · intro r hr
      obtain ⟨e, he, hregion⟩ := List.mem_filterMap.mp hr
      obtain ⟨initial, hinitial, rfl⟩ := Option.map_eq_some_iff.mp hregion
      have hclean := clean e he
      rw [regionIssues, hinitial, List.append_eq_nil_iff] at hclean
      obtain ⟨-, -, -, below⟩ := keyed.below e he
      exact Chart.sound_ofStates below hclean.2
    · exact (Chart.regionKeys_sublist b _ d.states.entries).nodup keyed.states
  | false =>
    cases hi : d.initial with
    | none => simp [hp, hi] at h
    | some initial =>
      obtain rfl : Topology.flat _ = t := by simpa [hp, hi] using h
      simp only [hp, hi] at clean
      exact Chart.sound_ofStates keyed.below clean

theorem Regions.initialNodes_eq_ok {regions : List (Chart κ)} {ns : List (String × Node κ)}
    (h : initialNodes regions = .ok ns) :
  ns.map Prod.fst = regions.map Chart.regionKey
    ∧ ∀ r ∈ regions, ∃ n, r.nodes.get? r.initial = some n ∧ (r.regionKey, n) ∈ ns
  := by
  induction regions generalizing ns with
  | nil =>
    obtain rfl : [] = ns := by simpa [initialNodes] using h
    simp
  | cons r rest ih =>
    rw [initialNodes] at h
    cases hn : r.node r.initial with
    | error e => simp [hn] at h
    | ok n =>
      cases hrest : initialNodes rest with
      | error e => simp [hn, hrest] at h
      | ok ns' =>
        obtain rfl : (r.regionKey, n) :: ns' = ns := by simpa [hn, hrest] using h
        obtain ⟨hmap, hnodes⟩ := ih hrest
        constructor
        · rw [List.map_cons, List.map_cons, hmap]
        · intro r' hr'
          obtain rfl | hr' := List.mem_cons.mp hr'
          · exact ⟨n, Chart.node_eq_ok_iff.mp hn, List.mem_cons_self⟩
          · obtain ⟨n', hn', hmem⟩ := hnodes r' hr'
            exact ⟨n', hn', List.mem_cons_of_mem _ hmem⟩

/-- Entering the initial states of sound charts gives a value that fits. -/
theorem Topology.Sound.fits_entry {t : Topology κ} (sound : t.Sound) {metadata : Option Meta}
    {entered : StateValue × List (Step κ) × Option Meta} (h : t.entry metadata = .ok entered) :
  t.Fits entered.1
  := by
  cases t with
  | flat chart =>
    rw [entry] at h
    cases hn : chart.node chart.initial with
    | error e => simp [hn] at h
    | ok n =>
      simp only [hn, Except.ok.injEq] at h
      subst h
      have hget := Chart.node_eq_ok_iff.mp hn
      exact ⟨chart.initial, n, by rw [Chart.Sound.key_eq sound hget], hget⟩
  | parallel regions =>
    rw [entry] at h
    cases hns : Regions.initialNodes regions with
    | error e => simp [hns] at h
    | ok ns =>
      simp only [hns, Except.ok.injEq] at h
      subst h
      obtain ⟨hmap, hnodes⟩ := Regions.initialNodes_eq_ok hns
      have hfst : (ns.map fun n => (n.1, StateValue.leaf n.2.key)).map Prod.fst
          = regions.map Chart.regionKey := by
        rw [List.map_map]
        exact hmap
      have hnodup := hfst ▸ sound.2
      have hentries := OrderedMap.entries_ofList hnodup
      use .ofList (ns.map fun n => (n.1, .leaf n.2.key)), rfl
      constructor
      · rw [OrderedMap.keys, hentries, hfst]
      · intro r hr
        obtain ⟨n, hn, hmem⟩ := hnodes r hr
        use r.initial, n
        constructor
        · rw [OrderedMap.get?, hentries]
          apply OrderedMap.find?_eq_some_of_mem hnodup
          rw [← (sound.1 r hr).key_eq hn]
          exact List.mem_map.mpr ⟨_, hmem, rfl⟩
        · exact hn

/-- What a successful compilation went through. -/
theorem Machine.exists_of_compile {d : MachineDescriptor κ} {b : Bundle κ} {m : Machine κ}
    (h : (Machine.compile d b).value = .ok m) :
  d.issues b = []
    ∧ ∃ topology initial, d.topology b = .ok topology
        ∧ (topology.initial d.metadata d.context).value = .ok initial
        ∧ m = ⟨d.id, d.metadata, d.context, topology, initial, b.services⟩
  := by
  rw [compile] at h
  cases ht : d.topology b with
  | error e => simp [ht] at h
  | ok topology =>
    by_cases clean : d.issues b = []
    · simp only [ht, clean, ne_eq, not_true_eq_false, if_false, Evaluated.value_bind] at h
      cases hi : (topology.initial d.metadata d.context).value with
      | error e => simp [hi] at h
      | ok initial =>
        simp only [hi, Evaluated.value_pure, Except.ok.injEq] at h
        exact ⟨clean, topology, initial, rfl, hi, h.symm⟩
    · simp [ht, clean] at h

/-- Compilation gives sound machines. -/
theorem Machine.sound_of_compile {d : MachineDescriptor κ} {b : Bundle κ} {m : Machine κ}
    (keyed : d.Keyed) (h : (Machine.compile d b).value = .ok m) :
  m.Sound
  := by
  obtain ⟨clean, topology, initial, ht, hi, rfl⟩ := exists_of_compile h
  have sound := MachineDescriptor.sound_topology keyed clean ht
  rw [Topology.initial] at hi
  cases he : topology.entry d.metadata with
  | error e => simp [he] at hi
  | ok entered =>
    simp only [he, Evaluated.value_bind, Evaluated.value_pure, Except.ok.injEq] at hi
    subst hi
    exact ⟨sound, sound.fits_entry he⟩

theorem Machine.IsCompiled.sound {m : Machine κ} (h : m.IsCompiled) :
  m.Sound
  := by
  obtain ⟨d, b, keyed, hm⟩ := h
  exact sound_of_compile keyed hm

end Statechart
