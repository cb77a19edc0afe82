import Statechart.Proofs.Soundness

/-!
# Regions together

On an event every region of a machine goes where its chart by itself would go, from the
context before the event.  The effects of the regions are put one after another in the
order of the regions, and so are their assigns, each of which reads what those before it
have written.
-/

namespace Statechart

variable {κ : Type}

/-! ### One region -/

namespace Chart

/-- The steps of the transition that a state selects on an event: of the first candidate
whose guard passes, if there is one. -/
def selected (c : Chart κ) (key : String) (context : Context) (event : Event) :
    Option (List (Step κ)) :=
  match c.nodes.get? key with
  | none => none
  | some source =>
    match (candidates source event).find? fun t => t.passes context event source.metadata with
    | none => none
    | some t =>
      match c.plan source t with
      | .ok p => some p.steps
      | .error _ => none

end Chart

namespace Regions

/-- A region in one of its states, and what its chart by itself makes of an event there. -/
structure Response (κ : Type) where
  chart : Chart κ
  key : String
  selected : Option (List (Step κ))
  snapshot : Snapshot κ

namespace Response

/-- The steps of a region, none if it selects no transition. -/
def steps (a : Response κ) : List (Step κ) := a.selected.getD []

end Response

/-- The response is the one that the chart gives in a context: the steps are those that the
state selects, and the snapshot is the one that its resolution gives, with what running
these steps gives in that context. -/
structure Answers (context : Context) (event : Event) (a : Response κ) : Prop where
  selected : a.selected = a.chart.selected a.key context event
  resolve : (a.chart.resolve a.key context event).value = .ok a.snapshot
  actions : a.snapshot.actions = (Step.run event a.steps context).value.actions
  context : a.snapshot.context = (Step.run event a.steps context).value.context

/-- A move of a region goes where the response goes. -/
structure Agrees (a : Response κ) (m : Move κ) : Prop where
  region : m.region = a.chart.regionKey
  source : m.source.key = a.key
  target : a.snapshot.value = .leaf m.target.key
  selected : m.plan.map Plan.steps = a.selected

namespace Agrees

variable {a : Response κ} {m : Move κ}

theorem steps_eq (h : Agrees a m) :
  m.steps = a.steps
  := by
  rw [Response.steps, ← h.selected, Move.steps]
  cases m.plan <;> rfl

theorem isNone_iff (h : Agrees a m) :
  m.plan.isNone = true ↔ a.selected = none
  := by
  rw [← h.selected, Option.isNone_iff_eq_none, Option.map_eq_none_iff]

/-- A region goes to another state exactly if the value of its chart becomes another. -/
theorem leaves_iff (h : Agrees a m) :
  m.leaves = true ↔ a.snapshot.value ≠ .leaf a.key
  := by
  rw [Move.leaves, h.source, h.target]
  simp

/-- A region that selects no transition keeps its value. -/
theorem value_eq_of_none (h : Agrees a m) (hnone : a.selected = none) :
  a.snapshot.value = .leaf a.key
  := by
  have hplan : m.plan = none := Option.isNone_iff_eq_none.mp (h.isNone_iff.mpr hnone)
  rw [h.target, ← h.source, Move.target, hplan]
  rfl

end Agrees

/-- A region in a state of it moves as its chart resolves the event by itself. -/
theorem exists_answers {r : Chart κ} {key : String} {source : Node κ} (sound : r.Sound)
    (h : r.nodes.get? key = some source) (context : Context) (event : Event) :
  ∃ a m, a.chart = r ∧ a.key = key ∧ Answers context event a
    ∧ (move r key context event).value = .ok m ∧ Agrees a m
  := by
  have hnode := Chart.node_eq_ok_iff.mpr h
  have hkey := sound.key_eq h
  cases hfind : (Chart.candidates source event).find? fun t =>
      t.passes context event source.metadata with
  | none =>
    refine ⟨⟨r, key, none, .resting (.leaf key) context source.metadata⟩,
      ⟨r.regionKey, source, none⟩, rfl, rfl, ?_, ?_, ?_⟩
    · constructor
      · simp [Chart.selected, h, hfind]
      · simp [Chart.resolve, Chart.takeFirst, hnode, Candidate.value_select, hfind]
      · rfl
      · rfl
    · simp [move, hnode, Candidate.value_select, hfind]
    · exact ⟨rfl, hkey, by rw [hkey.symm]; rfl, rfl⟩
  | some t =>
    have offers := Chart.offers_of_mem_candidates (List.mem_of_find?_eq_some hfind)
    obtain ⟨p, -, hp, -⟩ := sound.exists_plan h offers
    refine ⟨⟨r, key, some p.steps,
        Chart.finish source p (Step.run event p.steps context).value⟩,
      ⟨r.regionKey, source, some p⟩, rfl, rfl, ?_, ?_, ?_⟩
    · constructor
      · simp [Chart.selected, h, hfind, hp]
      · simp [Chart.resolve, Chart.takeFirst, Chart.take, hnode, Candidate.value_select, hfind,
          hp]
      · rfl
      · rfl
    · simp [move, hnode, Candidate.value_select, hfind, hp]
    · exact ⟨rfl, hkey, rfl, rfl⟩

/-! ### All regions -/

/-- Regions in states of theirs move as their charts resolve the event by themselves. -/
theorem exists_responses (context : Context) (event : Event) {keys : List (Chart κ × String)}
    (active : Active keys) :
  ∃ as ms, as.map (fun a => (a.chart, a.key)) = keys ∧ (∀ a ∈ as, Answers context event a)
    ∧ (moves context event keys).value = .ok ms ∧ List.Forall₂ Agrees as ms
  := by
  induction keys with
  | nil => exact ⟨[], [], rfl, by simp, rfl, .nil⟩
  | cons k rest ih =>
    obtain ⟨r, key⟩ := k
    obtain ⟨sound, source, hsource⟩ := active _ List.mem_cons_self
    obtain ⟨a, m, rfl, rfl, ha, hm, hagrees⟩ := exists_answers sound hsource context event
    obtain ⟨as, ms, has, hanswers, hms, hall⟩ :=
      ih fun k hk => active k (List.mem_cons_of_mem _ hk)
    refine ⟨a :: as, m :: ms, ?_, ?_, ?_, .cons hagrees hall⟩
    · rw [List.map_cons, has]
    · exact List.forall_mem_cons.mpr ⟨ha, hanswers⟩
    · rw [moves]
      simp only [Evaluated.value_bind, hm, hms, Evaluated.value_pure]

section

variable {as : List (Response κ)} {ms : List (Move κ)}

theorem flatMap_steps_eq (h : List.Forall₂ Agrees as ms) :
  ms.flatMap Move.steps = as.flatMap Response.steps
  := by
  induction h with
  | nil => rfl
  | cons hagrees _ ih => rw [List.flatMap_cons, List.flatMap_cons, hagrees.steps_eq, ih]

theorem all_isNone_iff (h : List.Forall₂ Agrees as ms) :
  (ms.all fun m => m.plan.isNone) = true ↔ ∀ a ∈ as, a.selected = none
  := by
  induction h with
  | nil => simp
  | cons hagrees _ ih =>
    rw [List.all_cons, Bool.and_eq_true, hagrees.isNone_iff, ih, List.forall_mem_cons]

theorem any_leaves_iff (h : List.Forall₂ Agrees as ms) :
  ms.any Move.leaves = true ↔ ∃ a ∈ as, a.snapshot.value ≠ .leaf a.key
  := by
  induction h with
  | nil => simp
  | cons hagrees _ ih =>
    rw [List.any_cons, Bool.or_eq_true, hagrees.leaves_iff, ih, List.exists_mem_cons_iff]

theorem values_eq_of_none (h : List.Forall₂ Agrees as ms) (hnone : ∀ a ∈ as, a.selected = none) :
  ∀ a ∈ as, a.snapshot.value = .leaf a.key
  := by
  induction h with
  | nil => simp
  | cons hagrees _ ih =>
    rw [List.forall_mem_cons] at hnone
    exact List.forall_mem_cons.mpr ⟨hagrees.value_eq_of_none hnone.1, ih hnone.2⟩

theorem nextValue_eq (h : List.Forall₂ Agrees as ms) :
  nextValue ms = .ofParts (as.map fun a => (a.chart.regionKey, a.snapshot.value))
  := by
  have hparts : (ms.map fun m => (m.region, StateValue.leaf m.target.key))
      = as.map fun a => (a.chart.regionKey, a.snapshot.value) := by
    induction h with
    | nil => rfl
    | cons hagrees _ ih =>
      rw [List.map_cons, List.map_cons, ih, hagrees.region, hagrees.target]
  rw [nextValue, hparts]

end

/-- The context after the steps of regions, one region after another. -/
def thread (event : Event) (as : List (Response κ)) (context : Context) : Context :=
  as.foldl (fun context a => (Step.run event a.steps context).value.context) context

theorem context_run_flatMap (event : Event) (as : List (Response κ)) (context : Context) :
  (Step.run event (as.flatMap Response.steps) context).value.context = thread event as context
  := by
  induction as generalizing context with
  | nil => rfl
  | cons a rest ih =>
    rw [List.flatMap_cons, Step.context_run_append, ih]
    rfl

/-- The effects of all regions are those of each region, in order. -/
theorem actions_run_flatMap {context : Context} {event : Event} {as : List (Response κ)}
    (h : ∀ a ∈ as, Answers context event a) (context' : Context) :
  (Step.run event (as.flatMap Response.steps) context').value.actions
    = as.flatMap fun a => a.snapshot.actions
  := by
  rw [Step.actions_run, List.filterMap_flatMap]
  apply List.flatMap_congr
  intro a ha
  rw [(h a ha).actions, Step.actions_run]

/-- An active state is found in the value under the key of its region. -/
theorem region?_of_active {machine : String} {regions : List (Chart κ)} {value : StateValue}
    {keys : List (Chart κ × String)} (h : active machine regions value = .ok keys)
    {r : Chart κ} {key : String} (hmem : (r, key) ∈ keys) :
  value.region? r.regionKey = some (.leaf key)
  := by
  cases value with
  | leaf key' => simp [active] at h
  | regions parts =>
    rw [active] at h
    split at h
    · exact (activeKeys_eq_ok_iff.mp h).2 _ hmem
    · cases h

/-- A part of a value is found under the key of its region. -/
theorem region?_ofParts {as : List (Response κ)}
    (distinct : (as.map fun a => a.chart.regionKey).Nodup) {a : Response κ} (ha : a ∈ as) :
  (StateValue.ofParts (as.map fun a => (a.chart.regionKey, a.snapshot.value))).region?
      a.chart.regionKey
    = some a.snapshot.value
  := by
  have hfst : (as.map fun a => (a.chart.regionKey, a.snapshot.value)).map Prod.fst
      = as.map fun a => a.chart.regionKey := List.map_map
  rw [StateValue.ofParts, StateValue.region?, OrderedMap.get?,
    OrderedMap.entries_ofList (hfst ▸ distinct)]
  exact OrderedMap.find?_eq_some_of_mem (hfst ▸ distinct) (List.mem_map.mpr ⟨a, ha, rfl⟩)

/-- A snapshot puts together what the regions make of an event at a value in a context. -/
structure Composes (value : StateValue) (context : Context) (event : Event)
    (as : List (Response κ)) (s : Snapshot κ) : Prop where
  region : ∀ a ∈ as, s.value.region? a.chart.regionKey = some a.snapshot.value
  actions : s.actions = as.flatMap fun a => a.snapshot.actions
  threads : s.context = thread event as context
  changed : s.changed = true ↔ ∃ a ∈ as, a.snapshot.value ≠ .leaf a.key
  resting : (∀ a ∈ as, a.selected = none) → s.value = value ∧ s.context = context

section

variable {value : StateValue} {context : Context} {event : Event} {as : List (Response κ)}
  {ms : List (Move κ)}

/-- If no region selects a transition the resting snapshot puts them together. -/
theorem composes_resting (hanswers : ∀ a ∈ as, Answers context event a)
    (hall : List.Forall₂ Agrees as ms)
    (hvalue : ∀ a ∈ as, value.region? a.chart.regionKey = some (.leaf a.key))
    (hnone : ∀ a ∈ as, a.selected = none) (metadata : Option Meta) :
  Composes value context event as (.resting value context metadata)
  := by
  have hsteps : as.flatMap Response.steps = [] := by
    apply List.flatMap_eq_nil_iff.mpr
    intro a ha
    rw [Response.steps, hnone a ha]
    rfl
  have hkey := values_eq_of_none hall hnone
  constructor
  · intro a ha
    rw [hkey a ha]
    exact hvalue a ha
  · rw [← actions_run_flatMap hanswers context, hsteps]
    rfl
  · rw [← context_run_flatMap, hsteps]
    rfl
  · constructor
    · intro h
      cases h
    · rintro ⟨a, ha, hne⟩
      exact absurd (hkey a ha) hne
  · intro _
    exact ⟨rfl, rfl⟩

/-- If a region selects a transition the snapshot with the values after all moves puts them
together. -/
theorem composes_next (hanswers : ∀ a ∈ as, Answers context event a)
    (hall : List.Forall₂ Agrees as ms)
    (distinct : (as.map fun a => a.chart.regionKey).Nodup)
    (hsome : ¬∀ a ∈ as, a.selected = none) (metadata : Option Meta) :
  Composes value context event as
    { value := nextValue ms
      context := (Step.run event (ms.flatMap Move.steps) context).value.context
      metadata := metadata
      actions := (Step.run event (ms.flatMap Move.steps) context).value.actions
      changed := ms.any Move.leaves
      assigned := (Step.run event (ms.flatMap Move.steps) context).value.assigned }
  := by
  constructor
  · intro a ha
    rw [nextValue_eq hall]
    exact region?_ofParts distinct ha
  · rw [flatMap_steps_eq hall]
    exact actions_run_flatMap hanswers context
  · rw [flatMap_steps_eq hall]
    exact context_run_flatMap event as context
  · exact any_leaves_iff hall
  · intro hnone
    exact absurd hnone hsome

/-- The snapshot after an event puts together what the regions make of it. -/
theorem exists_composes {machine : String} {regions : List (Chart κ)}
    {keys : List (Chart κ × String)} (hactive : active machine regions value = .ok keys)
    (has : as.map (fun a => (a.chart, a.key)) = keys)
    (hms : (moves context event keys).value = .ok ms)
    (hanswers : ∀ a ∈ as, Answers context event a) (hall : List.Forall₂ Agrees as ms)
    (distinct : (as.map fun a => a.chart.regionKey).Nodup) (metadata : Option Meta) :
  (∀ a ∈ as, value.region? a.chart.regionKey = some (.leaf a.key))
    ∧ ∃ s, (resolve machine regions metadata value context event).value = .ok s
      ∧ Composes value context event as s
  := by
  have hvalue : ∀ a ∈ as, value.region? a.chart.regionKey = some (.leaf a.key) := by
    intro a ha
    apply region?_of_active hactive
    rw [← has]
    exact List.mem_map.mpr ⟨a, ha, rfl⟩
  refine ⟨hvalue, ?_⟩
  rw [resolve, hactive]
  simp only [Evaluated.value_bind, hms]
  by_cases hnone : ∀ a ∈ as, a.selected = none
  · rw [if_pos ((all_isNone_iff hall).mpr hnone)]
    exact ⟨_, rfl, composes_resting hanswers hall hvalue hnone metadata⟩
  · rw [if_neg fun h => hnone ((all_isNone_iff hall).mp h)]
    exact ⟨_, rfl, composes_next hanswers hall distinct hnone metadata⟩

end

end Regions

/-- An event at a value that a parallel machine accepts is resolved region by region.  Each
region goes where its chart by itself goes in the context before the event; the effects
are those of the charts, in the order of the regions; the context goes through the steps
that the regions select, in this order.  The snapshot is a change exactly if a region has
another value than before, and if no region selects a transition the value and the context
are the old ones. -/
theorem Machine.IsCompiled.transition_regions {m : Machine κ} (h : m.IsCompiled)
    {regions : List (Chart κ)} (ht : m.topology = .parallel regions) {value : StateValue}
    {rest : Context} {s₀ : Snapshot κ} (accepted : m.snapshotAt value rest = .ok s₀)
    (context : Context) (event : Event) :
  ∃ (as : List (Regions.Response κ)) (s : Snapshot κ),
    as.map Regions.Response.chart = regions
      ∧ (∀ a ∈ as, value.region? a.chart.regionKey = some (.leaf a.key)
          ∧ Regions.Answers context event a)
      ∧ (m.transition value context event).value = .ok s
      ∧ m.topology.Fits s.value
      ∧ (∀ a ∈ as, s.value.region? a.chart.regionKey = some a.snapshot.value)
      ∧ s.actions = as.flatMap (fun a => a.snapshot.actions)
      ∧ s.context = Regions.thread event as context
      ∧ (s.changed = true ↔
          ∃ r ∈ regions, s.value.region? r.regionKey ≠ value.region? r.regionKey)
      ∧ ((∀ a ∈ as, a.selected = none) → s.value = value ∧ s.context = context)
  := by
  have hfits : m.topology.Fits value := by
    rw [snapshotAt] at accepted
    split at accepted
    · cases accepted
    · next hmetadata => exact (h.sound.metadataAt_eq_ok_iff.mp hmetadata).1
  obtain ⟨s, hs, hfits', -⟩ := h.sound.exists_transition hfits context event
  have hsound := h.sound.topology
  rw [ht] at hsound hfits
  obtain ⟨keys, hactive, hcheck⟩ := (Regions.fits_iff m.name hsound.2).mp hfits
  have hkeys := Regions.map_fst_of_active hactive
  have hsources : Regions.Active keys := fun k hk =>
    ⟨hsound.1 _ (hkeys ▸ List.mem_map_of_mem hk), Regions.checkStates_eq_ok_iff.mp hcheck k hk⟩
  obtain ⟨as, ms, has, hanswers, hms, hall⟩ := Regions.exists_responses context event hsources
  have hcharts : as.map Regions.Response.chart = regions := by
    rw [← hkeys, ← has, List.map_map]
    rfl
  have hdistinct : (as.map fun a => a.chart.regionKey).Nodup := by
    have hnodup := hsound.2
    rwa [← hcharts, List.map_map] at hnodup
  obtain ⟨hvalue, s', hs', hcomposes⟩ :=
    Regions.exists_composes hactive has hms hanswers hall hdistinct m.metadata
  obtain rfl : s' = s := by
    rw [transition, ht] at hs
    exact Except.ok.inj (hs'.symm.trans hs)
  refine ⟨as, s', hcharts, fun a ha => ⟨hvalue a ha, hanswers a ha⟩, hs, hfits',
    hcomposes.region, hcomposes.actions, hcomposes.threads, ?_, hcomposes.resting⟩
  rw [hcomposes.changed, ← hcharts]
  constructor
  · rintro ⟨a, ha, hne⟩
    refine ⟨a.chart, List.mem_map_of_mem ha, ?_⟩
    rwa [hcomposes.region a ha, hvalue a ha, ne_eq, Option.some.injEq]
  · rintro ⟨r, hr, hne⟩
    obtain ⟨a, ha, rfl⟩ := List.mem_map.mp hr
    refine ⟨a, ha, ?_⟩
    rwa [hcomposes.region a ha, hvalue a ha, ne_eq, Option.some.injEq] at hne

/-! ### An example -/

/-- A machine whose regions have states without states in them is keyed if its regions,
their states, and the events and delays of these are. -/
theorem MachineDescriptor.keyed_of_regions {d : MachineDescriptor κ}
    (regions : d.states.keys.Nodup)
    (states : ∀ e ∈ d.states.entries,
      e.2.on.keys.Nodup ∧ e.2.after.keys.Nodup ∧ e.2.states.keys.Nodup)
    (below : ∀ e ∈ d.states.entries, ∀ e' ∈ e.2.states.entries,
      e'.2.on.keys.Nodup ∧ e'.2.after.keys.Nodup ∧ e'.2.states.keys = []) :
  d.Keyed
  := by
  refine ⟨regions, ?_⟩
  intro e he
  obtain ⟨hon, hafter, hstates⟩ := states e he
  refine .mk hon hafter hstates ?_
  intro e' he'
  obtain ⟨hon', hafter', hnone⟩ := below e he e' he'
  exact StateDescriptor.keyed_of_shallow hon' hafter' hnone

/-- A pen that counts its lines, and ink that is used by as many lines.  The ink asks whether
no line was counted before. -/
def deskDescriptor : MachineDescriptor String where
  id := some "desk"
  initial := none
  kind := .parallel
  context := .empty
  metadata := none
  states := ⟨[
    ("pen", { StateDescriptor.empty with
      initial := some "up"
      states := ⟨[
        ("up", { StateDescriptor.empty with
          on := ⟨[("WRITE", [⟨some "down",
            [.assign (.properties [("lines", .constant (.nat 1))]), .inline "scratch" "pen"],
            none⟩])]⟩ }),
        ("down", .empty)]⟩ }),
    ("ink", { StateDescriptor.empty with
      initial := some "full"
      states := ⟨[
        ("full", { StateDescriptor.empty with
          on := ⟨[("WRITE", [⟨some "low",
            [.assign (.properties [("used", .computed
              ⟨"used", fun context _ _ => (context.get? "lines").getD .null⟩)])],
            some (.inline ⟨"fresh", fun context _ _ => !context.contains "lines"⟩)⟩])]⟩ }),
        ("low", .empty)]⟩ })]⟩

/-- The ink moves although the pen counts a line first, and it reads this count. -/
theorem desk_transition_regions :
  ∃ (m : Machine String) (regions : List (Chart String)) (s₀ : Snapshot String),
    m.IsCompiled ∧ m.topology = .parallel regions
      ∧ m.snapshotAt m.initial.value .empty = .ok s₀
      ∧ ∃ as s, as.map Regions.Response.chart = regions
        ∧ (m.transition m.initial.value .empty (.named "WRITE")).value = .ok s
        ∧ s.value.region? "ink" = some (.leaf "low")
        ∧ s.actions = as.flatMap (fun a => a.snapshot.actions)
        ∧ s.actions.map PendingEffect.name = ["scratch"]
        ∧ s.context = Regions.thread (.named "WRITE") as .empty
        ∧ s.context = ⟨[("lines", .nat 1), ("used", .nat 1)]⟩
        ∧ s.changed = true
  := by
  have hcompile : (Machine.compile deskDescriptor .empty).value = .ok _ := rfl
  have hkeyed : deskDescriptor.Keyed :=
    MachineDescriptor.keyed_of_regions (by decide) (by decide) (by decide)
  have hcompiled : Machine.IsCompiled _ := ⟨deskDescriptor, .empty, hkeyed, hcompile⟩
  refine ⟨_, _, _, hcompiled, rfl, rfl, ?_⟩
  obtain ⟨as, s, hcharts, -, hs, -, -, hactions, hcontext, -, -⟩ :=
    @Machine.IsCompiled.transition_regions _ _ hcompiled _ rfl
      (.regions ⟨[("pen", .leaf "up"), ("ink", .leaf "full")]⟩) .empty _ rfl .empty
      (.named "WRITE")
  refine ⟨as, s, hcharts, hs, ?_⟩
  obtain rfl := Except.ok.inj (hs.symm.trans rfl)
  exact ⟨rfl, hactions, rfl, hcontext, rfl, rfl⟩

end Statechart
