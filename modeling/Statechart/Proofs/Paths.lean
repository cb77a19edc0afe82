import Statechart.Proofs.Composition

/-!
# Paths of active states

The path of an active state is its key, or in a region the key of the region, a dot and
its own key.  A value is asked for a path by cutting the path at its first dot, so the state
of a region whose key has a dot is not found there.  The main statement,
`Machine.Reaches.matchesPath_iff`, says which paths are found at the values that a compiled
machine comes to, and when these are the paths of all active states.
-/

namespace Statechart

variable {κ : Type}

/-! ### The first dot -/

namespace StateValue

/-- The part before the first dot has no dot in it, and the two parts make up the whole. -/
theorem splitDot_eq_some_iff {cs before after : List Char} :
  splitDot cs = some (before, after) ↔ '.' ∉ before ∧ cs = before ++ '.' :: after
  := by
  induction cs generalizing before with
  | nil => simp [splitDot]
  | cons c rest ih =>
    by_cases hc : c = '.'
    · subst hc
      cases before with
      | nil => simp [splitDot, eq_comm]
      | cons b before =>
        simp only [splitDot, if_true, Option.some.injEq, Prod.mk.injEq, List.cons_append,
          List.cons.injEq, List.mem_cons, not_or]
        constructor
        · rintro ⟨⟨⟩, -⟩
        · rintro ⟨⟨hb, -⟩, rfl, -⟩
          exact absurd rfl hb
    · rw [splitDot, if_neg hc, Option.map_eq_some_iff]
      cases before with
      | nil => simp [hc]
      | cons b before =>
        simp only [Prod.mk.injEq, List.cons.injEq, List.cons_append, List.mem_cons, not_or]
        constructor
        · rintro ⟨⟨before', after'⟩, hrest, ⟨rfl, rfl⟩, rfl⟩
          obtain ⟨hdot, rfl⟩ := ih.mp hrest
          exact ⟨⟨Ne.symm hc, hdot⟩, rfl, rfl⟩
        · rintro ⟨⟨-, hdot⟩, rfl, hrest⟩
          exact ⟨(before, after), ih.mpr ⟨hdot, hrest⟩, ⟨rfl, rfl⟩, rfl⟩

/-- A path is split at its first dot. -/
theorem splitPath_eq_some_iff {path region rest : String} :
  splitPath path = some (region, rest) ↔ '.' ∉ region.toList ∧ path = region ++ "." ++ rest
  := by
  have hpath : path = region ++ "." ++ rest
      ↔ path.toList = region.toList ++ '.' :: rest.toList := by
    rw [← String.toList_inj]
    simp
  rw [splitPath, Option.map_eq_some_iff, hpath, ← splitDot_eq_some_iff]
  constructor
  · rintro ⟨⟨before, after⟩, hsplit, heq⟩
    obtain ⟨rfl, rfl⟩ := Prod.mk.inj heq
    simpa using hsplit
  · intro hsplit
    exact ⟨_, hsplit, by simp⟩

/-! ### Paths of a value -/

/-- The rest of a path is looked for in the region that is found first under the key. -/
theorem partMatches_eq (parts : List (String × StateValue)) (region rest : String) :
  partMatches parts region rest
    = (OrderedMap.find? region parts).any fun value => value.matchesPath rest
  := by
  induction parts with
  | nil => rfl
  | cons part parts ih =>
    obtain ⟨key, value⟩ := part
    by_cases hkey : key = region
    · simp [partMatches, OrderedMap.find?, hkey]
    · simp [partMatches, OrderedMap.find?, hkey, ih]

/-- Only the state itself is active in a leaf. -/
@[simp]
theorem matchesPath_leaf_iff {key path : String} :
  (leaf key).matchesPath path = true ↔ key = path
  := by
  simp [matchesPath]

/-- Regions have a path if it is the key of one of them that has no dot in it, a dot, and a
path of its value. -/
theorem matchesPath_regions_iff {parts : OrderedMap StateValue} {path : String} :
  (regions parts).matchesPath path = true
    ↔ ∃ region rest value, '.' ∉ region.toList ∧ path = region ++ "." ++ rest
        ∧ parts.get? region = some value ∧ value.matchesPath rest = true
  := by
  obtain ⟨parts⟩ := parts
  rw [matchesPath]
  cases hsplit : splitPath path with
  | none =>
    simp only [Bool.false_eq_true, false_iff, not_exists, not_and]
    intro region rest value hdot hpath
    rw [splitPath_eq_some_iff.mpr ⟨hdot, hpath⟩] at hsplit
    cases hsplit
  | some p =>
    obtain ⟨region, rest⟩ := p
    simp only [partMatches_eq, Option.any_eq_true]
    constructor
    · rintro ⟨value, hvalue, hrest⟩
      obtain ⟨hdot, hpath⟩ := splitPath_eq_some_iff.mp hsplit
      exact ⟨region, rest, value, hdot, hpath, hvalue, hrest⟩
    · rintro ⟨region', rest', value, hdot, hpath, hvalue, hrest⟩
      rw [splitPath_eq_some_iff.mpr ⟨hdot, hpath⟩] at hsplit
      cases hsplit
      exact ⟨value, hvalue, hrest⟩

end StateValue

/-! ### Paths of active states -/

/-- The path of the state in which a region is. -/
def Chart.ActivePath (r : Chart κ) (value : StateValue) (path : String) : Prop :=
  ∃ state, value.region? r.regionKey = some (.leaf state) ∧ path = r.regionKey ++ "." ++ state

/-- The path of an active state: its key, or in a region the key of the region, a dot and
the key of the state. -/
def Topology.ActivePath : Topology κ → StateValue → String → Prop
  | .flat _, value, path => value = .leaf path
  | .parallel regions, value, path => ∃ r ∈ regions, r.ActivePath value path

/-- The path of an active state, which is not in a region whose key has a dot. -/
def Topology.PlainPath : Topology κ → StateValue → String → Prop
  | .flat _, value, path => value = .leaf path
  | .parallel regions, value, path =>
    ∃ r ∈ regions, '.' ∉ r.regionKey.toList ∧ r.ActivePath value path

/-- The keys of the regions have no dots. -/
def Topology.Plain : Topology κ → Prop
  | .flat _ => True
  | .parallel regions => ∀ r ∈ regions, '.' ∉ r.regionKey.toList

/-- Paths through keys without dots are paths. -/
theorem Topology.PlainPath.active {t : Topology κ} {value : StateValue} {path : String}
    (h : t.PlainPath value path) :
  t.ActivePath value path
  := by
  cases t with
  | flat chart => exact h
  | parallel regions =>
    obtain ⟨r, hr, -, hpath⟩ := h
    exact ⟨r, hr, hpath⟩

/-- Where no key of a region has a dot, the paths are those through keys without dots. -/
theorem Topology.Plain.plainPath {t : Topology κ} (plain : t.Plain) {value : StateValue}
    {path : String} (h : t.ActivePath value path) :
  t.PlainPath value path
  := by
  cases t with
  | flat chart => exact h
  | parallel regions =>
    obtain ⟨r, hr, hpath⟩ := h
    exact ⟨r, hr, plain r hr, hpath⟩

/-- At a value that fits, the paths that are found are those that are not in a region whose
key has a dot. -/
theorem Topology.Fits.matchesPath_iff_plainPath {t : Topology κ} {value : StateValue}
    (fits : t.Fits value) (path : String) :
  value.matchesPath path = true ↔ t.PlainPath value path
  := by
  cases t with
  | flat chart =>
    obtain ⟨key, n, rfl, -⟩ := fits
    simp [PlainPath]
  | parallel regions =>
    obtain ⟨parts, rfl, hperm, hregions⟩ := fits
    rw [StateValue.matchesPath_regions_iff]
    constructor
    · rintro ⟨region, rest, value, hdot, rfl, hvalue, hrest⟩
      -- Every part belongs to a region, and is a single state.
      have hkey : region ∈ parts.keys :=
        List.mem_map_of_mem (OrderedMap.mem_entries_of_get? hvalue)
      obtain ⟨r, hr, rfl⟩ := List.mem_map.mp (hperm.mem_iff.mp hkey)
      obtain ⟨key, n, hleaf, -⟩ := hregions r hr
      obtain rfl := Option.some.inj (hvalue.symm.trans hleaf)
      obtain rfl := StateValue.matchesPath_leaf_iff.mp hrest
      exact ⟨r, hr, hdot, key, hleaf, rfl⟩
    · rintro ⟨r, hr, hdot, state, hleaf, rfl⟩
      exact ⟨r.regionKey, state, .leaf state, hdot, rfl, hleaf, by simp⟩

/-! ### Values that a machine comes to -/

namespace Machine

variable {m : Machine κ} {value : StateValue}

/-- The values that a machine comes to: its initial value, those at which it is set to rest,
and those to which an event, a delay or a reaction of the active state leads from one of
them, in whatever context. -/
inductive Reaches (m : Machine κ) : StateValue → Prop where
  | initial : m.Reaches m.initial.value
  | rest {value : StateValue} {context : Context} {s : Snapshot κ} :
    m.snapshotAt value context = .ok s → m.Reaches s.value
  | event {value : StateValue} {context : Context} {event : Event} {s : Snapshot κ} :
    m.Reaches value → (m.transition value context event).value = .ok s → m.Reaches s.value
  | delay {state key : String} {context : Context} {event : Event} {s : Snapshot κ} :
    m.Reaches (.leaf state) → (m.fireAfter state key context event).value = .ok (some s) →
      m.Reaches s.value
  | reaction {chart : Chart κ} {state : String} {n : Node κ} {t : Candidate κ}
    {context : Context} {event : Event} {s : Snapshot κ} :
    m.Reaches (.leaf state) → m.topology = .flat chart → chart.nodes.get? state = some n →
      n.Offers t → (m.react state t context event).value = .ok (some s) → m.Reaches s.value

/-- The value of a snapshot that is found fits the machine. -/
theorem Finds.fits {found : Except MachineError (Option (Snapshot κ))} (h : m.Finds found)
    {s : Snapshot κ} (hs : found = .ok (some s)) :
  m.topology.Fits s.value
  := by
  obtain ⟨o, rfl, hfits⟩ := h
  obtain rfl := Except.ok.inj hs
  exact (hfits s rfl).1

/-- The values that a sound machine comes to are those that fit it. -/
theorem Sound.reaches_iff (sound : m.Sound) :
  m.Reaches value ↔ m.topology.Fits value
  := by
  constructor
  · intro h
    induction h with
    | initial => exact sound.initial
    | rest hs =>
      rw [snapshotAt] at hs
      split at hs
      · cases hs
      · next metadata hmetadata =>
        obtain rfl := Except.ok.inj hs
        exact (sound.metadataAt_eq_ok_iff.mp hmetadata).1
    | event _ hs ih =>
      obtain ⟨s', hs', hfits, -⟩ := sound.exists_transition ih _ _
      obtain rfl := Except.ok.inj (hs.symm.trans hs')
      exact hfits
    | delay _ hs ih => exact (sound.finds_fireAfter ih _ _ _).fits hs
    | reaction _ ht hn hoffers hs _ => exact (sound.finds_react ht hn hoffers _ _).fits hs
  · intro hfits
    obtain ⟨s, hs, -⟩ := sound.exists_transition hfits .empty (.named "")
    cases hmetadata : m.metadataAt value with
    | error e =>
      rw [sound.transition_eq_error hmetadata] at hs
      cases hs
    | ok metadata =>
      have hrest : m.snapshotAt value .empty = .ok (.resting value .empty metadata) := by
        rw [snapshotAt, hmetadata]
      exact .rest hrest

/-- At a value that a compiled machine comes to, the paths that are found are those of the
active states that are not in a region whose key has a dot.  So what is found is active; if
no key of a region has a dot, what is active is found; and otherwise it is found exactly if
every active path is also one without such a region. -/
theorem Reaches.matchesPath_iff (compiled : m.IsCompiled) (h : m.Reaches value) :
  (∀ path, value.matchesPath path = true ↔ m.topology.PlainPath value path)
    ∧ (m.topology.Plain →
        ∀ path, value.matchesPath path = true ↔ m.topology.ActivePath value path)
    ∧ ((∀ path, value.matchesPath path = true ↔ m.topology.ActivePath value path)
        ↔ ∀ path, m.topology.ActivePath value path → m.topology.PlainPath value path)
  := by
  have hplain := (compiled.sound.reaches_iff.mp h).matchesPath_iff_plainPath
  refine ⟨hplain, ?_, ?_⟩
  · intro plain path
    exact (hplain path).trans ⟨Topology.PlainPath.active, plain.plainPath⟩
  · constructor
    · intro hactive path hpath
      exact (hplain path).mp ((hactive path).mpr hpath)
    · intro hall path
      exact (hplain path).trans ⟨Topology.PlainPath.active, hall path⟩

end Machine

/-- A player: a window that is shown in one of two ways, and sound that is off or on, with
dots in the keys of a region and of a state. -/
def playerDescriptor : MachineDescriptor String where
  id := some "player"
  initial := none
  kind := .parallel
  context := .empty
  metadata := none
  states := ⟨[
    ("ui.main", { StateDescriptor.empty with
      initial := some "x"
      states := ⟨[
        ("x", { StateDescriptor.empty with on := ⟨[("TOGGLE", [⟨some "y", [], none⟩])]⟩ }),
        ("y", .empty)]⟩ }),
    ("sound", { StateDescriptor.empty with
      initial := some "off"
      states := ⟨[
        ("off", { StateDescriptor.empty with
          on := ⟨[("TOGGLE", [⟨some "on.low", [], none⟩])]⟩ }),
        ("on.low", .empty)]⟩ })]⟩

theorem playerDescriptor_keyed :
  playerDescriptor.Keyed
  := MachineDescriptor.keyed_of_regions (by decide) (by decide) (by decide)

/-- The window is in `x`, but the path `ui.main.x` is not found. -/
theorem player_window_not_found :
  ∃ m : Machine String, m.IsCompiled ∧ m.Reaches m.initial.value
    ∧ m.topology.ActivePath m.initial.value "ui.main.x"
    ∧ m.initial.value.matchesPath "ui.main.x" = false
  := by
  have hcompile : (Machine.compile playerDescriptor .empty).value = .ok _ := rfl
  refine ⟨_, ⟨playerDescriptor, .empty, playerDescriptor_keyed, hcompile⟩, .initial, ?_, rfl⟩
  exact ⟨_, List.mem_cons_self, "x", rfl, rfl⟩

/-- After the event the sound is in a state whose path is found, dot included. -/
theorem player_sound_found :
  ∃ m : Machine String, m.IsCompiled
    ∧ ∃ s, (m.transition m.initial.value .empty (.named "TOGGLE")).value = .ok s
        ∧ m.Reaches s.value
        ∧ s.value.matchesPath "sound.on.low" = true
        ∧ m.topology.ActivePath s.value "ui.main.y"
        ∧ ¬ m.topology.PlainPath s.value "ui.main.y"
  := by
  have hcompile : (Machine.compile playerDescriptor .empty).value = .ok _ := rfl
  have hcompiled : Machine.IsCompiled _ :=
    ⟨playerDescriptor, .empty, playerDescriptor_keyed, hcompile⟩
  obtain ⟨s, hs, -⟩ :=
    hcompiled.sound.exists_transition hcompiled.sound.initial .empty (.named "TOGGLE")
  have hreaches := Machine.Reaches.event .initial hs
  obtain ⟨hplain, -, -⟩ := Machine.Reaches.matchesPath_iff hcompiled hreaches
  obtain rfl := Except.ok.inj (hs.symm.trans rfl)
  refine ⟨_, hcompiled, _, hs, hreaches, ?_, ?_, ?_⟩
  · apply (hplain _).mpr
    exact ⟨_, List.mem_cons_of_mem _ List.mem_cons_self, by decide, "on.low", rfl, rfl⟩
  · exact ⟨_, List.mem_cons_self, "y", rfl, rfl⟩
  · intro h
    cases (hplain _).mpr h

end Statechart
