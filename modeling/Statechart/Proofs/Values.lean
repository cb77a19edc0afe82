import Statechart.Proofs.Arming
import Statechart.Proofs.Step
import Statechart.Proofs.Script

/-!
# Values in runs

In a run every instance is at a value that fits its machine, and no piece of work ends
with an error.  The main statement, `Machine.compile_sound`, puts this together with
what holds of a compiled machine by itself.
-/

namespace Statechart

variable {κ π σ : Type}

/-! ### Valid instances -/

/-- The machine comes from compilation, and the value fits it. -/
structure Instance.Valid (x : Instance κ) : Prop where
  compiled : x.machine.IsCompiled
  fits : x.machine.topology.Fits x.snapshot.value

namespace Instance.Valid

variable {x : Instance κ}

/-- The state of a flat machine is one of its chart. -/
theorem flat_leaf (h : x.Valid) {chart : Chart κ} (hflat : x.machine.flat? = some chart)
    {state : String} (hleaf : x.snapshot.value.leaf? = some state) :
  x.machine.topology = .flat chart ∧ ∃ n, chart.nodes.get? state = some n
  := by
  have hfits := h.fits
  rw [Machine.flat?] at hflat
  split at hflat
  · next chart' htopology =>
    obtain rfl := Option.some.inj hflat
    rw [htopology] at hfits ⊢
    obtain ⟨key, n, hvalue, hn⟩ := hfits
    rw [hvalue] at hleaf
    obtain rfl := Option.some.inj hleaf
    exact ⟨rfl, n, hn⟩
  · cases hflat

/-- The value of a flat machine is a state. -/
theorem exists_leaf (h : x.Valid) {chart : Chart κ} (hflat : x.machine.flat? = some chart) :
  ∃ state, x.snapshot.value = .leaf state
  := by
  have hfits := h.fits
  rw [Machine.flat?] at hflat
  split at hflat
  · next chart' htopology =>
    rw [htopology] at hfits
    obtain ⟨state, -, hvalue, -⟩ := hfits
    exact ⟨state, hvalue⟩
  · cases hflat

/-- Neither the invocations of the active state nor its delays are looked up in vain. -/
theorem active_ne_error (h : x.Valid) (e : MachineError) :
  Configuration.activeInvocations x ≠ .error e ∧ Engine.activeDelays x ≠ .error e
  := by
  rw [Configuration.activeInvocations, Engine.activeDelays]
  cases hflat : x.machine.flat? with
  | none => simp
  | some chart =>
    cases hleaf : x.snapshot.value.leaf? with
    | none => simp
    | some state =>
      obtain ⟨-, n, hn⟩ := h.flat_leaf hflat hleaf
      simp [Chart.node_eq_ok_iff.mpr hn]

/-- An event is resolved without error. -/
theorem finds_transition (h : x.Valid) (event : Event) :
  x.machine.Finds
    ((fun r => r.map some) <$>
      x.machine.transition x.snapshot.value x.snapshot.context event).value
  := by
  obtain ⟨s, hs, hfits, hlabels⟩ :=
    h.compiled.sound.exists_transition h.fits x.snapshot.context event
  refine ⟨some s, ?_, ?_⟩
  · rw [Evaluated.value_map, hs]
    rfl
  · rintro _ ⟨⟩
    exact ⟨hfits, hlabels⟩

/-- A reaction to an invocation of the active state is resolved without error. -/
theorem finds_reaction (h : x.Valid) {id state : String} {v : Invocation κ}
    (hv : x.activeInvoke? id state = some v) {o : Option (Reaction (Candidate κ))}
    (ho : o = v.onDone ∨ o = v.onError) {event event' : Event}
    {rearm : Configuration.Rearm}
    {found : Evaluated (Except MachineError (Option (Snapshot κ)))}
    (hres : x.reaction state event o = .attempt event' rearm found) :
  x.machine.Finds found.value
  := by
  cases o with
  | none => simp [Instance.reaction] at hres
  | some reaction =>
    cases reaction with
    | event kind =>
      simp only [Instance.reaction, Resolution.attempt.injEq] at hres
      obtain ⟨-, -, rfl⟩ := hres
      exact h.finds_transition _
    | transition t =>
      simp only [Instance.reaction, Resolution.attempt.injEq] at hres
      obtain ⟨-, -, rfl⟩ := hres
      rw [Instance.activeInvoke?] at hv
      split at hv
      · next hleaf =>
        split at hv
        · next chart hflat =>
          obtain ⟨n, hn, hinvoke⟩ := Option.bind_eq_some_iff.mp hv
          obtain ⟨htopology, -⟩ := h.flat_leaf hflat hleaf
          have hmem := List.mem_of_find?_eq_some hinvoke
          have hoffers : n.Offers t := by
            obtain ho | ho := ho
            · exact .done hmem ho.symm
            · exact .failed hmem ho.symm
          exact h.compiled.sound.finds_react htopology hn hoffers _ _
        · cases hv
      · cases hv

/-- Whatever an instance attempts is resolved without error. -/
theorem finds_resolution (h : x.Valid) {e : Envelope} {event : Event}
    {rearm : Configuration.Rearm}
    {found : Evaluated (Except MachineError (Option (Snapshot κ)))}
    (hres : x.resolution e = .attempt event rearm found) :
  x.machine.Finds found.value
  := by
  rw [Instance.resolution.eq_def] at hres
  split at hres
  · cases hres
  · cases e with
    | start => cases hres
    | event event =>
      simp only [Resolution.attempt.injEq] at hres
      obtain ⟨-, -, rfl⟩ := hres
      exact h.finds_transition event
    | after state key generation =>
      simp only at hres
      split at hres
      · next hfresh =>
        simp only [Resolution.attempt.injEq] at hres
        obtain ⟨-, -, rfl⟩ := hres
        simp only [Configuration.isFresh, Bool.and_eq_true, decide_eq_true_eq] at hfresh
        have hvalue : x.snapshot.value = .leaf state := by
          cases hvalue : x.snapshot.value <;> simp_all [StateValue.leaf?]
        exact h.compiled.sound.finds_fireAfter (hvalue ▸ h.fits) _ _ _
      · cases hres
    | childDone id state =>
      simp only at hres
      split at hres
      · next v hv =>
        split at hres
        · exact h.finds_reaction hv (.inl rfl) hres
        · cases hres
      · cases hres
    | invokeFailed id state message =>
      simp only at hres
      split at hres
      · next v hv => exact h.finds_reaction hv (.inr rfl) hres
      · cases hres

/-- An instance that is stopped keeps its value. -/
theorem halted (h : x.Valid) :
  x.halted.Valid
  := ⟨h.compiled, h.fits⟩

/-- What an instance takes in leaves its value valid. -/
theorem accepts (h : x.Valid) {e : Envelope} {y : Instance κ} (hy : x.Accepts e y) :
  y.Valid
  := by
  cases hy with
  | event event _ => exact h
  | start _ => exact ⟨h.compiled, h.fits⟩
  | @startAt value context s _ hs =>
    refine ⟨h.compiled, ?_⟩
    rw [Machine.snapshotAt] at hs
    split at hs
    · cases hs
    · next metadata hmetadata =>
      obtain rfl := Except.ok.inj hs
      exact (h.compiled.sound.metadataAt_eq_ok_iff.mp hmetadata).1

end Instance.Valid

/-- A new instance of a compiled machine has its initial value, which fits. -/
theorem Machine.IsCompiled.valid_new {m : Machine κ} (h : m.IsCompiled)
    (services : Services κ) (pool : Nat) (parent : Option ParentLink) :
  (Instance.new m services pool parent).Valid
  := ⟨h, h.sound.initial⟩

/-! ### Valid configurations -/

/-- No piece of work has met an error. -/
def Faultless (st : List (Frame κ π)) : Prop :=
  ∀ i o ps, .working i o ps ∈ st → o = .ok ()

/-- Moving on to the next phase brings no error. -/
theorem Shift.faultless {st st' : List (Frame κ π)} (hst : Shift st st')
    (h : Faultless st) :
  Faultless st'
  := by
  induction hst with
  | same => exact h
  | push hf _ ih =>
    intro i o ps hmem
    obtain rfl | hmem := List.mem_cons.mp hmem
    · cases hf
    · exact ih h i o ps hmem
  | pop _ _ ih => exact ih fun i o ps hmem => h i o ps (List.mem_cons_of_mem _ hmem)

/-- Work begins without an error. -/
theorem Faultless.cons {st : List (Frame κ π)} (h : Faultless st) (i : Nat)
    (ps : List (Phase κ)) :
  Faultless (.working i (.ok ()) ps :: st)
  := by
  intro j o qs hmem
  obtain heq | hmem := List.mem_cons.mp hmem
  · cases heq
    rfl
  · exact h j o qs hmem

/-- An instance that is woken has met no error. -/
theorem Faultless.wake {st : List (Frame κ π)} (h : Faultless st) (busy : Bool) (i : Nat) :
  Faultless (wake busy i st)
  := by
  rw [Statechart.wake]
  split
  · exact h
  · exact h.cons i []

/-- Work that is gone on with is still faultless. -/
theorem Faultless.goOn {below : List (Frame κ π)} {i : Nat} {o : Except MachineError Unit}
    {ps : List (Phase κ)} (h : Faultless (.working i o ps :: below)) (qs : List (Phase κ)) :
  Faultless (.working i o qs :: below)
  := by
  obtain rfl := h i o ps List.mem_cons_self
  exact Faultless.cons (fun j o' ps' hmem => h j o' ps' (List.mem_cons_of_mem _ hmem)) i qs

theorem Faultless.tail {below : List (Frame κ π)} {f : Frame κ π}
    (h : Faultless (f :: below)) :
  Faultless below
  := fun j o ps hmem => h j o ps (List.mem_cons_of_mem _ hmem)

/-- A move of valid instances gives valid instances, and no error is met. -/
theorem Move.valid {s : Signal κ} {r r' : Engine κ} {st st' : List (Frame κ π)}
    (hmove : Move s r st r' st') (handed : ∀ m, s.handed = some m → m.IsCompiled)
    (hall : r.All Instance.Valid) (hst : Faultless st) :
  r'.All Instance.Valid ∧ Faultless st'
  := by
  cases hmove with
  | quiet hsame _ hshift => exact ⟨hall.same hsame, hshift.faultless hst⟩
  | create hadds hshift =>
    exact ⟨hall.adds hadds ((handed _ rfl).valid_new _ _ _), hshift.faultless hst⟩
  | interpret hsame _ hshift => exact ⟨hall.same hsame, hshift.faultless hst⟩
  | listen hx _ hsets hshift =>
    obtain ⟨hcompiled, hfits⟩ := hall _ _ hx
    exact ⟨hall.sets hsets ⟨hcompiled, hfits⟩, hshift.faultless hst⟩
  | stop i hshift =>
    exact ⟨hall.halts (Engine.halts_stop r i) fun _ h => h.halted, hshift.faultless hst⟩
  | call hx haccepts hsets hshift =>
    obtain ⟨hcompiled, hfits⟩ := (hall _ _ hx).accepts haccepts
    exact ⟨hall.sets hsets ⟨hcompiled, hfits⟩, (hshift.faultless hst).wake _ _⟩
  | fire hx _ hsame _ hsets hshift =>
    obtain ⟨hcompiled, hfits⟩ := hall _ _ hx
    exact ⟨(hall.same hsame).sets hsets ⟨hcompiled, hfits⟩, (hshift.faultless hst).wake _ _⟩
  | ignore hx _ _ hsets =>
    obtain ⟨hcompiled, hfits⟩ := hall _ _ hx
    exact ⟨hall.sets hsets ⟨hcompiled, hfits⟩, hst⟩
  | stumble hx _ hres hfound _ =>
    obtain ⟨o, ho, -⟩ := (hall _ _ hx).finds_resolution hres
    rw [hfound] at ho
    cases ho
  | begin hx _ _ hsets =>
    obtain ⟨hcompiled, hfits⟩ := hall _ _ hx
    exact ⟨hall.sets hsets ⟨hcompiled, hfits⟩, hst.goOn _⟩
  | commit hx _ hres hfound hsets =>
    have hvalid := hall _ _ hx
    obtain ⟨o, ho, hsome⟩ := hvalid.finds_resolution hres
    rw [hfound] at ho
    obtain rfl := Except.ok.inj ho
    exact ⟨hall.sets hsets ⟨hvalid.compiled, (hsome _ rfl).1⟩, hst.goOn _⟩
  | finish hx _ hsets =>
    obtain ⟨hcompiled, hfits⟩ := hall _ _ hx
    exact ⟨hall.sets hsets ⟨hcompiled, hfits⟩, hst.tail⟩
  | vanish _ => exact ⟨hall, hst.tail⟩
  | advance _ _ => exact ⟨hall, hst.goOn _⟩
  | drop _ _ => exact ⟨hall, hst.goOn _⟩
  | fail hx herror =>
    obtain ⟨hinvocations, hdelays⟩ := (hall _ _ hx).active_ne_error _
    exact absurd herror (not_or.mpr ⟨hinvocations, hdelays⟩)
  | stopChildren hx =>
    obtain ⟨hcompiled, hfits⟩ := hall _ _ hx
    obtain ⟨r₁, hsets, hhalts, -⟩ := Engine.halts_stopChildren hx
    exact ⟨(hall.sets hsets ⟨hcompiled, hfits⟩).halts hhalts fun _ h => h.halted, hst.goOn _⟩
  | spawn hx _ _ hspawns =>
    obtain ⟨hcompiled, hfits⟩ := hall _ _ hx
    have hnew := handed _ rfl
    refine ⟨hall.spawns hspawns ⟨hcompiled, hfits⟩ ⟨hnew, hnew.sound.initial⟩, ?_⟩
    exact (hst.goOn _).cons _ _
  | missing hx _ _ hsets =>
    obtain ⟨hcompiled, hfits⟩ := hall _ _ hx
    exact ⟨hall.sets hsets ⟨hcompiled, hfits⟩, hst.goOn _⟩
  | rearm hx _ harmed =>
    obtain ⟨hcompiled, hfits⟩ := hall _ _ hx
    obtain ⟨r₁, timers, generation, hsame, -, hsets⟩ := Engine.exists_sets_of_armTimers hx harmed
    exact ⟨(hall.same hsame).sets hsets ⟨hcompiled, hfits⟩, hst.goOn _⟩
  | conclude hx hsets =>
    obtain ⟨hcompiled, hfits⟩ := hall _ _ hx
    exact ⟨hall.sets hsets ⟨hcompiled, hfits⟩, hst.goOn _⟩
  | report hx _ _ hsets hy hsets' =>
    obtain ⟨hcompiled, hfits⟩ := hall _ _ hx
    have hall' := hall.sets hsets ⟨hcompiled, hfits⟩
    obtain ⟨hcompiled', hfits'⟩ := hall' _ _ hy
    exact ⟨hall'.sets hsets' ⟨hcompiled', hfits'⟩, (hst.goOn _).wake _ _⟩

namespace Configuration

variable {H : Host κ π σ} {cs : List (Configuration κ π σ)} {c : Configuration κ π σ}

/-- In a run all instances are valid, and no piece of work has met an error. -/
theorem Run.valid (h : Run H cs c) :
  c.engine.All Instance.Valid ∧ Faultless c.stack
  := by
  refine h.invariant (p := fun c => c.engine.All Instance.Valid ∧ Faultless c.stack) ?_ ?_
  · intro memory
    constructor
    · intro i x hx
      simp [idle] at hx
    · intro i o ps hmem
      cases hmem
  · rintro c d ⟨hall, hst⟩ hstep
    obtain ⟨⟨mid, hmove, hreleases, -⟩, handed⟩ := hstep.reaches
    obtain ⟨hall', hst'⟩ := hmove.valid handed hall hst
    exact ⟨hall'.releases hreleases, hst'⟩

end Configuration

/-- A value that fits has metadata. -/
theorem Machine.exists_labels {m : Machine κ} {value : StateValue}
    (fits : m.topology.Fits value) :
  ∃ metadata, m.Labels value metadata
  := by
  simp only [Labels]
  cases ht : m.topology with
  | flat chart =>
    rw [ht] at fits
    obtain ⟨key, n, hvalue, hn⟩ := fits
    exact ⟨n.metadata, key, n, hvalue, hn, rfl⟩
  | parallel regions => exact ⟨m.metadata, rfl⟩

/-- A machine that compilation gives accepts its initial value.  From a value that it
accepts every event leads to one that it accepts, with the metadata that belongs to it;
a value that it does not accept meets with the same error at every event.  In a run no
piece of work for an instance of it ever ends with an error. -/
theorem Machine.compile_sound {d : MachineDescriptor κ} {b : Bundle κ} {m : Machine κ}
    (keyed : d.Keyed) (h : (Machine.compile d b).value = .ok m) :
  (∀ context, ∃ s, m.snapshotAt m.initial.value context = .ok s)
    ∧ (∀ value s context, m.snapshotAt value context = .ok s → ∀ context event,
        ∃ next, (m.transition value context event).value = .ok next
          ∧ (∀ context, ∃ s, m.snapshotAt next.value context = .ok s)
          ∧ m.topology.Fits next.value ∧ m.Labels next.value next.metadata)
    ∧ (∀ value e context, m.snapshotAt value context = .error e → ∀ context event,
        (m.transition value context event).value = .error e)
    ∧ ∀ {π σ : Type} (H : Host κ π σ) (cs : List (Configuration κ π σ))
        (c : Configuration κ π σ), Configuration.Run H cs c →
        ∀ i x o ps, c.engine.get? i = some x → x.machine = m →
          .working i o ps ∈ c.stack → o = .ok ()
  := by
  have sound := Machine.sound_of_compile keyed h
  have haccepts : ∀ value metadata, m.metadataAt value = .ok metadata → ∀ context,
      ∃ s, m.snapshotAt value context = .ok s := by
    intro value metadata hmetadata context
    rw [snapshotAt, hmetadata]
    exact ⟨_, rfl⟩
  refine ⟨?_, ?_, ?_, ?_⟩
  · obtain ⟨metadata, hlabels⟩ := exists_labels sound.initial
    exact haccepts _ metadata (sound.metadataAt_eq_ok_iff.mpr ⟨sound.initial, hlabels⟩)
  · intro value s context hs context' event
    have hfits : m.topology.Fits value := by
      rw [snapshotAt] at hs
      split at hs
      · cases hs
      · next metadata hmetadata => exact (sound.metadataAt_eq_ok_iff.mp hmetadata).1
    obtain ⟨next, hnext, hfits', hlabels⟩ := sound.exists_transition hfits context' event
    refine ⟨next, hnext, ?_, hfits', hlabels⟩
    exact haccepts _ _ (sound.metadataAt_eq_ok_iff.mpr ⟨hfits', hlabels⟩)
  · intro value e context he context' event
    apply sound.transition_eq_error
    rw [snapshotAt] at he
    split at he
    · next hmetadata => rw [hmetadata, Except.error.inj he]
    · cases he
  · intro π σ H cs c hrun i x o ps _ _ hmem
    exact hrun.valid.2 i o ps hmem

/-- Every event leads from the state `a` of the relay to a state of it, and from a state
that it does not have to an error. -/
theorem relay_compile_sound :
  relayDescriptor.Keyed
    ∧ (Machine.compile relayDescriptor relayBundle).value = .ok relay
    ∧ (∀ context event, ∃ next, (relay.transition (.leaf "a") context event).value = .ok next
        ∧ relay.topology.Fits next.value ∧ relay.Labels next.value next.metadata)
    ∧ ∀ context event, (relay.transition (.leaf "b") context event).value
        = .error (.unknownState "relay" "b")
  := by
  obtain ⟨-, haccepted, hrejected, -⟩ :=
    Machine.compile_sound keyed_relayDescriptor compile_relayDescriptor
  refine ⟨keyed_relayDescriptor, compile_relayDescriptor, ?_, ?_⟩
  · intro context event
    obtain ⟨next, hnext, -, hfits, hlabels⟩ :=
      haccepted (.leaf "a") _ .empty rfl context event
    exact ⟨next, hnext, hfits, hlabels⟩
  · intro context event
    exact hrejected (.leaf "b") _ .empty rfl context event

end Statechart
