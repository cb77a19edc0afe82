import Mathlib.Data.List.Nodup
import Statechart.Proofs.Soundness

/-!
# Transitions without an event

The candidates of a delay are chosen and taken as the candidates of an event are, and so is the
transition that a reaction makes: what is found is what the event leads to in the machine where
the state has these candidates for it (`Machine.IsCompiled.concurs`).
-/

namespace Statechart

variable {κ : Type}

/-! ### Other candidates for an event -/

/-- The state with these candidates for the events of a kind. -/
def Node.handling (n : Node κ) (kind : String) (ts : List (Candidate κ)) : Node κ :=
  { n with on := n.on.insert kind ts }

/-- The chart in which a state has these candidates for the events of a kind. -/
def Chart.handling (c : Chart κ) (state kind : String) (ts : List (Candidate κ)) : Chart κ :=
  match c.nodes.get? state with
  | some n => { c with nodes := c.nodes.insert state (n.handling kind ts) }
  | none => c

/-- The flat machine in which a state has these candidates for the events of a kind. -/
def Machine.handling (m : Machine κ) (state kind : String) (ts : List (Candidate κ)) :
    Machine κ :=
  match m.topology with
  | .flat chart => { m with topology := .flat (chart.handling state kind ts) }
  | .parallel _ => m

namespace Chart

variable {c : Chart κ} {state kind : String} {n : Node κ} {ts : List (Candidate κ)}

theorem candidates_handling (n : Node κ) (event : Event) (ts : List (Candidate κ)) :
  candidates (n.handling event.kind ts) event = ts
  := by
  rw [candidates, Node.handling, OrderedMap.get?_insert_self, Option.getD_some]

/-- The states are the same, but for the candidates of one of them. -/
theorem node_handling (hn : c.nodes.get? state = some n) (key : String) :
  (c.handling state kind ts).node key
    = if state = key then .ok (n.handling kind ts) else c.node key
  := by
  simp only [handling, hn, node, OrderedMap.get?_insert]
  by_cases hkey : state = key
  · simp only [if_pos hkey]
  · simp only [if_neg hkey]

/-- The candidates of events have no part in what happens when a candidate is taken. -/
theorem take_handling (hn : c.nodes.get? state = some n) (t : Candidate κ) (context : Context)
    (event : Event) :
  (c.handling state kind ts).take (n.handling kind ts) t context event
    = c.take n t context event
  := by
  rw [take, take, plan, plan]
  cases t.target with
  | none => rfl
  | some key =>
    simp only [node_handling hn]
    by_cases hkey : state = key
    · subst hkey
      rw [if_pos rfl, node_eq_ok_iff.mpr hn]
      rfl
    · rw [if_neg hkey]
      cases c.node key <;> rfl

theorem takeFirst_handling (hn : c.nodes.get? state = some n) (ts' : List (Candidate κ))
    (context : Context) (event : Event) :
  (c.handling state kind ts).takeFirst (n.handling kind ts) ts' context event
    = c.takeFirst n ts' context event
  := by
  simp only [takeFirst, take_handling hn]
  rfl

end Chart

/-! ### What is found -/

/-- Something is found at a state if and only if the guard of one of the candidates passes, and
the event leads to what is found, or to no change, where the state has these candidates for it.
Guards and assigns are evaluated alike. -/
structure Machine.Concurs (m : Machine κ) (state : String) (n : Node κ)
    (ts : List (Candidate κ)) (context : Context) (event : Event)
    (found : Evaluated (Except MachineError (Option (Snapshot κ)))) : Prop where
  value : ∃ s?, found.value = .ok s?
    ∧ (s?.isSome = true ↔ ∃ t ∈ ts, t.passes context event n.metadata = true)
    ∧ ((m.handling state event.kind ts).transition (.leaf state) context event).value
      = .ok (s?.getD (.resting (.leaf state) context n.metadata))
  evaluations :
    ((m.handling state event.kind ts).transition (.leaf state) context event).evaluations
      = found.evaluations

namespace Chart

variable {c : Chart κ} {state : String} {n : Node κ} {ts : List (Candidate κ)}

theorem value_takeFirst_eq_none_iff {context : Context} {event : Event} :
  (c.takeFirst n ts context event).value = none
    ↔ ∀ t ∈ ts, t.passes context event n.metadata = false
  := by
  rw [takeFirst, Evaluated.value_bind, Candidate.value_select]
  cases hfind : ts.find? fun t => t.passes context event n.metadata with
  | none => simpa using hfind
  | some t =>
    apply iff_of_false
    · rintro ⟨⟩
    · intro hnone
      have hpasses := List.find?_some hfind
      rw [hnone t (List.mem_of_find?_eq_some hfind)] at hpasses
      cases hpasses

/-- The delays of a state are found under their keys. -/
theorem Sound.after?_eq_some (sound : c.Sound) (hn : c.nodes.get? state = some n)
    {d : Delayed κ} (hd : d ∈ n.after) :
  n.after? d.key = some d
  := by
  cases hfind : n.after? d.key with
  | none =>
    have habsent := List.find?_eq_none.mp hfind d hd
    exact absurd (decide_eq_true rfl) habsent
  | some d' =>
    have hkey : d'.key = d.key := by simpa using List.find?_some hfind
    have hd' : d' ∈ n.after := List.mem_of_find?_eq_some hfind
    rw [List.inj_on_of_nodup_map (sound.delays hn) hd' hd hkey]

end Chart

namespace Machine

variable {m : Machine κ} {chart : Chart κ} {state : String} {n : Node κ}
  {ts : List (Candidate κ)} {context : Context} {event : Event}
  {found : Evaluated (Except MachineError (Option (Snapshot κ)))}

/-- The event leads to what taking the first of the candidates gives. -/
theorem transition_handling (hflat : m.topology = .flat chart)
    (hn : chart.nodes.get? state = some n) (ts : List (Candidate κ)) (context : Context)
    (event : Event) :
  (m.handling state event.kind ts).transition (.leaf state) context event
    = (fun r => r.getD (.ok (.resting (.leaf state) context n.metadata)))
      <$> chart.takeFirst n ts context event
  := by
  have htopology : (m.handling state event.kind ts).topology
      = .flat (chart.handling state event.kind ts) := by
    rw [handling, hflat]
  rw [transition, htopology]
  simp only [leaf, Chart.resolve, Chart.node_handling hn, if_true, Chart.candidates_handling,
    Chart.takeFirst_handling hn]
  rw [map_eq_pure_bind]
  congr 1
  funext r
  cases r <;> rfl

/-- What taking the first of the candidates gives, where a sound chart offers them. -/
theorem concurs_of_takeFirst (hflat : m.topology = .flat chart) (sound : chart.Sound)
    (hn : chart.nodes.get? state = some n) (offers : ∀ t ∈ ts, n.Offers t)
    (hfound : found = Option.sequence <$> chart.takeFirst n ts context event) :
  m.Concurs state n ts context event found
  := by
  have htransition := transition_handling hflat hn ts context event
  constructor
  · rw [htransition, hfound, Evaluated.value_map, Evaluated.value_map]
    obtain hnone | ⟨s, hs, -⟩ := sound.value_takeFirst hn offers context event
    · rw [hnone]
      refine ⟨none, rfl, ?_, rfl⟩
      have hrefused := Chart.value_takeFirst_eq_none_iff.mp hnone
      simpa using hrefused
    · rw [hs]
      refine ⟨some s, rfl, ?_, rfl⟩
      have hnot : ¬∀ t ∈ ts, t.passes context event n.metadata = false := by
        rw [← Chart.value_takeFirst_eq_none_iff (c := chart), hs]
        rintro ⟨⟩
      simpa using hnot
  · rw [htransition, hfound, Evaluated.evaluations_map, Evaluated.evaluations_map]

/-! ### Delays and reactions -/

/-- A delay takes the first of its candidates. -/
theorem fireAfter_eq_takeFirst (hflat : m.topology = .flat chart)
    (hn : chart.nodes.get? state = some n) {key : String} {d : Delayed κ}
    (hd : n.after? key = some d) (context : Context) (event : Event) :
  m.fireAfter state key context event
    = Option.sequence <$> chart.takeFirst n d.candidates context event
  := by
  simp only [fireAfter, hflat, Chart.node_eq_ok_iff.mpr hn, hd]
  rw [map_eq_pure_bind]
  congr 1
  funext r
  rcases r with _ | _ | _ <;> rfl

/-- A reaction takes its only candidate. -/
theorem react_eq_takeFirst (hflat : m.topology = .flat chart)
    (hn : chart.nodes.get? state = some n) (t : Candidate κ) (context : Context)
    (event : Event) :
  m.react state t context event = Option.sequence <$> chart.takeFirst n [t] context event
  := by
  simp only [react, hflat, Chart.node_eq_ok_iff.mpr hn, Chart.takeFirst, Candidate.select,
    map_eq_pure_bind, bind_assoc]
  congr 1
  funext passed
  cases passed with
  | false => simp only [Bool.false_eq_true, if_false, pure_bind]; rfl
  | true =>
    simp only [if_true, pure_bind, bind_assoc]
    congr 1
    funext r
    cases r <;> rfl

/-- The delays and the reactions of a state lead where an event leads that has the same
candidates: they find something if and only if a guard passes, and then what they find is what
follows the event. -/
theorem IsCompiled.concurs (h : m.IsCompiled) (hflat : m.topology = .flat chart)
    (hn : chart.nodes.get? state = some n) (context : Context) :
  (∀ d ∈ n.after, m.Concurs state n d.candidates context (.after d.key)
      (m.fireAfter state d.key context (.after d.key)))
    ∧ ∀ v ∈ n.invoke, ∀ t, v.onDone = some (.transition t) ∨ v.onError = some (.transition t) →
        ∀ event, m.Concurs state n [t] context event (m.react state t context event)
  := by
  have sound : chart.Sound := by
    have htopology := h.sound.topology
    rwa [hflat] at htopology
  constructor
  · intro d hd
    have offers : ∀ t ∈ d.candidates, n.Offers t := fun t ht => .after hd ht
    have hafter := sound.after?_eq_some hn hd
    exact concurs_of_takeFirst hflat sound hn offers (fireAfter_eq_takeFirst hflat hn hafter _ _)
  · intro v hv t hreaction event
    have offers : ∀ t' ∈ [t], n.Offers t' := by
      intro t' ht'
      rw [List.mem_singleton.mp ht']
      exact hreaction.elim (.done hv) (.failed hv)
    exact concurs_of_takeFirst hflat sound hn offers (react_eq_takeFirst hflat hn t _ _)

/-- A crossing where a pedestrian waits: the delay of `wait` counts on unless a car is near,
and the light that it watches may end the wait.  It has another transition for the event of
the delay. -/
def crossingDescriptor : MachineDescriptor String where
  id := some "crossing"
  initial := some "wait"
  kind := .atomic
  context := .empty
  metadata := none
  states := ⟨[
    ("wait", { StateDescriptor.empty with
      on := ⟨[("statecraft.after.100", [.ofTarget "walk"])]⟩
      after := ⟨[("100", [⟨some "wait", [], some (.named "near")⟩,
        ⟨none, [.named "count", .inline "beep" "beeped"], none⟩])]⟩
      exit := [.inline "leave" "left"]
      invoke := [⟨"light", .service "light", none,
        some (.transition ⟨some "walk", [], some (.named "near")⟩),
        some (.transition (.ofTarget "walk"))⟩]
      metadata := some (.bool false) }),
    ("walk", { StateDescriptor.empty with
      entry := [.inline "go" "gone"]
      metadata := some (.bool true) })]⟩

/-- The code of the crossing: a car is near once the count has been made. -/
def crossingBundle : Bundle String :=
  (Bundle.empty.withAssign "count" (.properties [("counted", .constant (.bool true))])).withGuard
    "near" ⟨"near", fun context _ _ => (context.get? "counted").isSome⟩

/-- The delay of the crossing counts and the failure of its light ends the wait, as events with
these candidates would; the completion of the light finds nothing before the count. -/
theorem crossing_concurs :
  ∃ (m : Machine String) (chart : Chart String) (n : Node String),
    m.IsCompiled ∧ m.topology = .flat chart ∧ chart.nodes.get? "wait" = some n
    ∧ (∀ d ∈ n.after, m.Concurs "wait" n d.candidates .empty (.after d.key)
        (m.fireAfter "wait" d.key .empty (.after d.key)))
    ∧ (∀ v ∈ n.invoke, ∀ t, v.onDone = some (.transition t) ∨ v.onError = some (.transition t) →
        ∀ event, m.Concurs "wait" n [t] .empty event (m.react "wait" t .empty event))
    ∧ (m.fireAfter "wait" "100" .empty (.after "100")).value
      = .ok (some ⟨.leaf "wait", ⟨[("counted", .bool true)]⟩, some (.bool false),
          [⟨"beep", "beeped", some (.bool false)⟩], true, true⟩)
    ∧ n.invoke.map (fun v => (v.onDone.isSome, v.onError.isSome)) = [(true, true)]
  := by
  have hcompile : (Machine.compile crossingDescriptor crossingBundle).value = .ok _ := rfl
  have hcompiled : Machine.IsCompiled _ :=
    ⟨crossingDescriptor, crossingBundle,
      MachineDescriptor.keyed_of_shallow (by decide) (by decide), hcompile⟩
  have hnode : (Chart.ofStates crossingBundle "crossing" none "wait"
      crossingDescriptor.states).nodes.get? "wait" = some _ := rfl
  obtain ⟨hdelays, hreactions⟩ := hcompiled.concurs rfl hnode .empty
  exact ⟨_, _, _, hcompiled, rfl, hnode, hdelays, hreactions, rfl, rfl⟩

end Machine

end Statechart
