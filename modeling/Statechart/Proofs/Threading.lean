import Statechart.Machine.Step
import Statechart.Table

/-!
# Threading steps

To run steps is to run the assigns among them on the context and to collect the effects among
them, and neither depends on the other.  So steps may be cut anywhere, and assigns and effects may
be interleaved in any way.  `Step.thread` is the same as a loop over contexts that are held by
their numbers, and it ends with the context that it was given exactly if no step is an assign.
The main statement is `Step.threads`.
-/

namespace Statechart

variable {κ : Type}

/-- The outcome of steps that are run after others. -/
def Outcome.followedBy (first second : Outcome κ) : Outcome κ :=
  ⟨first.actions ++ second.actions, second.context, first.assigned || second.assigned⟩

namespace Step

/-- The assign that a step holds, with the metadata that it reads, if it is one. -/
def assign? (s : Step κ) : Option (Assign × Option Meta) :=
  match s.operation with
  | .assign change => some (change, s.metadata)
  | .effect _ _ => none

/-! ### Steps cut in two -/

/-- Steps are run one after another on the contexts that those before them give. -/
theorem run_append (event : Event) (xs ys : List (Step κ)) (context : Context) :
  run event (xs ++ ys) context = do
    let first ← run event xs context
    let second ← run event ys first.context
    return first.followedBy second
  := by
  induction xs generalizing context with
  | nil => apply Evaluated.ext <;> simp [run, Outcome.followedBy]
  | cons s rest ih =>
    obtain ⟨operation, metadata⟩ := s
    cases operation with
    | effect name code => apply Evaluated.ext <;> simp [run, ih, Outcome.followedBy]
    | assign change => apply Evaluated.ext <;> simp [run, ih, Outcome.followedBy]

/-! ### Assigns and effects apart -/

/-- Carries out assigns one after another, each on the context that those before it give. -/
def assignAll (event : Event) : List (Assign × Option Meta) → Context → Evaluated Context
  | [], context => pure context
  | (change, metadata) :: rest, context => do
    let next ← change.apply context event metadata
    assignAll event rest next

/-- The context comes from the assigns and the actions are the effects. -/
theorem run_eq (event : Event) (steps : List (Step κ)) (context : Context) :
  run event steps context = do
    let last ← assignAll event (steps.filterMap assign?) context
    return ⟨steps.filterMap effect?, last, !(steps.filterMap assign?).isEmpty⟩
  := by
  induction steps generalizing context with
  | nil => rfl
  | cons s rest ih =>
    obtain ⟨operation, metadata⟩ := s
    cases operation with
    | effect name code =>
      apply Evaluated.ext <;>
        simp [run, ih, List.filterMap_cons, assign?, effect?]
    | assign change =>
      apply Evaluated.ext <;>
        simp [run, ih, List.filterMap_cons, assign?, effect?, assignAll]

/-- Steps with the same assigns and the same effects give the same, in whatever way the ones stand
between the others. -/
theorem run_congr {xs ys : List (Step κ)} (hassigns : xs.filterMap assign? = ys.filterMap assign?)
    (heffects : xs.filterMap effect? = ys.filterMap effect?) (event : Event) (context : Context) :
  run event xs context = run event ys context
  := by
  rw [run_eq, run_eq, hassigns, heffects]

/-! ### Contexts by their numbers -/

/-- What a loop over steps holds: the contexts that there are, by their numbers, the number of the
current one, the effects so far, and whether an assign ran. -/
structure Thread (κ : Type) where
  contexts : Table Context
  current : Nat
  actions : List (PendingEffect κ)
  assigned : Bool

namespace Thread

/-- The context at hand. -/
def context (t : Thread κ) : Context := (t.contexts.get? t.current).getD .empty

/-- What the steps so far have given. -/
def outcome (t : Thread κ) : Outcome κ := ⟨t.actions, t.context, t.assigned⟩

/-- A round of the loop: an assign makes a new context and passes on to it; an effect is put last,
and the context is shared with the next round. -/
def next (event : Event) (t : Thread κ) (s : Step κ) : Evaluated (Thread κ) :=
  match s.operation with
  | .assign change => do
    let made ← change.apply t.context event s.metadata
    return { t with
      contexts := t.contexts.add made
      current := t.contexts.next
      assigned := true }
  | .effect name code => return { t with actions := t.actions ++ [⟨name, code, s.metadata⟩] }

/-- The loop goes on from where it is. -/
def run (event : Event) (steps : List (Step κ)) (t : Thread κ) : Evaluated (Thread κ) :=
  steps.foldlM (next event) t

end Thread

/-- The loop over steps on the context with a number. -/
def thread (event : Event) (steps : List (Step κ)) (contexts : Table Context) (given : Nat) :
    Evaluated (Thread κ) :=
  Thread.run event steps ⟨contexts, given, [], false⟩

namespace Thread

variable {event : Event} {steps : List (Step κ)} {t : Thread κ}

/-- What has become of a thread by some steps.  Its outcome is followed by what the steps give on
the context at hand, every context that was there is still there, and the one at hand is shared
exactly if no step is an assign. -/
structure Carried (event : Event) (steps : List (Step κ)) (t : Thread κ)
    (e : Evaluated (Thread κ)) : Prop where
  outcome : outcome <$> e = t.outcome.followedBy <$> Step.run event steps t.context
  bound : e.value.current < e.value.contexts.next
  kept : t.contexts.next ≤ e.value.contexts.next
    ∧ ∀ i < t.contexts.next, e.value.contexts.get? i = t.contexts.get? i
  shared : steps.filterMap assign? = [] → e.value.current = t.current
  made : steps.filterMap assign? ≠ [] → t.contexts.next ≤ e.value.current

theorem carried_nil (h : t.current < t.contexts.next) :
  Carried event [] t (run event [] t)
  where
  outcome := by apply Evaluated.ext <;> simp [run, Step.run, Outcome.followedBy, Thread.outcome]
  bound := h
  kept := ⟨Nat.le_refl _, fun _ _ => rfl⟩
  shared _ := rfl
  made h := absurd rfl h

/-- Steps are carried out after others. -/
theorem Carried.append {xs ys : List (Step κ)} {e : Evaluated (Thread κ)}
    {f : Thread κ → Evaluated (Thread κ)} (hx : Carried event xs t e)
    (hy : Carried event ys e.value (f e.value)) :
  Carried event (xs ++ ys) t (e >>= f)
  := by
  have hvalue : e.value.outcome = t.outcome.followedBy (Step.run event xs t.context).value :=
    congrArg Evaluated.value hx.outcome
  have hcontext : e.value.context = (Step.run event xs t.context).value.context :=
    congrArg Outcome.context hvalue
  have hlog : e.evaluations = (Step.run event xs t.context).evaluations := by
    simpa using congrArg Evaluated.evaluations hx.outcome
  have hvalue' := congrArg Evaluated.value hy.outcome
  have hlog' := congrArg Evaluated.evaluations hy.outcome
  simp only [Evaluated.value_map, Evaluated.evaluations_map] at hvalue' hlog'
  refine ⟨?_, hy.bound, ⟨Nat.le_trans hx.kept.1 hy.kept.1, fun i hi => ?_⟩, fun hnone => ?_,
    fun hsome => ?_⟩
  · rw [run_append]
    apply Evaluated.ext
    · simp [hvalue', hvalue, hcontext, Outcome.followedBy, Bool.or_assoc]
    · simp [hlog', hlog, hcontext]
  · rw [Evaluated.value_bind, hy.kept.2 i (Nat.lt_of_lt_of_le hi hx.kept.1), hx.kept.2 i hi]
  · rw [List.filterMap_append, List.append_eq_nil_iff] at hnone
    rw [Evaluated.value_bind, hy.shared hnone.2, hx.shared hnone.1]
  · rw [Evaluated.value_bind]
    by_cases hys : ys.filterMap assign? = []
    · rw [hy.shared hys]
      apply hx.made
      rwa [List.filterMap_append, hys, List.append_nil] at hsome
    · exact Nat.le_trans hx.kept.1 (hy.made hys)

/-- A round carries a thread through one step. -/
theorem carried_next (event : Event) (s : Step κ) (h : t.current < t.contexts.next) :
  Carried event [s] t (next event t s)
  := by
  obtain ⟨operation, metadata⟩ := s
  cases operation with
  | effect name code =>
    refine ⟨?_, h, ⟨Nat.le_refl _, fun _ _ => rfl⟩, fun _ => rfl, fun hne => absurd rfl hne⟩
    apply Evaluated.ext <;>
      simp [next, Step.run, outcome, context, Outcome.followedBy]
  | assign change =>
    refine ⟨?_, ?_, ⟨?_, fun i hi => ?_⟩, fun hnone => ?_, fun _ => ?_⟩
    · apply Evaluated.ext <;>
        simp [next, Step.run, outcome, context, Outcome.followedBy, Table.get?_add]
    · simp [next]
    · simp [next]
    · simp [next, Table.get?_add, Nat.ne_of_lt hi]
    · cases hnone
    · simp [next]

/-- The loop carries a thread through its steps. -/
theorem carried_run (event : Event) (steps : List (Step κ)) (h : t.current < t.contexts.next) :
  Carried event steps t (run event steps t)
  := by
  induction steps generalizing t with
  | nil => exact carried_nil h
  | cons s rest ih =>
    have hs := carried_next event s h
    rw [run, List.foldlM_cons]
    exact hs.append (ih hs.bound)

end Thread

/-! ### What steps give -/

/-- Steps may be cut anywhere, and nothing but the order of the assigns and that of the effects
counts.  The loop over contexts gives the same; it leaves the given context as it is, and ends
with it exactly if no step is an assign. -/
theorem threads (event : Event) {contexts : Table Context} {given : Nat} {context : Context}
    (hgiven : contexts.get? given = some context) :
  (∀ xs ys : List (Step κ), run event (xs ++ ys) context = do
    let first ← run event xs context
    let second ← run event ys first.context
    return ⟨first.actions ++ second.actions, second.context, first.assigned || second.assigned⟩)
  ∧ (∀ xs ys : List (Step κ), xs.filterMap assign? = ys.filterMap assign? →
      xs.filterMap effect? = ys.filterMap effect? → run event xs context = run event ys context)
  ∧ ∀ steps : List (Step κ),
      Thread.outcome <$> thread event steps contexts given = run event steps context
      ∧ (thread event steps contexts given).value.contexts.get? given = some context
      ∧ ((thread event steps contexts given).value.current = given
          ↔ ∀ s ∈ steps, s.assign? = none)
  := by
  refine ⟨fun xs ys => run_append event xs ys context,
    fun xs ys hassigns heffects => run_congr hassigns heffects event context, fun steps => ?_⟩
  have hbound := Table.lt_next_of_get? hgiven
  have hcontext : Thread.context (κ := κ) ⟨contexts, given, [], false⟩ = context := by
    simp [Thread.context, hgiven]
  have hcarried :=
    Thread.carried_run (κ := κ) (t := ⟨contexts, given, [], false⟩) event steps hbound
  refine ⟨?_, ?_, ?_, fun hnone => ?_⟩
  · rw [thread, hcarried.outcome, hcontext]
    apply Evaluated.ext <;> simp [Thread.outcome, Outcome.followedBy]
  · rw [thread, hcarried.kept.2 given hbound, hgiven]
  · intro hsame
    rw [← List.filterMap_eq_nil_iff]
    apply Classical.byContradiction
    intro hsome
    have hmade : contexts.next ≤ given := hsame ▸ hcarried.made hsome
    exact Nat.lt_irrefl _ (Nat.lt_of_lt_of_le hbound hmade)
  · exact hcarried.shared (List.filterMap_eq_nil_iff.mpr hnone)

/-- A step that counts in the context. -/
def counting : Step String where
  operation := .assign (.properties
    [("count", .computed ⟨"increment", fun context _ _ =>
      .int (((context.get? "count").bind Json.int64?).getD 0 + 1)⟩)])
  metadata := none

/-- A step with an effect. -/
def logging : Step String := ⟨.effect "log" "log", none⟩

/-- To log between counting changes nothing, and to log only leaves the context shared. -/
theorem counting_threads :
  (Table.empty.add (.empty : Context)).get? 0 = some .empty
  ∧ run (.named "TICK") [counting, logging, counting] .empty
    = run (.named "TICK") [logging, counting, counting] .empty
  ∧ (thread (.named "TICK") [logging, logging] (Table.empty.add .empty) 0).value.current = 0
  ∧ (thread (.named "TICK") [logging, counting] (Table.empty.add .empty) 0).value.current ≠ 0
  := by
  have hgiven : (Table.empty.add (.empty : Context)).get? 0 = some .empty := rfl
  obtain ⟨-, hinterleaved, hthread⟩ := threads (κ := String) (.named "TICK") hgiven
  refine ⟨hgiven, hinterleaved _ _ rfl rfl, ?_, ?_⟩
  · apply (hthread [logging, logging]).2.2.mpr
    intro s hs
    obtain rfl : s = logging := by simpa using hs
    rfl
  · intro hsame
    cases (hthread [logging, counting]).2.2.mp hsame counting (by simp)

end Step

end Statechart
