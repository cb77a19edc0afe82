import Statechart.Machine

/-!
# Steps

The actions of a transition, in the order in which they are carried out, each with the
metadata of the state it belongs to.  Running them threads the context through the
assigns and collects the effects.
-/

namespace Statechart

variable {κ : Type}

/-- An action at work in a transition. -/
structure Step (κ : Type) where
  operation : Operation κ
  metadata : Option Meta

/-- What running steps gives: the effects in order, the last context, and whether an
assign ran. -/
structure Outcome (κ : Type) where
  actions : List (PendingEffect κ)
  context : Context
  assigned : Bool

namespace Step

/-- The steps of actions that belong to one state. -/
def all (operations : List (Operation κ)) (metadata : Option Meta) : List (Step κ) :=
  operations.map fun o => ⟨o, metadata⟩

/-- Runs steps. -/
def run (event : Event) : List (Step κ) → Context → Evaluated (Outcome κ)
  | [], context => pure ⟨[], context, false⟩
  | ⟨.assign change, metadata⟩ :: rest, context => do
    let next ← change.apply context event metadata
    let outcome ← run event rest next
    return { outcome with assigned := true }
  | ⟨.effect name code, metadata⟩ :: rest, context => do
    let outcome ← run event rest context
    return { outcome with actions := ⟨name, code, metadata⟩ :: outcome.actions }

/-- The effect that a step holds, if it is one. -/
def effect? (s : Step κ) : Option (PendingEffect κ) :=
  match s.operation with
  | .effect name code => some ⟨name, code, s.metadata⟩
  | .assign _ => none

/-- The effects are collected in order, whatever the context is. -/
theorem actions_run (event : Event) (steps : List (Step κ)) (context : Context) :
  (run event steps context).value.actions = steps.filterMap effect?
  := by
  induction steps generalizing context with
  | nil => rfl
  | cons s rest ih =>
    obtain ⟨operation, metadata⟩ := s
    cases operation with
    | effect name code => simp [run, effect?, ih]
    | assign change => simp [run, List.filterMap_cons, effect?, ih]

/-- The context that the first steps give is the one that the others read. -/
theorem context_run_append (event : Event) (xs ys : List (Step κ)) (context : Context) :
  (run event (xs ++ ys) context).value.context
    = (run event ys (run event xs context).value.context).value.context
  := by
  induction xs generalizing context with
  | nil => rfl
  | cons s rest ih =>
    obtain ⟨operation, metadata⟩ := s
    cases operation with
    | effect name code => simp [run, ih]
    | assign change => simp [run, ih]

end Step

/-! ### Choosing a candidate -/

namespace Candidate

/-- Whether the guard passes, if there is one. -/
def allows (c : Candidate κ) (context : Context) (event : Event) (metadata : Option Meta) :
    Evaluated Bool :=
  match c.guard with
  | none => pure true
  | some guard => guard.check context event metadata

/-- Whether the guard passes, without the record of its evaluation. -/
def passes (c : Candidate κ) (context : Context) (event : Event) (metadata : Option Meta) :
    Bool :=
  match c.guard with
  | none => true
  | some guard => guard.run context event metadata

/-- A candidate is allowed when its guard passes; the rest is the log. -/
@[simp]
theorem value_allows (c : Candidate κ) (context : Context) (event : Event)
    (metadata : Option Meta) :
  (c.allows context event metadata).value = c.passes context event metadata
  := by
  cases h : c.guard <;> simp [allows, passes, h]

/-- The first candidate whose guard passes. -/
def select (context : Context) (event : Event) (metadata : Option Meta) :
    List (Candidate κ) → Evaluated (Option (Candidate κ))
  | [] => pure none
  | c :: rest => do
    if ← c.allows context event metadata then pure (some c)
    else select context event metadata rest

/-- The first candidate that passes is selected; guards behind it are not evaluated. -/
theorem value_select (context : Context) (event : Event) (metadata : Option Meta)
    (candidates : List (Candidate κ)) :
  (select context event metadata candidates).value
    = candidates.find? fun c => c.passes context event metadata
  := by
  induction candidates with
  | nil => rfl
  | cons c rest ih =>
    by_cases h : c.passes context event metadata <;> simp [select, List.find?, h, ih]

end Candidate

end Statechart
