import Statechart.Event

/-!
# Rules and their evaluation

A `Rule` is a named pure function of the context, the event and the metadata of the
state concerned.  Everything that evaluates rules answers in `Evaluated`: a value,
with the list of the evaluations made on the way, in order.  The value never depends
on that list.
-/

namespace Statechart

/-- A named function of context, event and metadata. -/
structure Rule (α : Type) where
  name : String
  run : Context → Event → Option Meta → α

/-- One evaluation of a rule, with what it saw and what it answered as far as that is
of interest to an observer. -/
inductive Evaluation where
  | guard (name : String) (event : Event) (metadata : Option Meta) (passed : Bool)
  | assign (name : String) (event : Event)
  | compute (name : String) (key : String) (event : Event)
  | delay (name : String) (event : Event) (metadata : Option Meta) (millis : Nat)
  | derive (event : Event)

/-- A value and the evaluations that were made to find it. -/
structure Evaluated (α : Type) where
  value : α
  evaluations : List Evaluation

namespace Evaluated

variable {α β : Type}

/-- A value together with the one evaluation that gave it. -/
def single (value : α) (evaluation : Evaluation) : Evaluated α := ⟨value, [evaluation]⟩

instance : Monad Evaluated where
  pure value := ⟨value, []⟩
  bind x f := ⟨(f x.value).value, x.evaluations ++ (f x.value).evaluations⟩

/-- An evaluated result is its value and its log. -/
@[ext]
theorem ext {x y : Evaluated α} (hv : x.value = y.value)
    (he : x.evaluations = y.evaluations) :
  x = y
  := by
  cases x
  cases y
  simp_all

@[simp]
theorem value_pure (a : α) :
  (pure a : Evaluated α).value = a
  := rfl

/-- A result that is given evaluates nothing. -/
@[simp]
theorem evaluations_pure (a : α) :
  (pure a : Evaluated α).evaluations = []
  := rfl

@[simp]
theorem value_bind (x : Evaluated α) (f : α → Evaluated β) :
  (x >>= f).value = (f x.value).value
  := rfl

/-- The log of a sequence is the logs of its parts, in order. -/
@[simp]
theorem evaluations_bind (x : Evaluated α) (f : α → Evaluated β) :
  (x >>= f).evaluations = x.evaluations ++ (f x.value).evaluations
  := rfl

instance : LawfulMonad Evaluated :=
  LawfulMonad.mk' Evaluated
    (fun x => by apply ext <;> simp [Functor.map])
    (fun a f => by apply ext <;> simp)
    (fun x f g => by apply ext <;> simp)

@[simp]
theorem value_map (f : α → β) (x : Evaluated α) :
  (f <$> x).value = f x.value
  := rfl

/-- Changing the value of a result evaluates nothing more. -/
@[simp]
theorem evaluations_map (f : α → β) (x : Evaluated α) :
  (f <$> x).evaluations = x.evaluations
  := List.append_nil x.evaluations

end Evaluated

end Statechart
