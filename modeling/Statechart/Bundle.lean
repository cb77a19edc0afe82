import Statechart.Action

/-!
# Bundles

The code behind the names of a descriptor: effects and assigns, guards, delays and
services.  Later declarations of a name replace earlier ones.
-/

namespace Statechart

/-- The services of a machine: labels of the code that makes child machines. -/
abbrev Services (κ : Type) : Type := OrderedMap κ

namespace Services

variable {κ : Type}

/-- The services of `s` over those of `fallback`. -/
def withFallback (s fallback : Services κ) : Services κ := OrderedMap.merge fallback s

end Services

/-- What the name of an action stands for. -/
inductive Implementation (κ : Type) where
  | effect (code : κ)
  | assign (change : Assign)

/-- The code behind the names of a descriptor. -/
structure Bundle (κ : Type) where
  actions : OrderedMap (Implementation κ)
  guards : OrderedMap Guard
  delays : OrderedMap (Rule Nat)
  services : Services κ

namespace Bundle

variable {κ : Type}

/-- The bundle without names. -/
def empty : Bundle κ := ⟨.empty, .empty, .empty, .empty⟩

instance : Inhabited (Bundle κ) := ⟨empty⟩

/-- Declares an effect. -/
def withEffect (b : Bundle κ) (name : String) (code : κ) : Bundle κ :=
  { b with actions := b.actions.insert name (.effect code) }

/-- Declares an assign. -/
def withAssign (b : Bundle κ) (name : String) (change : Assign) : Bundle κ :=
  { b with actions := b.actions.insert name (.assign change) }

/-- Declares a guard. -/
def withGuard (b : Bundle κ) (name : String) (guard : Guard) : Bundle κ :=
  { b with guards := b.guards.insert name guard }

/-- Declares a delay. -/
def withDelay (b : Bundle κ) (name : String) (delay : Rule Nat) : Bundle κ :=
  { b with delays := b.delays.insert name delay }

/-- Declares a service. -/
def withService (b : Bundle κ) (name : String) (code : κ) : Bundle κ :=
  { b with services := b.services.insert name code }

/-- Replaces the services. -/
def withServices (b : Bundle κ) (services : Services κ) : Bundle κ :=
  { b with services := services }

/-- The declarations of `b` overridden by those of `c`. -/
def merge (b c : Bundle κ) : Bundle κ where
  actions := b.actions.merge c.actions
  guards := b.guards.merge c.guards
  delays := b.delays.merge c.delays
  services := c.services.withFallback b.services

end Bundle

end Statechart
