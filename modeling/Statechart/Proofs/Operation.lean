import Statechart.Proofs.Impulse

/-!
# What steps do to timers

A step performs the operation on timers that the host asks for, or the clock goes on in it, or
the engine makes, starts and destroys timers by itself (`Timing.Covers.step`).
-/

namespace Statechart

variable {κ π σ : Type}

/-- A relation between readings of a clock that covers what engines do with timers by themselves:
they make them and start them at once, and destroy them, one after another. -/
structure Timing.Manages {τ : Type} (R : Timing τ → Timing τ → Prop) : Prop where
  refl : ∀ t, R t t
  trans : ∀ {t t' t''}, R t t' → R t' t'' → R t t''
  arm : ∀ t pool delay callback,
    R t ((t.newTimer pool delay callback).start t.timers.next).2
  destroy : ∀ t id, R t (t.destroy id)

/-- A relation that also covers the announcement of completions. -/
structure Timing.Covers {τ : Type} (R : Timing τ → Timing τ → Prop) : Prop
    extends Timing.Manages R where
  announce : ∀ t channel completion, R t (t.announce channel completion)

namespace Configuration

/-- The operation on timers that the host asks for in the next step. -/
def operation? (c : Configuration κ π σ) : Option (Timing (Callback κ) → Timing (Callback κ)) :=
  match c.control with
  | .host (.call call _) => call.operation?
  | _ => none

theorem exists_call_of_operation? {c : Configuration κ π σ}
    {f : Timing (Callback κ) → Timing (Callback κ)} (h : c.operation? = some f) :
  ∃ call point, c.control = .host (.call call point) ∧ call.operation? = some f
  := by
  rw [operation?] at h
  split at h
  · next call point hcontrol => exact ⟨call, point, hcontrol, h⟩
  · cases h

/-- The time that the clock is on its way to in the next step. -/
def target? (c : Configuration κ π σ) : Option Nat :=
  match c.control, c.stack with
  | .back _, .advancing target :: _ => some target
  | _, _ => none

end Configuration

namespace Timing.Manages

variable {R : Timing (Callback κ) → Timing (Callback κ) → Prop}

theorem destroyEach (hR : Manages R) (t : Timing (Callback κ)) (ids : List Nat) :
  R t (t.destroyEach ids)
  := List.foldlRecOn ids _ (motive := R t) (hR.refl t) fun _ h id _ => hR.trans h (hR.destroy _ id)

section

open Engine

theorem foldl (hR : Manages R) {f : Engine κ → Nat → Engine κ}
    (hf : ∀ (r : Engine κ) i, R r.timing (f r i).timing) (r : Engine κ) (is : List Nat) :
  R r.timing (is.foldl f r).timing
  := List.foldlRecOn is f (motive := fun r' => R r.timing r'.timing) (hR.refl _)
    fun _ h i _ => hR.trans h (hf _ i)

/-- Stopping an instance destroys timers. -/
theorem stopWithin (hR : Manages R) (depth : Nat) (r : Engine κ) (i : Nat) :
  R r.timing (Engine.stopWithin depth r i).timing
  := by
  induction depth generalizing r i with
  | zero => exact hR.refl _
  | succ depth ih =>
    cases hx : r.get? i with
    | none =>
      rw [Engine.stopWithin, hx]
      exact hR.refl _
    | some x =>
      by_cases hstopped : x.status = .stopped
      · rw [Engine.stopWithin, hx]
        simp only [hstopped, if_true]
        exact hR.refl _
      · rw [stopWithin_of_ne_stopped hx hstopped]
        have hhalting : R r.timing (r.halting i x).timing := hR.destroyEach _ _
        exact hR.trans hhalting (hR.foldl ih (r.halting i x) x.children.values)

theorem stop (hR : Manages R) (r : Engine κ) (i : Nat) :
  R r.timing (r.stop i).timing
  := hR.stopWithin _ r i

/-- Letting go of instances destroys timers. -/
theorem release (hR : Manages R) (r : Engine κ) (held : List Nat) :
  R r.timing (r.release held).timing
  := by
  apply hR.foldl
  intro r i
  rw [letGo]
  cases r.get? i with
  | none => exact hR.refl _
  | some x => exact hR.destroyEach _ _

/-- Arming delays makes, starts and destroys timers. -/
theorem armEach (hR : Manages R) (o : ArmingOf) (ds : List (Delayed κ)) (a : Arming κ) :
  R a.timing (Engine.armEach o ds a).value.timing
  := by
  have hfresh : ∀ (a : Arming κ) (d : Delayed κ) (t : Timing (Callback κ)),
      R t (armFresh o a d t).timing :=
    fun a d t => hR.arm t _ _ _
  induction ds generalizing a with
  | nil => exact hR.refl _
  | cons d rest ih =>
    refine hR.trans ?_ (ih (armOne o a d).value)
    rw [value_armOne]
    split
    · split
      · exact hR.refl _
      · exact hR.trans (hR.destroy _ _) (hfresh a d _)
    · exact hfresh a d _

theorem armTimers (hR : Manages R) {r r' : Engine κ} {i : Nat}
    (h : (r.armTimers i).value = .ok r') :
  R r.timing r'.timing
  := by
  cases hx : r.get? i with
  | none =>
    rw [Engine.armTimers, hx] at h
    obtain rfl := Except.ok.inj h
    exact hR.refl _
  | some x =>
    obtain ⟨active, ds, -, rfl⟩ := armTimers_eq_ok hx h
    exact hR.trans (hR.armEach _ ds ⟨r.timing, x.timers, []⟩) (hR.destroyEach _ _)

end

/-- What covers the ways in which engines make, start and destroy timers covers what they do by
themselves. -/
theorem covers (hR : Manages R) :
  Configuration.Covers (π := π) fun r _ r' _ => R r.timing r'.timing
  where
  refl _ _ := hR.refl _
  trans h h' := hR.trans h h'
  push _ _ _ := hR.refl _
  pop _ _ _ := hR.refl _
  add _ _ _ := hR.refl _
  modify _ _ _ _ := hR.refl _
  stop r _ i := hR.stop r i
  release r _ held := hR.release r held
  rearm _ _ harmed := hR.armTimers harmed

end Timing.Manages

/-- A call that is an operation on timers does nothing else to the clock. -/
theorem Configuration.timing_perform {H : Host κ π σ} {c : Configuration κ π σ} {call : Call κ}
    {f : Timing (Callback κ) → Timing (Callback κ)} (hf : call.operation? = some f) :
  (perform H c call).engine.timing = f c.engine.timing
  := by
  cases call <;> cases hf <;> rfl

namespace Timing.Covers

open Statechart.Configuration

variable {R : Timing (Callback κ) → Timing (Callback κ) → Prop} {H : Host κ π σ}
  {c d : Configuration κ π σ} {t : Timing (Callback κ)} {below : List (Frame κ π)}

/-- Code of the host is entered, and instances that nobody holds are let go. -/
theorem enter (hR : Covers R) (h : R t c.engine.timing) (code : Engine κ → σ → Next κ π × σ) :
  R t (Configuration.enter H c code).engine.timing
  := hR.trans h (hR.release _ _)

/-- The clock goes on, and then calls what was due. -/
theorem stepClock (hR : Covers R) {target : Nat} (hstack : c.stack = .advancing target :: below) :
  R (c.engine.timing.tick target) (Configuration.stepClock H c target below).engine.timing
  := @Configuration.Covers.stepClock κ π σ _ H c (c.engine.withTiming fun t => t.tick target)
    c.stack below hR.covers target hstack (hR.refl _)

/-- A step performs the operation on timers that the host asks for, or the clock goes on in it
first, or the engine acts by itself. -/
theorem step (hR : Covers R) (h : step? H c = some d) :
  (∃ f, c.operation? = some f ∧ c.target? = none ∧ d.engine.timing = f c.engine.timing)
    ∨ (∃ target, c.operation? = none ∧ c.target? = some target
      ∧ R (c.engine.timing.tick target) d.engine.timing)
    ∨ (c.operation? = none ∧ c.target? = none ∧ R c.engine.timing d.engine.timing)
  := by
  have hcovers := hR.covers.step h
  rw [impulse.eq_def] at hcovers
  rw [operation?, target?]
  cases hcontrol : c.control with
  | host next =>
    rw [hcontrol] at hcovers
    cases next with
    | done => exact .inr (.inr ⟨rfl, rfl, hcovers⟩)
    | call call point =>
      simp only [Call.timing_impulse] at hcovers
      cases hf : call.operation? with
      | some f =>
        simp only [step?, hcontrol, Option.some.injEq] at h
        exact .inl ⟨f, hf, rfl, h ▸ timing_perform hf⟩
      | none =>
        rw [hf] at hcovers
        exact .inr (.inr ⟨hf, rfl, hcovers⟩)
  | back reply =>
    rw [hcontrol] at hcovers
    right
    cases hstack : c.stack with
    | nil => simp [step?, hcontrol, hstack] at h
    | cons f below =>
      rw [hstack] at hcovers
      cases f with
      | advancing target => exact .inl ⟨target, rfl, rfl, hcovers⟩
      | fired channel => exact .inr ⟨rfl, rfl, hR.trans (hR.announce _ _ _) hcovers⟩
      | waiting | working | replaying => exact .inr ⟨rfl, rfl, hcovers⟩

end Timing.Covers

end Statechart
