import Mathlib.Logic.Relation
import Statechart.Proofs.Cascade
import Statechart.Proofs.Invocations

/-!
# Descendants in runs

A child is stored with the instance that invoked it until it is stopped, or until that
instance is let go without having been stopped (`Configuration.Run.invoked_cases`).  So
whatever descends from an instance that was stopped was stopped as well
(`Configuration.Run.stoppedIn_of_descends`).
-/

namespace Statechart

variable {κ π σ : Type}

/-! ### What a move stops -/

namespace Engine

variable {r r' r'' : Engine κ} {i j : Nat} {x y : Instance κ}

/-- No instance is stopped on the way from `r` to `r'`. -/
def StopsNone (r r' : Engine κ) : Prop :=
  ∀ i y, r'.get? i = some y → y.status = .stopped → r.IsStopped i

theorem StopsNone.trans (h : StopsNone r r') (h' : StopsNone r' r'') :
  StopsNone r r''
  := by
  intro i z hz hstopped
  obtain ⟨y, hy, hstopped⟩ := h' i z hz hstopped
  exact h i y hy hstopped

theorem Same.stopsNone (h : Same r r') :
  StopsNone r r'
  := fun i y hy hstopped => ⟨y, (h.get? i).symm.trans hy, hstopped⟩

theorem Sets.stopsNone (h : Sets r r' i y) (hx : r.get? i = some x)
    (hstatus : y.status = .stopped → x.status = .stopped) :
  StopsNone r r'
  := by
  intro j z hz hstopped
  rw [h.get?] at hz
  split at hz
  · next hj =>
    obtain rfl := Option.some.inj hz
    exact ⟨x, hj ▸ hx, hstatus hstopped⟩
  · exact ⟨z, hz, hstopped⟩

theorem Adds.stopsNone (h : Adds r r' y) (hstatus : y.status ≠ .stopped) :
  StopsNone r r'
  := by
  intro j z hz hstopped
  rw [h.get?] at hz
  split at hz
  · obtain rfl := Option.some.inj hz
    exact absurd hstopped hstatus
  · exact ⟨z, hz, hstopped⟩

/-- How instances are stopped on the way from `r` to `r'`: none is, or the one that the
host stops is, or the children of one, and what is below. -/
inductive Stops (stopped : Option Nat) (r r' : Engine κ) : Prop where
  | none : (∀ i x, ¬Falls r r' i x) → Stops stopped r r'
  | call {i : Nat} : stopped = some i → Fells [i] r r' → Stops stopped r r'
  | children {r₁ : Engine κ} {i : Nat} {x : Instance κ} :
    r.get? i = some x → Sets r r₁ i { x with children := .empty } →
      Fells x.children.values r₁ r' → Stops stopped r r'

namespace Stops

variable {stopped : Option Nat}

theorem of_stopsNone (h : StopsNone r r') :
  Stops stopped r r'
  := by
  refine .none fun i x hfalls => ?_
  obtain ⟨y, hy, hstopped⟩ := hfalls.stopped
  obtain ⟨z, hz, hz'⟩ := h i y hy hstopped
  rw [hfalls.get?] at hz
  obtain rfl := Option.some.inj hz
  exact hfalls.status hz'

theorem of_same (h : Same r r') :
  Stops stopped r r'
  := of_stopsNone h.stopsNone

/-- An instance changes that is stopped only if it was. -/
theorem of_sets (hx : r.get? i = some x) (h : Sets r r' i y)
    (hstatus : y.status = .stopped → x.status = .stopped) :
  Stops stopped r r'
  := of_stopsNone (h.stopsNone hx hstatus)

/-- The children of what is stopped are stopped. -/
theorem below (h : Stops stopped r r') (hfalls : Falls r r' i x) {child : Nat}
    (hchild : child ∈ x.children.values) (hy : r'.get? child = some y) :
  y.status = .stopped
  := by
  cases h with
  | none hnone => exact absurd hfalls (hnone i x)
  | call _ hfells => exact hfells.below hfalls child hchild y hy
  | @children r₁ j z hz hsets hfells =>
    by_cases hj : j = i
    · subst hj
      obtain rfl := Option.some.inj (hz.symm.trans hfalls.get?)
      exact hfells.fallen child hchild y hy
    · have hx : r₁.get? i = some x := by
        rw [hsets.get?, if_neg hj, hfalls.get?]
      exact hfells.below ⟨hx, hfalls.status, hfalls.stopped⟩ child hchild y hy

/-- What is stopped is so by the host, or it was stored with an instance that has no
children then. -/
theorem above (h : Stops stopped r r') (hfalls : Falls r r' j y) :
  stopped = some j ∨ ∃ i x, r.get? i = some x ∧ j ∈ x.children.values
    ∧ ∀ z, r'.get? i = some z → z.children = .empty
  := by
  have hempty : ∀ {r i x}, Halts r r' → Falls r r' i x →
      ∀ z, r'.get? i = some z → z.children = .empty := by
    rintro r i x hhalts ⟨hx, hstatus, w, hw, hstopped⟩ z hz
    obtain ⟨x', hx', rfl | ⟨-, rfl, -⟩⟩ := hhalts.exists_get? hz
    · obtain rfl := Option.some.inj (hx.symm.trans hx')
      obtain rfl := Option.some.inj (hz.symm.trans hw)
      exact absurd hstopped hstatus
    · rfl
  cases h with
  | none hnone => exact absurd hfalls (hnone j y)
  | call hstopped hfells =>
    obtain htop | ⟨i, x, hx, hchild⟩ := hfells.above hfalls
    · exact .inl (List.mem_singleton.mp htop ▸ hstopped)
    · exact .inr ⟨i, x, hx.get?, hchild, hempty hfells.halts hx⟩
  | @children r₁ k w hw hsets hfells =>
    right
    have hparent : ∀ z, r'.get? k = some z → z.children = .empty := by
      intro z hz
      obtain ⟨w', hw', rfl | ⟨-, rfl, -⟩⟩ := hfells.halts.exists_get? hz
      · rw [hsets.get?_self] at hw'
        obtain rfl := Option.some.inj hw'
        rfl
      · rfl
    obtain ⟨y₁, hfalls₁⟩ : ∃ y₁, Falls r₁ r' j y₁ := by
      have hy := hsets.get? j
      split at hy
      · next hk =>
        obtain rfl := Option.some.inj (hw.symm.trans (hk ▸ hfalls.get?))
        exact ⟨_, hy, hfalls.status, hfalls.stopped⟩
      · exact ⟨y, hy.trans hfalls.get?, hfalls.status, hfalls.stopped⟩
    obtain htop | ⟨i, x, hx, hchild⟩ := hfells.above hfalls₁
    · exact ⟨k, w, hw, htop, hparent⟩
    · refine ⟨i, x, ?_, hchild, hempty hfells.halts hx⟩
      have hx' := hx.get?
      rw [hsets.get?] at hx'
      split at hx'
      · obtain rfl := Option.some.inj hx'
        cases hchild
      · exact hx'

end Stops

end Engine

open Engine.Stops in
/-- In a move instances are stopped by the host, or by one that stops its children. -/
theorem Move.stops {s : Signal κ} {r r' : Engine κ} {st st' : List (Frame κ π)}
    (hmove : Move s r st r' st') (holder : r.Older) :
  Engine.Stops s.stopped r r'
  := by
  cases hmove with
  | quiet hsame _ _ => exact of_same hsame
  | create hadds _ => exact of_stopsNone (hadds.stopsNone nofun)
  | interpret hsame _ _ => exact of_same hsame
  | listen hx _ h _ => exact of_sets hx h id
  | stop j _ => exact .call rfl (Engine.fells_stop holder j)
  | call hx haccepts h _ =>
    apply of_sets hx h
    cases haccepts with
    | event _ _ => exact id
    | start _ => exact nofun
    | startAt _ _ => exact nofun
  | @fire _ r₁ _ _ _ i x _ _ _ hx _ hsame _ h _ =>
    have hx₁ : r₁.get? i = some x := by
      rw [hsame.get?, hx]
    exact of_stopsNone (hsame.stopsNone.trans (h.stopsNone hx₁ id))
  | ignore hx _ _ h => exact of_sets hx h id
  | stumble hx _ _ _ h => exact of_sets hx h id
  | begin hx _ _ h => exact of_sets hx h id
  | commit hx _ _ _ h => exact of_sets hx h id
  | finish hx _ h => exact of_sets hx h id
  | vanish _ => exact of_same (.refl r)
  | advance _ _ => exact of_same (.refl r)
  | drop _ _ => exact of_same (.refl r)
  | fail _ _ => exact of_same (.refl r)
  | stopChildren hx =>
    obtain ⟨r₁, hsets, hfells⟩ := Engine.fells_stopChildren holder hx
    exact .children hx hsets hfells
  | @spawn _ _ _ i x _ _ state _ v _ m services hx _ _ hspawns =>
    obtain ⟨r₁, r₂, hadds, hx₁, hsets, hchild, hsets'⟩ := hspawns.exists_sets hx
      { Instance.new m services x.pool (some ⟨v.id, state, i⟩) with status := .running }
    apply of_stopsNone
    apply (hadds.stopsNone nofun).trans
    exact (hsets.stopsNone hx₁ id).trans (hsets'.stopsNone hchild nofun)
  | missing hx _ _ h => exact of_sets hx h id
  | rearm hx _ harmed =>
    obtain ⟨r₁, timers, generation, hsame, hx₁, h⟩ := Engine.exists_sets_of_armTimers hx harmed
    exact of_stopsNone (hsame.stopsNone.trans (h.stopsNone hx₁ id))
  | conclude hx h => exact of_sets hx h id
  | report hx _ _ h hy h' => exact of_stopsNone ((h.stopsNone hx id).trans (h'.stopsNone hy id))

/-! ### Stored children -/

/-- The children that are stored with an instance after a turn: those that were, and at most
a new one, which runs. -/
theorem Turn.mem_children {i : Nat} {r r' : Engine κ} {x y : Instance κ}
    {w w' : Option (List (Phase κ))} (h : Turn i r r' x w y w') {child : Nat}
    (hchild : child ∈ y.children.values) :
  child ∈ x.children.values
    ∨ child = r.instances.next ∧ ∃ z, r'.get? child = some z ∧ z.status = .running
  := by
  cases h with
  | stopChildren _ => cases hchild
  | spawn _ hnone hnew =>
    rw [OrderedMap.values_insert hnone, List.mem_append] at hchild
    obtain hold | hchild := hchild
    · exact .inl hold
    · obtain rfl := List.mem_singleton.mp hchild
      exact .inr ⟨rfl, _, hnew, rfl⟩
  | halt _ _ => cases hchild
  | _ => exact .inl hchild

/-- A child that is not stored any more after a turn has been stopped, or its parent has. -/
theorem Turn.children_lost {i : Nat} {r r' : Engine κ} {x y : Instance κ}
    {w w' : Option (List (Phase κ))} (h : Turn i r r' x w y w') {child : Nat}
    (hold : child ∈ x.children.values) (hlost : child ∉ y.children.values) :
  y.status = .stopped ∨ ∀ z, r'.get? child = some z → z.status = .stopped
  := by
  cases h with
  | stopChildren hstopped => exact .inr (hstopped child hold)
  | spawn _ hnone _ =>
    rw [OrderedMap.values_insert hnone] at hlost
    exact absurd (List.mem_append_left _ hold) hlost
  | halt _ _ => exact .inl rfl
  | _ => exact absurd hold hlost

/-- A turn keeps the identifiers of the children distinct. -/
theorem Turn.distinct {i : Nat} {r r' : Engine κ} {x y : Instance κ}
    {w w' : Option (List (Phase κ))} (h : Turn i r r' x w y w') (hx : x.children.Distinct) :
  y.children.Distinct
  := by
  cases h with
  | stopChildren _ => exact OrderedMap.distinct_empty
  | spawn _ _ _ => exact hx.insert _ _
  | halt _ _ => exact OrderedMap.distinct_empty
  | _ => exact hx

/-- The children that are stored with an instance are younger, and they are there. -/
structure Engine.Whole (r : Engine κ) : Prop where
  older : r.Older
  there : ∀ i x, r.get? i = some x → ∀ child ∈ x.children.values, ∃ y, r.get? child = some y

namespace Configuration

variable {H : Host κ π σ} {cs : List (Configuration κ π σ)} {c d : Configuration κ π σ}
  {mid : Engine κ} {i j : Nat}

theorem Goes.whole (hgoes : Goes H c mid d) (h : c.engine.Whole) :
  mid.Whole
  := by
  constructor
  · intro i y hy child hchild
    obtain ⟨x, hx⟩ | ⟨-, harrives⟩ := hgoes.arrives hy
    · obtain hold | ⟨rfl, z, hz, -⟩ := (hgoes.turn hx hy).mem_children hchild
      · obtain ⟨hlt, hnext⟩ := h.older i x hx child hold
        exact ⟨hlt, Nat.lt_of_lt_of_le hnext hgoes.next_le⟩
      · exact ⟨Engine.lt_next_of_get? hx, Engine.lt_next_of_get? hz⟩
    · rw [harrives.children_eq] at hchild
      cases hchild
  · intro i y hy child hchild
    obtain ⟨x, hx⟩ | ⟨-, harrives⟩ := hgoes.arrives hy
    · obtain hold | ⟨-, z, hz, -⟩ := (hgoes.turn hx hy).mem_children hchild
      · obtain ⟨z, hz⟩ := h.there i x hx child hold
        exact hgoes.move.exists_get? hz
      · exact ⟨z, hz⟩
    · rw [harrives.children_eq] at hchild
      cases hchild

/-- In a run the children that are stored with an instance are younger, and they are
there. -/
theorem Run.whole (h : Run H cs c) :
  c.engine.Whole
  := by
  induction h with
  | start memory =>
    constructor
    · intro i x hx
      simp [idle] at hx
    · intro i x hx
      simp [idle] at hx
  | next hrun hstep ih =>
    obtain ⟨mid, hgoes⟩ := hrun.goes hstep
    have hwhole := hgoes.whole ih
    constructor
    · intro i x hx child hchild
      rw [hgoes.releases.next]
      exact hwhole.older i x (hgoes.releases.get?_of_get? hx) child hchild
    · intro i x hx child hchild
      have hthere := hwhole.there i x (hgoes.releases.get?_of_get? hx) child hchild
      obtain heq | ⟨held, heq⟩ := hgoes.release
      · exact heq ▸ hthere
      · rw [heq] at hx ⊢
        rwa [Engine.get?_release_of_child hwhole.older hx hchild]

/-- In a run the identifiers of the children of an instance are distinct. -/
theorem Run.distinct_children (h : Run H cs c) {x : Instance κ}
    (hx : c.engine.get? i = some x) :
  x.children.Distinct
  := by
  refine h.each (p := fun _ x _ => x.children.Distinct) ?_ (fun _ hturn => hturn.distinct) hx
  intro s r i y w harrives _
  rw [harrives.children_eq]
  exact OrderedMap.distinct_empty

/-- A child that is stored with an instance has it as its parent. -/
theorem Run.parent_of_child (h : Run H cs c) {x y : Instance κ} (hx : c.engine.get? i = some x)
    (hchild : j ∈ x.children.values) (hy : c.engine.get? j = some y) :
  ∃ link, y.parent = some link ∧ link.parent = i
  := by
  obtain ⟨id, hid⟩ := (h.distinct_children hx).exists_get? hchild
  obtain ⟨state, hparent, -⟩ := h.kindred.linked i x id j y hx hid hy
  exact ⟨_, hparent, rfl⟩

/-! ### Descendants -/

/-- The instance `j` has been invoked by the instance `i`. -/
def Invoked (cs : List (Configuration κ π σ)) (i j : Nat) : Prop :=
  ∃ d ∈ cs, ∃ y link, d.engine.get? j = some y ∧ y.parent = some link ∧ link.parent = i

instance (cs : List (Configuration κ π σ)) (i j : Nat) : Decidable (Invoked cs i j) :=
  decidable_of_iff (∃ d ∈ cs, ((d.engine.get? j).bind Instance.parent).any fun link =>
      link.parent = i) (by
    simp only [Invoked, Option.any_eq_true, Option.bind_eq_some_iff, decide_eq_true_eq]
    constructor
    · rintro ⟨d, hd, link, ⟨y, hy, hlink⟩, hparent⟩
      exact ⟨d, hd, y, link, hy, hlink, hparent⟩
    · rintro ⟨d, hd, y, link, hy, hlink, hparent⟩
      exact ⟨d, hd, link, ⟨y, hy, hlink⟩, hparent⟩)

/-- The instance `j` has been invoked by `i`, or by one that was invoked by `i`, and so
on. -/
def Descends (cs : List (Configuration κ π σ)) : Nat → Nat → Prop :=
  Relation.TransGen (Invoked cs)

/-- An instance has been stopped. -/
def StoppedIn (cs : List (Configuration κ π σ)) (i : Nat) : Prop :=
  ∃ d ∈ cs, d.engine.IsStopped i

theorem StoppedIn.append (h : StoppedIn cs i) (cs' : List (Configuration κ π σ)) :
  StoppedIn (cs ++ cs') i
  := by
  obtain ⟨d, hd, hstopped⟩ := h
  exact ⟨d, List.mem_append_left _ hd, hstopped⟩

/-- An instance that was stopped is stopped if it is still there. -/
theorem Run.status_of_stoppedIn (h : Run H cs c) (hi : StoppedIn (cs ++ [c]) i)
    {x : Instance κ} (hx : c.engine.get? i = some x) :
  x.status = .stopped
  := by
  obtain ⟨d, hd, hstopped⟩ := hi
  obtain hd | hd := List.mem_append.mp hd
  · exact (h.isOver_of_isStopped hd hstopped).2 x hx
  · obtain rfl := List.mem_singleton.mp hd
    exact hstopped.isOver.2 x hx

/-- An instance that was stopped has neither children nor timers. -/
theorem Run.empty_of_stopped (h : Run H cs c) {x : Instance κ}
    (hx : c.engine.get? i = some x) (hstopped : x.status = .stopped) :
  x.children = .empty ∧ x.timers = []
  := (h.tidy hx).idle (Instance.isRunning_of_stopped hstopped)

/-- Neither has one that was not started. -/
theorem Run.empty_of_notStarted (h : Run H cs c) {x : Instance κ}
    (hx : c.engine.get? i = some x) (hnot : x.status = .notStarted) :
  x.children = .empty ∧ x.timers = []
  := (h.tidy hx).idle (by simp [Instance.isRunning, hnot])

/-- An instance that a child is stored with has never been stopped. -/
theorem Run.not_stoppedIn_of_child (h : Run H cs c) {x : Instance κ}
    (hx : c.engine.get? i = some x) (hchild : j ∈ x.children.values) :
  ¬StoppedIn (cs ++ [c]) i
  := by
  intro hstopped
  rw [(h.empty_of_stopped hx (h.status_of_stoppedIn hstopped hx)).1] at hchild
  cases hchild

/-- An instance that has invoked another has been made before. -/
theorem Run.lt_next_of_invoked (h : Run H cs c) (hj : Invoked (cs ++ [c]) i j) :
  i < c.engine.instances.next
  := by
  obtain ⟨d, hd, y, link, hy, hparent, rfl⟩ := hj
  obtain hd | hd := List.mem_append.mp hd
  · obtain ⟨before, after, rfl⟩ := List.append_of_mem hd
    have hbegun := h.of_append.started.parent j y link hy hparent
    exact Nat.lt_of_lt_of_le hbegun.1 (h.later hd).1
  · obtain rfl := List.mem_singleton.mp hd
    exact (h.started.parent j y link hy hparent).1

/-- A child that has just arrived is stored with its parent, which has not been stopped. -/
theorem Run.stored_of_arrives (h : Run H cs c) (hgoes : Goes H c mid d) {y : Instance κ}
    {link : ParentLink} (harrives : Arrives (signal H c) mid j y (workOf j d.stack))
    (hparent : y.parent = some link) :
  ∃ x, mid.get? link.parent = some x ∧ j ∈ x.children.values
    ∧ ¬StoppedIn (cs ++ [c]) link.parent
  := by
  obtain ⟨x, hx, hstored⟩ := harrives.stored hparent
  have hchild := OrderedMap.mem_values_of_get? hstored
  refine ⟨x, hx, hchild, fun hstopped => ?_⟩
  obtain ⟨z, hz⟩ | ⟨-, harrives⟩ := hgoes.arrives hx
  · have hturn := hgoes.turn hz hx
    have hnot : x.isRunning = false := by
      have hz' := h.status_of_stoppedIn hstopped hz
      rw [Instance.isRunning, decide_eq_false_iff_not]
      intro hrunning
      exact hturn.status_ne_stopped (by simp [hrunning]) hz'
    rw [((hturn.tidy (h.tidy hz)).idle hnot).1] at hchild
    cases hchild
  · rw [harrives.children_eq] at hchild
    cases hchild

/-- A child that was stored and is not any more has been stopped. -/
theorem Run.isStopped_of_lost (h : Run H cs c) (hgoes : Goes H c mid d) {x y : Instance κ}
    (hx : c.engine.get? i = some x) (hold : j ∈ x.children.values) (hy : mid.get? i = some y)
    (hlost : j ∉ y.children.values) :
  c.engine.IsStopped j ∨ d.engine.IsStopped j
  := by
  have hxstatus : x.status ≠ .stopped := fun hstopped =>
    h.not_stoppedIn_of_child hx hold ⟨c, by simp, x, hx, hstopped⟩
  obtain ⟨u, hu⟩ := h.whole.there i x hx j hold
  obtain ⟨z, hz⟩ := hgoes.move.exists_get? hu
  have hz' : z.status = .stopped := by
    obtain hstopped | hstopped := (hgoes.turn hx hy).children_lost hold hlost
    · exact (hgoes.move.stops h.whole.older).below ⟨hx, hxstatus, y, hy, hstopped⟩ hold hz
    · exact hstopped z hz
  obtain rfl | hgentle := hgoes.gentle
  · exact .inr ⟨z, hz, hz'⟩
  · exact .inl (hgentle.stops hz hz')

/-- The child `j` is stored with its parent `i`, or the parent is gone and has never been
stopped. -/
def Keeps (cs : List (Configuration κ π σ)) (c : Configuration κ π σ) (i j : Nat) : Prop :=
  (∃ x, c.engine.get? i = some x ∧ j ∈ x.children.values)
    ∨ c.engine.get? i = none ∧ ¬StoppedIn (cs ++ [c]) i

/-- An instance that is gone has not been stopped just now. -/
theorem not_stoppedIn_of_none (hnone : d.engine.get? i = none) (hnot : ¬StoppedIn cs i) :
  ¬StoppedIn (cs ++ [d]) i
  := by
  rintro ⟨b, hb, hstopped⟩
  obtain hb | hb := List.mem_append.mp hb
  · exact hnot ⟨b, hb, hstopped⟩
  · obtain rfl := List.mem_singleton.mp hb
    obtain ⟨x, hx, -⟩ := hstopped
    rw [hnone] at hx
    cases hx

/-- A child that is stored after the move is so after the step, if its parent is not let
go. -/
theorem Goes.keeps (hgoes : Goes H c mid d) {x : Instance κ} (hx : mid.get? i = some x)
    (hchild : j ∈ x.children.values) (hnot : ¬StoppedIn (cs ++ [c]) i) :
  Keeps (cs ++ [c]) d i j
  := by
  cases hd : d.engine.get? i with
  | none => exact .inr ⟨hd, not_stoppedIn_of_none hd hnot⟩
  | some y =>
    have hy := hgoes.releases.get?_of_get? hd
    rw [hx] at hy
    obtain rfl := Option.some.inj hy
    exact .inl ⟨x, hd, hchild⟩

/-- A child that its parent keeps is stopped in the next step, or the parent keeps it. -/
theorem Run.keeps_next (h : Run H cs c) (hgoes : Goes H c mid d)
    (hj : Invoked (cs ++ [c]) i j) (hkeeps : Keeps cs c i j) :
  StoppedIn (cs ++ [c] ++ [d]) j ∨ Keeps (cs ++ [c]) d i j
  := by
  obtain ⟨x, hx, hchild⟩ | ⟨hnone, hnot⟩ := hkeeps
  · obtain ⟨y, hy⟩ := hgoes.move.exists_get? hx
    by_cases hchild' : j ∈ y.children.values
    · exact .inr (hgoes.keeps hy hchild' (h.not_stoppedIn_of_child hx hchild))
    · left
      obtain hstopped | hstopped := h.isStopped_of_lost hgoes hx hchild hy hchild'
      · exact ⟨c, by simp, hstopped⟩
      · exact ⟨d, by simp, hstopped⟩
  · have hnone' : d.engine.get? i = none := by
      rw [Option.eq_none_iff_forall_ne_some]
      intro y hy
      obtain ⟨x, hx, -⟩ := hgoes.was_there (h.lt_next_of_invoked hj) hy
      rw [hnone] at hx
      cases hx
    exact .inr (.inr ⟨hnone', not_stoppedIn_of_none hnone' hnot⟩)

/-- A child that has been invoked in the last step is kept by its parent. -/
theorem Run.keeps_new (h : Run H cs c) (hgoes : Goes H c mid d)
    (hj : Invoked (cs ++ [c] ++ [d]) i j) (hnew : ¬Invoked (cs ++ [c]) i j) :
  Keeps (cs ++ [c]) d i j
  := by
  obtain ⟨b, hb, y, link, hy, hparent, rfl⟩ := hj
  obtain hb | hb := List.mem_append.mp hb
  · exact absurd ⟨b, hb, y, link, hy, hparent, rfl⟩ hnew
  · obtain rfl := List.mem_singleton.mp hb
    have hy' := hgoes.releases.get?_of_get? hy
    obtain ⟨z, hz⟩ | ⟨-, harrives⟩ := hgoes.arrives hy'
    · have hparent' : z.parent = some link :=
        (hgoes.turn hz hy').machine_eq.2.symm.trans hparent
      exact absurd ⟨c, by simp, z, link, hz, hparent', rfl⟩ hnew
    · obtain ⟨x, hx, hchild, hnot⟩ := h.stored_of_arrives hgoes harrives hparent
      exact hgoes.keeps hx hchild hnot

/-- A child has been stopped, or its parent keeps it. -/
theorem Run.invoked_cases (h : Run H cs c) (hj : Invoked (cs ++ [c]) i j) :
  StoppedIn (cs ++ [c]) j ∨ Keeps cs c i j
  := by
  induction h with
  | start memory =>
    obtain ⟨d, hd, y, link, hy, -⟩ := hj
    obtain rfl := List.mem_singleton.mp hd
    simp [idle] at hy
  | @next cs c d hrun hstep ih =>
    obtain ⟨mid, hgoes⟩ := hrun.goes hstep
    by_cases hold : Invoked (cs ++ [c]) i j
    · obtain hstopped | hkeeps := ih hold
      · exact .inl (hstopped.append [d])
      · exact hrun.keeps_next hgoes hold hkeeps
    · exact .inr (hrun.keeps_new hgoes hj hold)

/-- A child that is not stored with its parent was stopped. -/
theorem Run.stoppedIn_of_invoked (h : Run H cs c) (hj : Invoked (cs ++ [c]) i j)
    (hi : StoppedIn (cs ++ [c]) i
      ∨ ∃ x, c.engine.get? i = some x ∧ j ∉ x.children.values) :
  StoppedIn (cs ++ [c]) j
  := by
  obtain hstopped | ⟨x, hx, hchild⟩ | ⟨hnone, hnot⟩ := h.invoked_cases hj
  · exact hstopped
  · obtain hstopped | ⟨y, hy, hlost⟩ := hi
    · exact absurd hstopped (h.not_stoppedIn_of_child hx hchild)
    · rw [hx] at hy
      obtain rfl := Option.some.inj hy
      exact absurd hchild hlost
  · obtain hstopped | ⟨y, hy, -⟩ := hi
    · exact absurd hstopped hnot
    · rw [hnone] at hy
      cases hy

/-- What descends from an instance that was stopped was stopped. -/
theorem Run.stoppedIn_of_descends (h : Run H cs c) (hi : StoppedIn (cs ++ [c]) i)
    (hj : Descends (cs ++ [c]) i j) :
  StoppedIn (cs ++ [c]) j
  := by
  induction hj with
  | single hj => exact h.stoppedIn_of_invoked hj (.inl hi)
  | tail _ hj ih => exact h.stoppedIn_of_invoked hj (.inl ih)

end Configuration

end Statechart
