import Statechart.Engine
import Statechart.Proofs.Timing

/-!
# What operations do to instances

Stopping an instance halts it and some of its descendants and leaves all others as they
are; letting go takes instances away and changes no other.  Either way the timers of the
instances concerned are destroyed.
-/

namespace Statechart

variable {κ : Type}

/-- The instance while what it invoked is being stopped. -/
def Instance.halting (x : Instance κ) : Instance κ :=
  { x with
    status := .stopped
    generation := x.generation + 1
    timers := []
    children := .empty }

/-- The instance after it has been stopped. -/
def Instance.halted (x : Instance κ) : Instance κ :=
  { x.halting with listeners := [], mailbox := [] }

namespace Engine

variable {r r' r'' : Engine κ}

/-! ### Looking at an instance -/

@[simp]
theorem get?_empty (i : Nat) :
  (empty : Engine κ).get? i = none
  := Table.get?_empty i

/-- Only the instance with the number changes, if it is there. -/
@[simp]
theorem get?_modify (r : Engine κ) (i j : Nat) (f : Instance κ → Instance κ) :
  (r.modify i f).get? j = if i = j then (r.get? j).map f else r.get? j
  := Table.get?_modify r.instances i j f

/-- A change of an instance makes none. -/
@[simp]
theorem next_modify (r : Engine κ) (i : Nat) (f : Instance κ → Instance κ) :
  (r.modify i f).instances.next = r.instances.next
  := Table.next_modify r.instances i f

/-- What is done on the clock is not done to instances. -/
@[simp]
theorem get?_withTiming (r : Engine κ) (f : Timing (Callback κ) → Timing (Callback κ))
    (j : Nat) :
  (r.withTiming f).get? j = r.get? j
  := rfl

/-- The number of an instance is smaller than that of the next one. -/
theorem lt_next_of_get? {i : Nat} {x : Instance κ} (h : r.get? i = some x) :
  i < r.instances.next
  := Table.lt_next_of_get? h

/-! ### Changes of one instance -/

/-- The same instances. -/
structure Same (r r' : Engine κ) : Prop where
  next : r'.instances.next = r.instances.next
  get? : ∀ j, r'.get? j = r.get? j

/-- The same instances but for one. -/
structure Sets (r r' : Engine κ) (i : Nat) (y : Instance κ) : Prop where
  next : r'.instances.next = r.instances.next
  timing : r'.timing = r.timing
  get? : ∀ j, r'.get? j = if i = j then some y else r.get? j

/-- The same instances and a new one. -/
structure Adds (r r' : Engine κ) (y : Instance κ) : Prop where
  next : r'.instances.next = r.instances.next + 1
  timing : r'.timing = r.timing
  get? : ∀ j, r'.get? j = if r.instances.next = j then some y else r.get? j

/-- The same instances but for one, and a new one. -/
structure Spawns (r r' : Engine κ) (i : Nat) (x child : Instance κ) : Prop where
  next : r'.instances.next = r.instances.next + 1
  timing : r'.timing = r.timing
  get? : ∀ j, r'.get? j =
    if r.instances.next = j then some child else if i = j then some x else r.get? j

theorem Same.refl (r : Engine κ) :
  Same r r
  := ⟨rfl, fun _ => rfl⟩

/-- A change of an instance that is there sets it. -/
theorem sets_modify {r : Engine κ} {i : Nat} {x : Instance κ} (hx : r.get? i = some x)
    (f : Instance κ → Instance κ) :
  Sets r (r.modify i f) i (f x)
  := by
  constructor
  · exact next_modify r i f
  · rfl
  · intro j
    rw [get?_modify]
    split
    · next hj => rw [← hj, hx, Option.map_some]
    · rfl

/-- Of two settings of an instance the later one counts. -/
theorem Sets.trans {r r' r'' : Engine κ} {i : Nat} {y z : Instance κ} (h : Sets r r' i y)
    (h' : Sets r' r'' i z) :
  Sets r r'' i z
  := by
  constructor
  · rw [h'.next, h.next]
  · rw [h'.timing, h.timing]
  · intro j
    rw [h'.get?, h.get?]
    split <;> rfl

/-- A new instance is added with the next number. -/
theorem adds_create {r r' : Engine κ} {y : Instance κ} (hr : r'.instances = r.instances.add y)
    (ht : r'.timing = r.timing) :
  Adds r r' y
  := by
  constructor
  · rw [hr, Table.next_add]
  · exact ht
  · intro j
    rw [Engine.get?, hr, Table.get?_add]
    simp only [eq_comm, Engine.get?]

/-- What is found under a number after one instance has been put in its place: that instance, or
what was there. -/
theorem replaced_or_kept {i j : Nat} {x y z : Instance κ} (hx : r.get? i = some x)
    (hy : (if j = i then some z else r.get? i) = some y) :
  (j = i ∧ y = z) ∨ (j ≠ i ∧ y = x)
  := by
  split at hy
  · next hj => exact .inl ⟨hj, (Option.some.inj hy).symm⟩
  · next hj => exact .inr ⟨hj, Option.some.inj (hy.symm.trans hx)⟩

/-- What is there stays there beside a new instance. -/
theorem Adds.get?_of_get? {i : Nat} {x y : Instance κ} (h : Adds r r' y)
    (hx : r.get? i = some x) :
  r'.get? i = some x
  := by
  rw [h.get?, if_neg (Nat.ne_of_gt (lt_next_of_get? hx)), hx]

/-- A parent that spawns is there with its new child. -/
theorem Spawns.get?_self {i : Nat} {x y child : Instance κ} (h : Spawns r r' i y child)
    (hx : r.get? i = some x) :
  r'.get? i = some y
  := by
  rw [h.get?, if_neg (Nat.ne_of_gt (lt_next_of_get? hx)), if_pos rfl]

/-- An instance that is there is the parent of the child that is made, or stays what it is. -/
theorem Spawns.get?_cases {i j : Nat} {x y z child : Instance κ} (h : Spawns r r' j z child)
    (hx : r.get? i = some x) (hy : r'.get? i = some y) :
  (j = i ∧ y = z) ∨ (j ≠ i ∧ y = x)
  := by
  rw [h.get?, if_neg (Nat.ne_of_gt (lt_next_of_get? hx))] at hy
  exact replaced_or_kept hx hy

/-- To make a child and store it is to make an instance, and then to change it and its
parent. -/
theorem Spawns.exists_sets {r r' : Engine κ} {i : Nat} {x y child : Instance κ}
    (h : Spawns r r' i y child) (hx : r.get? i = some x) (new : Instance κ) :
  ∃ r₁ r₂, Adds r r₁ new ∧ r₁.get? i = some x ∧ Sets r₁ r₂ i y
    ∧ r₂.get? r.instances.next = some new ∧ Sets r₂ r' r.instances.next child
  := by
  let grown : Engine κ := { r with instances := r.instances.add new }
  have hadds : Adds r grown new := adds_create rfl rfl
  have hgrown : grown.get? i = some x := hadds.get?_of_get? hx
  have hsets : Sets grown (grown.modify i fun _ => y) i y := sets_modify hgrown _
  have hnew : (grown.modify i fun _ => y).get? r.instances.next = some new := by
    rw [hsets.get?, if_neg (Nat.ne_of_lt (lt_next_of_get? hx)), hadds.get?, if_pos rfl]
  refine ⟨grown, grown.modify i fun _ => y, hadds, hgrown, hsets, hnew, ?_⟩
  constructor
  · rw [h.next, hsets.next, hadds.next]
  · rw [h.timing, hsets.timing, hadds.timing]
  · intro j
    rw [h.get?, hsets.get?, hadds.get?]
    split
    · rfl
    · rfl

/-- What is set is there. -/
theorem Sets.get?_self {r r' : Engine κ} {i : Nat} {y : Instance κ} (h : Sets r r' i y) :
  r'.get? i = some y
  := by
  rw [h.get?, if_pos rfl]

/-- Of two instances after a change of one, one is that which has changed, and the other
is as before. -/
theorem Sets.get?_cases {r r' : Engine κ} {i j : Nat} {x y z : Instance κ}
    (h : Sets r r' j z) (hx : r.get? i = some x) (hy : r'.get? i = some y) :
  (j = i ∧ y = z) ∨ (j ≠ i ∧ y = x)
  := replaced_or_kept hx ((h.get? i).symm.trans hy)

/-! ### Stopping -/

/-- An instance was stopped. -/
def IsStopped (r : Engine κ) (i : Nat) : Prop :=
  ∃ x, r.get? i = some x ∧ x.status = .stopped

/-- An instance is as it was, or it was one that satisfies `P`, is now what `f` makes of it, and
its timers are destroyed. -/
def EndsAt (P : Instance κ → Prop) (f : Instance κ → Option (Instance κ)) (r r' : Engine κ)
    (j : Nat) : Prop :=
  r'.get? j = r.get? j
    ∨ ∃ x, r.get? j = some x ∧ P x ∧ r'.get? j = f x
        ∧ ∀ a ∈ x.timers, ∀ status, r.timing.status? a.timer = some status →
            r'.timing.status? a.timer = some .destroyed

/-- An instance ends once: what is left of it does not satisfy `P`. -/
theorem EndsAt.trans {P : Instance κ → Prop} {f : Instance κ → Option (Instance κ)} {j : Nat}
    (hover : ∀ x y, f x = some y → ¬P y) (htiming : r.timing.Later r'.timing)
    (htiming' : r'.timing.Later r''.timing) (h : EndsAt P f r r' j) (h' : EndsAt P f r' r'' j) :
  EndsAt P f r r'' j
  := by
  obtain hj | ⟨x, hx, hP, hended, hdestroyed⟩ := h
  · obtain hj' | ⟨x, hx, hP, hended, hdestroyed⟩ := h'
    · exact .inl (hj'.trans hj)
    · refine .inr ⟨x, hj ▸ hx, hP, hended, fun a ha status hstatus => ?_⟩
      obtain ⟨status', hstatus'⟩ := htiming.exists_status? hstatus
      exact hdestroyed a ha status' hstatus'
  · obtain hj' | ⟨y, hy, hP', -, -⟩ := h'
    · refine .inr ⟨x, hx, hP, hj'.trans hended, fun a ha status hstatus => ?_⟩
      exact htiming'.status?_destroyed (hdestroyed a ha status hstatus)
    · exact absurd hP' (hover x y (hended.symm.trans hy))

/-- Each instance is as it was, or has been halted with its timers destroyed. -/
structure Halts (r r' : Engine κ) : Prop where
  next : r'.instances.next = r.instances.next
  registries : r'.registries = r.registries
  timing : r.timing.Follows (fun _ _ => False) (fun _ => False) r'.timing
  instances : ∀ j, r'.get? j = r.get? j
    ∨ ∃ x, r.get? j = some x ∧ x.status ≠ .stopped ∧ r'.get? j = some x.halted
        ∧ ∀ a ∈ x.timers, ∀ status, r.timing.status? a.timer = some status →
            r'.timing.status? a.timer = some .destroyed

namespace Halts

theorem refl (r : Engine κ) :
  Halts r r
  := ⟨rfl, rfl, .refl _, fun _ => .inl rfl⟩

/-- What halts on two stretches halts on both together. -/
theorem trans (h : Halts r r') (h' : Halts r' r'') :
  Halts r r''
  where
  next := h'.next.trans h.next
  registries := h'.registries.trans h.registries
  timing := h.timing.trans h'.timing
  instances j := by
    refine EndsAt.trans (P := fun x => x.status ≠ .stopped) (f := fun x => some x.halted) ?_
      h.timing.later h'.timing.later (h.instances j) (h'.instances j)
    rintro x _ ⟨⟩ hrunning
    exact hrunning rfl

/-- Instances are halted one after another. -/
theorem foldl {f : Engine κ → Nat → Engine κ} (hf : ∀ r i, Halts r (f r i))
    (r : Engine κ) (is : List Nat) :
  Halts r (is.foldl f r)
  := List.foldlRecOn is f (motive := Halts r) (.refl r) fun _ h i _ => h.trans (hf _ i)

/-- An instance that is stopped is left as it is. -/
theorem get?_of_stopped (h : Halts r r') {j : Nat} {x : Instance κ} (hx : r.get? j = some x)
    (hstopped : x.status = .stopped) :
  r'.get? j = some x
  := by
  obtain hj | ⟨y, hy, hrunning, -, -⟩ := h.instances j
  · rw [hj, hx]
  · rw [hx] at hy
    obtain rfl := Option.some.inj hy
    exact absurd hstopped hrunning

/-- An instance comes from one that was there. -/
theorem exists_get? (h : Halts r r') {j : Nat} {y : Instance κ} (hy : r'.get? j = some y) :
  ∃ x, r.get? j = some x
    ∧ (y = x ∨ (x.status ≠ .stopped ∧ y = x.halted
        ∧ ∀ a ∈ x.timers, ∀ status, r.timing.status? a.timer = some status →
            r'.timing.status? a.timer = some .destroyed))
  := by
  obtain hj | ⟨x, hx, hrunning, hhalted, hdestroyed⟩ := h.instances j
  · exact ⟨y, hj ▸ hy, .inl rfl⟩
  · rw [hhalted] at hy
    exact ⟨x, hx, .inr ⟨hrunning, (Option.some.inj hy).symm, hdestroyed⟩⟩

end Halts

/-- An instance that is being stopped, before its children are. -/
def halting (r : Engine κ) (i : Nat) (x : Instance κ) : Engine κ :=
  (r.modify i Instance.halting).withTiming fun t => t.destroyEach (x.timers.map Armed.timer)

/-- An instance that is being stopped is marked so at first. -/
theorem get?_halting {i : Nat} {x : Instance κ} (hx : r.get? i = some x) :
  (r.halting i x).get? i = some x.halting
  := by
  rw [halting, get?_withTiming, get?_modify, if_pos rfl, hx, Option.map_some]

/-- An instance is marked as stopped, then its children are stopped, and at last its mail and
its listeners go. -/
theorem stopWithin_of_ne_stopped {i : Nat} {x : Instance κ} (hx : r.get? i = some x)
    (hrunning : x.status ≠ .stopped) (depth : Nat) :
  stopWithin (depth + 1) r i
    = (x.children.values.foldl (stopWithin depth) (r.halting i x)).modify i
        fun x => { x with listeners := [], mailbox := [] }
  := by
  rw [stopWithin, hx]
  simp only
  rw [if_neg hrunning]
  rfl

/-- Stopping halts an instance and those below it, and no others change. -/
theorem halts_stopWithin (depth : Nat) (r : Engine κ) (i : Nat) :
  Halts r (stopWithin depth r i)
  := by
  induction depth generalizing r i with
  | zero => exact .refl r
  | succ depth ih =>
    cases hx : r.get? i with
    | none =>
      rw [stopWithin, hx]
      exact .refl r
    | some x =>
      by_cases hstopped : x.status = .stopped
      · rw [stopWithin, hx]
        simp only
        rw [if_pos hstopped]
        exact .refl r
      · rw [stopWithin_of_ne_stopped hx hstopped]
        -- The instance is out of reach of what is stopped below it, being stopped itself.
        have hbelow := Halts.foldl ih (r.halting i x) x.children.values
        have htiming : r.timing.Follows (fun _ _ => False) (fun _ => False)
            (r.halting i x).timing := Timing.follows_destroyEach _ _
        constructor
        · rw [next_modify, hbelow.next]
          exact next_modify r i _
        · exact hbelow.registries
        · exact htiming.trans hbelow.timing
        · intro j
          by_cases hj : i = j
          · subst hj
            right
            refine ⟨x, hx, hstopped, ?_, ?_⟩
            · rw [get?_modify, if_pos rfl, hbelow.get?_of_stopped (get?_halting hx) rfl]
              rfl
            · intro a ha status hstatus
              apply hbelow.timing.status?_destroyed
              exact Timing.status?_destroyEach _ (List.mem_map_of_mem ha) hstatus
          · have hhalting : (r.halting i x).get? j = r.get? j := by
              rw [halting, get?_withTiming, get?_modify, if_neg hj]
            rw [get?_modify, if_neg hj]
            obtain hsame | ⟨y, hy, hrunning, hhalted, hdestroyed⟩ := hbelow.instances j
            · exact .inl (hsame.trans hhalting)
            · refine .inr ⟨y, hhalting ▸ hy, hrunning, hhalted, ?_⟩
              intro a ha status hstatus
              obtain ⟨t, ht, -⟩ := Option.map_eq_some_iff.mp hstatus
              obtain ⟨u, hu, -⟩ := htiming.kept ht
              apply hdestroyed a ha u.status
              rw [Timing.status?, hu, Option.map_some]

/-- Stopping an instance halts it, however deep its children are. -/
theorem halts_stop (r : Engine κ) (i : Nat) :
  Halts r (r.stop i)
  := halts_stopWithin _ r i

/-- An instance that is stopped does not run. -/
theorem status_stop {i : Nat} {x : Instance κ} (h : (r.stop i).get? i = some x) :
  x.status = .stopped
  := by
  obtain ⟨y, hy, hcases⟩ := (halts_stop r i).exists_get? h
  by_cases hstopped : y.status = .stopped
  · rw [(halts_stop r i).get?_of_stopped hy hstopped] at h
    obtain rfl := Option.some.inj h
    exact hstopped
  · have hlt := lt_next_of_get? hy
    obtain ⟨depth, hdepth⟩ :=
      Nat.exists_eq_succ_of_ne_zero (Nat.ne_of_gt (Nat.zero_lt_of_lt hlt))
    rw [stop, hdepth, stopWithin_of_ne_stopped hy hstopped, get?_modify, if_pos rfl,
      (Halts.foldl (halts_stopWithin depth) _ _).get?_of_stopped (get?_halting hy) rfl] at h
    obtain rfl := Option.some.inj h
    rfl

/-- Instances that are stopped one after another do not run. -/
theorem status_foldl_stop {is : List Nat} {i : Nat} (hi : i ∈ is) {x : Instance κ}
    (h : (is.foldl stop r).get? i = some x) :
  x.status = .stopped
  := by
  induction is generalizing r with
  | nil => cases hi
  | cons j rest ih =>
    obtain rfl | hi := List.mem_cons.mp hi
    · obtain ⟨y, hy, hcases⟩ := (Halts.foldl halts_stop (r.stop i) rest).exists_get? h
      obtain rfl | ⟨-, rfl, -⟩ := hcases
      · exact status_stop hy
      · rfl
    · exact ih hi h

/-- Stopping the children of an instance is forgetting them, and then stopping them. -/
theorem halts_stopChildren {i : Nat} {x : Instance κ}
    (hx : r.get? i = some x) :
  ∃ r₁, Sets r r₁ i { x with children := .empty }
    ∧ Halts r₁ (r.stopChildren i)
    ∧ ∀ child ∈ x.children.values, ∀ y, (r.stopChildren i).get? child = some y →
        y.status = .stopped
  := by
  have heq : r.stopChildren i
      = x.children.values.foldl stop (r.modify i fun x => { x with children := .empty }) := by
    rw [stopChildren, hx]
  refine ⟨r.modify i fun x => { x with children := .empty }, sets_modify hx _, ?_, ?_⟩
  · rw [heq]
    exact Halts.foldl halts_stop _ _
  · intro child hchild y hy
    rw [heq] at hy
    exact status_foldl_stop hchild hy

/-! ### Letting go -/

/-- Each instance is as it was, or it is gone with its timers destroyed; those in `held`
are as they were. -/
structure Releases (held : List Nat) (r r' : Engine κ) : Prop where
  next : r'.instances.next = r.instances.next
  registries : r'.registries = r.registries
  timing : r.timing.Follows (fun _ _ => False) (fun _ => False) r'.timing
  instances : ∀ j, r'.get? j = r.get? j
    ∨ ∃ x, r.get? j = some x ∧ j ∉ held ∧ r'.get? j = none
        ∧ ∀ a ∈ x.timers, ∀ status, r.timing.status? a.timer = some status →
            r'.timing.status? a.timer = some .destroyed

namespace Releases

variable {held : List Nat}

theorem refl (r : Engine κ) :
  Releases held r r
  := ⟨rfl, rfl, .refl _, fun _ => .inl rfl⟩

/-- What is let go in two rounds is let go. -/
theorem trans (h : Releases held r r') (h' : Releases held r' r'') :
  Releases held r r''
  where
  next := h'.next.trans h.next
  registries := h'.registries.trans h.registries
  timing := h.timing.trans h'.timing
  instances j := by
    refine EndsAt.trans (P := fun _ => j ∉ held) (f := fun _ => none) ?_
      h.timing.later h'.timing.later (h.instances j) (h'.instances j)
    rintro _ _ ⟨⟩

/-- Fewer instances are held. -/
theorem mono {held' : List Nat} (h : Releases held r r') (hheld : held' ⊆ held) :
  Releases held' r r'
  where
  next := h.next
  registries := h.registries
  timing := h.timing
  instances j := by
    obtain hj | ⟨x, hx, hnot, hgone, hdestroyed⟩ := h.instances j
    · exact .inl hj
    · exact .inr ⟨x, hx, fun hj => hnot (hheld hj), hgone, hdestroyed⟩

/-- An instance that is there was there before. -/
theorem get?_of_get? (h : Releases held r r') {j : Nat} {x : Instance κ}
    (hx : r'.get? j = some x) :
  r.get? j = some x
  := by
  obtain hj | ⟨-, -, -, hgone, -⟩ := h.instances j
  · rw [← hj, hx]
  · rw [hgone] at hx
    cases hx

/-- An instance that is held is kept. -/
theorem get?_of_mem (h : Releases held r r') {j : Nat} (hj : j ∈ held) :
  r'.get? j = r.get? j
  := by
  obtain hj' | ⟨-, -, hheld, -, -⟩ := h.instances j
  · exact hj'
  · exact absurd hj hheld

end Releases

/-- To let go of an instance that is not held is a release. -/
theorem releases_letGo {held : List Nat} (r : Engine κ) {i : Nat} (hi : i ∉ held) :
  Releases held r (r.letGo i)
  := by
  rw [letGo]
  cases hx : r.get? i with
  | none => exact .refl r
  | some x =>
    constructor
    · exact Table.next_erase _ _
    · rfl
    · exact Timing.follows_destroyEach _ _
    · intro j
      by_cases hj : i = j
      · subst hj
        refine .inr ⟨x, hx, hi, ?_, ?_⟩
        · rw [get?, Table.get?_erase, if_pos rfl]
        · intro a ha status hstatus
          exact Timing.status?_destroyEach _ (List.mem_map_of_mem ha) hstatus
      · left
        rw [get?, Table.get?_erase, if_neg hj, get?]

/-- What is reached from is reached. -/
theorem subset_reach (r : Engine κ) (depth : Nat) (ids : List Nat) :
  ids ⊆ r.reach depth ids
  := by
  induction depth generalizing ids with
  | zero => exact List.Subset.refl ids
  | succ depth ih =>
    rw [reach]
    split
    · exact List.Subset.refl ids
    · exact List.Subset.trans (List.subset_append_left _ _) (ih _)

/-- A release keeps what is held by the host or by a registry. -/
theorem releases_release_append (r : Engine κ) (held : List Nat) :
  Releases (held ++ r.registered) r (r.release held)
  := by
  rw [release]
  have hgone : ∀ i ∈ r.instances.ids.filter fun i =>
      !(r.reach r.instances.next (held ++ r.registered).eraseDups).contains i,
      i ∉ held ++ r.registered := by
    intro i hi hheld
    have hreached : i ∈ r.reach r.instances.next (held ++ r.registered).eraseDups :=
      subset_reach _ _ _ (List.mem_eraseDups.mpr hheld)
    simp [hreached] at hi
  generalize r.instances.ids.filter _ = gone at hgone
  generalize held ++ r.registered = kept at hgone
  induction gone generalizing r with
  | nil => exact .refl r
  | cons i rest ih =>
    have hfirst := releases_letGo r (hgone i List.mem_cons_self)
    apply hfirst.trans
    apply ih
    intro j hj
    exact hgone j (List.mem_cons_of_mem _ hj)

/-- A release keeps what is held. -/
theorem releases_release (r : Engine κ) (held : List Nat) :
  Releases held r (r.release held)
  := (releases_release_append r held).mono (List.subset_append_left _ _)

/-! ### Properties of all instances -/

/-- All instances have a property. -/
def All (p : Instance κ → Prop) (r : Engine κ) : Prop :=
  ∀ i x, r.get? i = some x → p x

namespace All

variable {p : Instance κ → Prop}

/-- Instances that stay the same keep a property. -/
theorem same (h : r.All p) (hsame : Same r r') :
  r'.All p
  := by
  intro i x hx
  rw [hsame.get?] at hx
  exact h i x hx

/-- A property is kept where instances are replaced by one that has it. -/
theorem replaced (h : r.All p) {c : Nat → Prop} [DecidablePred c] {y : Instance κ}
    (hget : ∀ j, r'.get? j = if c j then some y else r.get? j) (hy : p y) :
  r'.All p
  := by
  intro j x hx
  rw [hget] at hx
  split at hx
  · obtain rfl := Option.some.inj hx
    exact hy
  · exact h j x hx

/-- A property is kept by a change of one instance that has it afterwards. -/
theorem sets (h : r.All p) {i : Nat} {y : Instance κ} (hsets : Sets r r' i y)
    (hy : p y) :
  r'.All p
  := h.replaced hsets.get? hy

/-- A property is kept if a new instance has it. -/
theorem adds (h : r.All p) {y : Instance κ} (hadds : Adds r r' y) (hy : p y) :
  r'.All p
  := h.replaced hadds.get? hy

/-- A property is kept if parent and child have it. -/
theorem spawns (h : r.All p) {i : Nat} {y child : Instance κ}
    (hspawns : Spawns r r' i y child) (hy : p y) (hchild : p child) :
  r'.All p
  := by
  intro j x hx
  rw [hspawns.get?] at hx
  split at hx
  · obtain rfl := Option.some.inj hx
    exact hchild
  · split at hx
    · obtain rfl := Option.some.inj hx
      exact hy
    · exact h j x hx

/-- A property is kept by stopping if it is by each halted instance. -/
theorem halts (h : r.All p) (hhalts : Halts r r') (hp : ∀ x, p x → p x.halted) :
  r'.All p
  := by
  intro i x hx
  obtain ⟨y, hy, hcases⟩ := hhalts.exists_get? hx
  obtain rfl | ⟨-, rfl, -⟩ := hcases
  · exact h i x hy
  · exact hp y (h i y hy)

/-- Instances that are let go take no property from the others. -/
theorem releases (h : r.All p) {held : List Nat} (hreleases : Releases held r r') :
  r'.All p
  := by
  intro i x hx
  exact h i x (hreleases.get?_of_get? hx)

end All

end Engine

end Statechart
