import Mathlib.Data.Finset.Card
import Statechart.Proofs.Engine

/-!
# Stopping and letting go along children

An instance is stopped with what it invoked: stopping reaches the children that are stored
with what is stopped, and nothing else (`Engine.Fells`).  Letting go follows them too: an
instance that is kept keeps the children that are stored with it
(`Engine.get?_release_of_child`).
-/

namespace Statechart

variable {κ : Type}

namespace Engine

variable {r r' r'' : Engine κ} {i j : Nat} {x y : Instance κ}

/-! ### Numbers of children -/

/-- A child has been made after the instance that it is stored with. -/
def Older (r : Engine κ) : Prop :=
  ∀ i x, r.get? i = some x → ∀ child ∈ x.children.values, i < child ∧ child < r.instances.next

/-- A stopped instance has fewer children and no new ones. -/
theorem Older.halts (h : r.Older) (hhalts : Halts r r') :
  r'.Older
  := by
  intro i y hy child hchild
  rw [hhalts.next]
  obtain ⟨x, hx, rfl | ⟨-, rfl, -⟩⟩ := hhalts.exists_get? hy
  · exact h i y hx child hchild
  · cases hchild

/-- Children are set that have been made later. -/
theorem Older.sets (h : r.Older) (hsets : Sets r r' i y)
    (hy : ∀ child ∈ y.children.values, i < child ∧ child < r.instances.next) :
  r'.Older
  := by
  intro j z hz child hchild
  rw [hsets.next]
  rw [hsets.get?] at hz
  split at hz
  · next hj =>
    obtain rfl := Option.some.inj hz
    exact hj ▸ hy child hchild
  · exact h j z hz child hchild

/-! ### What is stopped -/

/-- What is stopped stays so while others are. -/
theorem Halts.isStopped (h : Halts r r') (hi : r.IsStopped i) :
  r'.IsStopped i
  := by
  obtain ⟨x, hx, hstopped⟩ := hi
  exact ⟨x, h.get?_of_stopped hx hstopped, hstopped⟩

/-- What does not run if it is there does so after more has been stopped. -/
theorem Halts.status_stopped (h : Halts r r')
    (hi : ∀ x, r.get? i = some x → x.status = .stopped) (hy : r'.get? i = some y) :
  y.status = .stopped
  := by
  obtain ⟨x, hx, rfl | ⟨-, rfl, -⟩⟩ := h.exists_get? hy
  · exact hi y hx
  · rfl

/-- An instance is stopped on the way from `r` to `r'`. -/
structure Falls (r r' : Engine κ) (i : Nat) (x : Instance κ) : Prop where
  get? : r.get? i = some x
  status : x.status ≠ .stopped
  stopped : r'.IsStopped i

/-- What has fallen stays so while others are stopped. -/
theorem Falls.trans_halts (h : Falls r r' i x) (hhalts : Halts r' r'') :
  Falls r r'' i x
  := ⟨h.get?, h.status, hhalts.isStopped h.stopped⟩

/-- What falls later was not stopped before. -/
theorem Halts.trans_falls (hhalts : Halts r r') (h : Falls r' r'' i x) :
  Falls r r'' i x
  := by
  refine ⟨?_, h.status, h.stopped⟩
  obtain hsame | ⟨y, -, -, hhalted, -⟩ := hhalts.instances i
  · rw [← hsame, h.get?]
  · rw [h.get?] at hhalted
    obtain rfl := Option.some.inj hhalted
    exact absurd rfl h.status

/-- What falls on two stretches falls on one of them. -/
theorem Falls.fst_or_snd (h : Falls r r'' i x) (hhalts : Halts r r') :
  Falls r r' i x ∨ Falls r' r'' i x
  := by
  obtain hsame | ⟨y, -, -, hhalted, -⟩ := hhalts.instances i
  · exact .inr ⟨hsame.trans h.get?, h.status, h.stopped⟩
  · exact .inl ⟨h.get?, h.status, _, hhalted, rfl⟩

/-- Those in `tops` are stopped on the way, and with an instance the children that are
stored with it; no others are. -/
structure Fells (tops : List Nat) (r r' : Engine κ) : Prop where
  halts : Halts r r'
  fallen : ∀ i ∈ tops, ∀ y, r'.get? i = some y → y.status = .stopped
  above : ∀ {j y}, Falls r r' j y →
    j ∈ tops ∨ ∃ i x, Falls r r' i x ∧ j ∈ x.children.values
  below : ∀ {i x}, Falls r r' i x → ∀ child ∈ x.children.values, ∀ y,
    r'.get? child = some y → y.status = .stopped

namespace Fells

/-- Nothing is stopped, when all of `tops` are. -/
theorem refl {tops : List Nat} (h : ∀ i ∈ tops, ∀ y, r.get? i = some y → y.status = .stopped) :
  Fells tops r r
  := by
  have hnone : ∀ {i x}, ¬Falls r r i x := by
    rintro i x ⟨hx, hstatus, y, hy, hstopped⟩
    rw [hx] at hy
    obtain rfl := Option.some.inj hy
    exact hstatus hstopped
  exact ⟨.refl r, h, fun h => (hnone h).elim, fun h => (hnone h).elim⟩

/-- Those that are stopped on two stretches are stopped on both together. -/
theorem trans {tops tops' : List Nat} (h : Fells tops r r') (h' : Fells tops' r' r'') :
  Fells (tops ++ tops') r r''
  := by
  constructor
  · exact h.halts.trans h'.halts
  · intro i hi y hy
    obtain hi | hi := List.mem_append.mp hi
    · exact h'.halts.status_stopped (h.fallen i hi) hy
    · exact h'.fallen i hi y hy
  · intro j y hfalls
    obtain hfst | hsnd := hfalls.fst_or_snd h.halts
    · obtain htop | ⟨i, x, hx, hchild⟩ := h.above hfst
      · exact .inl (List.mem_append_left _ htop)
      · exact .inr ⟨i, x, hx.trans_halts h'.halts, hchild⟩
    · obtain htop | ⟨i, x, hx, hchild⟩ := h'.above hsnd
      · exact .inl (List.mem_append_right _ htop)
      · exact .inr ⟨i, x, h.halts.trans_falls hx, hchild⟩
  · intro i x hfalls child hchild y hy
    obtain hfst | hsnd := hfalls.fst_or_snd h.halts
    · exact h'.halts.status_stopped (h.below hfst child hchild) hy
    · exact h'.below hsnd child hchild y hy

/-- Instances are stopped one after another. -/
theorem foldl {f : Engine κ → Nat → Engine κ} {next : Nat} {is : List Nat}
    (hf : ∀ r, r.Older → r.instances.next = next → ∀ i ∈ is, Fells [i] r (f r i))
    (holder : r.Older) (hnext : r.instances.next = next) :
  Fells is r (is.foldl f r)
  := by
  induction is generalizing r with
  | nil => exact .refl fun _ hi => by cases hi
  | cons i rest ih =>
    have hfirst := hf r holder hnext i List.mem_cons_self
    apply hfirst.trans
    apply ih
    · exact fun r holder hnext j hj => hf r holder hnext j (List.mem_cons_of_mem _ hj)
    · exact holder.halts hfirst.halts
    · rw [hfirst.halts.next, hnext]

end Fells

/-- Marking an instance as stopped takes its children from it. -/
theorem older_halting (h : r.Older) (hx : r.get? i = some x) :
  (r.halting i x).Older
  := by
  have hmodify : (r.modify i Instance.halting).Older := by
    apply h.sets (sets_modify hx _)
    intro child hchild
    cases hchild
  exact hmodify

/-- Marking an instance as stopped leaves every other one. -/
theorem get?_halting_of_ne (hj : j ≠ i) :
  (r.halting i x).get? j = r.get? j
  := by
  rw [halting, get?_withTiming, get?_modify, if_neg (Ne.symm hj)]

/-- An instance is stopped by stopping the children that are stored with it. -/
theorem fells_of_halting (hx : r.get? i = some x) (hstatus : x.status ≠ .stopped)
    (hbelow : Fells x.children.values (r.halting i x) r') (hhalts : Halts r r'')
    (heq : r'' = r'.modify i fun x => { x with listeners := [], mailbox := [] }) :
  Fells [i] r r''
  := by
  have hself : r'.get? i = some x.halting :=
    hbelow.halts.get?_of_stopped (get?_halting hx) rfl
  have hother : ∀ {j}, j ≠ i → r''.get? j = r'.get? j := by
    intro j hj
    rw [heq, get?_modify, if_neg (Ne.symm hj)]
  have hi : r''.get? i = some x.halted := by
    rw [heq, get?_modify, if_pos rfl, hself]
    rfl
  have hfalls : Falls r r'' i x := ⟨hx, hstatus, _, hi, rfl⟩
  -- Another instance falls with the children.
  have hcases : ∀ {j y}, j ≠ i → (Falls r r'' j y ↔ Falls (r.halting i x) r' j y) := by
    intro j y hj
    constructor
    · rintro ⟨hy, hne, z, hz, hstopped⟩
      exact ⟨(get?_halting_of_ne hj).trans hy, hne, z, (hother hj).symm.trans hz, hstopped⟩
    · rintro ⟨hy, hne, z, hz, hstopped⟩
      exact ⟨(get?_halting_of_ne hj).symm.trans hy, hne, z, (hother hj).trans hz, hstopped⟩
  have hstopped : ∀ {child}, (∀ y, r'.get? child = some y → y.status = .stopped) →
      ∀ y, r''.get? child = some y → y.status = .stopped := by
    intro child h y hy
    by_cases hchild : child = i
    · subst hchild
      rw [hi] at hy
      obtain rfl := Option.some.inj hy
      rfl
    · exact h y ((hother hchild).symm.trans hy)
  constructor
  · exact hhalts
  · intro j hj y hy
    obtain rfl := List.mem_singleton.mp hj
    rw [hi] at hy
    obtain rfl := Option.some.inj hy
    rfl
  · intro j y hy
    by_cases hj : j = i
    · exact .inl (List.mem_singleton.mpr hj)
    · right
      obtain htop | ⟨k, z, hz, hchild⟩ := hbelow.above ((hcases hj).mp hy)
      · exact ⟨i, x, hfalls, htop⟩
      · have hk : k ≠ i := by
          rintro rfl
          have hz' := hz.get?
          rw [get?_halting hx] at hz'
          obtain rfl := Option.some.inj hz'
          exact hz.status rfl
        exact ⟨k, z, (hcases hk).mpr hz, hchild⟩
  · intro k z hz child hchild
    by_cases hk : k = i
    · subst hk
      have hz' := hz.get?
      rw [hx] at hz'
      obtain rfl := Option.some.inj hz'
      exact hstopped (hbelow.fallen child hchild)
    · exact hstopped (hbelow.below ((hcases hk).mp hz) child hchild)

/-- An instance is stopped with all below it, if the depth is enough for the instances that
have been made since. -/
theorem fells_stopWithin {depth : Nat} (holder : r.Older)
    (hdepth : r.instances.next ≤ depth + i) :
  Fells [i] r (stopWithin depth r i)
  := by
  -- The induction is on the depth; a child needs one less, having been made later.
  induction depth generalizing r i with
  | zero =>
    refine .refl fun j hj y hy => ?_
    obtain rfl := List.mem_singleton.mp hj
    have hlt := lt_next_of_get? hy
    omega
  | succ depth ih =>
    cases hx : r.get? i with
    | none =>
      rw [stopWithin, hx]
      refine .refl fun j hj y hy => ?_
      obtain rfl := List.mem_singleton.mp hj
      rw [hx] at hy
      cases hy
    | some x =>
      by_cases hstopped : x.status = .stopped
      · rw [stopWithin, hx]
        simp only
        rw [if_pos hstopped]
        refine .refl fun j hj y hy => ?_
        obtain rfl := List.mem_singleton.mp hj
        rw [hx] at hy
        obtain rfl := Option.some.inj hy
        exact hstopped
      · have hbelow : Fells x.children.values (r.halting i x)
            (x.children.values.foldl (stopWithin depth) (r.halting i x)) := by
          apply Fells.foldl _ (older_halting holder hx) (next_modify r i _)
          intro r' holder' hnext child hchild
          apply ih holder'
          have hlt := (holder i x hx child hchild).1
          omega
        exact fells_of_halting hx hstopped hbelow (halts_stopWithin (depth + 1) r i)
          (stopWithin_of_ne_stopped hx hstopped depth)

/-- Stopping an instance stops all that are below it, since numbers of children grow. -/
theorem fells_stop (holder : r.Older) (i : Nat) :
  Fells [i] r (r.stop i)
  := fells_stopWithin holder (Nat.le_add_right _ _)

/-- The children of an instance are forgotten, and then they are stopped. -/
theorem fells_stopChildren (holder : r.Older) (hx : r.get? i = some x) :
  ∃ r₁, Sets r r₁ i { x with children := .empty }
    ∧ Fells x.children.values r₁ (r.stopChildren i)
  := by
  have heq : r.stopChildren i
      = x.children.values.foldl stop (r.modify i fun x => { x with children := .empty }) := by
    rw [stopChildren, hx]
  have hsets := sets_modify hx fun x => { x with children := .empty }
  refine ⟨_, hsets, ?_⟩
  rw [heq]
  apply Fells.foldl _ (holder.sets hsets fun _ hchild => by cases hchild) rfl
  exact fun r holder _ child _ => fells_stop holder child

/-! ### What is kept -/

/-- Only the instance with the number is let go. -/
theorem get?_letGo (r : Engine κ) (i j : Nat) :
  (r.letGo i).get? j = if i = j then none else r.get? j
  := by
  rw [letGo]
  cases hx : r.get? i with
  | none =>
    simp only
    split
    · next hj => rw [← hj, hx]
    · rfl
  | some x => exact Table.get?_erase _ _ _

/-- Listed instances are let go, and no others. -/
theorem get?_foldl_letGo (r : Engine κ) (is : List Nat) (j : Nat) :
  (is.foldl letGo r).get? j = if j ∈ is then none else r.get? j
  := by
  induction is generalizing r with
  | nil => simp
  | cons i rest ih =>
    rw [List.foldl_cons, ih, get?_letGo]
    by_cases hj : j ∈ rest
    · simp [hj]
    · simp [hj, eq_comm]

/-- To let go of instances that are gone does nothing. -/
theorem foldl_letGo_of_none {is : List Nat} (h : ∀ i ∈ is, r.get? i = none) :
  is.foldl letGo r = r
  := by
  induction is with
  | nil => rfl
  | cons i is ih =>
    obtain ⟨hi, his⟩ := List.forall_mem_cons.mp h
    have hfirst : r.letGo i = r := by rw [letGo, hi]
    rw [List.foldl_cons, hfirst]
    exact ih his

/-- The children of some instances are those stored with one of them. -/
theorem mem_childrenOf_iff {ids : List Nat} {child : Nat} :
  child ∈ r.childrenOf ids ↔ ∃ i ∈ ids, ∃ x, r.get? i = some x ∧ child ∈ x.children.values
  := by
  rw [childrenOf, List.mem_flatMap]
  constructor
  · rintro ⟨i, hi, hchild⟩
    split at hchild
    · next x hx => exact ⟨i, hi, x, hx, hchild⟩
    · cases hchild
  · rintro ⟨i, hi, x, hx, hchild⟩
    refine ⟨i, hi, ?_⟩
    rw [hx]
    exact hchild

/-- What is reached has its children reached, if the depth is enough for the numbers that
are left. -/
theorem childrenOf_reach_subset (holder : r.Older) {depth : Nat} {ids : List Nat}
    (hdepth : (Finset.range r.instances.next \ ids.toFinset).card ≤ depth) :
  r.childrenOf (r.reach depth ids) ⊆ r.reach depth ids
  := by
  have hlt : ∀ {ids child}, child ∈ r.childrenOf ids → child < r.instances.next := by
    intro ids child hchild
    obtain ⟨i, -, x, hx, hchild⟩ := mem_childrenOf_iff.mp hchild
    exact (holder i x hx child hchild).2
  -- Every round but the last reaches a number that was left.
  induction depth generalizing ids with
  | zero =>
    intro child hchild
    have hempty := Finset.card_eq_zero.mp (Nat.le_zero.mp hdepth)
    have hmem := Finset.sdiff_eq_empty_iff_subset.mp hempty (Finset.mem_range.mpr (hlt hchild))
    exact List.mem_toFinset.mp hmem
  | succ depth ih =>
    rw [reach]
    split
    · next hnone =>
      intro child hchild
      have hnot := List.filter_eq_nil_iff.mp (List.isEmpty_iff.mp hnone) child hchild
      simpa using hnot
    · next hsome =>
      apply ih
      obtain ⟨child, hchild, hnew⟩ : ∃ child ∈ r.childrenOf ids, child ∉ ids := by
        simpa using hsome
      apply Nat.le_of_lt_succ
      refine Nat.lt_of_lt_of_le (Finset.card_lt_card ?_) hdepth
      refine (Finset.ssubset_iff_of_subset ?_).mpr ⟨child, ?_, ?_⟩
      · apply Finset.sdiff_subset_sdiff (Finset.Subset.refl _)
        intro k hk
        simp only [List.toFinset_append, Finset.mem_union]
        exact .inl hk
      · simp [hlt hchild, hnew]
      · simp [hchild, hnew]

/-- An instance that is kept keeps the children that are stored with it. -/
theorem get?_release_of_child (holder : r.Older) {held : List Nat}
    (hx : (r.release held).get? i = some x) {child : Nat} (hchild : child ∈ x.children.values) :
  (r.release held).get? child = r.get? child
  := by
  have hdepth : (Finset.range r.instances.next
      \ (held ++ r.registered).eraseDups.toFinset).card ≤ r.instances.next := by
    refine Nat.le_trans (Finset.card_le_card Finset.sdiff_subset) ?_
    rw [Finset.card_range]
  have hclosed := childrenOf_reach_subset holder hdepth
  rw [release, get?_foldl_letGo] at hx ⊢
  split at hx
  · cases hx
  · next hkept =>
    have hi : i ∈ r.reach r.instances.next (held ++ r.registered).eraseDups := by
      by_contra hnot
      apply hkept
      refine List.mem_filter.mpr ⟨?_, by simpa using hnot⟩
      rw [Table.ids]
      refine List.mem_filter.mpr ⟨List.mem_range.mpr (lt_next_of_get? hx), ?_⟩
      rw [Engine.get?] at hx
      rw [hx, Option.isSome_some]
    rw [if_neg]
    intro hgone
    have hnot := (List.mem_filter.mp hgone).2
    have hmem := hclosed (mem_childrenOf_iff.mpr ⟨i, hi, x, hx, hchild⟩)
    simp [hmem] at hnot

end Engine

end Statechart
