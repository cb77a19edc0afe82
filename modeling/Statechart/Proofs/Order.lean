import Statechart.Proofs.Arming
import Statechart.Proofs.Step

/-!
# Order in runs

An instance is busy exactly while it is at work, which it is at most once at a time, and
its mailbox is empty unless it is at work (`Orderly`).  Envelopes come only to instances
that were started (`Engine.Started`).
-/

namespace Statechart

variable {κ π σ : Type}

/-! ### Instances at work -/

/-- The innermost work may get other phases; the same instances are at work. -/
theorem Shift.workers_eq {st st' : List (Frame κ π)} (h : Shift st st') :
  workers st' = workers st
  := by
  induction h with
  | same => rfl
  | push hf _ ih => rw [workers, List.filterMap_cons_none hf]; exact ih
  | pop hf _ ih => rw [ih, workers, workers, List.filterMap_cons_none hf]

@[simp]
theorem workers_working (i : Nat) (o : Except MachineError Unit) (ps : List (Phase κ))
    (st : List (Frame κ π)) :
  workers (.working i o ps :: st) = i :: workers st
  := rfl

/-- Activities that work for an instance keep it alive. -/
theorem workers_subset_owners (st : List (Frame κ π)) :
  workers st ⊆ owners st
  := by
  intro i hi
  obtain ⟨f, hf, hworker⟩ := List.mem_filterMap.mp hi
  refine List.mem_filterMap.mpr ⟨f, hf, ?_⟩
  cases f with
  | working owner _ _ => exact hworker
  | _ => cases hworker

/-- No instance is at work twice; the busy ones are at work; and mail waits only for an
instance at work. -/
structure Orderly (r : Engine κ) (st : List (Frame κ π)) : Prop where
  nodup : (workers st).Nodup
  there : ∀ i ∈ workers st, ∃ x, r.get? i = some x
  busy : ∀ i x, r.get? i = some x → (x.busy = true ↔ i ∈ workers st)
  mail : ∀ i x, r.get? i = some x → x.mailbox ≠ [] → i ∈ workers st

namespace Orderly

variable {r r' : Engine κ} {st st' : List (Frame κ π)} {i : Nat} {x y : Instance κ}

/-- Order depends on which instances are at work. -/
theorem congr (h : Orderly r st) (hworkers : workers st' = workers st) :
  Orderly r st'
  := by
  obtain ⟨nodup, there, busy, mail⟩ := h
  rw [← hworkers] at nodup there busy mail
  exact ⟨nodup, there, busy, mail⟩

/-- Order is kept where instances are. -/
theorem same (h : Orderly r st) (hsame : Engine.Same r r') :
  Orderly r' st
  where
  nodup := h.nodup
  there i hi := by
    rw [hsame.get?]
    exact h.there i hi
  busy i x hx := h.busy i x (hsame.get? i ▸ hx)
  mail i x hx := h.mail i x (hsame.get? i ▸ hx)

/-- An instance changes that is busy as before, with mail only if it is at work. -/
theorem sets (h : Orderly r st) (hx : r.get? i = some x) (hsets : Engine.Sets r r' i y)
    (hbusy : y.busy = x.busy) (hmail : y.mailbox ≠ [] → x.mailbox ≠ [] ∨ i ∈ workers st) :
  Orderly r' st
  where
  nodup := h.nodup
  there j hj := by
    rw [hsets.get?]
    split
    · exact ⟨y, rfl⟩
    · exact h.there j hj
  busy j z hz := by
    rw [hsets.get?] at hz
    split at hz
    · next hj =>
      obtain rfl := Option.some.inj hz
      rw [hbusy, ← hj]
      exact h.busy i x hx
    · exact h.busy j z hz
  mail j z hz hne := by
    rw [hsets.get?] at hz
    split at hz
    · next hj =>
      obtain rfl := Option.some.inj hz
      rw [← hj]
      obtain hne | hi := hmail hne
      · exact h.mail i x hx hne
      · exact hi
    · exact h.mail j z hz hne

/-- An envelope is posted to an instance. -/
theorem post (h : Orderly r st) (hx : r.get? i = some x) {e : Envelope}
    (hsets : Engine.Sets r r' i (y.enqueued e)) :
  Orderly r' (wake x.busy i st)
  := by
  have hcases : (x.busy = true ∧ wake x.busy i st = st ∧ i ∈ workers st)
      ∨ (wake x.busy i st = .working i (.ok ()) [] :: st ∧ i ∉ workers st) := by
    cases hbusy : x.busy with
    | true => exact .inl ⟨rfl, rfl, (h.busy i x hx).mp hbusy⟩
    | false =>
      refine .inr ⟨rfl, fun hi => ?_⟩
      rw [(h.busy i x hx).mpr hi] at hbusy
      cases hbusy
  have hmem : ∀ j, j ∈ workers (wake x.busy i st) ↔ j = i ∨ j ∈ workers st := by
    intro j
    obtain ⟨-, heq, hi⟩ | ⟨heq, -⟩ := hcases
    · rw [heq]
      constructor
      · exact .inr
      · rintro (rfl | hj)
        · exact hi
        · exact hj
    · rw [heq, workers_working, List.mem_cons]
  constructor
  · obtain ⟨-, heq, -⟩ | ⟨heq, hi⟩ := hcases
    · rw [heq]
      exact h.nodup
    · rw [heq, workers_working, List.nodup_cons]
      exact ⟨hi, h.nodup⟩
  · intro j hj
    rw [hsets.get?]
    split
    · exact ⟨_, rfl⟩
    · next hne =>
      obtain rfl | hj := (hmem j).mp hj
      · exact absurd rfl hne
      · exact h.there j hj
  · intro j z hz
    rw [hsets.get?] at hz
    split at hz
    · next heq =>
      obtain rfl := Option.some.inj hz
      simp only [Instance.enqueued, true_iff]
      exact (hmem j).mpr (.inl heq.symm)
    · next hne =>
      rw [h.busy j z hz, hmem]
      constructor
      · exact .inr
      · rintro (rfl | hj)
        · exact absurd rfl hne
        · exact hj
  · intro j z hz hmail
    rw [hsets.get?] at hz
    split at hz
    · next heq => exact (hmem j).mpr (.inl heq.symm)
    · exact (hmem j).mpr (.inr (h.mail j z hz hmail))

/-- Instances that are stopped lose their mail and stay at work. -/
theorem halts (h : Orderly r st) (hhalts : Engine.Halts r r') :
  Orderly r' st
  where
  nodup := h.nodup
  there i hi := by
    obtain ⟨x, hx⟩ := h.there i hi
    obtain heq | ⟨y, -, -, hy, -⟩ := hhalts.instances i
    · exact ⟨x, heq.trans hx⟩
    · exact ⟨_, hy⟩
  busy i x hx := by
    obtain ⟨y, hy, rfl | ⟨-, rfl, -⟩⟩ := hhalts.exists_get? hx
    · exact h.busy i x hy
    · exact h.busy i y hy
  mail i x hx hne := by
    obtain ⟨y, hy, rfl | ⟨-, rfl, -⟩⟩ := hhalts.exists_get? hx
    · exact h.mail i x hy hne
    · exact absurd rfl hne

/-- Instances at work are not let go. -/
theorem releases (h : Orderly r st) (hreleases : Engine.Releases (owners st) r r') :
  Orderly r' st
  where
  nodup := h.nodup
  there i hi := by
    rw [hreleases.get?_of_mem (workers_subset_owners st hi)]
    exact h.there i hi
  busy i x hx := h.busy i x (hreleases.get?_of_get? hx)
  mail i x hx := h.mail i x (hreleases.get?_of_get? hx)

/-- A new instance is not at work. -/
theorem notMem_next (h : Orderly r st) :
  r.instances.next ∉ workers st
  := by
  intro hi
  obtain ⟨x, hx⟩ := h.there _ hi
  exact absurd (Engine.lt_next_of_get? hx) (Nat.lt_irrefl _)

/-- A new instance is not at work and has no mail. -/
theorem adds (h : Orderly r st) (hadds : Engine.Adds r r' y) (hbusy : y.busy = false)
    (hmail : y.mailbox = []) :
  Orderly r' st
  where
  nodup := h.nodup
  there i hi := by
    rw [hadds.get?]
    split
    · exact ⟨y, rfl⟩
    · exact h.there i hi
  busy i x hx := by
    rw [hadds.get?] at hx
    split at hx
    · next heq =>
      obtain rfl := Option.some.inj hx
      rw [hbusy, ← heq]
      simp [h.notMem_next]
    · exact h.busy i x hx
  mail i x hx hne := by
    rw [hadds.get?] at hx
    split at hx
    · obtain rfl := Option.some.inj hx
      exact absurd hmail hne
    · exact h.mail i x hx hne

end Orderly

namespace Orderly

variable {r r' : Engine κ} {below : List (Frame κ π)} {i : Nat} {x : Instance κ}
  {o : Except MachineError Unit} {ps : List (Phase κ)}

/-- A piece of work is gone on with. -/
theorem goOn (h : Orderly r (.working i o ps :: below)) (o' : Except MachineError Unit)
    (qs : List (Phase κ)) :
  Orderly r (.working i o' qs :: below)
  := h.congr rfl

/-- An instance at work changes, and is still at work. -/
theorem works {y : Instance κ} (h : Orderly r (.working i o ps :: below))
    (hx : r.get? i = some x) (hsets : Engine.Sets r r' i y) (hbusy : y.busy = x.busy)
    (o' : Except MachineError Unit) (qs : List (Phase κ)) :
  Orderly r' (.working i o' qs :: below)
  := (h.sets hx hsets hbusy fun _ => .inr List.mem_cons_self).goOn o' qs

/-- An instance whose mailbox is empty ends its work. -/
theorem finish (h : Orderly r (.working i o ps :: below))
    (hmail : x.mailbox = []) (hsets : Engine.Sets r r' i { x with busy := false }) :
  Orderly r' below
  := by
  obtain ⟨hnot, hnodup⟩ := List.nodup_cons.mp h.nodup
  constructor
  · exact hnodup
  · intro j hj
    rw [hsets.get?]
    split
    · exact ⟨_, rfl⟩
    · exact h.there j (List.mem_cons_of_mem _ hj)
  · intro j z hz
    rw [hsets.get?] at hz
    split at hz
    · next heq =>
      obtain rfl := Option.some.inj hz
      rw [← heq]
      exact ⟨by simp, fun hi => absurd hi hnot⟩
    · next hne =>
      rw [h.busy j z hz, workers_working, List.mem_cons, or_iff_right (Ne.symm hne)]
  · intro j z hz hmail'
    rw [hsets.get?] at hz
    split at hz
    · obtain rfl := Option.some.inj hz
      exact absurd hmail hmail'
    · next hne => exact (List.mem_cons.mp (h.mail j z hz hmail')).resolve_left (Ne.symm hne)

end Orderly

/-- Every move keeps the order. -/
theorem Move.orderly {s : Signal κ} {r r' : Engine κ} {st st' : List (Frame κ π)}
    (hmove : Move s r st r' st') (h : Orderly r st) :
  Orderly r' st'
  := by
  cases hmove with
  | quiet hsame _ hshift => exact (h.same hsame).congr hshift.workers_eq
  | create hadds hshift => exact (h.adds hadds rfl rfl).congr hshift.workers_eq
  | interpret hsame _ hshift => exact (h.same hsame).congr hshift.workers_eq
  | listen hx _ hsets hshift =>
    exact (h.sets hx hsets rfl .inl).congr hshift.workers_eq
  | stop i hshift => exact (h.halts (Engine.halts_stop r i)).congr hshift.workers_eq
  | call hx _ hsets hshift => exact (h.congr hshift.workers_eq).post hx hsets
  | fire hx _ hsame _ hsets hshift =>
    exact ((h.same hsame).congr hshift.workers_eq).post (hsame.get? _ ▸ hx) hsets
  | ignore hx _ _ hsets => exact h.works hx hsets rfl _ _
  | stumble hx _ _ _ hsets => exact h.works hx hsets rfl _ _
  | begin hx _ _ hsets => exact h.works hx hsets rfl _ _
  | commit hx _ _ _ hsets => exact h.works hx hsets rfl _ _
  | finish _ hmail hsets => exact h.finish hmail hsets
  | vanish hx =>
    obtain ⟨x, hx'⟩ := h.there _ List.mem_cons_self
    rw [hx] at hx'
    cases hx'
  | advance _ _ => exact h.goOn _ _
  | drop _ _ => exact h.goOn _ _
  | fail _ _ => exact h.goOn _ _
  | stopChildren hx =>
    obtain ⟨r₁, hsets, hhalts, -⟩ := Engine.halts_stopChildren hx
    exact (h.works hx hsets rfl _ _).halts hhalts
  | @spawn _ _ _ i x _ _ state _ v _ m services hx _ _ hspawns =>
    obtain ⟨r₁, r₂, hadds, hx₁, hsets, hchild, hsets'⟩ := hspawns.exists_sets hx
      { Instance.new m services x.pool (some ⟨v.id, state, i⟩) with status := .running }
    exact ((h.adds hadds rfl rfl).works hx₁ hsets rfl _ _).post hchild hsets'
  | missing hx _ _ hsets => exact h.works hx hsets rfl _ _
  | rearm hx _ harmed =>
    obtain ⟨r₁, timers, generation, hsame, hx₁, hsets⟩ := Engine.exists_sets_of_armTimers hx harmed
    exact (h.same hsame).works hx₁ hsets rfl _ _
  | conclude hx hsets => exact h.works hx hsets rfl _ _
  | report hx _ _ hsets hy hsets' => exact (h.works hx hsets rfl _ _).post hy hsets'

/-! ### Instances that were started -/

namespace Engine

/-- A number that is not given again, to an instance that was started if it is still
there. -/
def Begun (r : Engine κ) (i : Nat) : Prop :=
  i < r.instances.next ∧ ∀ x, r.get? i = some x → x.status ≠ .notStarted

/-- Mail comes only to instances that were started, and so do reports and timers. -/
structure Started (r : Engine κ) : Prop where
  mail : ∀ i x, r.get? i = some x → x.status = .notStarted →
    x.mailbox = [] ∧ x.busy = false
  parent : ∀ i x link, r.get? i = some x → x.parent = some link → r.Begun link.parent
  timer : ∀ id t i state key generation, r.timing.timers.get? id = some t →
    t.callback = some (.after i state key generation) → r.Begun i
  task : ∀ p ∈ r.timing.scheduler.queue, ∀ cb, p.task = .task cb → ∃ code, cb = .code code

variable {r r' : Engine κ} {i : Nat} {x y : Instance κ}

/-- An instance that was started has begun. -/
theorem begun_of_status (hx : r.get? i = some x) (hstatus : x.status ≠ .notStarted) :
  r.Begun i
  := by
  refine ⟨lt_next_of_get? hx, fun y hy => ?_⟩
  rw [hx] at hy
  obtain rfl := Option.some.inj hy
  exact hstatus

/-- What has begun is still so where instances stay. -/
theorem Same.begun (h : Same r r') (hi : r.Begun i) :
  r'.Begun i
  := by
  refine ⟨by rw [h.next]; exact hi.1, fun x hx => hi.2 x ?_⟩
  rw [← h.get?, hx]

/-- What has begun is still so unless a change takes its start back. -/
theorem Sets.begun {j : Nat} (h : Sets r r' j y) (hx : r.get? j = some x)
    (hstatus : x.status ≠ .notStarted → y.status ≠ .notStarted) (hi : r.Begun i) :
  r'.Begun i
  := by
  refine ⟨by rw [h.next]; exact hi.1, fun z hz => ?_⟩
  rw [h.get?] at hz
  split at hz
  · next hj =>
    obtain rfl := Option.some.inj hz
    exact hstatus (hi.2 x (hj ▸ hx))
  · exact hi.2 z hz

/-- The number of a new instance is none of those that have begun. -/
theorem Adds.begun (h : Adds r r' y) (hi : r.Begun i) :
  r'.Begun i
  := by
  refine ⟨by rw [h.next]; exact Nat.lt_succ_of_lt hi.1, fun z hz => ?_⟩
  rw [h.get?, if_neg (Nat.ne_of_gt hi.1)] at hz
  exact hi.2 z hz

/-- What has begun is still so when it is stopped. -/
theorem Halts.begun (h : Halts r r') (hi : r.Begun i) :
  r'.Begun i
  := by
  refine ⟨by rw [h.next]; exact hi.1, fun z hz => ?_⟩
  obtain ⟨x, hx, rfl | ⟨-, rfl, -⟩⟩ := h.exists_get? hz
  · exact hi.2 z hx
  · exact fun h => by cases h

/-- What has begun is still so when it is let go, as numbers are not given again. -/
theorem Releases.begun {held : List Nat} (h : Releases held r r') (hi : r.Begun i) :
  r'.Begun i
  := by
  refine ⟨by rw [h.next]; exact hi.1, fun z hz => hi.2 z (h.get?_of_get? hz)⟩

namespace Started

/-- The clock goes on, and the instances are still as they should be. -/
theorem of_follows (h : r.Started) {P : Nat → Callback κ → Prop} {Q : Callback κ → Prop}
    (hfollows : r.timing.Follows P Q r'.timing)
    (hP : ∀ id i state key generation, P id (.after i state key generation) → r'.Begun i)
    (hQ : ∀ cb, Q cb → ∃ code, cb = .code code) (hbegun : ∀ i, r.Begun i → r'.Begun i)
    (hinstances : ∀ i x, r'.get? i = some x →
      (x.status = .notStarted → x.mailbox = [] ∧ x.busy = false)
        ∧ ∀ link, x.parent = some link → r'.Begun link.parent) :
  r'.Started
  where
  mail i x hx := (hinstances i x hx).1
  parent i x link hx := (hinstances i x hx).2 link
  timer id t i state key generation ht hcallback := by
    obtain ⟨u, hu, hbecomes⟩ | ⟨-, -, hnew⟩ := hfollows.origin ht
    · exact hbegun i (h.timer id u i state key generation hu (hbecomes.callback_eq hcallback))
    · exact hP id i state key generation (hnew _ hcallback)
  task p hp cb htask := by
    obtain hcb | ⟨q, hq, htask'⟩ := hfollows.task hp htask
    · exact hQ cb hcb
    · exact h.task q hq cb htask'

/-- Mail and reports come to the same instances; timers are quiet. -/
theorem same (h : r.Started) (hsame : Same r r') (hquiet : Quiet r r') :
  r'.Started
  := by
  apply h.of_follows hquiet _ (fun cb hcb => hcb) fun i hi => hsame.begun hi
  · intro i x hx
    rw [hsame.get?] at hx
    exact ⟨h.mail i x hx, fun link hlink => hsame.begun (h.parent i x link hx hlink)⟩
  · rintro id i state key generation ⟨code, hcode⟩
    cases hcode

/-- One instance is replaced or added that has no mail before its start, and whose parent has
begun. -/
theorem replaced (h : r.Started) {c : Nat → Prop} [DecidablePred c]
    (htiming : r'.timing = r.timing)
    (hget : ∀ j, r'.get? j = if c j then some y else r.get? j)
    (hbegun : ∀ i, r.Begun i → r'.Begun i)
    (hmail : y.status = .notStarted → y.mailbox = [] ∧ y.busy = false)
    (hparent : ∀ link, y.parent = some link → r.Begun link.parent) :
  r'.Started
  := by
  have hfollows : r.timing.Follows (fun _ _ => False) (fun _ => False) r'.timing := by
    rw [htiming]
    exact .refl _
  apply h.of_follows hfollows (fun _ _ _ _ _ h => h.elim) (fun _ h => h.elim) hbegun
  intro j z hz
  rw [hget] at hz
  split at hz
  · obtain rfl := Option.some.inj hz
    exact ⟨hmail, fun link hlink => hbegun _ (hparent link hlink)⟩
  · exact ⟨h.mail j z hz, fun link hlink => hbegun _ (h.parent j z link hz hlink)⟩

/-- A change of an instance neither takes its start back nor sends mail before it. -/
theorem sets (h : r.Started) (hx : r.get? i = some x) (hsets : Sets r r' i y)
    (hstatus : x.status ≠ .notStarted → y.status ≠ .notStarted)
    (hmail : y.status = .notStarted → y.mailbox = [] ∧ y.busy = false)
    (hparent : y.parent = x.parent) :
  r'.Started
  := h.replaced hsets.timing hsets.get? (fun _ hj => hsets.begun hx hstatus hj) hmail
    fun link hlink => h.parent i x link hx (hparent ▸ hlink)

/-- An instance changes whose status and mail are as before. -/
theorem keeps (h : r.Started) (hx : r.get? i = some x) (hsets : Sets r r' i y)
    (hstatus : y.status = x.status) (hmail : y.mailbox = x.mailbox)
    (hbusy : y.busy = x.busy ∨ y.busy = false) (hparent : y.parent = x.parent) :
  r'.Started
  := by
  apply h.sets hx hsets _ _ hparent
  · rw [hstatus]
    exact id
  · rw [hstatus, hmail]
    intro hnot
    obtain ⟨hempty, hidle⟩ := h.mail i x hx hnot
    refine ⟨hempty, ?_⟩
    obtain hbusy | hbusy := hbusy
    · rw [hbusy, hidle]
    · exact hbusy

/-- A new instance has no mail, and its parent has begun. -/
theorem adds (h : r.Started) (hadds : Adds r r' y) (hmail : y.mailbox = [] ∧ y.busy = false)
    (hparent : ∀ link, y.parent = some link → r.Begun link.parent) :
  r'.Started
  := h.replaced hadds.timing hadds.get? (fun _ hj => hadds.begun hj) (fun _ => hmail) hparent

/-- A stopped instance was started or has no mail. -/
theorem halts (h : r.Started) (hhalts : Halts r r') :
  r'.Started
  := by
  have hbegun : ∀ i, r.Begun i → r'.Begun i := fun i hi => hhalts.begun hi
  apply h.of_follows hhalts.timing (fun _ _ _ _ _ h => h.elim) (fun _ h => h.elim) hbegun
  intro j z hz
  obtain ⟨x, hx, rfl | ⟨-, rfl, -⟩⟩ := hhalts.exists_get? hz
  · exact ⟨h.mail j z hx, fun link hlink => hbegun _ (h.parent j z link hx hlink)⟩
  · exact ⟨fun hnot => (by cases hnot), fun link hlink => hbegun _ (h.parent j x link hx hlink)⟩

/-- What is let go sends no mail. -/
theorem releases (h : r.Started) {held : List Nat} (hreleases : Releases held r r') :
  r'.Started
  := by
  have hbegun : ∀ i, r.Begun i → r'.Begun i := fun i hi => hreleases.begun hi
  apply h.of_follows hreleases.timing (fun _ _ _ _ _ h => h.elim) (fun _ h => h.elim) hbegun
  intro j z hz
  have hz' := hreleases.get?_of_get? hz
  exact ⟨h.mail j z hz', fun link hlink => hbegun _ (h.parent j z link hz' hlink)⟩

/-- A running instance arms timers for itself, and has begun. -/
theorem rearms (h : r.Started) (hx : r.get? i = some x) (hrunning : x.isRunning = true)
    {o : ArmingOf} (howner : o.owner = i) {es : List Armed} (hrearms : Rearms r r' i x o es) :
  r'.Started
  := by
  have hstatus : x.status ≠ .notStarted := by
    intro h
    simp [Instance.isRunning, h] at hrunning
  obtain ⟨r₁, hsame, hx₁, hsets⟩ := hrearms.exists_sets hx
  have hbegun : ∀ j, r.Begun j → r'.Begun j := fun j hj =>
    hsets.begun hx₁ (fun h => h) (hsame.begun hj)
  apply h.of_follows hrearms.timing _ (fun _ h => h.elim) hbegun
  · intro j z hz
    rw [hrearms.get?] at hz
    split at hz
    · obtain rfl := Option.some.inj hz
      exact ⟨fun h => absurd h hstatus, fun link hlink => hbegun _ (h.parent i x link hx hlink)⟩
    · exact ⟨h.mail j z hz, fun link hlink => hbegun _ (h.parent j z link hz hlink)⟩
  · rintro id j state key generation ⟨e, -, -, key', heq, -⟩
    cases heq
    rw [howner]
    exact hbegun i (begun_of_status hx hstatus)

/-- An instance with mail was started. -/
theorem status_of_mailbox (h : r.Started) (hx : r.get? i = some x) {e : Envelope}
    {more : List Envelope} (hmail : x.mailbox = e :: more) :
  x.status ≠ .notStarted
  := by
  intro hstatus
  rw [(h.mail i x hx hstatus).1] at hmail
  cases hmail

end Started

end Engine

/-- A stopped instance does not run. -/
theorem Instance.isRunning_of_stopped {x : Instance κ} (h : x.status = .stopped) :
  x.isRunning = false
  := by
  rw [isRunning, h]
  rfl

/-- An instance that runs has the status of a running one. -/
theorem Instance.status_of_isRunning {x : Instance κ} (h : x.isRunning = true) :
  x.status = .running
  := by
  simpa [isRunning] using h

/-- An instance that runs is not stopped. -/
theorem Instance.status_ne_stopped {x : Instance κ} (h : x.isRunning = true) :
  x.status ≠ .stopped
  := by
  simp [status_of_isRunning h]

/-- An instance that runs was started. -/
theorem Instance.status_ne_notStarted {x : Instance κ} (h : x.isRunning = true) :
  x.status ≠ .notStarted
  := by
  simp [status_of_isRunning h]

theorem Engine.isRunning_of_get? {r : Engine κ} {i : Nat} {x : Instance κ}
    (hx : r.get? i = some x) (h : x.isRunning = true) :
  r.isRunning i = true
  := by
  rwa [isRunning, hx]

/-- An instance that runs was started. -/
theorem Engine.begun_of_isRunning {r : Engine κ} {i : Nat} {x : Instance κ}
    (hx : r.get? i = some x) (h : x.isRunning = true) :
  r.Begun i
  := begun_of_status hx (Instance.status_ne_notStarted h)

/-- Every move lets mail come only to instances that were started. -/
theorem Move.started {s : Signal κ} {r r' : Engine κ} {st st' : List (Frame κ π)}
    (hmove : Move s r st r' st') (h : r.Started) :
  r'.Started
  := by
  cases hmove with
  | quiet hsame hquiet _ => exact h.same hsame hquiet
  | create hadds _ => exact h.adds hadds ⟨rfl, rfl⟩ (by simp [Instance.new])
  | interpret hsame hquiet _ => exact h.same hsame hquiet
  | listen hx _ hsets _ => exact h.keeps hx hsets rfl rfl (.inl rfl) rfl
  | stop i _ => exact h.halts (Engine.halts_stop r i)
  | call hx haccepts hsets _ =>
    cases haccepts with
    | event event hrunning =>
      have hstatus := Instance.status_of_isRunning hrunning
      exact h.sets hx hsets (fun h => h) (by simp [Instance.enqueued, hstatus]) rfl
    | start _ =>
      exact h.sets hx hsets (fun _ => by simp [Instance.enqueued])
        (by simp [Instance.enqueued]) rfl
    | startAt _ _ =>
      exact h.sets hx hsets (fun _ => by simp [Instance.enqueued])
        (by simp [Instance.enqueued]) rfl
  | @fire _ r₁ _ _ _ i x state key generation hx hdue hsame hquiet hsets _ =>
    have hstatus : x.status ≠ .notStarted := by
      obtain ⟨p, hp, htask⟩ | ⟨id, t, ht, -, hcallback⟩ := hdue
      · obtain ⟨code, hcode⟩ := h.task p hp _ htask
        cases hcode
      · exact (h.timer id t i state key generation ht hcallback).2 x hx
    have hx₁ : r₁.get? i = some x := by
      rw [hsame.get?, hx]
    exact (h.same hsame hquiet).sets hx₁ hsets (fun h => h) (fun h => absurd h hstatus) rfl
  | ignore hx hmail _ hsets =>
    have hstatus := h.status_of_mailbox hx hmail
    exact h.sets hx hsets (fun h => h) (fun h => absurd h hstatus) rfl
  | stumble hx hmail _ _ hsets =>
    have hstatus := h.status_of_mailbox hx hmail
    exact h.sets hx hsets (fun h => h) (fun h => absurd h hstatus) rfl
  | begin hx hmail _ hsets =>
    have hstatus := h.status_of_mailbox hx hmail
    exact h.sets hx hsets (fun h => h) (fun h => absurd h hstatus) rfl
  | commit hx hmail _ _ hsets =>
    have hstatus := h.status_of_mailbox hx hmail
    exact h.sets hx hsets (fun h => h) (fun h => absurd h hstatus) rfl
  | finish hx _ hsets => exact h.keeps hx hsets rfl rfl (.inr rfl) rfl
  | vanish _ => exact h
  | advance _ _ => exact h
  | drop _ _ => exact h
  | fail _ _ => exact h
  | stopChildren hx =>
    obtain ⟨r₁, hsets, hhalts, -⟩ := Engine.halts_stopChildren hx
    exact (h.keeps hx hsets rfl rfl (.inl rfl) rfl).halts hhalts
  | @spawn _ _ _ i x _ _ state _ v _ m services hx hrunning _ hspawns =>
    have hstatus := Instance.status_ne_notStarted hrunning
    obtain ⟨r₁, r₂, hadds, hx₁, hsets, hchild, hsets'⟩ := hspawns.exists_sets hx
      { Instance.new m services x.pool (some ⟨v.id, state, i⟩) with status := .running }
    have h₁ : r₁.Started := by
      apply h.adds hadds ⟨rfl, rfl⟩
      rintro link ⟨⟩
      exact Engine.begun_of_status hx hstatus
    have h₂ : r₂.Started := h₁.sets hx₁ hsets (fun h => h) (fun h => absurd h hstatus) rfl
    exact h₂.sets hchild hsets' (fun _ => by simp [Instance.newborn, Instance.enqueued])
      (by simp [Instance.newborn, Instance.enqueued]) rfl
  | missing hx hrunning _ hsets =>
    have hstatus := Instance.status_of_isRunning hrunning
    exact h.sets hx hsets (fun h => h) (by simp [hstatus]) rfl
  | rearm hx hrunning harmed =>
    obtain ⟨active, ds, es, -, -, hrearms⟩ := Engine.rearms_of_armTimers hx harmed
    exact h.rearms hx hrunning rfl hrearms
  | conclude hx hsets => exact h.keeps hx hsets rfl rfl (.inl rfl) rfl
  | report hx hrunning hlink hsets hy hsets' =>
    have h₁ := h.keeps hx hsets rfl rfl (.inl rfl) rfl
    have hparent := hsets.begun hx (fun h => h) (h.parent _ _ _ hx hlink)
    have hstatus := hparent.2 _ hy
    exact h₁.sets hy hsets' (fun h => h) (fun h => absurd h hstatus) rfl

namespace Configuration

variable {H : Host κ π σ} {cs : List (Configuration κ π σ)} {c : Configuration κ π σ}

/-- Every run is orderly. -/
theorem Run.orderly (h : Run H cs c) :
  Orderly c.engine c.stack
  := by
  refine h.invariant (p := fun c => Orderly c.engine c.stack) ?_ ?_
  · intro memory
    constructor
    · exact List.nodup_nil
    · intro i hi
      cases hi
    · intro i x hx
      simp [idle] at hx
    · intro i x hx
      simp [idle] at hx
  · intro c d horderly hstep
    obtain ⟨⟨mid, hmove, hreleases, -⟩, -⟩ := hstep.reaches
    exact (hmove.orderly horderly).releases hreleases

/-- In a run envelopes come only to instances that were started. -/
theorem Run.started (h : Run H cs c) :
  c.engine.Started
  := by
  refine h.invariant (p := fun c => c.engine.Started) ?_ ?_
  · intro memory
    constructor
    · intro i x hx
      simp [idle] at hx
    · intro i x link hx
      simp [idle] at hx
    · intro id t i state key generation ht
      simp [idle, Engine.empty, Timing.empty] at ht
    · intro p hp
      cases hp
  · intro c d hstarted hstep
    obtain ⟨⟨mid, hmove, hreleases, -⟩, -⟩ := hstep.reaches
    exact (hmove.started hstarted).releases hreleases

end Configuration

end Statechart
