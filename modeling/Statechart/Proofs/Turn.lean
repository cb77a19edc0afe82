import Statechart.Proofs.Order
import Statechart.Proofs.Values

/-!
# Turns

What a step means for one instance: `Turn` has a rule for each way in which the instance
and the phases of its work may change.  A property of an instance and its work that every
turn keeps, and that new instances have, holds of all instances in all runs
(`Configuration.Run.each`).
-/

namespace Statechart

variable {κ π σ : Type}

/-! ### The work of an instance -/

/-- The phases of the work of an instance, if it is at work. -/
def workOf (i : Nat) : List (Frame κ π) → Option (List (Phase κ))
  | [] => none
  | .working j _ ps :: st => if j = i then some ps else workOf i st
  | _ :: st => workOf i st

theorem workOf_eq_none_iff {i : Nat} {st : List (Frame κ π)} :
  workOf i st = none ↔ i ∉ workers st
  := by
  induction st with
  | nil => simp [workOf, workers]
  | cons f st ih =>
    cases f with
    | working j o ps =>
      rw [workOf, workers_working, List.mem_cons, not_or, ← ih]
      by_cases hj : j = i
      · simp [hj]
      · rw [if_neg hj]
        exact ⟨fun h => ⟨Ne.symm hj, h⟩, fun h => h.2⟩
    | waiting _ => exact ih
    | advancing _ => exact ih
    | fired _ => exact ih
    | replaying _ _ => exact ih

theorem workOf_cons_of_worker?_eq_none {f : Frame κ π} (hf : f.worker? = none) (i : Nat)
    (st : List (Frame κ π)) :
  workOf i (f :: st) = workOf i st
  := by
  cases f with
  | working _ _ _ => cases hf
  | _ => rfl

theorem Shift.workOf_eq {st st' : List (Frame κ π)} (h : Shift st st') (i : Nat) :
  workOf i st' = workOf i st
  := by
  induction h with
  | same => rfl
  | push hf _ ih => rw [workOf_cons_of_worker?_eq_none hf, ih]
  | pop hf _ ih => rw [workOf_cons_of_worker?_eq_none hf, ih]

@[simp]
theorem workOf_working_self (i : Nat) (o : Except MachineError Unit) (ps : List (Phase κ))
    (st : List (Frame κ π)) :
  workOf i (.working i o ps :: st) = some ps
  := if_pos rfl

theorem workOf_working_of_ne {i j : Nat} (h : j ≠ i) (o : Except MachineError Unit)
    (ps : List (Phase κ)) (st : List (Frame κ π)) :
  workOf i (.working j o ps :: st) = workOf i st
  := if_neg h

/-- An instance that an envelope is posted to begins to work, unless it is at work. -/
theorem Orderly.workOf_wake {r : Engine κ} {st : List (Frame κ π)} (h : Orderly r st)
    {j : Nat} {y : Instance κ} (hy : r.get? j = some y) (i : Nat) :
  workOf i (wake y.busy j st) = workOf i st
    ∨ (workOf i st = none ∧ workOf i (wake y.busy j st) = some [])
  := by
  rw [wake]
  cases hbusy : y.busy with
  | true => exact .inl rfl
  | false =>
    have hnot : j ∉ workers st := by
      rw [← h.busy j y hy, hbusy]
      exact Bool.false_ne_true
    rw [if_neg Bool.false_ne_true]
    by_cases hj : j = i
    · subst hj
      exact .inr ⟨workOf_eq_none_iff.mpr hnot, workOf_working_self _ _ _ _⟩
    · exact .inl (workOf_working_of_ne hj _ _ _)

/-! ### The rules -/

/-- What becomes of an instance and its work on the way from `r` to `r'`. -/
inductive Turn (i : Nat) (r r' : Engine κ) (x : Instance κ) :
    Option (List (Phase κ)) → Instance κ → Option (List (Phase κ)) → Prop where
  /-- At most its mail, its listeners and its marks change. -/
  | keep {w w' : Option (List (Phase κ))} {mailbox : List Envelope} {busy : Bool}
      {listeners : List (Nat × κ)} {n : Nat} {done : Bool} :
    w' = w ∨ w = none ∧ w' = some [] ∨ w = some [] ∧ w' = none →
      x.Listens listeners n →
      Turn i r r' x w
        { x with
          mailbox := mailbox, busy := busy, listeners := listeners, nextListener := n
          doneReported := done }
        w'
  | start {snapshot : Snapshot κ} {mailbox : List Envelope} {busy : Bool} :
    x.status = .notStarted →
      Turn i r r' x none
        { x with
          status := .running, snapshot := snapshot, mailbox := mailbox, busy := busy }
        (some [])
  | begin {mailbox : List Envelope} :
    x.isRunning = true →
      Turn i r r' x (some []) { x with mailbox := mailbox } (some x.startPhases)
  | commit {e : Envelope} {mailbox : List Envelope} {event : Event}
      {rearm : Configuration.Rearm} {next : Snapshot κ} {now : Nat}
      {found : Evaluated (Except MachineError (Option (Snapshot κ)))} :
    x.isRunning = true → x.resolution e = .attempt event rearm found →
      found.value = .ok (some next) →
      Turn i r r' x (some [])
        (Configuration.commitTo { x with mailbox := mailbox } next event now)
        (some (Configuration.transitionPhases x next event rearm))
  | advance {p : Phase κ} {ps rest : List (Phase κ)} {mailbox : List Envelope} {busy : Bool}
      {done : Bool} :
    p.Advances x ps →
      Turn i r r' x (some (p :: rest))
        { x with mailbox := mailbox, busy := busy, doneReported := done } (some (ps ++ rest))
  | drop {w w' : Option (List (Phase κ))} :
    x.isRunning = false → w' = some [] → Turn i r r' x w x w'
  | stopChildren {rest : List (Phase κ)} :
    (∀ child ∈ x.children.values, ∀ y, r'.get? child = some y → y.status = .stopped) →
      Turn i r r' x (some (.stopChildren :: rest)) { x with children := .empty } (some rest)
  | spawn {rest : List (Phase κ)} {state : String} {context : Context} {v : Invocation κ}
      {more : List (Invocation κ)} {m : Machine κ} {services : Services κ} :
    x.isRunning = true → x.children.get? v.id = none →
      r'.get? r.instances.next = some (.newborn m services x.pool ⟨v.id, state, i⟩) →
      Turn i r r' x (some (.invoke state context (v :: more) :: rest))
        { x with children := x.children.insert v.id r.instances.next }
        (some (.invoke state context more :: rest))
  | rearm {rest : List (Phase κ)} {timers : List Armed} {generation : Nat} :
    x.isRunning = true → (r.armTimers i).value = .ok r' →
      Turn i r r' x (some (.rearm :: rest))
        { x with timers := timers, generation := generation } (some rest)
  | halt {w w' : Option (List (Phase κ))} :
    (w' = w ∨ ∃ p rest, w = some (p :: rest) ∧ w' = some rest) →
      (∀ a ∈ x.timers, ∀ status, r.timing.status? a.timer = some status →
        r'.timing.status? a.timer = some .destroyed) →
      Turn i r r' x w x.halted w'

namespace Turn

variable {i : Nat} {r r' : Engine κ} {x y : Instance κ} {w w' : Option (List (Phase κ))}

theorem refl (w : Option (List (Phase κ))) :
  Turn i r r' x w x w
  := .keep (.inl rfl) .same

/-- The status changes only by starting and by stopping. -/
theorem status (h : Turn i r r' x w y w') :
  y.status = x.status ∨ x.status = .notStarted ∨ y.status = .stopped
  := by
  cases h with
  | start hstatus => exact .inr (.inl hstatus)
  | halt _ _ => exact .inr (.inr rfl)
  | _ => exact .inl rfl

/-- An instance that runs was started before, and then it ran already. -/
theorem isRunning (h : Turn i r r' x w y w') (hy : y.isRunning = true)
    (hx : x.status ≠ .notStarted) :
  x.isRunning = true
  := by
  have hy := Instance.status_of_isRunning hy
  obtain h | h | h := h.status
  · simp [Instance.isRunning, ← h, hy]
  · exact absurd h hx
  · rw [hy] at h
    cases h

/-- An instance that is stopped stays so. -/
theorem status_ne_stopped (h : Turn i r r' x w y w') (hy : y.status ≠ .stopped) :
  x.status ≠ .stopped
  := by
  intro hx
  obtain h | h | h := h.status
  · exact hy (h.trans hx)
  · rw [hx] at h
    cases h
  · exact hy h

/-- The machine stays, and so does the parent. -/
theorem machine_eq (h : Turn i r r' x w y w') :
  y.machine = x.machine ∧ y.parent = x.parent
  := by
  cases h with
  | _ => exact ⟨rfl, rfl⟩

end Turn

theorem Engine.Sets.exists_get? {r r' : Engine κ} {i j : Nat} {x y : Instance κ}
    (h : Engine.Sets r r' j y) (hx : r.get? i = some x) :
  ∃ z, r'.get? i = some z
  := by
  rw [h.get?]
  split
  · exact ⟨_, rfl⟩
  · exact ⟨x, hx⟩

/-- An instance changes in a way that is a turn of it. -/
theorem Engine.Sets.turn {r r' r₁ r₂ : Engine κ} {i j : Nat} {x y z : Instance κ}
    {w w' : Option (List (Phase κ))} (h : Engine.Sets r₁ r₂ j z) (hx : r₁.get? i = some x)
    (hy : r₂.get? i = some y) (hself : j = i → Turn i r r' x w z w')
    (hother : j ≠ i → w' = w ∨ w = none ∧ w' = some [] ∨ w = some [] ∧ w' = none) :
  Turn i r r' x w y w'
  := by
  obtain ⟨hj, rfl⟩ | ⟨hj, rfl⟩ := h.get?_cases hx hy
  · exact hself hj
  · exact .keep (hother hj) .same

/-- An instance that is there and works changes. -/
theorem Engine.Sets.turn_working {r r' r₁ r₂ : Engine κ} {i j : Nat} {x y z u : Instance κ}
    {below : List (Frame κ π)} {o o' : Except MachineError Unit} {ps qs : List (Phase κ)}
    (h : Engine.Sets r₁ r₂ j u) (hz : r₁.get? j = some z) (hx : r₁.get? i = some x)
    (hy : r₂.get? i = some y) (hself : Turn j r r' z (some ps) u (some qs)) :
  Turn i r r' x (workOf i (.working j o ps :: below)) y (workOf i (.working j o' qs :: below))
  := by
  apply h.turn hx hy
  · rintro rfl
    obtain rfl := Option.some.inj (hx.symm.trans hz)
    rw [workOf_working_self, workOf_working_self]
    exact hself
  · intro hj
    left
    rw [workOf_working_of_ne hj, workOf_working_of_ne hj]

/-- Only the work goes on. -/
theorem Turn.of_working {r r' : Engine κ} {i j : Nat} {x y z : Instance κ}
    {below : List (Frame κ π)} {o o' : Except MachineError Unit} {ps qs : List (Phase κ)}
    (hz : r.get? j = some z) (hx : r.get? i = some x) (hy : r.get? i = some y)
    (hself : Turn j r r' z (some ps) z (some qs)) :
  Turn i r r' x (workOf i (.working j o ps :: below)) y (workOf i (.working j o' qs :: below))
  := by
  obtain rfl := Option.some.inj (hx.symm.trans hy)
  by_cases hj : j = i
  · subst hj
    obtain rfl := Option.some.inj (hx.symm.trans hz)
    rw [workOf_working_self, workOf_working_self]
    exact hself
  · rw [workOf_working_of_ne hj, workOf_working_of_ne hj]
    exact .refl _

theorem Engine.Same.get?_eq {r r' : Engine κ} {i : Nat} {x y : Instance κ}
    (h : Engine.Same r r') (hx : r.get? i = some x) (hy : r'.get? i = some y) :
  x = y
  := Option.some.inj (hx.symm.trans ((h.get? i).symm.trans hy))

theorem Instance.isRunning_of_resolution {x : Instance κ} {e : Envelope}
    (h : x.resolution e ≠ .ignore) :
  x.isRunning = true
  := by
  rw [resolution.eq_def] at h
  cases hrunning : x.isRunning with
  | true => rfl
  | false => simp [hrunning] at h

theorem Instance.isRunning_of_begin {x : Instance κ} {e : Envelope}
    (h : x.resolution e = .begin) :
  x.isRunning = true
  := Instance.isRunning_of_resolution (by rw [h]; intro h; cases h)

theorem Instance.isRunning_of_attempt {x : Instance κ} {e : Envelope} {event : Event}
    {rearm : Configuration.Rearm}
    {found : Evaluated (Except MachineError (Option (Snapshot κ)))}
    (h : x.resolution e = .attempt event rearm found) :
  x.isRunning = true
  := Instance.isRunning_of_resolution (by rw [h]; intro h; cases h)

/-- An instance that accepts an envelope from the host takes a turn. -/
theorem Instance.Accepts.turn {r r' : Engine κ} {st st' : List (Frame κ π)} {i : Nat}
    {x y : Instance κ} {e : Envelope} (h : x.Accepts e y) (horderly : Orderly r st)
    (hstarted : r.Started) (hx : r.get? i = some x) (hshift : Shift st st') :
  Turn i r r' x (workOf i st) (y.enqueued e) (workOf i (wake x.busy i st'))
  := by
  have hwork := (horderly.congr hshift.workers_eq).workOf_wake hx i
  rw [hshift.workOf_eq] at hwork
  -- An instance that was never started is not at work and begins to.
  have hstart : x.status = .notStarted →
      workOf i st = none ∧ workOf i (wake x.busy i st') = some [] := by
    intro hstatus
    have hidle := (hstarted.mail i x hx hstatus).2
    constructor
    · rw [workOf_eq_none_iff, ← horderly.busy i x hx, hidle]
      exact Bool.false_ne_true
    · rw [hidle, wake, if_neg Bool.false_ne_true, workOf_working_self]
  cases h with
  | event event _ => exact .keep (hwork.imp_right .inl) .same
  | start hstatus =>
    rw [(hstart hstatus).1, (hstart hstatus).2]
    exact .start hstatus
  | startAt hstatus hs =>
    rw [(hstart hstatus).1, (hstart hstatus).2]
    exact .start hstatus

section

variable {r r' : Engine κ} {below : List (Frame κ π)} {i j : Nat} {x y z : Instance κ}
  {o : Except MachineError Unit} {rest : List (Phase κ)}

/-- When an instance stops its children, it has none, and some instances are halted. -/
theorem Turn.of_stopChildren (hz : r.get? j = some z) (hx : r.get? i = some x)
    (hy : (r.stopChildren j).get? i = some y) :
  Turn i r (r.stopChildren j) x (workOf i (.working j o (.stopChildren :: rest) :: below)) y
    (workOf i (.working j o rest :: below))
  := by
  obtain ⟨r₁, hsets, hhalts, hchildren⟩ := Engine.halts_stopChildren hz
  obtain ⟨x₁, hx₁, rfl | ⟨-, rfl, hdestroyed⟩⟩ := hhalts.exists_get? hy
  · exact hsets.turn_working hz hx hx₁ (.stopChildren hchildren)
  · rw [hsets.timing] at hdestroyed
    obtain ⟨hj, rfl⟩ | ⟨hj, rfl⟩ := hsets.get?_cases hx hx₁
    · subst hj
      obtain rfl := Option.some.inj (hx.symm.trans hz)
      rw [workOf_working_self, workOf_working_self]
      exact .halt (.inr ⟨_, _, rfl, rfl⟩) hdestroyed
    · rw [workOf_working_of_ne hj, workOf_working_of_ne hj]
      exact .halt (.inl rfl) hdestroyed

/-- When an instance makes a child, it stores the child and goes on. -/
theorem Engine.Spawns.turn {state : String} {context : Context} {v : Invocation κ}
    {more : List (Invocation κ)} {m : Machine κ} {services : Services κ}
    (h : Engine.Spawns r r' j
      { z with children := z.children.insert v.id r.instances.next }
      (.newborn m services z.pool ⟨v.id, state, j⟩))
    (hz : r.get? j = some z) (hrunning : z.isRunning = true)
    (hnone : z.children.get? v.id = none) (hx : r.get? i = some x)
    (hy : r'.get? i = some y) :
  Turn i r r' x (workOf i (.working j o (.invoke state context (v :: more) :: rest) :: below)) y
    (workOf i (.working r.instances.next (.ok ()) []
      :: .working j o (.invoke state context more :: rest) :: below))
  := by
  have hchild := h.get? r.instances.next
  rw [if_pos rfl] at hchild
  rw [workOf_working_of_ne (Nat.ne_of_gt (Engine.lt_next_of_get? hx))]
  obtain ⟨rfl, rfl⟩ | ⟨hj, rfl⟩ := h.get?_cases hx hy
  · obtain rfl := Option.some.inj (hx.symm.trans hz)
    rw [workOf_working_self, workOf_working_self]
    exact .spawn hrunning hnone hchild
  · rw [workOf_working_of_ne hj, workOf_working_of_ne hj]
    exact .refl _

/-- When an instance reports to its parent, it is marked, and the parent may begin to work. -/
theorem Turn.of_report {r₁ : Engine κ} {u : Instance κ} {k : Nat} {e : Envelope}
    {value : StateValue} (horderly : Orderly r (.working j o (.report value :: rest) :: below))
    (hz : r.get? j = some z) (hsets : Engine.Sets r r₁ j { z with doneReported := true })
    (hu : r₁.get? k = some u) (hsets' : Engine.Sets r₁ r' k (u.enqueued e))
    (hx : r.get? i = some x) (hy : r'.get? i = some y) :
  Turn i r r' x (workOf i (.working j o (.report value :: rest) :: below)) y
    (workOf i (wake u.busy k (.working j o rest :: below)))
  := by
  have hwork := (horderly.works hz hsets rfl o rest).workOf_wake hu i
  obtain ⟨x₁, hx₁⟩ := hsets.exists_get? hx
  by_cases hj : j = i
  · subst hj
    obtain rfl := Option.some.inj (hx.symm.trans hz)
    obtain rfl := Option.some.inj (hx₁.symm.trans hsets.get?_self)
    rw [workOf_working_self] at hwork ⊢
    obtain hwork | ⟨hnone, -⟩ := hwork
    · rw [hwork]
      obtain ⟨rfl, rfl⟩ | ⟨-, rfl⟩ := hsets'.get?_cases hx₁ hy
      · obtain rfl := Option.some.inj (hx₁.symm.trans hu)
        exact .advance (.report value)
      · exact .advance (.report value)
    · cases hnone
  · obtain ⟨hj', -⟩ | ⟨-, rfl⟩ := hsets.get?_cases hx hx₁
    · exact absurd hj' hj
    · rw [workOf_working_of_ne hj] at hwork ⊢
      apply hsets'.turn hx₁ hy _ fun _ => hwork.imp_right .inl
      rintro rfl
      obtain rfl := Option.some.inj (hx₁.symm.trans hu)
      exact .keep (hwork.imp_right .inl) .same

end

/-- Each instance that is there before and after a move has taken a turn. -/
theorem Move.turn {s : Signal κ} {r r' : Engine κ} {st st' : List (Frame κ π)}
    (hmove : Move s r st r' st') (horderly : Orderly r st) (hstarted : r.Started)
    (hvalid : r.All Instance.Valid) {i : Nat} {x y : Instance κ} (hx : r.get? i = some x)
    (hy : r'.get? i = some y) :
  Turn i r r' x (workOf i st) y (workOf i st')
  := by
  cases hmove with
  | quiet hsame _ hshift =>
    rw [hshift.workOf_eq, hsame.get?_eq hx hy]
    exact .refl _
  | create hadds hshift =>
    obtain rfl := Option.some.inj ((hadds.get?_of_get? hx).symm.trans hy)
    rw [hshift.workOf_eq]
    exact .refl _
  | interpret hsame _ hshift =>
    rw [hshift.workOf_eq, hsame.get?_eq hx hy]
    exact .refl _
  | listen hz hlisteners hsets hshift =>
    rw [hshift.workOf_eq]
    apply hsets.turn hx hy _ fun _ => .inl rfl
    rintro rfl
    obtain rfl := Option.some.inj (hx.symm.trans hz)
    exact .keep (.inl rfl) hlisteners
  | stop j hshift =>
    rw [hshift.workOf_eq]
    obtain ⟨z, hz, hcases⟩ := (Engine.halts_stop r j).exists_get? hy
    obtain rfl := Option.some.inj (hx.symm.trans hz)
    obtain rfl | ⟨-, rfl, hdestroyed⟩ := hcases
    · exact .refl _
    · exact .halt (.inl rfl) hdestroyed
  | call hz haccepts hsets hshift =>
    have hwork := (horderly.congr hshift.workers_eq).workOf_wake hz i
    rw [hshift.workOf_eq] at hwork
    apply hsets.turn hx hy _ fun _ => hwork.imp_right .inl
    rintro rfl
    obtain rfl := Option.some.inj (hx.symm.trans hz)
    exact haccepts.turn horderly hstarted hx hshift
  | fire hz _ hsame _ hsets hshift =>
    have hwork := (horderly.congr hshift.workers_eq).workOf_wake hz i
    rw [hshift.workOf_eq] at hwork
    rw [← hsame.get?] at hx hz
    apply hsets.turn hx hy _ fun _ => hwork.imp_right .inl
    rintro rfl
    obtain rfl := Option.some.inj (hx.symm.trans hz)
    exact .keep (hwork.imp_right .inl) .same
  | ignore hz hmail hres hsets => exact hsets.turn_working hz hx hy (.keep (.inl rfl) .same)
  | stumble hz _ hres hfound _ =>
    obtain ⟨o, ho, -⟩ := (hvalid _ _ hz).finds_resolution hres
    rw [hfound] at ho
    cases ho
  | begin hz hmail hres hsets =>
    exact hsets.turn_working hz hx hy (.begin (Instance.isRunning_of_begin hres))
  | commit hz hmail hres hfound hsets =>
    exact hsets.turn_working hz hx hy
      (.commit (Instance.isRunning_of_attempt hres) hres hfound)
  | @finish _ _ below j z o hz hmail hsets =>
    apply hsets.turn hx hy
    · rintro rfl
      obtain rfl := Option.some.inj (hx.symm.trans hz)
      rw [workOf_working_self, workOf_eq_none_iff.mpr (List.nodup_cons.mp horderly.nodup).1]
      exact .keep (.inr (.inr ⟨rfl, rfl⟩)) .same
    · intro hj
      rw [workOf_working_of_ne hj]
      exact .inl rfl
  | @vanish _ below j _ _ hnone =>
    obtain rfl := Option.some.inj (hx.symm.trans hy)
    have hj : j ≠ i := by
      rintro rfl
      rw [hnone] at hx
      cases hx
    rw [workOf_working_of_ne hj]
    exact .refl _
  | advance hz hadvances => exact .of_working hz hx hy (.advance hadvances)
  | drop hz hrunning => exact .of_working hz hx hy (.drop hrunning rfl)
  | fail hz herror =>
    obtain ⟨hinvocations, hdelays⟩ := (hvalid _ _ hz).active_ne_error _
    exact absurd herror (not_or.mpr ⟨hinvocations, hdelays⟩)
  | stopChildren hz => exact .of_stopChildren hz hx hy
  | spawn hz hrunning hnone hspawns => exact hspawns.turn hz hrunning hnone hx hy
  | missing hz _ _ hsets => exact hsets.turn_working hz hx hy (.advance (.invoke _ _ _ _))
  | rearm hz hrunning harmed =>
    obtain ⟨r₁, timers, generation, hsame, hz₁, hsets⟩ := Engine.exists_sets_of_armTimers hz harmed
    rw [← hsame.get?] at hx
    exact hsets.turn_working hz₁ hx hy (.rearm hrunning harmed)
  | conclude hz hsets => exact hsets.turn_working hz hx hy (.advance (.report _))
  | report hz hrunning hlink hsets hu hsets' =>
    exact .of_report horderly hz hsets hu hsets' hx hy

/-! ### Arrivals -/

/-- A new instance and its work, in a step with a signal that leads to `r'`.  A child is
stored with its parent. -/
inductive Arrives (s : Signal κ) (r' : Engine κ) (i : Nat) :
    Instance κ → Option (List (Phase κ)) → Prop where
  | created {m : Machine κ} (pool : Nat) :
    s.handed = some m → Arrives s r' i (.new m m.services pool none) none
  | spawned {m : Machine κ} {x : Instance κ} (services : Services κ) (pool : Nat)
      {link : ParentLink} :
    s.handed = some m → r'.get? link.parent = some x → x.children.get? link.id = some i →
      Arrives s r' i (.newborn m services pool link) (some [])

theorem Orderly.workOf_next {r : Engine κ} {st : List (Frame κ π)} (h : Orderly r st) :
  workOf r.instances.next st = none
  := workOf_eq_none_iff.mpr h.notMem_next

/-- Numbers of instances are not given again. -/
theorem Move.next_le {s : Signal κ} {r r' : Engine κ} {st st' : List (Frame κ π)}
    (hmove : Move s r st r' st') :
  r.instances.next ≤ r'.instances.next
  := by
  cases hmove with
  | quiet hsame _ _ => exact Nat.le_of_eq hsame.next.symm
  | create hadds _ => exact Nat.le_of_lt (Nat.lt_of_lt_of_eq (Nat.lt_succ_self _) hadds.next.symm)
  | interpret hsame _ _ => exact Nat.le_of_eq hsame.next.symm
  | listen _ _ hsets _ => exact Nat.le_of_eq hsets.next.symm
  | stop j _ => exact Nat.le_of_eq (Engine.halts_stop r j).next.symm
  | call _ _ hsets _ => exact Nat.le_of_eq hsets.next.symm
  | fire _ _ hsame _ hsets _ => exact Nat.le_of_eq (hsets.next.trans hsame.next).symm
  | ignore _ _ _ hsets => exact Nat.le_of_eq hsets.next.symm
  | stumble _ _ _ _ hsets => exact Nat.le_of_eq hsets.next.symm
  | begin _ _ _ hsets => exact Nat.le_of_eq hsets.next.symm
  | commit _ _ _ _ hsets => exact Nat.le_of_eq hsets.next.symm
  | finish _ _ hsets => exact Nat.le_of_eq hsets.next.symm
  | stopChildren hx =>
    obtain ⟨r₁, hsets, hhalts, -⟩ := Engine.halts_stopChildren hx
    exact Nat.le_of_eq (hhalts.next.trans hsets.next).symm
  | spawn _ _ _ hspawns =>
    exact Nat.le_of_lt (Nat.lt_of_lt_of_eq (Nat.lt_succ_self _) hspawns.next.symm)
  | missing _ _ _ hsets => exact Nat.le_of_eq hsets.next.symm
  | rearm hx _ harmed =>
    obtain ⟨active, ds, es, -, -, hrearms⟩ := Engine.rearms_of_armTimers hx harmed
    exact Nat.le_of_eq hrearms.next.symm
  | conclude _ hsets => exact Nat.le_of_eq hsets.next.symm
  | report _ _ _ hsets _ hsets' => exact Nat.le_of_eq (hsets'.next.trans hsets.next).symm
  | _ => exact Nat.le_refl _

/-- An instance that is there after a move was there before, or is new. -/
theorem Move.arrives {s : Signal κ} {r r' : Engine κ} {st st' : List (Frame κ π)}
    (hmove : Move s r st r' st') (horderly : Orderly r st) {i : Nat} {y : Instance κ}
    (hy : r'.get? i = some y) :
  (∃ x, r.get? i = some x) ∨ (i = r.instances.next ∧ Arrives s r' i y (workOf i st'))
  := by
  have hsets : ∀ {r r' : Engine κ} {j : Nat} {x z : Instance κ}, r.get? j = some x →
      Engine.Sets r r' j z → (∃ y, r'.get? i = some y) → ∃ x, r.get? i = some x := by
    rintro r r' j x z hx hsets ⟨y, hy⟩
    rw [hsets.get?] at hy
    split at hy
    · next hj => exact ⟨x, hj ▸ hx⟩
    · exact ⟨y, hy⟩
  cases hmove with
  | quiet hsame _ _ => exact .inl ⟨y, hsame.get? i ▸ hy⟩
  | create hadds hshift =>
    rw [hadds.get?] at hy
    split at hy
    · next hi =>
      obtain rfl := Option.some.inj hy
      rw [hshift.workOf_eq, ← hi, horderly.workOf_next]
      exact .inr ⟨rfl, .created _ rfl⟩
    · exact .inl ⟨y, hy⟩
  | interpret hsame _ _ => exact .inl ⟨y, hsame.get? i ▸ hy⟩
  | listen hx _ h _ => exact .inl (hsets hx h ⟨y, hy⟩)
  | stop j _ =>
    obtain ⟨x, hx, -⟩ := (Engine.halts_stop r j).exists_get? hy
    exact .inl ⟨x, hx⟩
  | call hx _ h _ => exact .inl (hsets hx h ⟨y, hy⟩)
  | fire hx _ hsame _ h _ =>
    rw [← hsame.get?] at hx
    obtain ⟨z, hz⟩ := hsets hx h ⟨y, hy⟩
    exact .inl ⟨z, hsame.get? i ▸ hz⟩
  | ignore hx _ _ h => exact .inl (hsets hx h ⟨y, hy⟩)
  | stumble hx _ _ _ h => exact .inl (hsets hx h ⟨y, hy⟩)
  | begin hx _ _ h => exact .inl (hsets hx h ⟨y, hy⟩)
  | commit hx _ _ _ h => exact .inl (hsets hx h ⟨y, hy⟩)
  | finish hx _ h => exact .inl (hsets hx h ⟨y, hy⟩)
  | vanish _ => exact .inl ⟨y, hy⟩
  | advance _ _ => exact .inl ⟨y, hy⟩
  | drop _ _ => exact .inl ⟨y, hy⟩
  | fail _ _ => exact .inl ⟨y, hy⟩
  | stopChildren hx =>
    obtain ⟨r₁, h, hhalts, -⟩ := Engine.halts_stopChildren hx
    obtain ⟨z, hz, -⟩ := hhalts.exists_get? hy
    exact .inl (hsets hx h ⟨z, hz⟩)
  | @spawn _ _ _ j x _ _ state _ v _ m services hx _ _ hspawns =>
    have hparent := hspawns.get?_self hx
    rw [hspawns.get?] at hy
    split at hy
    · next hi =>
      obtain rfl := Option.some.inj hy
      rw [← hi, workOf_working_self]
      refine .inr ⟨rfl, .spawned _ _ rfl hparent ?_⟩
      rw [OrderedMap.get?_insert, if_pos rfl]
    · split at hy
      · next hi => exact .inl ⟨_, hi ▸ hx⟩
      · exact .inl ⟨y, hy⟩
  | missing hx _ _ h => exact .inl (hsets hx h ⟨y, hy⟩)
  | rearm hx _ harmed =>
    obtain ⟨r₁, timers, generation, hsame, hx₁, h⟩ := Engine.exists_sets_of_armTimers hx harmed
    obtain ⟨z, hz⟩ := hsets hx₁ h ⟨y, hy⟩
    exact .inl ⟨z, hsame.get? i ▸ hz⟩
  | conclude hx h => exact .inl (hsets hx h ⟨y, hy⟩)
  | report hx _ _ h hy' h' => exact .inl (hsets hx h (hsets hy' h' ⟨y, hy⟩))

namespace Engine

variable {r r' : Engine κ} {i j : Nat} {x y : Instance κ}

theorem Same.exists_get? (h : Same r r') (hx : r.get? i = some x) :
  ∃ z, r'.get? i = some z
  := ⟨x, (h.get? i).trans hx⟩

theorem Halts.exists_halted (h : Halts r r') (hx : r.get? i = some x) :
  ∃ z, r'.get? i = some z
  := by
  obtain hsame | ⟨_, -, -, hhalted, -⟩ := h.instances i
  · exact ⟨x, hsame.trans hx⟩
  · exact ⟨_, hhalted⟩

end Engine

/-- An instance that is there is still there after a move. -/
theorem Move.exists_get? {s : Signal κ} {r r' : Engine κ} {st st' : List (Frame κ π)}
    (hmove : Move s r st r' st') {i : Nat} {x : Instance κ} (hx : r.get? i = some x) :
  ∃ y, r'.get? i = some y
  := by
  cases hmove with
  | quiet hsame _ _ => exact hsame.exists_get? hx
  | create hadds _ => exact ⟨x, hadds.get?_of_get? hx⟩
  | interpret hsame _ _ => exact hsame.exists_get? hx
  | listen _ _ h _ => exact h.exists_get? hx
  | stop j _ => exact (Engine.halts_stop r j).exists_halted hx
  | call _ _ h _ => exact h.exists_get? hx
  | fire _ _ hsame _ h _ =>
    obtain ⟨y, hy⟩ := hsame.exists_get? hx
    exact h.exists_get? hy
  | ignore _ _ _ h => exact h.exists_get? hx
  | stumble _ _ _ _ h => exact h.exists_get? hx
  | begin _ _ _ h => exact h.exists_get? hx
  | commit _ _ _ _ h => exact h.exists_get? hx
  | finish _ _ h => exact h.exists_get? hx
  | vanish _ => exact ⟨x, hx⟩
  | advance _ _ => exact ⟨x, hx⟩
  | drop _ _ => exact ⟨x, hx⟩
  | fail _ _ => exact ⟨x, hx⟩
  | stopChildren hz =>
    obtain ⟨r₁, h, hhalts, -⟩ := Engine.halts_stopChildren hz
    obtain ⟨y, hy⟩ := h.exists_get? hx
    exact hhalts.exists_halted hy
  | spawn _ _ _ h =>
    rw [h.get?, if_neg (Nat.ne_of_gt (Engine.lt_next_of_get? hx))]
    split
    · exact ⟨_, rfl⟩
    · exact ⟨x, hx⟩
  | missing _ _ _ h => exact h.exists_get? hx
  | rearm hz _ harmed =>
    obtain ⟨r₁, timers, generation, hsame, -, h⟩ := Engine.exists_sets_of_armTimers hz harmed
    obtain ⟨y, hy⟩ := hsame.exists_get? hx
    exact h.exists_get? hy
  | conclude _ h => exact h.exists_get? hx
  | report _ _ _ h _ h' =>
    obtain ⟨y, hy⟩ := h.exists_get? hx
    exact h'.exists_get? hy

/-- The status and the mark of an instance stay, unless it is stopped, its start is posted, or it
goes on from a report. -/
structure Signal.Marks (s : Signal κ) (st st' : List (Frame κ π)) (i : Nat) (x y : Instance κ) :
    Prop where
  status : y.status = x.status ∨ y.status = .stopped ∨ s.posted = some ⟨i, .start, none⟩
  done : y.doneReported = x.doneReported ∨ ∃ o value rest below,
    st = .working i o (.report value :: rest) :: below
      ∧ workOf i st' ≠ some (.report value :: rest)

/-- A move stops an instance, posts its start or goes on from its report, or leaves its status and
its mark. -/
theorem Move.marks {s : Signal κ} {r r' : Engine κ} {st st' : List (Frame κ π)}
    (hmove : Move s r st r' st') {i : Nat} {x y : Instance κ} (hx : r.get? i = some x)
    (hy : r'.get? i = some y) :
  s.Marks st st' i x y
  := by
  have hsame (heq : y = x) : s.Marks st st' i x y := heq ▸ ⟨.inl rfl, .inl rfl⟩
  have hsets {j : Nat} {z w : Instance κ} {r₁ : Engine κ} (h : Engine.Sets r₁ r' j z)
      (hx : r₁.get? i = some x) (hw : r₁.get? j = some w)
      (heq : j = i → s.Marks st st' i w z) : s.Marks st st' i x y := by
    rcases h.get?_cases hx hy with ⟨rfl, rfl⟩ | ⟨-, rfl⟩
    · obtain rfl := Option.some.inj (hw.symm.trans hx)
      exact heq rfl
    · exact hsame rfl
  have hhalts {r₁ : Engine κ} {z : Instance κ} (h : Engine.Halts r₁ r')
      (hz : r₁.get? i = some z) (heq : s.Marks st st' i x z) : s.Marks st st' i x y := by
    obtain ⟨w, hw, rfl | ⟨-, rfl, -⟩⟩ := h.exists_get? hy
    · obtain rfl := Option.some.inj (hw.symm.trans hz)
      exact heq
    · obtain rfl := Option.some.inj (hw.symm.trans hz)
      exact ⟨.inr (.inl rfl), heq.done⟩
  cases hmove with
  | quiet h => exact hsame (h.get?_eq hx hy).symm
  | interpret h => exact hsame (h.get?_eq hx hy).symm
  | create h => exact hsame (Option.some.inj (hy.symm.trans (h.get?_of_get? hx)))
  | stop j => exact hhalts (Engine.halts_stop r j) hx ⟨.inl rfl, .inl rfl⟩
  | call hz haccepts h =>
    apply hsets h hx hz
    rintro rfl
    cases haccepts with
    | event => exact ⟨.inl rfl, .inl rfl⟩
    | start | startAt => exact ⟨.inr (.inr rfl), .inl rfl⟩
  | fire hz _ h _ h' =>
    exact hsets h' ((h.get? i).trans hx) ((h.get? _).trans hz) fun _ => ⟨.inl rfl, .inl rfl⟩
  | listen hz _ h | ignore hz _ _ h | stumble hz _ _ _ h | begin hz _ _ h | commit hz _ _ _ h
  | finish hz _ h | missing hz _ _ h =>
    exact hsets h hx hz fun _ => ⟨.inl rfl, .inl rfl⟩
  | vanish | advance | drop | fail => exact hsame (Option.some.inj (hy.symm.trans hx))
  | stopChildren hz =>
    obtain ⟨r₁, h, h', -⟩ := Engine.halts_stopChildren hz
    obtain ⟨x₁, hx₁⟩ := h.exists_get? hx
    refine hhalts h' hx₁ ?_
    obtain ⟨rfl, rfl⟩ | ⟨-, rfl⟩ := h.get?_cases hx hx₁
    · obtain rfl := Option.some.inj (hz.symm.trans hx)
      exact ⟨.inl rfl, .inl rfl⟩
    · exact ⟨.inl rfl, .inl rfl⟩
  | spawn hz _ _ h =>
    obtain ⟨rfl, rfl⟩ | ⟨-, rfl⟩ := h.get?_cases hx hy
    · obtain rfl := Option.some.inj (hz.symm.trans hx)
      exact ⟨.inl rfl, .inl rfl⟩
    · exact hsame rfl
  | rearm hz _ harmed =>
    obtain ⟨r₁, timers, generation, h, hz₁, h'⟩ := Engine.exists_sets_of_armTimers hz harmed
    exact hsets h' ((h.get? i).trans hx) hz₁ fun _ => ⟨.inl rfl, .inl rfl⟩
  | @conclude _ _ below j z o rest value hz h =>
    apply hsets h hx hz
    rintro rfl
    exact ⟨.inl rfl, .inr ⟨o, value, rest, below, rfl, by simp⟩⟩
  | @report _ r₁ _ below j z z' o rest value link hz _ _ h hw h' =>
    obtain ⟨x₁, hx₁⟩ := h.exists_get? hx
    have hsame₁ : y.status = x₁.status ∧ y.doneReported = x₁.doneReported := by
      rcases h'.get?_cases hx₁ hy with ⟨rfl, rfl⟩ | ⟨-, rfl⟩
      · obtain rfl := Option.some.inj (hw.symm.trans hx₁)
        exact ⟨rfl, rfl⟩
      · exact ⟨rfl, rfl⟩
    obtain ⟨rfl, rfl⟩ | ⟨-, rfl⟩ := h.get?_cases hx hx₁
    · obtain rfl := Option.some.inj (hz.symm.trans hx)
      refine ⟨.inl hsame₁.1, .inr ⟨o, value, rest, below, rfl, ?_⟩⟩
      rw [wake]
      split
      · simp
      · rw [workOf]
        split <;> simp
    · exact ⟨.inl hsame₁.1, .inl hsame₁.2⟩

/-! ### Instances in runs -/

namespace Configuration

variable {H : Host κ π σ} {cs : List (Configuration κ π σ)} {c d : Configuration κ π σ}
  {mid : Engine κ} {i : Nat}

/-- A step of a run: a move, in which each instance that is there has taken a turn or has
arrived, and letting go. -/
structure Goes (H : Host κ π σ) (c : Configuration κ π σ) (mid : Engine κ)
    (d : Configuration κ π σ) : Prop where
  move : Move (signal H c) c.engine c.stack mid d.stack
  releases : Engine.Releases (owners d.stack) mid d.engine
  gentle : mid = d.engine ∨ Engine.Gentle c.engine mid
  release : mid = d.engine ∨ ∃ held, d.engine = mid.release held
  handed : ∀ m, (signal H c).handed = some m → m.IsCompiled
  next_le : c.engine.instances.next ≤ mid.instances.next
  turn : ∀ {i x y}, c.engine.get? i = some x → mid.get? i = some y →
    Turn i c.engine mid x (workOf i c.stack) y (workOf i d.stack)
  arrives : ∀ {i y}, mid.get? i = some y → (∃ x, c.engine.get? i = some x)
    ∨ (i = c.engine.instances.next ∧ Arrives (signal H c) mid i y (workOf i d.stack))

theorem Run.goes (h : Run H cs c) (hstep : Evolves H c d) :
  ∃ mid, Goes H c mid d
  := by
  obtain ⟨⟨mid, hmove, hreleases, hgentle, hrelease⟩, handed⟩ := hstep.reaches
  refine ⟨mid, hmove, hreleases, hgentle, hrelease, handed, hmove.next_le, ?_, ?_⟩
  · intro i x y hx hy
    exact hmove.turn h.orderly h.started h.valid.1 hx hy
  · intro i y hy
    exact hmove.arrives h.orderly hy

/-- The step from a configuration that a run has passed. -/
theorem Run.goes_of_append {before after : List (Configuration κ π σ)}
    (h : Run H (before ++ d :: after) c) :
  ∃ mid e, Goes H d mid e
  := by
  obtain ⟨e, hstep⟩ := h.exists_evolves
  obtain ⟨mid, hgoes⟩ := h.of_append.goes hstep
  exact ⟨mid, e, hgoes⟩

/-- An instance that is there after a step was there before it, if its number was given then. -/
theorem Goes.was_there (hgoes : Goes H c mid d) (hlt : i < c.engine.instances.next)
    {y : Instance κ} (hy : d.engine.get? i = some y) :
  ∃ x, c.engine.get? i = some x ∧ mid.get? i = some y
  := by
  have hmid := hgoes.releases.get?_of_get? hy
  obtain ⟨x, hx⟩ | ⟨rfl, -⟩ := hgoes.arrives hmid
  · exact ⟨x, hx, hmid⟩
  · exact absurd hlt (Nat.lt_irrefl _)

/-- What holds of the instance with a number that was given, as long as it is there, still holds
after a step that keeps it. -/
theorem Goes.kept (hgoes : Goes H c mid d) {p : Instance κ → Prop}
    (h : i < c.engine.instances.next ∧ ∀ x, c.engine.get? i = some x → p x)
    (keeps : ∀ x y, c.engine.get? i = some x → mid.get? i = some y → p x → p y) :
  i < d.engine.instances.next ∧ ∀ y, d.engine.get? i = some y → p y
  := by
  obtain ⟨hlt, hp⟩ := h
  constructor
  · rw [hgoes.releases.next]
    exact Nat.lt_of_lt_of_le hlt hgoes.next_le
  · intro y hy
    obtain ⟨x, hx, hmid⟩ := hgoes.was_there hlt hy
    exact keeps x y hx hmid (hp x hx)

/-- An instance that was started before is still there before a step after which it runs,
and it runs then already. -/
theorem Goes.runs (hgoes : Goes H c mid d) (hbegun : c.engine.Begun i) {y : Instance κ}
    (hy : d.engine.get? i = some y) (hrunning : y.isRunning = true) :
  ∃ x, c.engine.get? i = some x ∧ x.isRunning = true
    ∧ Turn i c.engine mid x (workOf i c.stack) y (workOf i d.stack)
  := by
  obtain ⟨x, hx, hmid⟩ := hgoes.was_there hbegun.1 hy
  have hturn := hgoes.turn hx hmid
  exact ⟨x, hx, hturn.isRunning hrunning (hbegun.2 x hx), hturn⟩

/-- An instance that was started stays started. -/
theorem Goes.begun (hgoes : Goes H c mid d) (hbegun : c.engine.Begun i) :
  d.engine.Begun i
  := by
  apply hgoes.kept hbegun
  intro x y hx hmid hbegun hnot
  obtain h | h | h := (hgoes.turn hx hmid).status
  · exact hbegun (h ▸ hnot)
  · exact hbegun h
  · rw [hnot] at h
    cases h

/-- Numbers go up in a run, and an instance that is there has been there ever since its
number was given. -/
theorem Run.later (h : Run H cs c) (hd : d ∈ cs) :
  d.engine.instances.next ≤ c.engine.instances.next
    ∧ ∀ i x, i < d.engine.instances.next → c.engine.get? i = some x →
        ∃ y, d.engine.get? i = some y
  := by
  refine h.related (p := fun d c => d.engine.instances.next ≤ c.engine.instances.next
    ∧ ∀ i x, i < d.engine.instances.next → c.engine.get? i = some x →
        ∃ y, d.engine.get? i = some y) ?_ ?_ hd
  · intro cs c d hrun hstep
    obtain ⟨mid, hgoes⟩ := hrun.goes hstep
    constructor
    · rw [hgoes.releases.next]
      exact hgoes.next_le
    · intro i y hlt hy
      obtain ⟨x, hx, -⟩ := hgoes.was_there hlt hy
      exact ⟨x, hx⟩
  · rintro a b c ⟨hab, hthere⟩ ⟨hbc, hthere'⟩
    refine ⟨Nat.le_trans hab hbc, fun i x hlt hx => ?_⟩
    obtain ⟨y, hy⟩ := hthere' i x (Nat.lt_of_lt_of_le hlt hab) hx
    exact hthere i y hlt hy

/-- What holds of every new instance and its work, and is kept by every turn, holds
throughout a run. -/
theorem Run.each {p : Nat → Instance κ → Option (List (Phase κ)) → Prop} (h : Run H cs c)
    (arrives : ∀ {s : Signal κ} {r i y w}, Arrives s r i y w →
      (∀ m, s.handed = some m → m.IsCompiled) → p i y w)
    (turn : ∀ {r r' i x y w w'}, x.Valid → Turn i r r' x w y w' → p i x w → p i y w')
    {i : Nat} {x : Instance κ} (hx : c.engine.get? i = some x) :
  p i x (workOf i c.stack)
  := by
  induction h generalizing x with
  | start memory => simp [idle] at hx
  | @next cs c d hrun hstep ih =>
    obtain ⟨mid, hgoes⟩ := hrun.goes hstep
    have hmid := hgoes.releases.get?_of_get? hx
    obtain ⟨z, hz⟩ | ⟨-, harrives⟩ := hgoes.arrives hmid
    · exact turn (hrun.valid.1 i z hz) (hgoes.turn hz hmid) (ih hz)
    · exact arrives harrives hgoes.handed

end Configuration

/-! ### Work in order -/

/-- The order of phases: only effects come before the stopping of children, timers are armed
once, and a round of notifications comes first. -/
def Phase.Precedes (p q : Phase κ) : Prop :=
  (q = .stopChildren → ∃ actions context event, p = .perform actions context event)
    ∧ (q = .rearm → p ≠ .rearm) ∧ ∀ s listeners, q ≠ .notify s listeners

/-- What is left of a phase may stand where the phase stood. -/
theorem Phase.Advances.precedes {x : Instance κ} {p q z : Phase κ} {ps : List (Phase κ)}
    (h : p.Advances x ps) (hq : q ∈ ps) (hp : p.Precedes z) :
  q.Precedes z
  := by
  have hrearm : q ≠ .rearm := by
    rintro rfl
    cases h <;> simp at hq
  refine ⟨?_, fun _ => hrearm, hp.2.2⟩
  intro hz
  obtain ⟨actions, context, event, rfl⟩ := hp.1 hz
  cases h with
  | performed => cases hq
  | perform a more context event =>
    obtain rfl := List.mem_singleton.mp hq
    exact ⟨more, context, event, rfl⟩

/-- A step of a phase neither stops children nor puts this off. -/
theorem Phase.Advances.ne_stopChildren {x : Instance κ} {p : Phase κ} {ps : List (Phase κ)}
    (h : p.Advances x ps) :
  p ≠ .stopChildren ∧ .stopChildren ∉ ps
  := by
  cases h <;> simp

/-- At most one phase is left of a phase. -/
theorem Phase.Advances.eq_nil_or_singleton {x : Instance κ} {p : Phase κ}
    {ps : List (Phase κ)} (h : p.Advances x ps) :
  ps = [] ∨ ∃ q, ps = [q]
  := by
  cases h <;> simp

/-- The phases of the work are in order; a child is invoked by the active state only; and
an instance that does not run has neither children nor timers. -/
structure Instance.Tidy (x : Instance κ) (w : Option (List (Phase κ))) : Prop where
  order : ∀ ps, w = some ps → ps.Pairwise Phase.Precedes
  invoke : ∀ ps state context vs, w = some ps → .invoke state context vs ∈ ps →
    x.snapshot.value.leaf? = some state
  idle : x.isRunning = false → x.children = .empty ∧ x.timers = []

theorem Arrives.tidy {s : Signal κ} {r : Engine κ} {i : Nat} {y : Instance κ}
    {w : Option (List (Phase κ))} (h : Arrives s r i y w) :
  y.Tidy w
  := by
  cases h with
  | created pool => exact ⟨nofun, nofun, fun _ => ⟨rfl, rfl⟩⟩
  | spawned services pool =>
    constructor
    · rintro _ ⟨⟩
      exact .nil
    · rintro _ state context vs ⟨⟩ hmem
      cases hmem
    · exact fun _ => ⟨rfl, rfl⟩

theorem pairwise_startPhases (x : Instance κ) :
  x.startPhases.Pairwise Phase.Precedes
  := by
  simp [Instance.startPhases, Phase.Precedes]

theorem pairwise_transitionPhases (x : Instance κ) (next : Snapshot κ) (event : Event)
    (rearm : Configuration.Rearm) :
  (Configuration.transitionPhases x next event rearm).Pairwise Phase.Precedes
  := by
  rw [Configuration.transitionPhases, Configuration.phasesOf]
  cases !(x.snapshot.value == next.value) <;> cases rearm <;> simp [Phase.Precedes]

namespace Instance.Tidy

variable {x y : Instance κ} {w : Option (List (Phase κ))} {p : Phase κ}
  {ps rest : List (Phase κ)}

theorem of_some (order : ps.Pairwise Phase.Precedes)
    (invoke : ∀ state context vs, .invoke state context vs ∈ ps →
      x.snapshot.value.leaf? = some state)
    (idle : x.isRunning = false → x.children = .empty ∧ x.timers = []) :
  x.Tidy (some ps)
  := by
  refine ⟨?_, ?_, idle⟩
  · rintro _ ⟨⟩
    exact order
  · rintro _ state context vs ⟨⟩ hmem
    exact invoke state context vs hmem

/-- Nothing left to do is in order. -/
theorem of_nil (idle : x.isRunning = false → x.children = .empty ∧ x.timers = []) :
  x.Tidy (some [])
  := of_some .nil nofun idle

/-- For the order of the work the snapshot alone counts. -/
theorem of_snapshot (h : x.Tidy w) (hsnapshot : y.snapshot = x.snapshot)
    (idle : y.isRunning = false → y.children = .empty ∧ y.timers = []) :
  y.Tidy w
  := ⟨h.order, fun ps state context vs hw hmem => hsnapshot ▸ h.invoke ps state context vs hw hmem,
    idle⟩

/-- What is left of some work is in order if the work was. -/
theorem tail (h : x.Tidy (some (p :: rest))) :
  x.Tidy (some rest)
  := of_some (List.pairwise_cons.mp (h.order _ rfl)).2
    (fun state context vs hmem =>
      h.invoke _ state context vs rfl (List.mem_cons_of_mem _ hmem)) h.idle

/-- Work stays in order when a phase goes on. -/
theorem advance (h : x.Tidy (some (p :: rest))) (hadvances : p.Advances x ps) :
  x.Tidy (some (ps ++ rest))
  := by
  refine of_some ?_ ?_ h.idle
  · obtain rfl | ⟨q, rfl⟩ := hadvances.eq_nil_or_singleton
    · exact h.tail.order _ rfl
    · refine List.pairwise_cons.mpr ⟨?_, h.tail.order _ rfl⟩
      intro z hz
      apply hadvances.precedes (List.mem_singleton_self q)
      exact List.rel_of_pairwise_cons (h.order _ rfl) hz
  · intro state context vs hmem
    obtain hmem | hmem := List.mem_append.mp hmem
    · cases hadvances with
      | startChildren context hactive =>
        obtain heq := List.mem_singleton.mp hmem
        cases heq
        exact Configuration.leaf?_of_activeInvocations hactive
      | invoke state context v more =>
        obtain heq := List.mem_singleton.mp hmem
        cases heq
        exact h.invoke _ _ _ _ rfl List.mem_cons_self
      | _ => simp at hmem
    · exact h.tail.invoke _ state context vs rfl hmem

end Instance.Tidy

/-- Every turn leaves the work in order. -/
theorem Turn.tidy {i : Nat} {r r' : Engine κ} {x y : Instance κ}
    {w w' : Option (List (Phase κ))} (h : Turn i r r' x w y w') (hx : x.Tidy w) :
  y.Tidy w'
  := by
  cases h with
  | keep hw _ =>
    obtain rfl | ⟨-, rfl⟩ | ⟨-, rfl⟩ := hw
    · exact hx.of_snapshot rfl hx.idle
    · exact .of_nil hx.idle
    · exact ⟨nofun, nofun, hx.idle⟩
  | start hstatus => exact .of_nil (by simp [Instance.isRunning])
  | begin hrunning =>
    exact .of_some (pairwise_startPhases x) (by simp [Instance.startPhases]) hx.idle
  | commit hrunning hres hfound =>
    refine .of_some (pairwise_transitionPhases _ _ _ _) ?_ hx.idle
    intro state context vs hmem
    exact absurd hmem (Configuration.invoke_notMem_transitionPhases _ _ _ _ _ _ _)
  | advance hadvances => exact (hx.advance hadvances).of_snapshot rfl hx.idle
  | drop hrunning hw =>
    subst hw
    exact .of_nil hx.idle
  | stopChildren _ => exact hx.tail.of_snapshot rfl fun h => ⟨rfl, (hx.idle h).2⟩
  | @spawn rest state context v more m services hrunning _ _ =>
    -- The phase goes on as if no child had been made.
    exact (hx.advance (.invoke state context v more)).of_snapshot rfl
      fun hnot => absurd (hnot.symm.trans hrunning) Bool.false_ne_true
  | rearm hrunning _ =>
    exact hx.tail.of_snapshot rfl
      fun hnot => absurd (hnot.symm.trans hrunning) Bool.false_ne_true
  | halt hw _ =>
    obtain rfl | ⟨p, rest, rfl, rfl⟩ := hw
    · exact hx.of_snapshot rfl fun _ => ⟨rfl, rfl⟩
    · exact hx.tail.of_snapshot rfl fun _ => ⟨rfl, rfl⟩

namespace Configuration

variable {H : Host κ π σ} {cs : List (Configuration κ π σ)} {c : Configuration κ π σ}

/-- In a run the work of every instance is in order. -/
theorem Run.tidy (h : Run H cs c) {i : Nat} {x : Instance κ} (hx : c.engine.get? i = some x) :
  x.Tidy (workOf i c.stack)
  := h.each (p := fun _ x w => x.Tidy w) (fun harrives _ => harrives.tidy)
    (fun _ hturn hx => hturn.tidy hx) hx

end Configuration

end Statechart
