import Statechart.Proofs.Mailbox

/-!
# Children in runs

A child that was not stopped is stored with its parent, and what is stored there was
invoked by the active state, unless the children are still to be stopped
(`Engine.Kindred`).  From this follows what a report of completion or failure is about
when it is carried out, `Configuration.Run.reactions`: the stay in which it was posted,
exactly if the history of the parent has not grown since.
-/

namespace Statechart

variable {κ π σ : Type}

/-! ### Stored children -/

/-- The children of an instance are still to be stopped. -/
def Clearing (w : Option (List (Phase κ))) : Prop :=
  ∃ ps, w = some ps ∧ .stopChildren ∈ ps

@[simp]
theorem not_clearing_none :
  ¬Clearing (none : Option (List (Phase κ)))
  := by
  simp [Clearing]

/-- Children are to be stopped if the phase for it is still ahead. -/
@[simp]
theorem clearing_some {ps : List (Phase κ)} :
  Clearing (some ps) ↔ .stopChildren ∈ ps
  := by
  simp [Clearing]

/-- Parents and children know of each other. -/
structure Engine.Kindred (r : Engine κ) (st : List (Frame κ π)) : Prop where
  lt : ∀ i x id child, r.get? i = some x → x.children.get? id = some child →
    child < r.instances.next
  stored : ∀ child y link x, r.get? child = some y → y.status ≠ .stopped →
    y.parent = some link → r.get? link.parent = some x → x.status ≠ .stopped →
    x.children.get? link.id = some child
  linked : ∀ i x id child y, r.get? i = some x → x.children.get? id = some child →
    r.get? child = some y → ∃ state, y.parent = some ⟨id, state, i⟩
      ∧ (x.snapshot.value.leaf? = some state ↔ ¬Clearing (workOf i st))

/-- Letting go of instances makes no kin. -/
theorem Engine.Kindred.releases {r r' : Engine κ} {st : List (Frame κ π)} {held : List Nat}
    (h : r.Kindred st) (hreleases : Engine.Releases held r r') :
  r'.Kindred st
  where
  lt i x id child hx hchild := by
    rw [hreleases.next]
    exact h.lt i x id child (hreleases.get?_of_get? hx) hchild
  stored child y link x hy hrunning hparent hx :=
    h.stored child y link x (hreleases.get?_of_get? hy) hrunning hparent
      (hreleases.get?_of_get? hx)
  linked i x id child y hx hchild hy :=
    h.linked i x id child y (hreleases.get?_of_get? hx) hchild (hreleases.get?_of_get? hy)

/-- Equal values have the same leaf. -/
theorem StateValue.leaf?_eq_of_beq {v w : StateValue} (h : (v == w) = true) :
  v.leaf? = w.leaf?
  := by
  have hsame : v.same w = true := h
  cases v with
  | leaf a =>
    cases w with
    | leaf b =>
      rw [same, beq_iff_eq] at hsame
      rw [hsame]
    | regions bs => cases hsame
  | regions as =>
    cases w with
    | leaf b => simp [same] at hsame
    | regions bs => rfl

/-- Values with the same leaf are equal. -/
theorem StateValue.beq_of_leaf?_eq {v w : StateValue} {state : String}
    (hv : v.leaf? = some state) (hw : w.leaf? = some state) :
  (v == w) = true
  := by
  cases v with
  | leaf a =>
    cases w with
    | leaf b =>
      obtain rfl := Option.some.inj hv
      obtain rfl := Option.some.inj hw
      exact beq_self_eq_true b
    | regions bs => cases hw
  | regions as => cases hv

/-- What becomes of an instance that runs and stays at its value: its children are
stopped if they are still to be, and kept otherwise. -/
structure Stays (r : Engine κ) (x : Instance κ) (w : Option (List (Phase κ))) (y : Instance κ)
    (w' : Option (List (Phase κ))) : Prop where
  leaf : y.snapshot.value.leaf? = x.snapshot.value.leaf?
  size : y.history.size = x.history.size
  clearing : Clearing w' → Clearing w
  kept : ¬Clearing w → ∀ id child, x.children.get? id = some child →
    y.children.get? id = some child
  cleared : Clearing w → ¬Clearing w' → y.children = .empty
  source : ∀ id child, y.children.get? id = some child →
    x.children.get? id = some child ∨ child = r.instances.next

/-- What becomes of an instance that moves to another value: its children are to be
stopped. -/
structure Leaves (x : Instance κ) (w : Option (List (Phase κ))) (y : Instance κ)
    (w' : Option (List (Phase κ))) : Prop where
  leaf : ∀ state, x.snapshot.value.leaf? = some state → y.snapshot.value.leaf? ≠ some state
  size : y.history.size = x.history.size + 1
  children : y.children = x.children
  settled : ¬Clearing w
  clearing : Clearing w'

/-- An instance that runs stays at its value or leaves it. -/
theorem Turn.stays_or_leaves {i : Nat} {r r' : Engine κ} {x y : Instance κ}
    {w w' : Option (List (Phase κ))} (h : Turn i r r' x w y w') (hx : x.isRunning = true)
    (hy : y.isRunning = true) :
  Stays r x w y w' ∨ Leaves x w y w'
  := by
  -- Nothing about the value and the children changes, and neither does what is ahead.
  have hstays : y.snapshot = x.snapshot → y.history = x.history → y.children = x.children →
      (Clearing w' ↔ Clearing w) → Stays r x w y w' := by
    intro hsnapshot hhistory hchildren hclearing
    refine ⟨by rw [hsnapshot], by rw [hhistory], hclearing.mp, ?_, ?_, ?_⟩
    · intro _ id child hchild
      rw [hchildren, hchild]
    · intro hw hw'
      exact absurd (hclearing.mpr hw) hw'
    · intro id child hchild
      rw [hchildren] at hchild
      exact .inl hchild
  cases h with
  | keep hw _ =>
    refine .inl (hstays rfl rfl rfl ?_)
    obtain rfl | ⟨rfl, rfl⟩ | ⟨rfl, rfl⟩ := hw
    · exact Iff.rfl
    · simp
    · simp
  | start hstatus =>
    rw [Instance.status_of_isRunning hx] at hstatus
    cases hstatus
  | begin _ => exact .inl (hstays rfl rfl rfl (by simp [Instance.startPhases]))
  | @commit e mailbox event rearm next now found _ _ _ =>
    have hclearing : Clearing (some (Configuration.transitionPhases x next event rearm))
        ↔ (x.snapshot.value == next.value) = false :=
      clearing_some.trans Configuration.stopChildren_mem_transitionPhases
    cases hvalue : x.snapshot.value == next.value with
    | true =>
      left
      rw [hvalue] at hclearing
      refine ⟨(StateValue.leaf?_eq_of_beq hvalue).symm, ?_, ?_, fun _ _ _ hchild => hchild, ?_,
        fun _ _ hchild => .inl hchild⟩
      · simp only [Configuration.commitTo, hvalue, if_true]
      · intro hw'
        exact absurd (hclearing.mp hw') Bool.noConfusion
      · intro hw
        simp at hw
    | false =>
      right
      refine ⟨?_, ?_, rfl, by simp, hclearing.mpr hvalue⟩
      · intro state hleaf hleaf'
        have hbeq := StateValue.beq_of_leaf?_eq hleaf hleaf'
        exact Bool.noConfusion (hvalue.symm.trans hbeq)
      · simp [Configuration.commitTo, hvalue, History.record, History.size]
  | advance hadvances =>
    refine .inl (hstays rfl rfl rfl ?_)
    obtain ⟨hp, hps⟩ := hadvances.ne_stopChildren
    rw [clearing_some, clearing_some, List.mem_append, List.mem_cons, or_iff_right hps,
      or_iff_right (Ne.symm hp)]
  | drop hnot _ =>
    rw [hx] at hnot
    cases hnot
  | stopChildren _ =>
    left
    refine ⟨rfl, rfl, ?_, ?_, fun _ _ => rfl, ?_⟩
    · intro hclearing
      rw [clearing_some] at hclearing ⊢
      exact List.mem_cons_of_mem _ hclearing
    · intro hw
      rw [clearing_some] at hw
      exact absurd List.mem_cons_self hw
    · intro id child hchild
      simp at hchild
  | @spawn rest state context v more m services _ hnone _ =>
    left
    have hclearing : Clearing (some (.invoke state context more :: rest))
        ↔ Clearing (some (.invoke state context (v :: more) :: rest)) := by simp
    refine ⟨rfl, rfl, hclearing.mp, ?_, ?_, ?_⟩
    · intro _ id child hchild
      have hne : v.id ≠ id := by
        rintro rfl
        rw [hnone] at hchild
        cases hchild
      rw [OrderedMap.get?_insert_of_ne _ hne, hchild]
    · intro hw hw'
      exact absurd (hclearing.mpr hw) hw'
    · intro id child hchild
      rw [OrderedMap.get?_insert] at hchild
      split at hchild
      · exact .inr (Option.some.inj hchild).symm
      · exact .inl hchild
  | rearm _ _ => exact .inl (hstays rfl rfl rfl (by simp))
  | halt _ _ => cases hy

/-- The children that an instance has after a turn: those it had, and at most a new
one. -/
theorem Turn.children_source {i : Nat} {r r' : Engine κ} {x y : Instance κ}
    {w w' : Option (List (Phase κ))} (h : Turn i r r' x w y w') {id : String} {child : Nat}
    (hchild : y.children.get? id = some child) :
  x.children.get? id = some child
    ∨ (child = r.instances.next ∧ child < r'.instances.next)
  := by
  cases h with
  | stopChildren _ => simp at hchild
  | spawn _ _ hnew =>
    rw [OrderedMap.get?_insert] at hchild
    split at hchild
    · obtain rfl := Option.some.inj hchild
      exact .inr ⟨rfl, Engine.lt_next_of_get? hnew⟩
    · exact .inl hchild
  | halt _ _ => simp [Instance.halted, Instance.halting] at hchild
  | _ => exact .inl hchild

/-- The child that is stored after a turn in which it arrives was invoked by the active
state, and no children are to be stopped. -/
theorem Turn.linked_next {i : Nat} {r r' : Engine κ} {x y z : Instance κ}
    {w w' : Option (List (Phase κ))} (h : Turn i r r' x w y w') (htidy : x.Tidy w)
    {id : String} (hold : x.children.get? id ≠ some r.instances.next)
    (hchild : y.children.get? id = some r.instances.next)
    (hz : r'.get? r.instances.next = some z) :
  ∃ state, z.parent = some ⟨id, state, i⟩ ∧ y.snapshot.value.leaf? = some state
    ∧ ¬Clearing w'
  := by
  cases h with
  | stopChildren _ => simp at hchild
  | @spawn rest state context v more m services hrunning _ hnew =>
    rw [OrderedMap.get?_insert] at hchild
    split at hchild
    · next hid =>
      rw [hnew] at hz
      obtain rfl := Option.some.inj hz
      refine ⟨state, by rw [← hid]; rfl, htidy.invoke _ _ _ _ rfl List.mem_cons_self, ?_⟩
      rw [clearing_some, List.mem_cons, not_or]
      refine ⟨nofun, fun hmem => ?_⟩
      obtain ⟨_, _, _, hperform⟩ :=
        (List.rel_of_pairwise_cons (htidy.order _ rfl) hmem).1 rfl
      cases hperform
    · exact absurd hchild hold
  | halt _ _ => simp [Instance.halted, Instance.halting] at hchild
  | _ => exact absurd hchild hold

/-- A child that is kept keeps its state active, or is still to be stopped. -/
theorem Turn.linked_old {i : Nat} {r r' : Engine κ} {x y : Instance κ}
    {w w' : Option (List (Phase κ))} (h : Turn i r r' x w y w') (htidy : x.Tidy w)
    {id state : String} {child : Nat} (hold : x.children.get? id = some child)
    (hchild : y.children.get? id = some child)
    (hstate : x.snapshot.value.leaf? = some state ↔ ¬Clearing w) :
  y.snapshot.value.leaf? = some state ↔ ¬Clearing w'
  := by
  have hx : x.isRunning = true := by
    by_contra hnot
    rw [(htidy.idle (Bool.not_eq_true _ ▸ hnot)).1] at hold
    simp at hold
  by_cases hy : y.isRunning = true
  · obtain hstays | hleaves := h.stays_or_leaves hx hy
    · rw [hstays.leaf, hstate]
      constructor
      · intro hw hw'
        exact hw (hstays.clearing hw')
      · intro hw' hw
        rw [hstays.cleared hw hw'] at hchild
        simp at hchild
    · refine ⟨fun hleaf => ?_, fun hnot => absurd hleaves.clearing hnot⟩
      exact absurd hleaf (hleaves.leaf state (hstate.mpr hleaves.settled))
  · have hidle := (h.tidy htidy).idle (Bool.not_eq_true _ ▸ hy)
    rw [hidle.1] at hchild
    simp at hchild

/-- A turn of a parent keeps a child that is not stopped in it. -/
theorem Turn.children_kept {i : Nat} {r r' : Engine κ} {x y : Instance κ}
    {w w' : Option (List (Phase κ))} (h : Turn i r r' x w y w') {id : String} {child : Nat}
    (hold : x.children.get? id = some child) {z : Instance κ} (hz : r'.get? child = some z)
    (hrunning : z.status ≠ .stopped) (hy : y.status ≠ .stopped) :
  y.children.get? id = some child
  := by
  cases h with
  | stopChildren hstopped =>
    exact absurd (hstopped child (OrderedMap.mem_values_of_get? hold) z hz) hrunning
  | @spawn rest state context v more m services _ hnone _ =>
    have hne : v.id ≠ id := by
      rintro rfl
      rw [hnone] at hold
      cases hold
    rw [OrderedMap.get?_insert_of_ne _ hne, hold]
  | halt _ _ => exact absurd rfl hy
  | _ => exact hold

/-- A new instance has no children. -/
theorem Arrives.children_eq {s : Signal κ} {r : Engine κ} {i : Nat} {y : Instance κ}
    {w : Option (List (Phase κ))} (h : Arrives s r i y w) :
  y.children = .empty
  := by
  cases h <;> rfl

/-- A new child is stored with its parent. -/
theorem Arrives.stored {s : Signal κ} {r : Engine κ} {i : Nat} {y : Instance κ}
    {w : Option (List (Phase κ))} (h : Arrives s r i y w) {link : ParentLink}
    (hparent : y.parent = some link) :
  ∃ x, r.get? link.parent = some x ∧ x.children.get? link.id = some i
  := by
  cases h with
  | created => cases hparent
  | spawned _ _ _ hx hstored =>
    obtain rfl := Option.some.inj hparent
    exact ⟨_, hx, hstored⟩

namespace Configuration

variable {H : Host κ π σ} {cs : List (Configuration κ π σ)} {c d : Configuration κ π σ}
  {mid : Engine κ}

/-- In a step of a run parents and children go on knowing of each other. -/
theorem Goes.kindred (hgoes : Goes H c mid d) (hrun : Run H cs c)
    (h : c.engine.Kindred c.stack) :
  mid.Kindred d.stack
  := by
  constructor
  · intro i y id child hy hchild
    obtain ⟨x, hx⟩ | ⟨-, harrives⟩ := hgoes.arrives hy
    · obtain hold | ⟨-, hlt⟩ := (hgoes.turn hx hy).children_source hchild
      · exact Nat.lt_of_lt_of_le (h.lt i x id child hx hold) hgoes.next_le
      · exact hlt
    · rw [harrives.children_eq] at hchild
      simp at hchild
  · intro child z link y hz hrunning hparent hy hy'
    obtain ⟨w, hw⟩ | ⟨-, harrives⟩ := hgoes.arrives hz
    · have hturn := hgoes.turn hw hz
      have hbegun := hrun.started.parent child w link hw (hturn.machine_eq.2 ▸ hparent)
      obtain ⟨x, hx⟩ | ⟨heq, -⟩ := hgoes.arrives hy
      · have hstored := h.stored child w link x hw (hturn.status_ne_stopped hrunning)
          (hturn.machine_eq.2 ▸ hparent) hx ((hgoes.turn hx hy).status_ne_stopped hy')
        exact (hgoes.turn hx hy).children_kept hstored hz hrunning hy'
      · exact absurd hbegun.1 (by rw [heq]; exact Nat.lt_irrefl _)
    · obtain ⟨x, hx, hstored⟩ := harrives.stored hparent
      rw [hx] at hy
      obtain rfl := Option.some.inj hy
      exact hstored
  · intro i y id child z hy hchild hz
    obtain ⟨x, hx⟩ | ⟨-, harrives⟩ := hgoes.arrives hy
    · have hturn := hgoes.turn hx hy
      have htidy := hrun.tidy hx
      by_cases hold : x.children.get? id = some child
      · obtain ⟨w, hw⟩ | ⟨rfl, -⟩ := hgoes.arrives hz
        · obtain ⟨state, hparent, hstate⟩ := h.linked i x id child w hx hold hw
          refine ⟨state, (hgoes.turn hw hz).machine_eq.2.trans hparent, ?_⟩
          exact hturn.linked_old htidy hold hchild hstate
        · exact absurd (h.lt i x id _ hx hold) (Nat.lt_irrefl _)
      · obtain hold' | ⟨rfl, -⟩ := hturn.children_source hchild
        · exact absurd hold' hold
        · obtain ⟨state, hparent, hleaf, hclearing⟩ := hturn.linked_next htidy hold hchild hz
          exact ⟨state, hparent, fun _ => hclearing, fun _ => hleaf⟩
    · rw [harrives.children_eq] at hchild
      simp at hchild

/-- In a run parents and children know of each other. -/
theorem Run.kindred (h : Run H cs c) :
  c.engine.Kindred c.stack
  := by
  induction h with
  | start memory =>
    constructor
    · intro i x id child hx
      simp [idle] at hx
    · intro child y link x hy
      simp [idle] at hy
    · intro i x id child y hx
      simp [idle] at hx
  | next hrun hstep ih =>
    obtain ⟨mid, hgoes⟩ := hrun.goes hstep
    exact (hgoes.kindred hrun ih).releases hgoes.releases

/-! ### Stays -/

/-- The active state of an instance that is there. -/
def leafOf (c : Configuration κ π σ) (i : Nat) : Option String :=
  (c.engine.get? i).bind fun x => x.snapshot.value.leaf?

/-- The number of changes of value of an instance that is there. -/
def changesOf (c : Configuration κ π σ) (i : Nat) : Nat :=
  match c.engine.get? i with
  | some x => x.history.size
  | none => 0

/-- The child that an instance has stored. -/
def childOf (c : Configuration κ π σ) (i : Nat) (id : String) : Option Nat :=
  (c.engine.get? i).bind fun x => x.children.get? id

variable {a b : Configuration κ π σ} {i : Nat}

/-- Between `a` and `c` an instance has stayed at its value, and its children are kept. -/
structure Stayed (i : Nat) (a c : Configuration κ π σ) : Prop where
  leaf : leafOf c i = leafOf a i
  changes : changesOf c i = changesOf a i
  children : ¬Clearing (workOf i a.stack) → ¬Clearing (workOf i c.stack)
    ∧ ∀ id child, childOf a i id = some child → childOf c i id = some child

/-- Between `a` and `c` an instance has left its value, and its children of that time are
gone, or are to be stopped. -/
structure Left (i : Nat) (a c : Configuration κ π σ) : Prop where
  changes : changesOf a i < changesOf c i
  children : ∀ id child, childOf c i id = some child → child < a.engine.instances.next →
    Clearing (workOf i c.stack)

theorem Stayed.refl (i : Nat) (a : Configuration κ π σ) :
  Stayed i a a
  := ⟨rfl, rfl, fun h => ⟨h, fun _ _ h => h⟩⟩

/-- What is read of an instance that is there. -/
theorem eq_of_get? {x : Instance κ} (hx : c.engine.get? i = some x) :
  leafOf c i = x.snapshot.value.leaf? ∧ changesOf c i = x.history.size
    ∧ ∀ id, childOf c i id = x.children.get? id
  := by
  simp [leafOf, changesOf, childOf, hx]

/-- A turn in which an instance stays goes on with its stay. -/
theorem Stayed.next (h : Stayed i a c) {x y : Instance κ}
    (hx : c.engine.get? i = some x) (hy : d.engine.get? i = some y)
    (hstays : Stays c.engine x (workOf i c.stack) y (workOf i d.stack)) :
  Stayed i a d
  := by
  obtain ⟨hleaf, hchanges, hchild⟩ := eq_of_get? hx
  obtain ⟨hleaf', hchanges', hchild'⟩ := eq_of_get? hy
  constructor
  · rw [hleaf', hstays.leaf, ← hleaf, h.leaf]
  · rw [hchanges', hstays.size, ← hchanges, h.changes]
  · intro hclear
    obtain ⟨hclear', hkept⟩ := h.children hclear
    refine ⟨fun hw => hclear' (hstays.clearing hw), ?_⟩
    intro id child hold
    rw [hchild']
    apply hstays.kept hclear'
    rw [← hchild]
    exact hkept id child hold

/-- A turn in which an instance leaves ends its stay, in another state. -/
theorem Stayed.left (h : Stayed i a c) {x y : Instance κ}
    (hx : c.engine.get? i = some x) (hy : d.engine.get? i = some y)
    (hleaves : Leaves x (workOf i c.stack) y (workOf i d.stack)) :
  Left i a d ∧ ∀ state, leafOf a i = some state → leafOf d i ≠ some state
  := by
  obtain ⟨hleaf, hchanges, -⟩ := eq_of_get? hx
  obtain ⟨hleaf', hchanges', -⟩ := eq_of_get? hy
  refine ⟨⟨?_, fun _ _ _ _ => hleaves.clearing⟩, ?_⟩
  · rw [hchanges', hleaves.size, ← hchanges, h.changes]
    exact Nat.lt_succ_self _
  · intro state hstate
    rw [hleaf']
    apply hleaves.leaf
    rw [← hleaf, h.leaf, hstate]

/-- What an instance has left it does not come back to, since numbers grow. -/
theorem Left.next (h : Left i a c) (hnext : a.engine.instances.next ≤ c.engine.instances.next)
    {x y : Instance κ} (hx : c.engine.get? i = some x) (hy : d.engine.get? i = some y)
    (hturn : Stays c.engine x (workOf i c.stack) y (workOf i d.stack)
      ∨ Leaves x (workOf i c.stack) y (workOf i d.stack)) :
  Left i a d
  := by
  obtain ⟨-, hchanges, hchild⟩ := eq_of_get? hx
  obtain ⟨-, hchanges', hchild'⟩ := eq_of_get? hy
  have hlt := h.changes
  rw [hchanges] at hlt
  obtain hstays | hleaves := hturn
  · constructor
    · rw [hchanges', hstays.size]
      exact hlt
    · intro id child hstored hold
      rw [hchild'] at hstored
      obtain hstored' | rfl := hstays.source id child hstored
      · have hclear := h.children id child ((hchild id).trans hstored') hold
        by_contra hnot
        rw [hstays.cleared hclear hnot] at hstored
        simp at hstored
      · omega
  · refine ⟨?_, fun _ _ _ _ => hleaves.clearing⟩
    rw [hchanges', hleaves.size]
    omega

/-- Since a configuration an instance that runs has stayed at its value, or it has left
it. -/
theorem Run.stayed_or_left {before after : List (Configuration κ π σ)}
    (h : Run H (before ++ a :: after) c) (hbegun : a.engine.Begun i) {y : Instance κ}
    (hy : c.engine.get? i = some y) (hrunning : y.isRunning = true) :
  (Stayed i a c ∧ ∀ b ∈ a :: after, leafOf b i = leafOf a i)
    ∨ (Left i a c ∧ ∀ state, leafOf a i = some state →
        ∃ b ∈ (a :: after) ++ [c], leafOf b i ≠ some state)
  := by
  -- The induction is on the steps since `a`; the instance is there all the time.
  have hsince := h.since
    (p := fun rest c => a.engine.instances.next ≤ c.engine.instances.next
      ∧ c.engine.Begun i
      ∧ ∀ y, c.engine.get? i = some y → y.isRunning = true →
        (Stayed i a c ∧ ∀ b ∈ rest, leafOf b i = leafOf a i)
          ∨ (Left i a c ∧ ∀ state, leafOf a i = some state →
              ∃ b ∈ rest ++ [c], leafOf b i ≠ some state))
    ⟨Nat.le_refl _, hbegun, fun _ _ _ => .inl ⟨.refl i a, by simp⟩⟩ ?_
  · exact hsince.2.2 y hy hrunning
  · rintro rest c d hrun hstep ⟨hnext, hbegun, ih⟩
    obtain ⟨mid, hgoes⟩ := hrun.goes hstep
    have hnext' : a.engine.instances.next ≤ d.engine.instances.next := by
      rw [hgoes.releases.next]
      exact Nat.le_trans hnext hgoes.next_le
    refine ⟨hnext', hgoes.begun hbegun, ?_⟩
    intro y hy hrunning
    obtain ⟨x, hx, hxrunning, hturn⟩ := hgoes.runs hbegun hy hrunning
    obtain ⟨hstayed, hleaf⟩ | ⟨hleft, hleaf⟩ := ih x hx hxrunning
    · obtain hstays | hleaves := hturn.stays_or_leaves hxrunning hrunning
      · refine .inl ⟨hstayed.next hx hy hstays, ?_⟩
        intro b hb
        obtain hb | hb := List.mem_append.mp hb
        · exact hleaf b hb
        · obtain rfl := List.mem_singleton.mp hb
          exact hstayed.leaf
      · obtain ⟨hleft, hleaf⟩ := hstayed.left hx hy hleaves
        refine .inr ⟨hleft, ?_⟩
        intro state hstate
        exact ⟨d, by simp, hleaf state hstate⟩
    · refine .inr ⟨hleft.next hnext hx hy (hturn.stays_or_leaves hxrunning hrunning), ?_⟩
      intro state hstate
      obtain ⟨b, hb, hne⟩ := hleaf state hstate
      exact ⟨b, List.mem_append_left _ hb, hne⟩

/-! ### Reports -/

/-- The envelope that an instance takes while it runs was posted by a step of the run; what
was posted before has been handled. -/
theorem Run.exists_post (h : Run H cs c) {e : Envelope}
    (htaken : (signal H c).taken = some (i, e)) (hrunning : c.engine.isRunning i = true) :
  ∃ before a after, cs = before ++ a :: after ∧ (signal H a).postedTo i = some e
    ∧ posts H i before = handled H i cs
  := by
  have hnever : ∀ b ∈ cs ++ [c], ¬b.engine.IsStopped i := by
    intro b hb hstopped
    obtain hb | hb := List.mem_append.mp hb
    · rw [h.isRunning_of_isStopped hb hstopped] at hrunning
      cases hrunning
    · obtain rfl := List.mem_singleton.mp hb
      obtain ⟨x, hx, hstatus⟩ := hstopped
      simp [Engine.isRunning, hx, Instance.isRunning, hstatus] at hrunning
  obtain ⟨x, more, -, -, hx, hmailbox, -, -⟩ := step?_of_taken htaken
  have hposts := h.posts_eq hnever
  rw [Engine.mailboxOf_of_get? hx, hmailbox, posts] at hposts
  obtain ⟨before, rest, rfl, hbefore, hrest⟩ := List.filterMap_eq_append_iff.mp hposts
  obtain ⟨silent, a, after, rfl, hsilent, ha, -⟩ := List.filterMap_eq_cons_iff.mp hrest
  refine ⟨before ++ silent, a, after, by rw [List.append_assoc], ha, ?_⟩
  rw [posts, List.filterMap_append, hbefore, List.filterMap_eq_nil_iff.mpr hsilent,
    List.append_nil]

theorem posted_of_postedTo {s : Signal κ} {e : Envelope} (h : s.postedTo i = some e) :
  ∃ sender, s.posted = some ⟨i, e, sender⟩
  := by
  obtain ⟨⟨owner, envelope, sender⟩, hposted, hp⟩ := Option.bind_eq_some_iff.mp h
  split at hp
  · next howner =>
    obtain rfl := Option.some.inj hp
    obtain rfl := howner
    exact ⟨sender, hposted⟩
  · cases hp

end Configuration

/-- A report of completion comes from a child of the instance that it is posted to. -/
theorem Move.of_posted_childDone {s : Signal κ} {r r' : Engine κ} {st st' : List (Frame κ π)}
    (hmove : Move s r st r' st') {i : Nat} {id state : String} {sender : Option Nat}
    (hposted : s.posted = some ⟨i, .childDone id state, sender⟩) :
  ∃ child y x, sender = some child ∧ r.get? child = some y ∧ y.isRunning = true
    ∧ y.parent = some ⟨id, state, i⟩ ∧ r.get? i = some x
  := by
  cases hmove with
  | call _ haccepts _ _ =>
    cases hposted
    cases haccepts
  | report hx hrunning hlink hsets hy _ =>
    cases hposted
    obtain ⟨z, hz⟩ : ∃ z, r.get? _ = some z := by
      rw [hsets.get?] at hy
      split at hy
      · next hi => exact ⟨_, hi ▸ hx⟩
      · exact ⟨_, hy⟩
    exact ⟨_, _, z, rfl, hx, hrunning, hlink, hz⟩
  | _ => cases hposted

/-- A report of failure comes from the instance itself, at work on the invocations of its
active state. -/
theorem Move.of_posted_invokeFailed {s : Signal κ} {r r' : Engine κ}
    {st st' : List (Frame κ π)} (hmove : Move s r st r' st') {i : Nat}
    {id state message : String} {sender : Option Nat}
    (hposted : s.posted = some ⟨i, .invokeFailed id state message, sender⟩) :
  ∃ x context v more rest, sender = none ∧ r.get? i = some x ∧ x.isRunning = true
    ∧ v.id = id ∧ workOf i st = some (.invoke state context (v :: more) :: rest)
  := by
  cases hmove with
  | call _ haccepts _ _ =>
    cases hposted
    cases haccepts
  | missing hx hrunning _ _ =>
    cases hposted
    exact ⟨_, _, _, _, _, rfl, hx, hrunning, rfl, workOf_working_self _ _ _ _⟩
  | _ => cases hposted

namespace Instance

variable {x : Instance κ} {id state : String}

/-- An invocation is active in the state of the instance. -/
theorem leaf?_of_activeInvoke? {v : Invocation κ} (h : x.activeInvoke? id state = some v) :
  x.snapshot.value.leaf? = some state
  := by
  rw [activeInvoke?] at h
  split at h
  · next hleaf => exact hleaf
  · cases h

/-- A report of a child, or of a failure to start one, is carried out in the state that invoked
it. -/
theorem leaf?_of_report {e : Envelope}
    (he : e = .childDone id state ∨ ∃ message, e = .invokeFailed id state message)
    (h : x.resolution e ≠ .ignore) :
  x.snapshot.value.leaf? = some state
  := by
  have hrunning := isRunning_of_resolution h
  rw [resolution.eq_def, hrunning] at h
  cases hv : x.activeInvoke? id state with
  | none => obtain rfl | ⟨message, rfl⟩ := he <;> simp [hv] at h
  | some v => exact leaf?_of_activeInvoke? hv

end Instance

namespace Configuration

variable {H : Host κ π σ} {cs before after : List (Configuration κ π σ)}
  {a c : Configuration κ π σ} {i : Nat} {x : Instance κ} {state : String}

/-- An instance has been in a state all the time exactly if its history has not grown. -/
theorem Run.changesOf_eq_iff (h : Run H (before ++ a :: after) c) (hbegun : a.engine.Begun i)
    (hx : c.engine.get? i = some x) (hrunning : x.isRunning = true)
    (hleaf : x.snapshot.value.leaf? = some state) :
  changesOf a i = changesOf c i ↔ ∀ b ∈ a :: after, leafOf b i = some state
  := by
  have hc : leafOf c i = some state := (eq_of_get? hx).1.trans hleaf
  obtain ⟨hstayed, hall⟩ | ⟨hleft, hexists⟩ := h.stayed_or_left hbegun hx hrunning
  · have ha : leafOf a i = some state := hstayed.leaf.symm.trans hc
    refine ⟨fun _ b hb => (hall b hb).trans ha, fun _ => hstayed.changes.symm⟩
  · constructor
    · intro heq
      exact absurd heq (Nat.ne_of_lt hleft.changes)
    · intro hall
      obtain ⟨b, hb, hne⟩ := hexists state (hall a List.mem_cons_self)
      obtain hb | hb := List.mem_append.mp hb
      · exact absurd (hall b hb) hne
      · obtain rfl := List.mem_singleton.mp hb
        exact absurd hc hne

/-- The child that reported is the one that is stored exactly if the history of the parent
has not grown since. -/
theorem Run.childOf_eq_iff (h : Run H (before ++ a :: after) c) {id : String} {child : Nat}
    {y z : Instance κ} (hy : a.engine.get? child = some y) (hyrunning : y.isRunning = true)
    (hparent : y.parent = some ⟨id, state, i⟩) (hz : a.engine.get? i = some z)
    (hx : c.engine.get? i = some x) (hrunning : x.isRunning = true)
    (hleaf : x.snapshot.value.leaf? = some state) (hsettled : ¬Clearing (workOf i c.stack)) :
  x.children.get? id = some child ↔ changesOf a i = changesOf c i
  := by
  have ha : Run H before a := h.of_append
  have hbegun := ha.started.parent child y _ hy hparent
  have hzstatus : z.status ≠ .stopped := by
    intro hstopped
    have hnot := h.isRunning_of_isStopped (d := a) (by simp) ⟨z, hz, hstopped⟩
    rw [Engine.isRunning, hx] at hnot
    simp only at hnot
    rw [hrunning] at hnot
    cases hnot
  have hystatus : y.status ≠ .stopped := by
    simp [Instance.status_of_isRunning hyrunning]
  have hstored := ha.kindred.stored child y _ z hy hystatus hparent hz hzstatus
  obtain ⟨state', hparent', hstate⟩ := ha.kindred.linked i z id child y hz hstored hy
  rw [hparent] at hparent'
  cases hparent'
  obtain ⟨hleafa, -, hchilda⟩ := eq_of_get? hz
  obtain ⟨hleafc, -, hchildc⟩ := eq_of_get? hx
  rw [← hchildc]
  obtain ⟨hstayed, -⟩ | ⟨hleft, -⟩ := h.stayed_or_left hbegun hx hrunning
  · refine ⟨fun _ => hstayed.changes.symm, fun _ => ?_⟩
    have hleaf' : z.snapshot.value.leaf? = some state := by
      rw [← hleafa, ← hstayed.leaf, hleafc, hleaf]
    exact (hstayed.children (hstate.mp hleaf')).2 id child ((hchilda id).trans hstored)
  · constructor
    · intro hchild
      exact absurd (hleft.children id child hchild (Engine.lt_next_of_get? hy)) hsettled
    · intro heq
      exact absurd heq (Nat.ne_of_lt hleft.changes)

/-- When a report of completion is carried out, the child that reported is the one that is
stored exactly if the history of the parent has not grown since the report was posted; and
when a report of failure is carried out, the parent has been in the state of the attempt
all the time exactly if its history has not grown since. -/
theorem Run.reactions (h : Run H cs c) (hx : c.engine.get? i = some x) :
  (∀ id state, (signal H c).taken = some (i, .childDone id state) →
      x.resolution (.childDone id state) ≠ .ignore →
      ∃ before a after child, cs = before ++ a :: after
        ∧ (signal H a).posted = some ⟨i, .childDone id state, some child⟩
        ∧ posts H i before = handled H i cs
        ∧ (x.children.get? id = some child ↔ changesOf a i = changesOf c i)
        ∧ (changesOf a i = changesOf c i ↔ ∀ b ∈ a :: after, leafOf b i = some state))
    ∧ ∀ id state message, (signal H c).taken = some (i, .invokeFailed id state message) →
        x.resolution (.invokeFailed id state message) ≠ .ignore →
        ∃ before a after, cs = before ++ a :: after
          ∧ (signal H a).posted = some ⟨i, .invokeFailed id state message, none⟩
          ∧ posts H i before = handled H i cs
          ∧ leafOf a i = some state
          ∧ (changesOf a i = changesOf c i ↔ ∀ b ∈ a :: after, leafOf b i = some state)
  := by
  constructor
  · intro id state htaken hres
    have hxrunning := Instance.isRunning_of_resolution hres
    have hrunning : c.engine.isRunning i = true := by
      rw [Engine.isRunning, hx]
      exact hxrunning
    obtain ⟨before, a, after, rfl, hpost, hposts⟩ := h.exists_post htaken hrunning
    obtain ⟨sender, hposted⟩ := posted_of_postedTo hpost
    obtain ⟨mid, d, hgoes⟩ := h.goes_of_append
    obtain ⟨child, y, z, rfl, hy, hyrunning, hparent, hz⟩ :=
      hgoes.move.of_posted_childDone hposted
    have hbegun := h.of_append.started.parent child y _ hy hparent
    have hleaf := Instance.leaf?_of_report (.inl rfl) hres
    refine ⟨before, a, after, child, rfl, hposted, hposts, ?_, ?_⟩
    · apply h.childOf_eq_iff hy hyrunning hparent hz hx hxrunning hleaf
      obtain ⟨_, _, outcome, below, -, -, hst, -⟩ := step?_of_taken htaken
      rw [hst, workOf_working_self, clearing_some]
      exact List.not_mem_nil
    · exact h.changesOf_eq_iff hbegun hx hxrunning hleaf
  · intro id state message htaken hres
    have hxrunning := Instance.isRunning_of_resolution hres
    have hrunning : c.engine.isRunning i = true := by
      rw [Engine.isRunning, hx]
      exact hxrunning
    obtain ⟨before, a, after, rfl, hpost, hposts⟩ := h.exists_post htaken hrunning
    obtain ⟨sender, hposted⟩ := posted_of_postedTo hpost
    obtain ⟨mid, d, hgoes⟩ := h.goes_of_append
    obtain ⟨z, context, v, more, rest, rfl, hz, hzrunning, hid, hwork⟩ :=
      hgoes.move.of_posted_invokeFailed hposted
    have hbegun : a.engine.Begun i := by
      apply Engine.begun_of_status hz
      simp [Instance.status_of_isRunning hzrunning]
    refine ⟨before, a, after, rfl, hposted, hposts, ?_, ?_⟩
    · rw [(eq_of_get? hz).1]
      exact (h.of_append.tidy hz).invoke _ _ _ _ hwork List.mem_cons_self
    · exact h.changesOf_eq_iff hbegun hx hxrunning (Instance.leaf?_of_report (.inr ⟨_, rfl⟩) hres)

end Configuration

/-! ### A parent that goes and comes back -/

/-- A machine that invokes a child in the state `s`, and a service that there is not.  Its
action is the code `()`. -/
def guardianDescriptor : MachineDescriptor Unit where
  id := some "guardian"
  initial := some "o"
  kind := .atomic
  context := .empty
  metadata := none
  states := ⟨[
    ("o", { StateDescriptor.empty with
      on := ⟨[("GO", [⟨some "s", [.inline "upset" ()], none⟩])]⟩ }),
    ("s", { StateDescriptor.empty with
      on := ⟨[("PLAY", [⟨none, [.inline "upset" ()], none⟩]), ("LEAVE", [.ofTarget "r"])]⟩
      invoke := [
        ⟨"kid", .factory (), none, some (.transition .targetless), none⟩,
        ⟨"bad", .service "bad", none, none, some (.transition .targetless)⟩] }),
    ("r", { StateDescriptor.empty with on := ⟨[("BACK", [.ofTarget "s"])]⟩ })]⟩

/-- A machine that ends at the event `END`. -/
def kidDescriptor : MachineDescriptor Unit where
  id := some "kid"
  initial := some "a"
  kind := .atomic
  context := .empty
  metadata := none
  states := ⟨[
    ("a", { StateDescriptor.empty with on := ⟨[("END", [.ofTarget "f"])]⟩ }),
    ("f", { StateDescriptor.empty with kind := .final })]⟩

/-- The machine of `guardianDescriptor`. -/
def guardian : Machine Unit where
  id := some "guardian"
  metadata := none
  context := .empty
  topology := .flat
    { owner := "guardian"
      region := none
      initial := "o"
      nodes := ⟨[
        ("o", ⟨"o", .atomic, ⟨[("GO", [⟨some "s", [.effect "upset" ()], none⟩])]⟩, [], [], [],
          [], none⟩),
        ("s", ⟨"s", .atomic,
          ⟨[("PLAY", [⟨none, [.effect "upset" ()], none⟩]), ("LEAVE", [⟨some "r", [], none⟩])]⟩,
          [], [], [],
          [⟨"kid", .factory (), none, some (.transition ⟨none, [], none⟩), none⟩,
            ⟨"bad", .service "bad", none, none, some (.transition ⟨none, [], none⟩)⟩],
          none⟩),
        ("r", ⟨"r", .atomic, ⟨[("BACK", [⟨some "s", [], none⟩])]⟩, [], [], [], [], none⟩)]⟩ }
  initial := ⟨.leaf "o", .empty, none, [], false, false⟩
  services := .empty

/-- The machine of `kidDescriptor`. -/
def kid : Machine Unit where
  id := some "kid"
  metadata := none
  context := .empty
  topology := .flat
    { owner := "kid"
      region := none
      initial := "a"
      nodes := ⟨[
        ("a", ⟨"a", .atomic, ⟨[("END", [⟨some "f", [], none⟩])]⟩, [], [], [], [], none⟩),
        ("f", ⟨"f", .final, .empty, [], [], [], [], none⟩)]⟩ }
  initial := ⟨.leaf "a", .empty, none, [], false, false⟩
  services := .empty

theorem isCompiled_guardian :
  guardian.IsCompiled
  := ⟨guardianDescriptor, .empty, MachineDescriptor.keyed_of_shallow (by decide) (by decide), rfl⟩

theorem isCompiled_kid :
  kid.IsCompiled
  := ⟨kidDescriptor, .empty, MachineDescriptor.keyed_of_shallow (by decide) (by decide), rfl⟩

/-- What a report says: the invocation, and the text of a failure. -/
def Envelope.words : Envelope → List String
  | childDone id state => [id, state]
  | invokeFailed id state message => [id, state, message]
  | _ => []

/-- Reports are told apart by their words. -/
theorem Envelope.eq_of_words_eq {e e' : Envelope} (h : e.words = e'.words)
    (he : e'.words ≠ []) :
  e = e'
  := by
  cases e' <;> cases e <;> simp_all [words]

/-- Whether a transition is looked for. -/
def Resolution.attempts : Resolution κ → Bool
  | attempt _ _ _ => true
  | _ => false

/-- What attempts a transition does not ignore its envelope. -/
theorem Resolution.ne_ignore {o : Resolution κ} (h : o.attempts = true) :
  o ≠ .ignore
  := by
  rintro rfl
  cases h

namespace Configuration

/-- What the action does: it sends the parent away and back, and ends the child. -/
def upset : Script Unit :=
  [.send 0 (.named "LEAVE"), .send 0 (.named "BACK"), .send 2 (.named "END")]

/-- The host of the parent and its children. -/
def guardianHost : Host Unit (Script Unit) Unit := scripted (fun _ => upset) (fun _ => .ok kid) 1

/-- The first `n` steps after the parent is made: it is started, is sent away and back twice,
and its last child ends. -/
def guardianRun (n : Nat) : List (Configuration Unit (Script Unit) Unit)
    × Configuration Unit (Script Unit) Unit :=
  played (fun _ => upset) (fun _ => .ok kid) 1 guardian
    [.start 0, .send 0 (.named "GO"), .send 0 (.named "PLAY"), .send 3 (.named "END")] n

/-- A report that was posted is known by its words. -/
theorem posted_of_words {s : Signal κ} {i : Nat} {e : Envelope} {sender : Option Nat}
    (h : s.posted.map (fun p => (p.owner, p.envelope.words, p.sender))
      = some (i, e.words, sender))
    (he : e.words ≠ []) :
  s.posted = some ⟨i, e, sender⟩
  := by
  obtain ⟨⟨owner, envelope, sender'⟩, hp, heq⟩ := Option.map_eq_some_iff.mp h
  simp only [Prod.mk.injEq] at heq
  obtain ⟨rfl, henvelope, rfl⟩ := heq
  rw [hp, Envelope.eq_of_words_eq henvelope he]

/-- A report that was taken is known by its words. -/
theorem taken_of_words {s : Signal κ} {i : Nat} {e : Envelope}
    (h : s.taken.map (fun t => (t.1, t.2.words)) = some (i, e.words)) (he : e.words ≠ []) :
  s.taken = some (i, e)
  := by
  obtain ⟨⟨owner, envelope⟩, ht, heq⟩ := Option.map_eq_some_iff.mp h
  simp only [Prod.mk.injEq] at heq
  obtain ⟨rfl, henvelope⟩ := heq
  rw [ht, Envelope.eq_of_words_eq henvelope he]

/-- As many envelopes were posted before as have been handled: they are the same. -/
theorem Run.posts_eq_handled {H : Host κ π σ} {before after : List (Configuration κ π σ)}
    {c : Configuration κ π σ} (h : Run H (before ++ after) c) {i : Nat}
    (hlength : (posts H i before).length = (handled H i (before ++ after)).length) :
  posts H i before = handled H i (before ++ after)
  := by
  have hbefore : posts H i before <+: posts H i (before ++ after) := by
    rw [posts, posts, List.filterMap_append]
    exact List.prefix_append _ _
  have hprefix := List.prefix_of_prefix_length_le hbefore (h.handled_prefix i)
    (Nat.le_of_eq hlength)
  exact hprefix.eq_of_length hlength

theorem run_guardianRun {n : Nat}
    (hcalls : ((guardianRun n).1.drop 3).all (fun c => !c.hands) = true) :
  Run guardianHost (guardianRun n).1 (guardianRun n).2
  := by
  refine run_played isCompiled_guardian ?_ hcalls
  rintro _ m ⟨⟩
  exact isCompiled_kid

/-- The text of the failure to find the service. -/
def noService : String := (InvokeError.unknownService "bad").message

/-- A report of completion is carried out when another child is stored, and a report of
failure after the parent has been away since the attempt. -/
theorem guardian_reactions_late :
  (∃ before a after c x, Run guardianHost (before ++ a :: after) c
      ∧ (signal guardianHost a).posted = some ⟨0, .childDone "kid" "s", some 2⟩
      ∧ posts guardianHost 0 before = handled guardianHost 0 (before ++ a :: after)
      ∧ (signal guardianHost c).taken = some (0, .childDone "kid" "s")
      ∧ c.engine.get? 0 = some x ∧ x.resolution (.childDone "kid" "s") ≠ .ignore
      ∧ x.children.get? "kid" = some 3)
    ∧ ∃ before a after c x, Run guardianHost (before ++ a :: after) c
      ∧ (signal guardianHost a).posted = some ⟨0, .invokeFailed "bad" "s" noService, none⟩
      ∧ posts guardianHost 0 before = handled guardianHost 0 (before ++ a :: after)
      ∧ (signal guardianHost c).taken = some (0, .invokeFailed "bad" "s" noService)
      ∧ c.engine.get? 0 = some x
      ∧ x.resolution (.invokeFailed "bad" "s" noService) ≠ .ignore
      ∧ ∃ b ∈ after, leafOf b 0 = some "r"
  := by
  constructor
  · have hsplit : (guardianRun 131).1 = (guardianRun 95).1 ++ (guardianRun 95).2
        :: (trail guardianHost 35 (guardianRun 96).2).1 :=
      (played_split 95 35 (by decide +kernel)).1
    have hrun : Run guardianHost (guardianRun 131).1 (guardianRun 131).2 :=
      run_guardianRun (by decide +kernel)
    have hparent : ((guardianRun 131).2.engine.get? 0).map (fun x =>
        ((x.resolution (.childDone "kid" "s")).attempts, x.children.get? "kid"))
        = some (true, some 3) := by decide +kernel
    obtain ⟨x, hx, hfacts⟩ := Option.map_eq_some_iff.mp hparent
    obtain ⟨hattempts, hchild⟩ := Prod.mk.inj hfacts
    have hlength : (posts guardianHost 0 (guardianRun 95).1).length
        = (handled guardianHost 0 (guardianRun 131).1).length := by decide +kernel
    rw [hsplit] at hrun hlength
    refine ⟨_, _, _, _, x, hrun, ?_, hrun.posts_eq_handled hlength, ?_, hx,
      Resolution.ne_ignore hattempts, hchild⟩
    · exact posted_of_words (by decide +kernel) nofun
    · exact taken_of_words (by decide +kernel) nofun
  · have hsplit : (guardianRun 65).1 = (guardianRun 32).1 ++ (guardianRun 32).2
        :: (trail guardianHost 32 (guardianRun 33).2).1 :=
      (played_split 32 32 (by decide +kernel)).1
    have hrun : Run guardianHost (guardianRun 65).1 (guardianRun 65).2 :=
      run_guardianRun (by decide +kernel)
    have hparent : ((guardianRun 65).2.engine.get? 0).map (fun x =>
        (x.resolution (.invokeFailed "bad" "s" noService)).attempts) = some true := by
      decide +kernel
    obtain ⟨x, hx, hattempts⟩ := Option.map_eq_some_iff.mp hparent
    have haway : (trail guardianHost 32 (guardianRun 33).2).1.any (fun b =>
        leafOf b 0 == some "r") = true := by decide +kernel
    obtain ⟨b, hb, hleaf⟩ := List.any_eq_true.mp haway
    have hlength : (posts guardianHost 0 (guardianRun 32).1).length
        = (handled guardianHost 0 (guardianRun 65).1).length := by decide +kernel
    rw [hsplit] at hrun hlength
    refine ⟨_, _, _, _, x, hrun, ?_, hrun.posts_eq_handled hlength, ?_, hx,
      Resolution.ne_ignore hattempts, b, hb, by simpa using hleaf⟩
    · exact posted_of_words (by decide +kernel) nofun
    · exact taken_of_words (by decide +kernel) nofun

/-- The last child ends, and its report is carried out. -/
theorem guardian_reactions :
  Run guardianHost (guardianRun 155).1 (guardianRun 155).2
    ∧ (signal guardianHost (guardianRun 155).2).taken = some (0, .childDone "kid" "s")
    ∧ ∃ x, (guardianRun 155).2.engine.get? 0 = some x
      ∧ x.resolution (.childDone "kid" "s") ≠ .ignore
      ∧ ∃ before a after child, (guardianRun 155).1 = before ++ a :: after
        ∧ (signal guardianHost a).posted = some ⟨0, .childDone "kid" "s", some child⟩
        ∧ (x.children.get? "kid" = some child
          ↔ changesOf a 0 = changesOf (guardianRun 155).2 0)
  := by
  have hrun : Run guardianHost (guardianRun 155).1 (guardianRun 155).2 :=
    run_guardianRun (by decide +kernel)
  have htaken : (signal guardianHost (guardianRun 155).2).taken
      = some (0, .childDone "kid" "s") := taken_of_words (by decide +kernel) nofun
  have hparent : ((guardianRun 155).2.engine.get? 0).map (fun x =>
      (x.resolution (.childDone "kid" "s")).attempts) = some true := by decide +kernel
  obtain ⟨x, hx, hattempts⟩ := Option.map_eq_some_iff.mp hparent
  have hres := Resolution.ne_ignore hattempts
  obtain ⟨before, a, after, child, hsplit, hposted, -, hiff, -⟩ :=
    (hrun.reactions hx).1 "kid" "s" htaken hres
  exact ⟨hrun, htaken, x, hx, hres, before, a, after, child, hsplit, hposted, hiff⟩

end Configuration

end Statechart
