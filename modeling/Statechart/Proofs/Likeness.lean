import Statechart.Proofs.Cascade
import Statechart.Proofs.Counterpart
import Statechart.Proofs.Order

/-!
# Engines that are alike

What an engine does with counterparts on one side keeps it alike to an engine that does the same
with them on the other: arming and disarming, starting and stopping, adding children and letting
go of what the host does not hold.  What it does with an instance that has no counterpart keeps
it alike to an engine that does nothing.
-/

namespace Statechart

variable {κ π σ : Type}

/-! ### Arming -/

namespace Timing

variable {τ : Type} {t : Timing τ}

theorem now_destroy (h : t.Accurate) (id : Nat) :
  (t.destroy id).now = t.now
  := (h.destroy id).2.now

end Timing

namespace Engine

/-- Armings of the same delays, for counterparts. -/
structure ArmingOf.Alike (R : Callback κ → Callback κ → Prop) (lead : Int) (o o' : ArmingOf) :
    Prop where
  context : o.context = o'.context
  state : o.state = o'.state
  metadata : o.metadata = o'.metadata
  generation : (o.generation : Int) = o'.generation + lead
  callback : ∀ key, R (.after o.owner o.state key o.generation)
    (.after o'.owner o'.state key o'.generation)

/-- What is left of the last armings: paired timers, or timers on the left alone that are not
going to be kept for one of the delays. -/
inductive Leftover (T : List (Nat × Nat)) (lead : Int) (state : String)
    (ds : List (Delayed κ)) (t : Timing (Callback κ)) : List Armed → List Armed → Prop where
  | paired {ps qs : List Armed} : List.Forall₂ (Armed.Alike T lead) ps qs →
    Leftover T lead state ds t ps qs
  | alone {ps : List Armed} :
    (∀ p ∈ ps, p.timer < t.timers.next ∧ ∀ e ∈ T, e.1 ≠ p.timer) →
    (∀ p ∈ ps, ∀ d ∈ ds, p.key = armedKey state d.key → t.status? p.timer ≠ some .paused) →
    Leftover T lead state ds t ps []

/-- Two armings that have gone the same way so far. -/
structure Arming.Alike (R : Callback κ → Callback κ → Prop) (F : Callback κ → Prop)
    (T : List (Nat × Nat)) (lead : Int) (state : String) (ds : List (Delayed κ))
    (a b : Arming κ) : Prop where
  timing : Timing.Alike R F T a.timing b.timing
  now : a.timing.now = b.timing.now
  armed : List.Forall₂ (Armed.Alike T lead) a.armed b.armed
  previous : Leftover T lead state ds a.timing a.previous b.previous

theorem forall₂_mono {T T' : List (Nat × Nat)} (hT : T ⊆ T') {lead : Int} {as bs : List Armed}
    (h : List.Forall₂ (Armed.Alike T lead) as bs) :
  List.Forall₂ (Armed.Alike T' lead) as bs
  := h.imp fun _ _ hab => ⟨hab.key, hT hab.timer, hab.generation⟩

theorem forall₂_filter {T : List (Nat × Nat)} {lead : Int} {as bs : List Armed}
    (h : List.Forall₂ (Armed.Alike T lead) as bs) (key : String) :
  List.Forall₂ (Armed.Alike T lead) (as.filter fun a => a.key ≠ key)
    (bs.filter fun b => b.key ≠ key)
  := by
  induction h with
  | nil => exact .nil
  | @cons a b as bs hab _ ih =>
    rw [List.filter_cons, List.filter_cons, hab.key]
    split
    · exact .cons hab ih
    · exact ih

section

variable {R : Callback κ → Callback κ → Prop} {F : Callback κ → Prop} {T : List (Nat × Nat)}
  {lead : Int} {state : String} {ds : List (Delayed κ)} {d : Delayed κ}
  {t u : Timing (Callback κ)} {ps qs : List Armed} {o o' : ArmingOf} {a b : Arming κ}

theorem Leftover.filter (h : Leftover T lead state (d :: ds) t ps qs) (key : String) :
  Leftover T lead state ds t (ps.filter fun p => p.key ≠ key) (qs.filter fun q => q.key ≠ key)
  := by
  cases h with
  | paired h => exact .paired (forall₂_filter h key)
  | alone hfree hpaused =>
    refine .alone (fun p hp => hfree p (List.mem_of_mem_filter hp)) fun p hp d' hd' => ?_
    exact hpaused p (List.mem_of_mem_filter hp) d' (List.mem_cons_of_mem _ hd')

/-- Destroying a timer pauses none. -/
theorem Leftover.destroy (h : Leftover T lead state ds t ps qs) (id : Nat) :
  Leftover T lead state ds (t.destroy id) ps qs
  := by
  cases h with
  | paired h => exact .paired h
  | alone hfree hpaused =>
    refine .alone (by rwa [Timing.next_destroy]) fun p hp d hd hkey hstatus => ?_
    by_cases heq : id = p.timer
    · subst heq
      cases hold : t.status? p.timer with
      | none =>
        have hnone : t.timers.get? p.timer = none := by simpa [Timing.status?] using hold
        rw [Timing.destroy, hnone, Timing.status?, hnone] at hstatus
        cases hstatus
      | some status =>
        rw [t.status?_destroy hold] at hstatus
        cases hstatus
    · apply hpaused p hp d hd hkey
      rwa [Timing.status?, Timing.get?_destroy_of_ne t heq] at hstatus

/-- A delay is armed with new timers on both sides. -/
theorem Arming.Alike.fresh (ho : ArmingOf.Alike R lead o o')
    (htiming : Timing.Alike R F T t u) (hnow : t.now = u.now)
    (harmed : List.Forall₂ (Armed.Alike T lead) a.armed b.armed)
    (hprevious : Leftover T lead o.state ds t
      (a.previous.filter fun p => p.key ≠ armedKey o.state d.key)
      (b.previous.filter fun q => q.key ≠ armedKey o.state d.key)) :
  Arming.Alike R F ((t.timers.next, u.timers.next) :: T) lead o.state ds (armFresh o a d t)
    (armFresh o' b d u)
  := by
  have hsub := List.subset_cons_self (t.timers.next, u.timers.next) T
  let delay := (d.delay.resolve o.context (.after d.key) o.metadata).value
  have hleft : (armFresh o a d t).timing
      = t.arm o.pool delay (.after o.owner o.state d.key o.generation) := rfl
  have hright : (armFresh o' b d u).timing
      = u.arm o'.pool delay (.after o'.owner o'.state d.key o'.generation) := by
    rw [armFresh, ← ho.context, ← ho.metadata]
    rfl
  constructor
  · rw [hleft, hright]
    exact htiming.arm hnow (ho.callback d.key)
  · rw [hleft, hright, Timing.now_arm, Timing.now_arm, hnow]
  · rw [armFresh, armFresh, ← ho.state]
    refine List.rel_append (forall₂_mono hsub harmed) (.cons ?_ .nil)
    exact ⟨rfl, List.mem_cons_self, ho.generation⟩
  · rw [hleft]
    simp only [armFresh, ← ho.state]
    generalize a.previous.filter _ = ps, b.previous.filter _ = qs at hprevious
    cases hprevious with
    | paired h => exact .paired (forall₂_mono hsub h)
    | alone hfree hpaused =>
      obtain ⟨-, hget⟩ := Timing.arm_eq (htiming.awake o.pool) delay
        (.after o.owner o.state d.key o.generation)
      refine .alone (fun p hp => ?_) fun p hp d' hd' hkey => ?_
      · obtain ⟨hlt, hne⟩ := hfree p hp
        rw [Timing.next_arm]
        refine ⟨Nat.lt_succ_of_lt hlt, fun e he => ?_⟩
        obtain rfl | he := List.mem_cons.mp he
        · exact Nat.ne_of_gt hlt
        · exact hne e he
      · rw [Timing.status?, hget, if_neg (Nat.ne_of_lt (hfree p hp).1)]
        exact hpaused p hp d' hd' hkey

/-- Both sides keep a paused timer for a delay, or both make a new one. -/
theorem Arming.Alike.armOne (h : Arming.Alike R F T lead o.state (d :: ds) a b)
    (ho : ArmingOf.Alike R lead o o') :
  ∃ T', T ⊆ T' ∧ (∀ e ∈ T', e ∈ T ∨ a.timing.timers.next ≤ e.1)
    ∧ Arming.Alike R F T' lead o.state ds (Engine.armOne o a d).value
      (Engine.armOne o' b d).value
  := by
  have hfiltered := h.previous.filter (armedKey o.state d.key)
  have hgrown : ∀ t u : Timing (Callback κ), t.timers.next = a.timing.timers.next →
      T ⊆ (t.timers.next, u.timers.next) :: T
        ∧ ∀ e ∈ (t.timers.next, u.timers.next) :: T, e ∈ T ∨ a.timing.timers.next ≤ e.1 := by
    intro t u hnext
    refine ⟨List.subset_cons_self _ _, fun e he => ?_⟩
    obtain rfl | he := List.mem_cons.mp he
    · exact .inr (Nat.le_of_eq hnext.symm)
    · exact .inl he
  rw [value_armOne, value_armOne, ← ho.state]
  have hprevious := h.previous
  generalize hps : a.previous = ps, hqs : b.previous = qs at hprevious
  cases hprevious with
  | paired hpaired =>
    have hfind := Instance.Alike.find?_eq hpaired (armedKey o.state d.key)
    generalize ps.find? _ = p?, qs.find? _ = q? at hfind
    cases hfind with
    | none =>
      obtain ⟨hsub, hnew⟩ := hgrown a.timing b.timing rfl
      exact ⟨_, hsub, hnew, .fresh ho h.timing h.now h.armed hfiltered⟩
    | @some p q hpq =>
      obtain ⟨x, y, hx, hy, hxy⟩ := h.timing.pair _ hpq.timer
      have hstatus : a.timing.status? p.timer = b.timing.status? q.timer := by
        rw [Timing.status?, Timing.status?, hx, hy, Option.map_some, Option.map_some, hxy.status]
      simp only [hstatus]
      split
      · rw [hps, hqs] at hfiltered
        exact ⟨T, List.Subset.refl _, fun e he => .inl he, h.timing, h.now,
          List.rel_append h.armed (.cons hpq .nil), hfiltered⟩
      · obtain ⟨hsub, hnew⟩ := hgrown (a.timing.destroy p.timer) (b.timing.destroy q.timer)
          (Timing.next_destroy _ _)
        refine ⟨_, hsub, hnew, .fresh ho (h.timing.destroy hpq.timer) ?_ h.armed
          (hfiltered.destroy _)⟩
        rw [Timing.now_destroy h.timing.left, Timing.now_destroy h.timing.right, h.now]
  | alone hfree hpaused =>
    rw [List.find?_nil]
    cases hfind : ps.find? fun p => p.key = armedKey o.state d.key with
    | none =>
      obtain ⟨hsub, hnew⟩ := hgrown a.timing b.timing rfl
      exact ⟨_, hsub, hnew, .fresh ho h.timing h.now h.armed hfiltered⟩
    | some p =>
      have hp := List.mem_of_find?_eq_some hfind
      have hkey : p.key = armedKey o.state d.key := by simpa using List.find?_some hfind
      simp only
      rw [if_neg (hpaused p hp d List.mem_cons_self hkey)]
      obtain ⟨hsub, hnew⟩ := hgrown (a.timing.destroy p.timer) b.timing (Timing.next_destroy _ _)
      refine ⟨_, hsub, hnew, .fresh ho (h.timing.destroy_left (hfree p hp).2) ?_ h.armed
        (hfiltered.destroy _)⟩
      rw [Timing.now_destroy h.timing.left, h.now]

theorem Arming.Alike.armEach (ds : List (Delayed κ)) (h : Arming.Alike R F T lead o.state ds a b)
    (ho : ArmingOf.Alike R lead o o') :
  ∃ T', T ⊆ T' ∧ (∀ e ∈ T', e ∈ T ∨ a.timing.timers.next ≤ e.1)
    ∧ Arming.Alike R F T' lead o.state [] (Engine.armEach o ds a).value
      (Engine.armEach o' ds b).value
  := by
  induction ds generalizing a b T with
  | nil => exact ⟨T, List.Subset.refl _, fun e he => .inl he, h⟩
  | cons d ds ih =>
    obtain ⟨T₁, hT₁, hnew₁, h₁⟩ := h.armOne ho
    obtain ⟨T₂, hT₂, hnew₂, h₂⟩ := ih h₁
    obtain ⟨_, -, hfollows⟩ := follows_armOne o a d
    refine ⟨T₂, List.Subset.trans hT₁ hT₂, fun e he => ?_, h₂⟩
    obtain he | hle := hnew₂ e he
    · exact hnew₁ e he
    · exact .inr (Nat.le_trans hfollows.next_le hle)

/-- What is left of the last armings is destroyed. -/
theorem Arming.Alike.finish (h : Arming.Alike R F T lead state [] a b) :
  Timing.Alike R F T (a.timing.destroyEach (a.previous.map Armed.timer))
    (b.timing.destroyEach (b.previous.map Armed.timer))
  := by
  have hprevious := h.previous
  generalize a.previous = ps, b.previous = qs at hprevious
  cases hprevious with
  | paired hpaired =>
    apply h.timing.destroyEach
    rw [List.forall₂_map_left_iff, List.forall₂_map_right_iff]
    exact hpaired.imp fun _ _ hpq => hpq.timer
  | alone hfree hpaused =>
    apply h.timing.destroyEach_left
    intro id hid
    obtain ⟨p, hp, rfl⟩ := List.mem_map.mp hid
    exact (hfree p hp).2

/-- Delays are armed on the left alone. -/
theorem armEach_left (ds : List (Delayed κ)) (h : Timing.Alike R F T a.timing u)
    (hF : ∀ key, F (.after o.owner o.state key o.generation))
    (hprevious : ∀ p ∈ a.previous, ∀ e ∈ T, e.1 ≠ p.timer)
    (harmed : ∀ p ∈ a.armed, ∀ e ∈ T, e.1 ≠ p.timer) :
  Timing.Alike R F T (Engine.armEach o ds a).value.timing u
    ∧ (∀ p ∈ (Engine.armEach o ds a).value.previous, ∀ e ∈ T, e.1 ≠ p.timer)
    ∧ ∀ p ∈ (Engine.armEach o ds a).value.armed, ∀ e ∈ T, e.1 ≠ p.timer
  := by
  induction ds generalizing a with
  | nil => exact ⟨h, hprevious, harmed⟩
  | cons d ds ih =>
    have hfiltered : ∀ p ∈ a.previous.filter fun p => p.key ≠ armedKey o.state d.key,
        ∀ e ∈ T, e.1 ≠ p.timer :=
      fun p hp => hprevious p (List.mem_of_mem_filter hp)
    have hfresh : ∀ t : Timing (Callback κ), Timing.Alike R F T t u →
        Timing.Alike R F T (armFresh o a d t).timing u
          ∧ ∀ p ∈ (armFresh o a d t).armed, ∀ e ∈ T, e.1 ≠ p.timer := by
      intro t ht
      refine ⟨ht.arm_left (hF d.key), fun p hp => ?_⟩
      obtain hp | hp := List.mem_append.mp hp
      · exact harmed p hp
      · obtain rfl := List.mem_singleton.mp hp
        exact fun e he => Nat.ne_of_lt (ht.lt_next he).1
    apply ih
    all_goals
      rw [value_armOne]
      split
      · next p hfind =>
        have hp := hprevious p (List.mem_of_find?_eq_some hfind)
        split
        · first
            | exact h
            | exact hfiltered
            | exact List.forall_mem_append.mpr ⟨harmed, List.forall_mem_singleton.mpr hp⟩
        · first
            | exact (hfresh _ (h.destroy_left hp)).1
            | exact hfiltered
            | exact (hfresh _ (h.destroy_left hp)).2
      · first
          | exact (hfresh _ h).1
          | exact hfiltered
          | exact (hfresh _ h).2

/-- The delays of the active states of two instances are armed at the same time: there is an error
for both, or the new timers belong together and the clocks stay alike. -/
theorem armTimers_alike {r s : Engine κ} {i j : Nat} {x y : Instance κ} {lead : Int}
    (hx : r.get? i = some x) (hy : s.get? j = some y) (hdelays : activeDelays x = activeDelays y)
    (hcontext : x.snapshot.context = y.snapshot.context)
    (hgeneration : (x.generation : Int) = y.generation + lead)
    (hR : ∀ state key, R (.after i state key (x.generation + 1))
      (.after j state key (y.generation + 1)))
    (htiming : Timing.Alike R F T r.timing s.timing) (hnow : r.timing.now = s.timing.now)
    (hleftover : ∀ active ds, activeDelays x = .ok (active, ds) →
      Leftover T lead (armingOf i x active).state ds r.timing x.timers y.timers) :
  (∃ e, (r.armTimers i).value = .error e ∧ (s.armTimers j).value = .error e)
    ∨ ∃ T' t u as bs, T ⊆ T' ∧ (∀ e ∈ T', e ∈ T ∨ r.timing.timers.next ≤ e.1)
      ∧ Timing.Alike R F T' t u ∧ List.Forall₂ (Armed.Alike T' lead) as bs
      ∧ (r.armTimers i).value = .ok (modify { r with timing := t } i fun z =>
        { z with timers := as, generation := x.generation + 1 })
      ∧ (s.armTimers j).value = .ok (modify { s with timing := u } j fun z =>
        { z with timers := bs, generation := y.generation + 1 })
  := by
  rw [Engine.armTimers, Engine.armTimers, hx, hy]
  simp only [← hdelays]
  cases hactive : activeDelays x with
  | error e => exact .inl ⟨e, rfl, rfl⟩
  | ok found =>
    obtain ⟨active, ds⟩ := found
    have hnext : ((x.generation + 1 : Nat) : Int) = (y.generation + 1 : Nat) + lead := by omega
    have ho : ArmingOf.Alike (κ := κ) R lead (armingOf i x active) (armingOf j y active) :=
      ⟨hcontext, rfl, rfl, hnext, fun key => hR _ key⟩
    obtain ⟨T', hT, hnew, harmed⟩ := Arming.Alike.armEach
      ds (a := ⟨r.timing, x.timers, []⟩) (b := ⟨s.timing, y.timers, []⟩)
      ⟨htiming, hnow, .nil, hleftover active ds hactive⟩ ho
    exact .inr ⟨T', _, _, _, _, hT, hnew, harmed.finish, harmed.armed, rfl, rfl⟩

end

/-! ### Two engines -/

/-- Two engines are alike in the instances that `P` ties.  What is tied descends from the
root, and its parents are there as long as it is not stopped.  The engine on the left may
have other instances, which have to do with each other alone. -/
structure Alike (P : Pairing) (r s : Engine κ) : Prop where
  timing : Timing.Alike (Callback.Alike P) (Callback.Foreign P) P.timers r.timing s.timing
  likened : ∀ t ∈ P.ties, Instance.Likened P t.lead (r.get? t.left) (s.get? t.right)
  eq_of_left : ∀ t ∈ P.ties, ∀ t' ∈ P.ties, t.left = t'.left → t = t'
  eq_of_right : ∀ t ∈ P.ties, ∀ t' ∈ P.ties, t.right = t'.right → t = t'
  lt_next : ∀ t ∈ P.ties, t.left < r.instances.next ∧ t.right < s.instances.next
  root : P.root ∈ P.ties
  orphan : ∀ t ∈ P.ties, ∀ x, r.get? t.left = some x → x.parent = none → t = P.root
  rooted : ∀ t ∈ P.ties, ∀ x link, r.get? t.left = some x → x.status ≠ .stopped →
    x.parent = some link → ∃ p, r.get? link.parent = some p
  foreign : ∀ i x, r.get? i = some x → P.Free i → x.Foreign P
  still : ∀ j y, s.get? j = some y → (∀ t ∈ P.ties, t.right ≠ j) → y.timers = []

/-- No instance has to do with another one. -/
def Apart (r : Engine κ) : Prop :=
  ∀ i x, r.get? i = some x → x.parent = none ∧ x.children = .empty

/-- Two instances are counterparts, all others on the left keep apart, and those on the right have
no timers. -/
theorem alike_ofRoot {r s : Engine κ} {t : Tie} {heeds : Bool} {T : List (Nat × Nat)}
    {x y : Instance κ} (hx : r.get? t.left = some x) (hy : s.get? t.right = some y)
    (hxy : x.Alike (.withTimers (.ofRoot t heeds) T) t.lead y)
    (htiming : Timing.Alike (Callback.Alike (.withTimers (.ofRoot t heeds) T))
      (Callback.Foreign (.withTimers (.ofRoot t heeds) T)) T r.timing s.timing)
    (hapart : r.Apart)
    (hfree : ∀ i z, r.get? i = some z → i ≠ t.left → ∀ a ∈ z.timers, ∀ e ∈ T, e.1 ≠ a.timer)
    (hstill : ∀ j z, s.get? j = some z → j ≠ t.right → z.timers = []) :
  Alike (.withTimers (.ofRoot t heeds) T) r s
  := by
  have hroot : ∀ u ∈ (Pairing.withTimers (.ofRoot t heeds) T).ties, u = t :=
    fun u hu => List.mem_singleton.mp hu
  have hmem : t ∈ (Pairing.withTimers (.ofRoot t heeds) T).ties := List.mem_singleton_self t
  constructor
  case timing => exact htiming
  case likened =>
    intro u hu
    obtain rfl := hroot u hu
    rw [hx, hy]
    exact .alike hxy
  case eq_of_left | eq_of_right =>
    intro u hu u' hu' _
    exact (hroot u hu).trans (hroot u' hu').symm
  case lt_next =>
    intro u hu
    obtain rfl := hroot u hu
    exact ⟨lt_next_of_get? hx, lt_next_of_get? hy⟩
  case root => exact hmem
  case orphan => exact fun u hu _ _ _ => hroot u hu
  case rooted =>
    intro u hu z link hz _ hlink
    rw [(hapart u.left z hz).1] at hlink
    cases hlink
  case foreign =>
    intro i z hz hi
    obtain ⟨hparent, hchildren⟩ := hapart i z hz
    refine ⟨by simp [hparent], hchildren ▸ List.forall_mem_nil _, ?_⟩
    exact hfree i z hz fun heq => hi t hmem heq.symm
  case still => exact fun j z hz hj => hstill j z hz fun heq => hj t hmem heq.symm

namespace Alike

variable {P : Pairing} {r s : Engine κ} {t : Tie} {i : Nat} {x y : Instance κ}

/-- Counterparts that are both there are alike. -/
theorem alike (h : Alike P r s) (ht : t ∈ P.ties) (hx : r.get? t.left = some x)
    (hy : s.get? t.right = some y) :
  x.Alike P t.lead y
  := by
  have hlikened := h.likened t ht
  rw [hx, hy] at hlikened
  cases hlikened with
  | alike h => exact h

/-- The counterpart of an instance that is not stopped is there. -/
theorem exists_right (h : Alike P r s) (ht : t ∈ P.ties) (hx : r.get? t.left = some x)
    (hstatus : x.status ≠ .stopped) :
  ∃ y, s.get? t.right = some y ∧ x.Alike P t.lead y
  := by
  have hlikened := h.likened t ht
  rw [hx] at hlikened
  generalize s.get? t.right = o at hlikened
  cases hlikened with
  | alike h => exact ⟨_, rfl, h⟩
  | left hstopped => exact absurd hstopped hstatus

theorem exists_left (h : Alike P r s) (ht : t ∈ P.ties) (hy : s.get? t.right = some y)
    (hstatus : y.status ≠ .stopped) :
  ∃ x, r.get? t.left = some x ∧ x.Alike P t.lead y
  := by
  have hlikened := h.likened t ht
  rw [hy] at hlikened
  generalize r.get? t.left = o at hlikened
  cases hlikened with
  | alike h => exact ⟨_, rfl, h⟩
  | right hstopped => exact absurd hstopped hstatus

/-- Clocks are changed that stay alike, and perhaps more timers are paired. -/
theorem withTiming (h : Alike P r s) {T : List (Nat × Nat)} {t u : Timing (Callback κ)}
    (hT : P.timers ⊆ T)
    (htiming : Timing.Alike (Callback.Alike P) (Callback.Foreign P) T t u)
    (hfree : ∀ i x, r.get? i = some x → P.Free i → ∀ a ∈ x.timers, ∀ e ∈ T, e.1 ≠ a.timer) :
  Alike (P.withTimers T) { r with timing := t } { s with timing := u }
  where
  timing := htiming.imp (fun _ _ hcb => hcb.mono (Pairing.grows_withTimers hT))
    fun _ _ _ _ _ _ hcb => hcb
  likened t ht := (h.likened t ht).mono (Pairing.grows_withTimers hT)
  eq_of_left := h.eq_of_left
  eq_of_right := h.eq_of_right
  lt_next := h.lt_next
  root := h.root
  orphan := h.orphan
  rooted := h.rooted
  foreign i x hx hi := ⟨(h.foreign i x hx hi).parent, (h.foreign i x hx hi).children,
    hfree i x hx hi⟩
  still := h.still

/-- Clocks are changed that stay alike. -/
theorem retimed (h : Alike P r s) {t u : Timing (Callback κ)}
    (htiming : Timing.Alike (Callback.Alike P) (Callback.Foreign P) P.timers t u) :
  Alike P { r with timing := t } { s with timing := u }
  := { h with timing := htiming }

/-- Counterparts are changed alike. -/
theorem modify (h : Alike P r s) (ht : t ∈ P.ties) {f g : Instance κ → Instance κ}
    (hfg : ∀ x y, r.get? t.left = some x → s.get? t.right = some y → x.Alike P t.lead y →
      (f x).Alike P t.lead (g y))
    (hf : ∀ x, r.get? t.left = some x →
      (x.status = .stopped → (f x).status = .stopped) ∧ (f x).parent = x.parent)
    (hg : ∀ y, s.get? t.right = some y → y.status = .stopped → (g y).status = .stopped) :
  Alike P (r.modify t.left f) (s.modify t.right g)
  := by
  -- What is there under another number is as before.
  have hleft : ∀ i x, (r.modify t.left f).get? i = some x →
      (i = t.left ∧ ∃ z, r.get? i = some z ∧ x = f z) ∨ i ≠ t.left ∧ r.get? i = some x := by
    intro i x hx
    rw [get?_modify] at hx
    split at hx
    · next hi =>
      obtain ⟨z, hz, rfl⟩ := Option.map_eq_some_iff.mp hx
      exact .inl ⟨hi.symm, z, hz, rfl⟩
    · next hi => exact .inr ⟨Ne.symm hi, hx⟩
  refine { h with
    likened := ?_, lt_next := ?_, orphan := ?_, rooted := ?_, foreign := ?_, still := ?_ }
  · intro t' ht'
    rw [get?_modify, get?_modify]
    by_cases heq : t = t'
    · subst heq
      rw [if_pos rfl, if_pos rfl]
      have hlikened := h.likened t ht
      generalize hx : r.get? t.left = o, hy : s.get? t.right = o' at hlikened
      cases hlikened with
      | alike hxy => exact .alike (hfg _ _ hx hy hxy)
      | left hstopped => exact .left ((hf _ hx).1 hstopped)
      | right hstopped => exact .right (hg _ hy hstopped)
      | none => exact .none
    · rw [if_neg fun hleft => heq (h.eq_of_left t ht t' ht' hleft),
        if_neg fun hright => heq (h.eq_of_right t ht t' ht' hright)]
      exact h.likened t' ht'
  · intro t' ht'
    rw [next_modify, next_modify]
    exact h.lt_next t' ht'
  · intro t' ht' x hx hparent
    obtain ⟨hi, z, hz, rfl⟩ | ⟨-, hx⟩ := hleft _ _ hx
    · exact h.orphan t' ht' z hz ((hf z (hi ▸ hz)).2 ▸ hparent)
    · exact h.orphan t' ht' x hx hparent
  · intro t' ht' x link hx hstatus hparent
    obtain ⟨p, hp⟩ : ∃ p, r.get? link.parent = some p := by
      obtain ⟨hi, z, hz, rfl⟩ | ⟨-, hx⟩ := hleft _ _ hx
      · obtain ⟨hkept, hsame⟩ := hf z (hi ▸ hz)
        exact h.rooted t' ht' z link hz (mt hkept hstatus) (hsame ▸ hparent)
      · exact h.rooted t' ht' x link hx hstatus hparent
    rw [get?_modify, hp]
    split
    · exact ⟨_, rfl⟩
    · exact ⟨p, rfl⟩
  · intro i x hx hi
    obtain ⟨rfl, -⟩ | ⟨-, hx⟩ := hleft _ _ hx
    · exact absurd rfl (hi t ht)
    · exact h.foreign i x hx hi
  · intro j y hy hj
    rw [get?_modify, if_neg (hj t ht)] at hy
    exact h.still j y hy hj

/-- An instance on the left is changed that has no counterpart. -/
theorem modify_left (h : Alike P r s) (hi : P.Free i) {f : Instance κ → Instance κ}
    (hf : ∀ x, r.get? i = some x → x.Foreign P → (f x).Foreign P) :
  Alike P (r.modify i f) s
  := by
  have hkept : ∀ t ∈ P.ties, (r.modify i f).get? t.left = r.get? t.left := by
    intro t ht
    rw [get?_modify, if_neg (hi t ht).symm]
  refine { h with likened := ?_, lt_next := ?_, orphan := ?_, rooted := ?_, foreign := ?_ }
  · intro t ht
    rw [hkept t ht]
    exact h.likened t ht
  · intro t ht
    rw [next_modify]
    exact h.lt_next t ht
  · intro t ht x hx
    rw [hkept t ht] at hx
    exact h.orphan t ht x hx
  · intro t ht x link hx hstatus hparent
    rw [hkept t ht] at hx
    obtain ⟨p, hp⟩ := h.rooted t ht x link hx hstatus hparent
    rw [get?_modify, hp]
    split
    · exact ⟨_, rfl⟩
    · exact ⟨p, rfl⟩
  · intro j x hx hj
    rw [get?_modify] at hx
    split at hx
    · next hij =>
      subst hij
      obtain ⟨z, hz, rfl⟩ := Option.map_eq_some_iff.mp hx
      exact hf z hz (h.foreign i z hz hj)
    · exact h.foreign j x hx hj

/-! #### Stopping -/

/-- The timers of counterparts are destroyed. -/
theorem destroyEach (h : Alike P r s) {as bs : List Armed} {lead : Int}
    (hab : List.Forall₂ (Armed.Alike P.timers lead) as bs) :
  Alike P (r.withTiming fun t => t.destroyEach (as.map Armed.timer))
    (s.withTiming fun t => t.destroyEach (bs.map Armed.timer))
  := by
  apply h.retimed
  apply h.timing.destroyEach
  rw [List.forall₂_map_left_iff, List.forall₂_map_right_iff]
  exact hab.imp fun _ _ hab => hab.timer

theorem destroyEach_left (h : Alike P r s) {as : List Armed}
    (has : ∀ a ∈ as, P.FreeTimer a.timer) :
  Alike P (r.withTiming fun t => t.destroyEach (as.map Armed.timer)) s
  := by
  apply h.retimed
  apply h.timing.destroyEach_left
  intro id hid
  obtain ⟨a, ha, rfl⟩ := List.mem_map.mp hid
  exact has a ha

theorem halting (h : Alike P r s) (ht : t ∈ P.ties) (hx : r.get? t.left = some x)
    (hy : s.get? t.right = some y) :
  Alike P (r.halting t.left x) (s.halting t.right y)
  := by
  have hmodified : Alike P (r.modify t.left Instance.halting)
      (s.modify t.right Instance.halting) := by
    refine h.modify ht ?_ (fun _ _ => ⟨fun _ => rfl, rfl⟩) fun _ _ _ => rfl
    intro x y _ _ hxy
    have hgeneration := hxy.generation
    exact { hxy with
      status := rfl
      actions := hxy.actions.imp_right fun h => ⟨Status.noConfusion, h.2⟩
      timers := .nil
      generation := by
        simp only [Instance.halting]
        omega
      children := .nil }
  exact hmodified.destroyEach (h.alike ht hx hy).timers

/-- Stopping goes on with the children of counterparts. -/
theorem foldl {is js : List Nat} {f g : Engine κ → Nat → Engine κ} (h : Alike P r s)
    (hr : r.Older) (hs : s.Older) (hf : ∀ r i, Halts r (f r i)) (hg : ∀ s j, Halts s (g s j))
    (hfg : ∀ r' s' i j, Alike P r' s' → r'.Older → s'.Older →
      r'.instances.next = r.instances.next → s'.instances.next = s.instances.next →
      i ∈ is → j ∈ js → P.Tied i j → Alike P (f r' i) (g s' j))
    (hij : List.Forall₂ P.Tied is js) :
  Alike P (is.foldl f r) (js.foldl g s)
  := by
  induction hij generalizing r s with
  | nil => exact h
  | @cons i j is js hij _ ih =>
    have hfirst := hfg r s i j h hr hs rfl rfl List.mem_cons_self List.mem_cons_self hij
    refine ih hfirst (hr.halts (hf r i)) (hs.halts (hg s j)) ?_
    intro r' s' i' j' h' hr' hs' hnext hnext' hi' hj' hij'
    refine hfg r' s' i' j' h' hr' hs' (hnext.trans (hf r i).next) (hnext'.trans (hg s j).next)
      (List.mem_cons_of_mem _ hi') (List.mem_cons_of_mem _ hj') hij'

/-- Counterparts are stopped, if the depths are enough for the instances that have been made
since. -/
theorem stopWithin {depth depth' : Nat} (h : Alike P r s) (hr : r.Older) (hs : s.Older)
    (ht : t ∈ P.ties) (hdepth : r.instances.next ≤ depth + t.left)
    (hdepth' : s.instances.next ≤ depth' + t.right) :
  Alike P (stopWithin depth r t.left) (stopWithin depth' s t.right)
  := by
  -- The induction is on the depth on the left; children need one less on both sides.
  induction depth generalizing r s t depth' with
  | zero =>
    have hlt := (h.lt_next t ht).1
    omega
  | succ depth ih =>
    cases depth' with
    | zero =>
      have hlt := (h.lt_next t ht).2
      omega
    | succ depth' =>
      have hlikened := h.likened t ht
      generalize hx : r.get? t.left = o, hy : s.get? t.right = o' at hlikened
      cases hlikened with
      | @alike x y hxy =>
        by_cases hstopped : x.status = .stopped
        · rw [Engine.stopWithin, Engine.stopWithin, hx, hy]
          simp only [hxy.status ▸ hstopped, hstopped, if_true]
          exact h
        · rw [stopWithin_of_ne_stopped hx hstopped,
            stopWithin_of_ne_stopped hy (hxy.status ▸ hstopped)]
          have hbelow := foldl (h.halting ht hx hy) (older_halting hr hx) (older_halting hs hy)
            (halts_stopWithin depth) (halts_stopWithin depth') (by
              rintro r' s' i j h' hr' hs' hnext hnext' hi hj ⟨t', ht', rfl, rfl⟩
              have hlt := (hr _ x hx _ hi).1
              have hlt' := (hs _ y hy _ hj).1
              have hnext : r'.instances.next = r.instances.next := hnext.trans (next_modify r _ _)
              have hnext' : s'.instances.next = s.instances.next :=
                hnext'.trans (next_modify s _ _)
              exact ih h' hr' hs' ht' (by omega) (by omega)) hxy.values
          refine hbelow.modify ht ?_ (fun _ _ => ⟨id, rfl⟩) fun _ _ => id
          intro x y _ _ hxy
          exact { hxy with
            actions := hxy.actions.imp_right fun h => ⟨h.1, by simp⟩
            mailbox := .nil
            listeners := fun _ => rfl }
      | left hstopped =>
        rw [Engine.stopWithin, Engine.stopWithin, hx, hy]
        simp only [hstopped, if_true]
        exact h
      | right hstopped =>
        rw [Engine.stopWithin, Engine.stopWithin, hx, hy]
        simp only [hstopped, if_true]
        exact h
      | none =>
        rw [Engine.stopWithin, Engine.stopWithin, hx, hy]
        exact h

theorem stop (h : Alike P r s) (hr : r.Older) (hs : s.Older) (ht : t ∈ P.ties) :
  Alike P (r.stop t.left) (s.stop t.right)
  := h.stopWithin hr hs ht (Nat.le_add_right _ _) (Nat.le_add_right _ _)

/-- The children of counterparts are forgotten and stopped. -/
theorem stopChildren (h : Alike P r s) (hr : r.Older) (hs : s.Older) (ht : t ∈ P.ties)
    (hx : r.get? t.left = some x) (hy : s.get? t.right = some y) :
  Alike P (r.stopChildren t.left) (s.stopChildren t.right)
  := by
  have hforgotten : Alike P (r.modify t.left fun x => { x with children := .empty })
      (s.modify t.right fun y => { y with children := .empty }) := by
    refine h.modify ht ?_ (fun _ _ => ⟨id, rfl⟩) fun _ _ => id
    exact fun x y _ _ hxy => { hxy with children := .nil }
  rw [Engine.stopChildren, Engine.stopChildren, hx, hy]
  refine foldl hforgotten ?_ ?_ halts_stop halts_stop ?_ (h.alike ht hx hy).values
  · exact hr.sets (sets_modify hx _) fun _ hchild => by cases hchild
  · exact hs.sets (sets_modify hy _) fun _ hchild => by cases hchild
  · rintro r' s' i j h' hr' hs' - - - - ⟨t', ht', rfl, rfl⟩
    exact h'.stop hr' hs' ht'

/-- Something on the left is stopped one after another. -/
theorem foldl_left {is : List Nat} {f : Engine κ → Nat → Engine κ} (h : Alike P r s)
    (hf : ∀ r' i, Alike P r' s → P.Free i → Alike P (f r' i) s) (his : ∀ i ∈ is, P.Free i) :
  Alike P (is.foldl f r) s
  := by
  induction is generalizing r with
  | nil => exact h
  | cons i is ih =>
    apply ih (hf r i h (his i List.mem_cons_self))
    exact fun i hi => his i (List.mem_cons_of_mem _ hi)

/-- An instance on the left is stopped that has no counterpart. -/
theorem stopWithin_left {depth : Nat} (h : Alike P r s) (hi : P.Free i) :
  Alike P (Engine.stopWithin depth r i) s
  := by
  induction depth generalizing r i with
  | zero => exact h
  | succ depth ih =>
    cases hx : r.get? i with
    | none =>
      rw [Engine.stopWithin, hx]
      exact h
    | some x =>
      by_cases hstopped : x.status = .stopped
      · rw [Engine.stopWithin, hx]
        simp only [hstopped, if_true]
        exact h
      · have hforeign := h.foreign i x hx hi
        have hhalted : Alike P (r.modify i Instance.halting) s :=
          h.modify_left hi fun x _ hx =>
            ⟨hx.parent, List.forall_mem_nil _, List.forall_mem_nil _⟩
        have hbelow := foldl_left (hhalted.destroyEach_left hforeign.timers)
          (fun r' i h' hi => ih h' hi) hforeign.children
        rw [stopWithin_of_ne_stopped hx hstopped]
        exact hbelow.modify_left hi fun x _ hx => ⟨hx.parent, hx.children, hx.timers⟩

theorem stop_left (h : Alike P r s) (hi : P.Free i) :
  Alike P (r.stop i) s
  := h.stopWithin_left hi

theorem stopChildren_left (h : Alike P r s) (hi : P.Free i) :
  Alike P (r.stopChildren i) s
  := by
  cases hx : r.get? i with
  | none =>
    rw [Engine.stopChildren, hx]
    exact h
  | some x =>
    have hforgotten : Alike P (r.modify i fun x => { x with children := .empty }) s :=
      h.modify_left hi fun x _ hx => ⟨hx.parent, List.forall_mem_nil _, hx.timers⟩
    rw [Engine.stopChildren, hx]
    exact foldl_left hforgotten (fun r' i h' hi => h'.stop_left hi) (h.foreign i x hx hi).children

/-! #### Arming -/

/-- The delays of the active state of counterparts are armed at the same time. -/
theorem armTimers (h : Alike P r s) (ht : t ∈ P.ties) (hx : r.get? t.left = some x)
    (hy : s.get? t.right = some y) (hnow : r.timing.now = s.timing.now)
    (hlt : ∀ i z, r.get? i = some z → ∀ a ∈ z.timers, a.timer < r.timing.timers.next) :
  (∃ e, (r.armTimers t.left).value = .error e ∧ (s.armTimers t.right).value = .error e)
    ∨ ∃ r' s' T, (r.armTimers t.left).value = .ok r' ∧ (s.armTimers t.right).value = .ok s'
      ∧ P.timers ⊆ T ∧ Alike (P.withTimers T) r' s'
  := by
  have hxy := h.alike ht hx hy
  have hgeneration := hxy.generation
  have hnext : ((x.generation + 1 : Nat) : Int) = (y.generation + 1 : Nat) + t.lead := by omega
  obtain herror | ⟨T, u, v, as, bs, hT, hnew, htiming, hab, harmed, harmed'⟩ :=
    armTimers_alike hx hy hxy.activeDelays_eq hxy.context hgeneration
      (fun state key => .after ht hnext) h.timing hnow fun _ _ _ => .paired hxy.timers
  · exact .inl herror
  · have htimed := h.withTiming hT htiming (by
      intro i z hz hi a ha e he
      obtain he | hle := hnew e he
      · exact (h.foreign i z hz hi).timers a ha e he
      · exact Nat.ne_of_gt (Nat.lt_of_lt_of_le (hlt i z hz a ha) hle))
    refine .inr ⟨_, _, T, harmed, harmed', hT, ?_⟩
    refine htimed.modify ht ?_ (fun _ _ => ⟨id, rfl⟩) fun _ _ => id
    exact fun x y _ _ hxy => { hxy with timers := hab, generation := hnext }

/-- The delays of an instance on the left are armed that has no counterpart. -/
theorem armTimers_left (h : Alike P r s) (hi : P.Free i) {r' : Engine κ}
    (harmed : (r.armTimers i).value = .ok r') :
  Alike P r' s
  := by
  cases hx : r.get? i with
  | none =>
    rw [Engine.armTimers, hx] at harmed
    obtain rfl := Except.ok.inj harmed
    exact h
  | some x =>
    have hforeign := h.foreign i x hx hi
    obtain ⟨active, ds, -, rfl⟩ := armTimers_eq_ok hx harmed
    obtain ⟨htiming, hprevious, hnew⟩ := armEach_left ds (a := ⟨r.timing, x.timers, []⟩)
      (o := armingOf i x active) h.timing (fun key => ⟨i, _, key, _, rfl, hi⟩)
      hforeign.timers (List.forall_mem_nil _)
    have htimed : Alike P { r with timing := (arming r i x active ds).timing } s :=
      h.retimed htiming
    have hdestroyed := htimed.destroyEach_left hprevious
    exact hdestroyed.modify_left hi fun z _ hz => ⟨hz.parent, hz.children, hnew⟩

/-! #### Children -/

/-- New instances that are alike, and have parents, are counterparts. -/
theorem add (h : Alike P r s) (hr : r.Older) (hstarted : r.Started) {c d : Instance κ}
    {link : ParentLink} (hlink : c.parent = some link) (hparent : ∃ p, r.get? link.parent = some p)
    (hcd : c.Alike (P.tie ⟨r.instances.next, s.instances.next, 0⟩) 0 d) :
  Alike (P.tie ⟨r.instances.next, s.instances.next, 0⟩)
    { r with instances := r.instances.add c } { s with instances := s.instances.add d }
  := by
  have hgrows := P.grows_tie ⟨r.instances.next, s.instances.next, 0⟩
  have hold : ∀ t ∈ P.ties, t.left ≠ r.instances.next ∧ t.right ≠ s.instances.next :=
    fun t ht => ⟨Nat.ne_of_lt (h.lt_next t ht).1, Nat.ne_of_lt (h.lt_next t ht).2⟩
  have hget : ∀ i, (Table.add r.instances c).get? i
      = if i = r.instances.next then some c else r.get? i := Table.get?_add _ _
  have hget' : ∀ j, (Table.add s.instances d).get? j
      = if j = s.instances.next then some d else s.get? j := Table.get?_add _ _
  constructor
  case timing =>
    refine h.timing.imp (fun _ _ hcb => hcb.mono hgrows) ?_
    rintro id z _ hz - hcb ⟨i, state, key, generation, rfl, hi⟩
    exact ⟨i, state, key, generation, rfl,
      hi.tie (Nat.ne_of_gt (hstarted.timer id z i state key generation hz hcb).1)⟩
  case likened =>
    intro t ht
    change Instance.Likened _ _ ((Table.add r.instances c).get? _)
      ((Table.add s.instances d).get? _)
    rw [hget, hget']
    obtain rfl | ht := List.mem_cons.mp ht
    · rw [if_pos rfl, if_pos rfl]
      exact .alike hcd
    · rw [if_neg (hold t ht).1, if_neg (hold t ht).2]
      exact (h.likened t ht).mono hgrows
  case eq_of_left =>
    intro t ht t' ht' heq
    obtain rfl | ht := List.mem_cons.mp ht <;> obtain rfl | ht' := List.mem_cons.mp ht'
    · rfl
    · exact absurd heq.symm (hold t' ht').1
    · exact absurd heq (hold t ht).1
    · exact h.eq_of_left t ht t' ht' heq
  case eq_of_right =>
    intro t ht t' ht' heq
    obtain rfl | ht := List.mem_cons.mp ht <;> obtain rfl | ht' := List.mem_cons.mp ht'
    · rfl
    · exact absurd heq.symm (hold t' ht').2
    · exact absurd heq (hold t ht).2
    · exact h.eq_of_right t ht t' ht' heq
  case lt_next =>
    intro t ht
    change t.left < (Table.add r.instances c).next ∧ t.right < (Table.add s.instances d).next
    rw [Table.next_add, Table.next_add]
    obtain rfl | ht := List.mem_cons.mp ht
    · exact ⟨Nat.lt_succ_self _, Nat.lt_succ_self _⟩
    · exact ⟨Nat.lt_succ_of_lt (h.lt_next t ht).1, Nat.lt_succ_of_lt (h.lt_next t ht).2⟩
  case root => exact List.mem_cons_of_mem _ h.root
  case orphan =>
    intro t ht z hz hnone
    rw [Engine.get?, hget] at hz
    obtain rfl | ht := List.mem_cons.mp ht
    · rw [if_pos rfl] at hz
      obtain rfl := Option.some.inj hz
      rw [hlink] at hnone
      cases hnone
    · rw [if_neg (hold t ht).1] at hz
      exact h.orphan t ht z hz hnone
  case rooted =>
    intro t ht z link' hz hstatus hlink'
    have hkept : ∀ {i}, (∃ p, r.get? i = some p) →
        ∃ p, (Table.add r.instances c).get? i = some p := by
      rintro i ⟨p, hp⟩
      rw [hget]
      split
      · exact ⟨_, rfl⟩
      · exact ⟨p, hp⟩
    rw [Engine.get?, hget] at hz
    obtain rfl | ht := List.mem_cons.mp ht
    · rw [if_pos rfl] at hz
      obtain rfl := Option.some.inj hz
      obtain rfl := Option.some.inj (hlink.symm.trans hlink')
      exact hkept hparent
    · rw [if_neg (hold t ht).1] at hz
      exact hkept (h.rooted t ht z link' hz hstatus hlink')
  case foreign =>
    intro i z hz hi
    rw [Engine.get?, hget, if_neg (hi _ List.mem_cons_self).symm] at hz
    have hforeign := h.foreign i z hz fun t ht => hi t (List.mem_cons_of_mem _ ht)
    refine ⟨fun link hlink => ?_, fun child hchild => ?_, hforeign.timers⟩
    · exact (hforeign.parent link hlink).tie (Nat.ne_of_gt (hstarted.parent i z link hz hlink).1)
    · exact (hforeign.children child hchild).tie (Nat.ne_of_gt (hr i z hz child hchild).2)
  case still =>
    intro j z hz hj
    rw [Engine.get?, hget', if_neg (hj _ List.mem_cons_self).symm] at hz
    exact h.still j z hz fun t ht => hj t (List.mem_cons_of_mem _ ht)

/-- Children of counterparts are made, which are counterparts. -/
theorem spawn (h : Alike P r s) (hr : r.Older) (hstarted : r.Started) (ht : t ∈ P.ties)
    (hx : r.get? t.left = some x) (hy : s.get? t.right = some y) (machine : Machine κ)
    (id state : String) :
  Alike (P.tie ⟨r.instances.next, s.instances.next, 0⟩) (r.spawn t.left machine id state)
    (s.spawn t.right machine id state)
  := by
  have hxy := h.alike ht hx hy
  have htied := List.mem_cons_of_mem (⟨r.instances.next, s.instances.next, 0⟩ : Tie) ht
  have hchild : Instance.Alike (P.tie ⟨r.instances.next, s.instances.next, 0⟩) 0
      (.new machine (machine.services.withFallback x.services) x.pool (some ⟨id, state, t.left⟩))
      (.new machine (machine.services.withFallback y.services) y.pool
        (some ⟨id, state, t.right⟩)) :=
    ⟨rfl, congrArg machine.services.withFallback hxy.services, rfl, rfl, rfl, rfl, .inl rfl,
      .some ⟨rfl, rfl, t, htied, rfl, rfl⟩, .nil, rfl, .nil, .inr rfl, .nil, rfl, fun _ => rfl⟩
  have hgrown := h.add hr hstarted rfl ⟨x, hx⟩ hchild
  have hstored := hgrown.modify (t := t) htied
    (f := fun x => { x with children := x.children.insert id r.instances.next })
    (g := fun y => { y with children := y.children.insert id s.instances.next })
    (fun x y _ _ hxy => { hxy with
      children := Instance.Alike.insert hxy.children ⟨_, List.mem_cons_self, rfl, rfl⟩ })
    (fun _ _ => ⟨fun h => h, rfl⟩) fun _ _ h => h
  rw [Engine.spawn, Engine.spawn, hx, hy]
  exact hstored

/-- A child is made on the left, of an instance that has no counterpart. -/
theorem spawn_left (h : Alike P r s) (hi : P.Free i) (machine : Machine κ) (state : String)
    {id : String} (hnone : ∀ x, r.get? i = some x → x.children.get? id = none) :
  Alike P (r.spawn i machine id state) s
  := by
  cases hx : r.get? i with
  | none =>
    rw [Engine.spawn, hx]
    exact h
  | some x =>
    let child : Instance κ :=
      .new machine (machine.services.withFallback x.services) x.pool (some ⟨id, state, i⟩)
    have hnew : P.Free r.instances.next := fun t ht => Nat.ne_of_lt (h.lt_next t ht).1
    have hget : ∀ i, (Table.add r.instances child).get? i
        = if i = r.instances.next then some child else r.get? i := Table.get?_add _ _
    have hkept : ∀ t ∈ P.ties, (Table.add r.instances child).get? t.left = r.get? t.left := by
      intro t ht
      rw [hget, if_neg (hnew t ht)]
    have hgrown : Alike P { r with instances := r.instances.add child } s := by
      refine { h with likened := ?_, lt_next := ?_, orphan := ?_, rooted := ?_, foreign := ?_ }
      · intro t ht
        rw [Engine.get?, hkept t ht]
        exact h.likened t ht
      · intro t ht
        obtain ⟨hlt, hlt'⟩ := h.lt_next t ht
        rw [Table.next_add]
        exact ⟨Nat.lt_succ_of_lt hlt, hlt'⟩
      · intro t ht z hz hparent
        rw [Engine.get?, hkept t ht] at hz
        exact h.orphan t ht z hz hparent
      · intro t ht z link hz hstatus hparent
        rw [Engine.get?, hkept t ht] at hz
        obtain ⟨p, hp⟩ := h.rooted t ht z link hz hstatus hparent
        rw [Engine.get?, hget]
        split
        · exact ⟨_, rfl⟩
        · exact ⟨p, hp⟩
      · intro j z hz hj
        rw [Engine.get?, hget] at hz
        split at hz
        · obtain rfl := Option.some.inj hz
          refine ⟨fun link hlink => ?_, List.forall_mem_nil _, List.forall_mem_nil _⟩
          obtain rfl := Option.some.inj hlink
          exact hi
        · exact h.foreign j z hz hj
    rw [Engine.spawn, hx]
    refine hgrown.modify_left hi fun z hz hforeign => ⟨hforeign.parent, fun c hc => ?_,
      hforeign.timers⟩
    rw [Engine.get?, hget, if_neg (Nat.ne_of_lt (lt_next_of_get? hx))] at hz
    rw [OrderedMap.values_insert (hnone z hz)] at hc
    obtain hc | hc := List.mem_append.mp hc
    · exact hforeign.children c hc
    · rwa [List.mem_singleton.mp hc]

end Alike

/-! ### Letting go -/

/-- What is not stopped is stored with its parent, which is not stopped either, if the
parent is there; and what is stopped has no timers. -/
structure Nested (r : Engine κ) : Prop where
  older : r.Older
  stored : ∀ child y link x, r.get? child = some y → y.status ≠ .stopped →
    y.parent = some link → r.get? link.parent = some x →
    x.status ≠ .stopped ∧ child ∈ x.children.values
  empty : ∀ i x, r.get? i = some x → x.status = .stopped → x.timers = []

namespace Nested

variable {r : Engine κ} {i root : Nat} {x : Instance κ} {held : List Nat}

theorem letGo (h : r.Nested) (i : Nat) :
  (r.letGo i).Nested
  := by
  have hold : ∀ {j y}, (r.letGo i).get? j = some y → r.get? j = some y := by
    intro j y hy
    rw [get?_letGo] at hy
    split at hy
    · cases hy
    · exact hy
  have hnext : (r.letGo i).instances.next = r.instances.next := by
    rw [Engine.letGo]
    split
    · rfl
    · exact Table.next_erase _ _
  constructor
  · intro j x hx
    rw [hnext]
    exact h.older j x (hold hx)
  · exact fun child y link x hy hstatus hlink hx =>
      h.stored child y link x (hold hy) hstatus hlink (hold hx)
  · exact fun j x hx => h.empty j x (hold hx)

/-- What descends from an instance that is held, and is not stopped, is kept. -/
theorem get?_release (h : r.Nested) (hheld : root ∈ held) {p : Nat → Prop}
    (hclosed : ∀ i x, p i → r.get? i = some x → x.status ≠ .stopped →
      i = root ∨ ∃ link y, x.parent = some link ∧ p link.parent ∧ r.get? link.parent = some y)
    (hi : p i) (hx : r.get? i = some x) (hstatus : x.status ≠ .stopped) :
  (r.release held).get? i = some x
  := by
  -- Parents have smaller numbers.
  induction i using Nat.strong_induction_on generalizing x with
  | h i ih =>
    obtain rfl | ⟨link, y, hlink, hparent, hy⟩ := hclosed i x hi hx hstatus
    · rw [(releases_release r held).get?_of_mem hheld, hx]
    · obtain ⟨hrunning, hchild⟩ := h.stored i x link y hx hstatus hlink hy
      have hlt := (h.older link.parent y hy i hchild).1
      have hkept := ih link.parent hlt hparent hy hrunning
      rw [get?_release_of_child h.older hkept hchild, hx]

end Nested

namespace Alike

variable {P : Pairing} {r s : Engine κ} {t : Tie} {i j : Nat} {held held' : List Nat}

/-- An instance on the left is let go that has no counterpart, or is stopped. -/
theorem letGo_left (h : Alike P r s) (hr : r.Nested)
    (hi : ∀ x, r.get? i = some x → P.Free i ∨ x.status = .stopped) :
  Alike P (r.letGo i) s
  := by
  cases hx : r.get? i with
  | none =>
    rw [Engine.letGo, hx]
    exact h
  | some x =>
    have hget : ∀ k, Engine.get? (r.letGo i) k = if i = k then none else r.get? k :=
      get?_letGo r i
    have hold : ∀ {k y}, Engine.get? (r.letGo i) k = some y → r.get? k = some y := by
      intro k y hy
      rw [hget] at hy
      split at hy
      · cases hy
      · exact hy
    have heq : r.letGo i = { r.withTiming fun t => t.destroyEach (x.timers.map Armed.timer) with
        instances := r.instances.erase i } := by
      rw [Engine.letGo, hx]
      rfl
    have hdestroyed :
        Alike P (r.withTiming fun t => t.destroyEach (x.timers.map Armed.timer)) s := by
      obtain hfree | hstopped := hi x hx
      · exact h.destroyEach_left (h.foreign i x hx hfree).timers
      · rw [hr.empty i x hx hstopped]
        exact h
    have hnext : (r.letGo i).instances.next = r.instances.next := by
      rw [heq]
      exact Table.next_erase _ _
    constructor
    case timing =>
      rw [heq]
      exact hdestroyed.timing
    case likened =>
      intro t ht
      rw [hget]
      split
      · next hit =>
        subst hit
        have hlikened := h.likened t ht
        obtain hfree | hstopped := hi x hx
        · exact absurd rfl (hfree t ht)
        · rw [hx] at hlikened
          generalize s.get? t.right = o at hlikened ⊢
          cases hlikened with
          | alike hxy => exact .right (hxy.status ▸ hstopped)
          | left _ => exact .none
      · exact h.likened t ht
    case eq_of_left => exact h.eq_of_left
    case eq_of_right => exact h.eq_of_right
    case lt_next =>
      intro t ht
      rw [hnext]
      exact h.lt_next t ht
    case root => exact h.root
    case orphan => exact fun t ht z hz => h.orphan t ht z (hold hz)
    case rooted =>
      intro t ht z link hz hstatus hlink
      obtain ⟨p, hp⟩ := h.rooted t ht z link (hold hz) hstatus hlink
      rw [hget, if_neg]
      · exact ⟨p, hp⟩
      · rintro rfl
        obtain rfl := Option.some.inj (hx.symm.trans hp)
        obtain hfree | hstopped := hi x hx
        · obtain ⟨y, -, hzy⟩ := h.exists_right ht (hold hz) hstatus
          have hparent := hzy.parent
          rw [hlink] at hparent
          generalize y.parent = o at hparent
          cases hparent with
          | some hl =>
            obtain ⟨t', ht', hleft, -⟩ := hl.parent
            exact hfree t' ht' hleft
        · exact (hr.stored _ z link x (hold hz) hstatus hlink hx).1 hstopped
    case foreign => exact fun k z hz => h.foreign k z (hold hz)
    case still => exact h.still

/-- An instance on the right is let go that has no counterpart, or is stopped. -/
theorem letGo_right (h : Alike P r s) (hs : s.Nested)
    (hj : ∀ t ∈ P.ties, t.right = j → ∀ y, s.get? j = some y → y.status = .stopped) :
  Alike P r (s.letGo j)
  := by
  cases hy : s.get? j with
  | none =>
    rw [Engine.letGo, hy]
    exact h
  | some y =>
    have htimers : y.timers = [] := by
      by_cases htied : ∃ t ∈ P.ties, t.right = j
      · obtain ⟨t, ht, htj⟩ := htied
        exact hs.empty j y hy (hj t ht htj y hy)
      · exact h.still j y hy fun t ht htj => htied ⟨t, ht, htj⟩
    have hget : ∀ k, Engine.get? (s.letGo j) k = if j = k then none else s.get? k :=
      get?_letGo s j
    have heq : s.letGo j = { s with instances := s.instances.erase j } := by
      rw [Engine.letGo, hy]
      simp only [htimers]
      rfl
    refine { h with timing := ?_, likened := ?_, lt_next := ?_, still := ?_ }
    · rw [heq]
      exact h.timing
    · intro t ht
      rw [hget]
      split
      · next hjt =>
        have hlikened := h.likened t ht
        rw [← hjt, hy] at hlikened
        have hstopped := hj t ht hjt.symm y hy
        generalize r.get? t.left = o at hlikened ⊢
        cases hlikened with
        | alike hxy => exact .left (hxy.status.trans hstopped)
        | right _ => exact .none
      · exact h.likened t ht
    · intro t ht
      obtain ⟨hlt, hlt'⟩ := h.lt_next t ht
      rw [heq]
      exact ⟨hlt, hlt'.trans_eq (Table.next_erase _ _).symm⟩
    · intro k z hz hk
      rw [hget] at hz
      split at hz
      · cases hz
      · exact h.still k z hz hk

theorem foldl_letGo_left {is : List Nat} (h : Alike P r s) (hr : r.Nested)
    (his : ∀ i ∈ is, ∀ x, r.get? i = some x → P.Free i ∨ x.status = .stopped) :
  Alike P (is.foldl letGo r) s
  := by
  induction is generalizing r with
  | nil => exact h
  | cons i is ih =>
    apply ih (h.letGo_left hr (his i List.mem_cons_self)) (hr.letGo i)
    intro k hk x hx
    rw [get?_letGo] at hx
    split at hx
    · cases hx
    · exact his k (List.mem_cons_of_mem _ hk) x hx

theorem foldl_letGo_right {js : List Nat} (h : Alike P r s) (hs : s.Nested)
    (hjs : ∀ j ∈ js, ∀ t ∈ P.ties, t.right = j → ∀ y, s.get? j = some y → y.status = .stopped) :
  Alike P r (js.foldl letGo s)
  := by
  induction js generalizing s with
  | nil => exact h
  | cons j js ih =>
    apply ih (h.letGo_right hs (hjs j List.mem_cons_self)) (hs.letGo j)
    intro k hk t ht htk y hy
    rw [get?_letGo] at hy
    split at hy
    · cases hy
    · exact hjs k (List.mem_cons_of_mem _ hk) t ht htk y hy

/-- A counterpart on the left that is not stopped is the root, or its parent is there and is
a counterpart as well. -/
theorem closed_left (h : Alike P r s) {x : Instance κ} (ht : t ∈ P.ties)
    (hx : r.get? t.left = some x) (hstatus : x.status ≠ .stopped) :
  t = P.root ∨ ∃ link p, x.parent = some link ∧ r.get? link.parent = some p
    ∧ ∃ t' ∈ P.ties, t'.left = link.parent
  := by
  cases hparent : x.parent with
  | none => exact .inl (h.orphan t ht x hx hparent)
  | some link =>
    obtain ⟨p, hp⟩ := h.rooted t ht x link hx hstatus hparent
    obtain ⟨y, -, hxy⟩ := h.exists_right ht hx hstatus
    have hlinks := hxy.parent
    rw [hparent] at hlinks
    generalize y.parent = o at hlinks
    cases hlinks with
    | some hl =>
      obtain ⟨t', ht', hleft, -⟩ := hl.parent
      exact .inr ⟨link, p, rfl, hp, t', ht', hleft⟩

/-- The same holds on the right. -/
theorem closed_right (h : Alike P r s) (hr : r.Nested) {y : Instance κ} (ht : t ∈ P.ties)
    (hy : s.get? t.right = some y) (hstatus : y.status ≠ .stopped) :
  t = P.root ∨ ∃ link p, y.parent = some link ∧ s.get? link.parent = some p
    ∧ ∃ t' ∈ P.ties, t'.right = link.parent
  := by
  obtain ⟨x, hx, hxy⟩ := h.exists_left ht hy hstatus
  have hrunning : x.status ≠ .stopped := hxy.status ▸ hstatus
  have hlinks := hxy.parent
  generalize hparent : x.parent = o, hparent' : y.parent = o' at hlinks
  cases hlinks with
  | none => exact .inl (h.orphan t ht x hx hparent)
  | @some link link' hl =>
    obtain ⟨t', ht', hleft, hright⟩ := hl.parent
    obtain ⟨p, hp⟩ := h.rooted t ht x link hx hrunning hparent
    obtain ⟨hup, -⟩ := hr.stored _ x link p hx hrunning hparent hp
    obtain ⟨p', hp', -⟩ := h.exists_right ht' (hleft ▸ hp) hup
    exact .inr ⟨link', p', rfl, hright ▸ hp', t', ht', hright⟩

/-- On the left no counterpart is let go that is not stopped. -/
theorem release_left (h : Alike P r s) (hr : r.Nested) (hheld : P.root.left ∈ held) :
  Alike P (r.release held) s
  := by
  have hkept : ∀ t ∈ P.ties, ∀ x, r.get? t.left = some x → x.status ≠ .stopped →
      (r.release held).get? t.left = some x := by
    intro t ht x hx hstatus
    refine hr.get?_release hheld (p := fun i => ∃ t ∈ P.ties, t.left = i) ?_ ⟨t, ht, rfl⟩ hx
      hstatus
    rintro _ x ⟨t, ht, rfl⟩ hx hstatus
    obtain rfl | ⟨link, p, hlink, hp, htied⟩ := h.closed_left ht hx hstatus
    · exact .inl rfl
    · exact .inr ⟨link, p, hlink, htied, hp⟩
  rw [Engine.release] at hkept ⊢
  apply h.foldl_letGo_left hr
  intro i hi x hx
  by_contra hnot
  rw [not_or, Pairing.Free] at hnot
  push Not at hnot
  obtain ⟨⟨t, ht, rfl⟩, hstatus⟩ := hnot
  have hthere := hkept t ht x hx hstatus
  rw [get?_foldl_letGo, if_pos hi] at hthere
  cases hthere

/-- Neither is one on the right. -/
theorem release_right (h : Alike P r s) (hr : r.Nested) (hs : s.Nested)
    (hheld' : P.root.right ∈ held') :
  Alike P r (s.release held')
  := by
  have hkept : ∀ t ∈ P.ties, ∀ y, s.get? t.right = some y → y.status ≠ .stopped →
      (s.release held').get? t.right = some y := by
    intro t ht y hy hstatus
    refine hs.get?_release hheld' (p := fun j => ∃ t ∈ P.ties, t.right = j) ?_ ⟨t, ht, rfl⟩ hy
      hstatus
    rintro _ y ⟨t, ht, rfl⟩ hy hstatus
    obtain rfl | ⟨link, p, hlink, hp, htied⟩ := h.closed_right hr ht hy hstatus
    · exact .inl rfl
    · exact .inr ⟨link, p, hlink, htied, hp⟩
  rw [Engine.release] at hkept ⊢
  apply h.foldl_letGo_right hs
  rintro j hj t ht rfl y hy
  by_contra hstatus
  have hthere := hkept t ht y hy hstatus
  rw [get?_foldl_letGo, if_pos hj] at hthere
  cases hthere

/-- Neither side lets go of a counterpart that is not stopped. -/
theorem release (h : Alike P r s) (hr : r.Nested) (hs : s.Nested)
    (hheld : P.root.left ∈ held) (hheld' : P.root.right ∈ held') :
  Alike P (r.release held) (s.release held')
  := (h.release_right hr hs hheld').release_left hr hheld

end Alike

end Engine

end Statechart
