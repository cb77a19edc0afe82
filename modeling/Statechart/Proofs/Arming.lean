import Mathlib.Data.List.Forall2
import Mathlib.Data.List.Nodup
import Statechart.Proofs.Engine

/-!
# Arming timers

What arming the delays of a state does.  For every delay, in order, the paused timer
under its key is kept, or a timer is made for it (`Engine.Arms`); every other timer of
the instance is destroyed.
-/

namespace Statechart

variable {κ : Type}

/-- A state and a delay of it can be told from the key only if the state is known. -/
theorem armedKey_inj {state a b : String} (h : armedKey state a = armedKey state b) :
  a = b
  := by
  have hlist := congrArg String.toList h
  simp only [armedKey, String.toList_append, List.append_cancel_left_eq] at hlist
  exact String.toList_inj.mp hlist

namespace Engine

/-- The timer of a delay after an arming with clock `t`, over the timers `previous`, that
ends with clock `t'`: a paused timer that was kept under its key, or a new one. -/
inductive Arms (o : ArmingOf) (t : Timing (Callback κ)) (previous : List Armed)
    (t' : Timing (Callback κ)) (d : Delayed κ) (e : Armed) : Prop where
  | kept : e ∈ previous → e.key = armedKey o.state d.key →
      t.status? e.timer = some .paused → Arms o t previous t' d e
  | fresh {y : Timer (Callback κ)} :
      (∀ p ∈ previous, p.key = armedKey o.state d.key → t.status? p.timer ≠ some .paused) →
      e.key = armedKey o.state d.key → e.generation = o.generation →
      t.timers.next ≤ e.timer → t'.timers.get? e.timer = some y →
      y.callback = some (.after o.owner o.state d.key o.generation) →
      Arms o t previous t' d e

/-- Timers with different keys and numbers, all of them there. -/
structure Armory (t : Timing (Callback κ)) (armed : List Armed) : Prop where
  keys : (armed.map Armed.key).Nodup
  timers : (armed.map Armed.timer).Nodup
  present : ∀ a ∈ armed, ∃ x, t.timers.get? a.timer = some x

/-- The arming after a new timer for a delay. -/
def armFresh (o : ArmingOf) (a : Arming κ) (d : Delayed κ) (t : Timing (Callback κ)) :
    Arming κ where
  timing :=
    ((t.newTimer o.pool (d.delay.resolve o.context (.after d.key) o.metadata).value
      (some (.after o.owner o.state d.key o.generation))).start t.timers.next).2
  previous := a.previous.filter fun p => p.key ≠ armedKey o.state d.key
  armed := a.armed ++ [⟨armedKey o.state d.key, t.timers.next, o.generation⟩]

theorem value_armOne (o : ArmingOf) (a : Arming κ) (d : Delayed κ) :
  (armOne o a d).value =
    match a.previous.find? fun p => p.key = armedKey o.state d.key with
    | some p =>
      if a.timing.status? p.timer = some .paused then
        { a with
          previous := a.previous.filter fun p => p.key ≠ armedKey o.state d.key
          armed := a.armed ++ [p] }
      else armFresh o a d (a.timing.destroy p.timer)
    | none => armFresh o a d a.timing
  := by
  rw [armOne]
  cases hold : a.previous.find? fun p => p.key = armedKey o.state d.key with
  | none =>
    simp only
    rfl
  | some p =>
    simp only
    split <;> rfl

/-- The callback of a timer that was made for one of the delays in an arming. -/
def Makes (o : ArmingOf) (es : List Armed) (id : Nat) (cb : Callback κ) : Prop :=
  ∃ e ∈ es, e.timer = id ∧ ∃ key, cb = .after o.owner o.state key e.generation
    ∧ e.key = armedKey o.state key

/-- A new timer leaves the others as they are. -/
theorem follows_armFresh (o : ArmingOf) (a : Arming κ) (d : Delayed κ)
    (t : Timing (Callback κ)) :
  t.Follows (Makes o [⟨armedKey o.state d.key, t.timers.next, o.generation⟩]) (fun _ => False)
    (armFresh o a d t).timing
  := by
  refine Timing.Follows.trans ?_ (Timing.follows_start _ _)
  apply Timing.follows_newTimer
  rintro cb ⟨⟩
  exact ⟨_, List.mem_singleton_self _, rfl, d.key, rfl, rfl⟩

/-- Arming one delay gives one timer; the callbacks of new timers are for it. -/
theorem follows_armOne (o : ArmingOf) (a : Arming κ) (d : Delayed κ) :
  ∃ e, (armOne o a d).value.armed = a.armed ++ [e]
    ∧ a.timing.Follows (Makes o [e]) (fun _ => False) (armOne o a d).value.timing
  := by
  rw [value_armOne]
  split
  · next p hp =>
    split
    · exact ⟨p, rfl, .refl _⟩
    · refine ⟨_, rfl, ?_⟩
      exact (Timing.follows_destroy a.timing p.timer).trans (follows_armFresh o a d _)
  · exact ⟨_, rfl, follows_armFresh o a d _⟩

theorem Makes.mono {o : ArmingOf} {es es' : List Armed} (h : es ⊆ es') {id : Nat}
    {cb : Callback κ} (hmakes : Makes o es id cb) :
  Makes o es' id cb
  := by
  obtain ⟨e, he, hrest⟩ := hmakes
  exact ⟨e, h he, hrest⟩

/-- Arming delays gives as many timers; the callbacks of new timers are for them. -/
theorem follows_armEach (o : ArmingOf) (ds : List (Delayed κ)) (a : Arming κ) :
  ∃ es, (armEach o ds a).value.armed = a.armed ++ es
    ∧ a.timing.Follows (Makes o es) (fun _ => False) (armEach o ds a).value.timing
  := by
  induction ds generalizing a with
  | nil => exact ⟨[], (List.append_nil _).symm, .refl _⟩
  | cons d rest ih =>
    obtain ⟨e, harmed, hfollows⟩ := follows_armOne o a d
    obtain ⟨es, harmed', hfollows'⟩ := ih (armOne o a d).value
    refine ⟨e :: es, ?_, ?_⟩
    · calc (armEach o (d :: rest) a).value.armed
          = (armEach o rest (armOne o a d).value).value.armed := rfl
        _ = a.armed ++ [e] ++ es := by rw [harmed', harmed]
        _ = a.armed ++ e :: es := by rw [List.append_assoc, List.singleton_append]
    · apply Timing.Follows.trans
      · exact hfollows.mono (fun _ h => h.mono (by simp)) id
      · exact hfollows'.mono (fun _ h => h.mono (by simp)) id

/-- A timer that is paused stays as it is while a delay is armed. -/
theorem get?_armOne_of_paused (o : ArmingOf) (a : Arming κ) (d : Delayed κ) {id : Nat}
    {u : Timer (Callback κ)} (hu : a.timing.timers.get? id = some u)
    (hpaused : u.status = .paused) :
  (armOne o a d).value.timing.timers.get? id = some u
  := by
  have hfresh : ∀ t : Timing (Callback κ), t.timers.next = a.timing.timers.next →
      t.timers.get? id = some u → (armFresh o a d t).timing.timers.get? id = some u := by
    intro t hnext hget
    obtain ⟨rfl, -⟩ | ⟨-, hother⟩ := Timing.get?_start_newTimer t o.pool
      (d.delay.resolve o.context (.after d.key) o.metadata).value
      (some (.after o.owner o.state d.key o.generation)) id
    · exact absurd (Table.lt_next_of_get? hget) (Nat.lt_irrefl _)
    · rw [armFresh, hother, hget]
  rw [value_armOne]
  split
  · next p _ =>
    split
    · exact hu
    · next hnot =>
      have hne : p.timer ≠ id := by
        rintro rfl
        exact hnot (by rw [Timing.status?, hu, Option.map_some, hpaused])
      exact hfresh _ (Timing.next_destroy _ _) ((Timing.get?_destroy_of_ne _ hne).trans hu)
  · exact hfresh _ rfl hu

theorem get?_armEach_of_paused (o : ArmingOf) (ds : List (Delayed κ)) (a : Arming κ) {id : Nat}
    {u : Timer (Callback κ)} (hu : a.timing.timers.get? id = some u)
    (hpaused : u.status = .paused) :
  (armEach o ds a).value.timing.timers.get? id = some u
  := by
  induction ds generalizing a with
  | nil => exact hu
  | cons d ds ih => exact ih _ (get?_armOne_of_paused o a d hu hpaused)

/-! ### What an arming gives -/

/-- An arming of delays that gives the timers `es`, one for each delay in order.  What
was armed before is left over, kept, or destroyed. -/
structure ArmsAll (o : ArmingOf) (ds : List (Delayed κ)) (a a' : Arming κ)
    (es : List Armed) : Prop where
  armed : a'.armed = a.armed ++ es
  each : List.Forall₂ (Arms o a.timing a.previous a'.timing) ds es
  sublist : a'.previous.Sublist a.previous
  mem_previous : ∀ p, p ∈ a'.previous ↔
    p ∈ a.previous ∧ ∀ d ∈ ds, p.key ≠ armedKey o.state d.key
  left : ∀ p ∈ a.previous, p ∈ a'.previous ∨ p ∈ es
    ∨ a'.timing.status? p.timer = some .destroyed
  timers : (es.map Armed.timer).Nodup
  source : ∀ e ∈ es, e ∈ a.previous ∨ a.timing.timers.next ≤ e.timer
  present : ∀ e ∈ es, ∃ x, a'.timing.timers.get? e.timer = some x
  apart : ∀ e ∈ es, e.timer ∉ a'.previous.map Armed.timer
  others : ∀ id x, a.timing.timers.get? id = some x →
    (∀ p ∈ a.previous, p.timer = id → ∀ d ∈ ds, p.key ≠ armedKey o.state d.key) →
    a'.timing.timers.get? id = some x

variable {o : ArmingOf} {ds : List (Delayed κ)} {d : Delayed κ} {a a' a'' : Arming κ}
  {e : Armed} {es : List Armed} {t t' : Timing (Callback κ)}

theorem Armory.eq_of_timer_eq {armed : List Armed} (h : Armory t armed) {p q : Armed}
    (hp : p ∈ armed) (hq : q ∈ armed) (heq : p.timer = q.timer) :
  p = q
  := List.inj_on_of_nodup_map h.timers hp hq heq

theorem Armory.eq_of_key_eq {armed : List Armed} (h : Armory t armed) {p q : Armed}
    (hp : p ∈ armed) (hq : q ∈ armed) (heq : p.key = q.key) :
  p = q
  := List.inj_on_of_nodup_map h.keys hp hq heq

theorem Armory.lt_next {armed : List Armed} (h : Armory t armed) {p : Armed}
    (hp : p ∈ armed) :
  p.timer < t.timers.next
  := by
  obtain ⟨x, hx⟩ := h.present p hp
  exact Table.lt_next_of_get? hx

theorem Armory.of_sublist {armed armed' : List Armed} (h : Armory t armed)
    (hsub : armed'.Sublist armed) {P : Nat → Callback κ → Prop} {Q : Callback κ → Prop}
    (hfollows : t.Follows P Q t') :
  Armory t' armed'
  where
  keys := h.keys.sublist (hsub.map _)
  timers := h.timers.sublist (hsub.map _)
  present p hp := by
    obtain ⟨x, hx⟩ := h.present p (hsub.subset hp)
    obtain ⟨y, hy, -⟩ := hfollows.kept hx
    exact ⟨y, hy⟩

/-- A new timer for a delay, after whatever was armed under its key has been
destroyed. -/
theorem armsAll_armFresh (harmory : Armory a.timing a.previous)
    (hnext : t.timers.next = a.timing.timers.next)
    (hpaused : ∀ p ∈ a.previous, p.key = armedKey o.state d.key →
      a.timing.status? p.timer ≠ some .paused)
    (hdestroyed : ∀ p ∈ a.previous, p.key = armedKey o.state d.key →
      t.status? p.timer = some .destroyed)
    (hothers : ∀ id, (∀ p ∈ a.previous, p.timer = id → p.key ≠ armedKey o.state d.key) →
      t.timers.get? id = a.timing.timers.get? id) :
  ArmsAll o [d] a (armFresh o a d t) [⟨armedKey o.state d.key, t.timers.next, o.generation⟩]
  := by
  have hget := Timing.get?_start_newTimer t o.pool
    (d.delay.resolve o.context (.after d.key) o.metadata).value
    (some (.after o.owner o.state d.key o.generation))
  have hnew : ∃ y, (armFresh o a d t).timing.timers.get? t.timers.next = some y
      ∧ y.callback = some (.after o.owner o.state d.key o.generation) := by
    obtain ⟨-, h⟩ | ⟨h, -⟩ := hget t.timers.next
    · exact h
    · exact absurd rfl h
  have hold : ∀ id x, t.timers.get? id = some x →
      (armFresh o a d t).timing.timers.get? id = some x := by
    intro id x hx
    obtain ⟨rfl, -⟩ | ⟨-, h⟩ := hget id
    · exact absurd (Table.lt_next_of_get? hx) (Nat.lt_irrefl _)
    · rw [← hx]
      exact h
  obtain ⟨y, hy, hcallback⟩ := hnew
  constructor
  case armed => rfl
  case each =>
    exact .cons (.fresh hpaused rfl rfl (Nat.le_of_eq hnext.symm) hy hcallback) .nil
  case sublist => exact List.filter_sublist
  case mem_previous =>
    intro p
    simp [armFresh]
  case left =>
    intro p hp
    by_cases hkey : p.key = armedKey o.state d.key
    · right; right
      obtain ⟨x, hx, hstatus⟩ := Option.map_eq_some_iff.mp (hdestroyed p hp hkey)
      rw [Timing.status?, hold _ x hx, Option.map_some, hstatus]
    · left
      simp [armFresh, hp, hkey]
  case timers => simp
  case source =>
    intro e he
    obtain rfl := List.mem_singleton.mp he
    exact .inr (Nat.le_of_eq hnext.symm)
  case present =>
    intro e he
    obtain rfl := List.mem_singleton.mp he
    exact ⟨y, hy⟩
  case apart =>
    intro e he hmem
    obtain rfl := List.mem_singleton.mp he
    obtain ⟨p, hp, heq⟩ := List.mem_map.mp hmem
    have hlt := harmory.lt_next (List.mem_of_mem_filter hp)
    simp only at heq
    omega
  case others =>
    intro id x hx hkeys
    apply hold
    rw [hothers id fun p hp hid => hkeys p hp hid d (List.mem_singleton_self d), hx]

/-- A paused timer that was armed under the key of a delay is kept for it. -/
theorem armsAll_kept (harmory : Armory a.timing a.previous) {p : Armed} (hp : p ∈ a.previous)
    (hkey : p.key = armedKey o.state d.key)
    (hpaused : a.timing.status? p.timer = some .paused) :
  ArmsAll o [d] a
    { a with
      previous := a.previous.filter fun q => q.key ≠ armedKey o.state d.key
      armed := a.armed ++ [p] } [p]
  := by
  constructor
  case armed => rfl
  case each => exact .cons (.kept hp hkey hpaused) .nil
  case sublist => exact List.filter_sublist
  case mem_previous =>
    intro q
    simp
  case left =>
    intro q hq
    by_cases hqkey : q.key = armedKey o.state d.key
    · right; left
      rw [harmory.eq_of_key_eq hq hp (hqkey.trans hkey.symm)]
      exact List.mem_singleton_self p
    · left
      simp [hq, hqkey]
  case timers => simp
  case source =>
    intro e he
    obtain rfl := List.mem_singleton.mp he
    exact .inl hp
  case present =>
    intro e he
    obtain rfl := List.mem_singleton.mp he
    exact harmory.present e hp
  case apart =>
    intro e he hmem
    obtain rfl := List.mem_singleton.mp he
    obtain ⟨q, hq, heq⟩ := List.mem_map.mp hmem
    obtain rfl := harmory.eq_of_timer_eq (List.mem_of_mem_filter hq) hp heq
    simp [hkey] at hq
  case others =>
    intro id x hx _
    exact hx

/-- What arming one delay gives. -/
theorem armsAll_armOne (harmory : Armory a.timing a.previous) (o : ArmingOf)
    (d : Delayed κ) :
  ∃ e, ArmsAll o [d] a (armOne o a d).value [e]
  := by
  rw [value_armOne]
  cases hfind : a.previous.find? fun p => p.key = armedKey o.state d.key with
  | none =>
    have hnone : ∀ p ∈ a.previous, p.key ≠ armedKey o.state d.key := by
      simpa using hfind
    refine ⟨_, armsAll_armFresh harmory rfl ?_ ?_ ?_⟩
    · intro p hp hkey
      exact absurd hkey (hnone p hp)
    · intro p hp hkey
      exact absurd hkey (hnone p hp)
    · intro id _
      rfl
  | some p =>
    have hp : p ∈ a.previous := List.mem_of_find?_eq_some hfind
    have hkey : p.key = armedKey o.state d.key := by
      simpa using List.find?_some hfind
    have honly : ∀ q ∈ a.previous, q.key = armedKey o.state d.key → q = p := by
      intro q hq hqkey
      exact harmory.eq_of_key_eq hq hp (hqkey.trans hkey.symm)
    obtain ⟨x, hx⟩ := harmory.present p hp
    simp only
    by_cases hpaused : a.timing.status? p.timer = some .paused
    · rw [if_pos hpaused]
      exact ⟨p, armsAll_kept harmory hp hkey hpaused⟩
    · rw [if_neg hpaused]
      have hstatus : a.timing.status? p.timer = some x.status := by
        rw [Timing.status?, hx, Option.map_some]
      refine ⟨_, armsAll_armFresh harmory ?_ ?_ ?_ ?_⟩
      · exact Timing.next_destroy _ _
      · intro q hq hqkey
        rw [honly q hq hqkey]
        exact hpaused
      · intro q hq hqkey
        rw [honly q hq hqkey]
        exact Timing.status?_destroy _ hstatus
      · intro id hid
        apply Timing.get?_destroy_of_ne
        intro heq
        exact hid p hp heq hkey

/-- The timers that are left over when a delay has been armed are as they were. -/
theorem ArmsAll.status?_left (h : ArmsAll o [d] a a' [e]) (harmory : Armory a.timing a.previous)
    {p : Armed} (hp : p ∈ a'.previous) :
  a'.timing.status? p.timer = a.timing.status? p.timer
  := by
  have hp' := h.sublist.subset hp
  obtain ⟨x, hx⟩ := harmory.present p hp'
  rw [Timing.status?, Timing.status?, hx]
  congr 1
  apply h.others _ x hx
  intro q hq heq d' hd'
  obtain rfl := harmory.eq_of_timer_eq hq hp' heq
  exact ((h.mem_previous q).mp hp).2 d' hd'

/-- The timer of a delay is that of its arming after others have been armed, too. -/
theorem ArmsAll.arms_of_rest (hfirst : ArmsAll o [d] a a' [e]) (hrest : ArmsAll o ds a' a'' es) :
  Arms o a.timing a.previous a''.timing d e
  := by
  have heapart := hfirst.apart e (List.mem_singleton_self e)
  cases (List.forall₂_cons.mp hfirst.each).1 with
  | kept hmem hkey hpaused => exact .kept hmem hkey hpaused
  | fresh hpaused hkey hgeneration hnext hget hcallback =>
    refine .fresh hpaused hkey hgeneration hnext ?_ hcallback
    apply hrest.others _ _ hget
    intro p hp heq
    exact absurd (List.mem_map.mpr ⟨p, hp, heq⟩) heapart

/-- What was armed after a delay with another key might have been armed before. -/
theorem ArmsAll.arms_of_first (hfirst : ArmsAll o [d] a a' [e])
    (harmory : Armory a.timing a.previous) {P : Nat → Callback κ → Prop}
    {Q : Callback κ → Prop} (hfollows : a.timing.Follows P Q a'.timing) {d' : Delayed κ}
    {e' : Armed} (hkey : armedKey o.state d'.key ≠ armedKey o.state d.key)
    (harms : Arms o a'.timing a'.previous t d' e') :
  Arms o a.timing a.previous t d' e'
  := by
  cases harms with
  | kept hmem hkey' hpaused =>
    exact .kept (hfirst.sublist.subset hmem) hkey' (hfirst.status?_left harmory hmem ▸ hpaused)
  | fresh hpaused hkey' hgeneration hnext hget hcallback =>
    refine .fresh ?_ hkey' hgeneration (Nat.le_trans hfollows.next_le hnext) hget hcallback
    intro p hp hpkey
    have hp' : p ∈ a'.previous := by
      refine (hfirst.mem_previous p).mpr ⟨hp, ?_⟩
      simpa using fun h => hkey (hpkey ▸ h)
    rw [← hfirst.status?_left harmory hp']
    exact hpaused p hp' hpkey

/-- Arming one delay and then others. -/
theorem ArmsAll.cons (harmory : Armory a.timing a.previous) (hfirst : ArmsAll o [d] a a' [e])
    (hrest : ArmsAll o ds a' a'' es) {P : Nat → Callback κ → Prop} {Q : Callback κ → Prop}
    (hfollows : a.timing.Follows P Q a'.timing) (hfollows' : a'.timing.Follows P Q a''.timing)
    (hkeys : ∀ d' ∈ ds, armedKey o.state d'.key ≠ armedKey o.state d.key) :
  ArmsAll o (d :: ds) a a'' (e :: es)
  := by
  have heapart := hfirst.apart e (List.mem_singleton_self e)
  have hlt : e.timer < a'.timing.timers.next := by
    obtain ⟨x, hx⟩ := hfirst.present e (List.mem_singleton_self e)
    exact Table.lt_next_of_get? hx
  constructor
  case armed => rw [hrest.armed, hfirst.armed, List.append_assoc, List.singleton_append]
  case each =>
    refine .cons (hfirst.arms_of_rest hrest) ?_
    apply ((List.forall₂_and_left ds es).mpr ⟨hkeys, hrest.each⟩).imp
    rintro d' e' ⟨hd', harms⟩
    exact hfirst.arms_of_first harmory hfollows hd' harms
  case sublist => exact hrest.sublist.trans hfirst.sublist
  case mem_previous =>
    intro p
    rw [hrest.mem_previous, hfirst.mem_previous, List.forall_mem_cons]
    simp [and_assoc]
  case left =>
    intro p hp
    obtain hp' | hp' | hdestroyed := hfirst.left p hp
    · obtain hp'' | hp'' | hdestroyed := hrest.left p hp'
      · exact .inl hp''
      · exact .inr (.inl (List.mem_cons_of_mem _ hp''))
      · exact .inr (.inr hdestroyed)
    · obtain rfl := List.mem_singleton.mp hp'
      exact .inr (.inl List.mem_cons_self)
    · exact .inr (.inr (hfollows'.status?_destroyed hdestroyed))
  case timers =>
    rw [List.map_cons, List.nodup_cons]
    refine ⟨?_, hrest.timers⟩
    intro hmem'
    obtain ⟨e', he', heq⟩ := List.mem_map.mp hmem'
    obtain hprevious | hnext := hrest.source e' he'
    · exact heapart (List.mem_map.mpr ⟨e', hprevious, heq⟩)
    · omega
  case source =>
    intro e' he'
    obtain rfl | he' := List.mem_cons.mp he'
    · exact hfirst.source e' (List.mem_singleton_self e')
    · obtain hprevious | hnext := hrest.source e' he'
      · exact .inl (hfirst.sublist.subset hprevious)
      · exact .inr (Nat.le_trans hfollows.next_le hnext)
  case present =>
    intro e' he'
    obtain rfl | he' := List.mem_cons.mp he'
    · obtain ⟨x, hx⟩ := hfirst.present e' (List.mem_singleton_self e')
      obtain ⟨y, hy, -⟩ := hfollows'.kept hx
      exact ⟨y, hy⟩
    · exact hrest.present e' he'
  case apart =>
    intro e' he' hmem'
    obtain rfl | he' := List.mem_cons.mp he'
    · obtain ⟨p, hp, heq⟩ := List.mem_map.mp hmem'
      exact heapart (List.mem_map.mpr ⟨p, hrest.sublist.subset hp, heq⟩)
    · exact hrest.apart e' he' hmem'
  case others =>
    intro id x hx hcond
    apply hrest.others id x
    · apply hfirst.others id x hx
      intro p hp heq d' hd'
      obtain rfl := List.mem_singleton.mp hd'
      exact hcond p hp heq d' List.mem_cons_self
    · intro p hp heq d' hd'
      exact hcond p (hfirst.sublist.subset hp) heq d' (List.mem_cons_of_mem _ hd')

/-- What arming delays with different keys gives. -/
theorem armsAll_armEach (harmory : Armory a.timing a.previous) (o : ArmingOf)
    (hkeys : (ds.map Delayed.key).Nodup) :
  ∃ es, ArmsAll o ds a (armEach o ds a).value es
  := by
  induction ds generalizing a with
  | nil =>
    refine ⟨[], ?_⟩
    constructor
    case armed => exact (List.append_nil _).symm
    case each => exact .nil
    case sublist => exact List.Sublist.refl _
    case mem_previous => simp [armEach]
    case left => exact fun p hp => .inl hp
    case timers => exact List.nodup_nil
    case source => simp
    case present => simp
    case apart => simp
    case others => exact fun id x hx _ => hx
  | cons d rest ih =>
    rw [List.map_cons, List.nodup_cons] at hkeys
    obtain ⟨e, hfirst⟩ := armsAll_armOne harmory o d
    obtain ⟨e', -, hfollows⟩ := follows_armOne o a d
    obtain ⟨es, hrest⟩ := ih (harmory.of_sublist hfirst.sublist hfollows) hkeys.2
    obtain ⟨es', -, hfollows'⟩ := follows_armEach o rest (armOne o a d).value
    refine ⟨e :: es, hfirst.cons harmory hrest hfollows.later hfollows'.later ?_⟩
    intro d' hd' heq
    apply hkeys.1
    rw [← armedKey_inj heq]
    exact List.mem_map_of_mem hd'

/-! ### Arming the active state -/

/-- What the arming of an instance is for. -/
def armingOf (i : Nat) (x : Instance κ) (active : Option (String × Option Meta)) :
    ArmingOf where
  owner := i
  pool := x.pool
  context := x.snapshot.context
  state := (active.map Prod.fst).getD ""
  metadata := active.bind Prod.snd
  generation := x.generation + 1

/-- The engine after an arming of an instance that gives the timers `es`. -/
structure Rearms (r r' : Engine κ) (i : Nat) (x : Instance κ) (o : ArmingOf)
    (es : List Armed) : Prop where
  next : r'.instances.next = r.instances.next
  get? : ∀ j, r'.get? j =
    if i = j then some { x with timers := es, generation := o.generation } else r.get? j
  timing : r.timing.Follows (Makes o es) (fun _ => False) r'.timing

variable {r r' : Engine κ} {i : Nat} {x : Instance κ}

/-- The arming of delays of an instance. -/
def arming (r : Engine κ) (i : Nat) (x : Instance κ) (active : Option (String × Option Meta))
    (ds : List (Delayed κ)) : Arming κ :=
  (armEach (armingOf i x active) ds ⟨r.timing, x.timers, []⟩).value

theorem armTimers_eq_ok (hx : r.get? i = some x) (h : (r.armTimers i).value = .ok r') :
  ∃ active ds, activeDelays x = .ok (active, ds)
    ∧ r' = Engine.modify
        { r with
          timing := (arming r i x active ds).timing.destroyEach
            ((arming r i x active ds).previous.map Armed.timer) }
        i fun y =>
          { y with timers := (arming r i x active ds).armed, generation := x.generation + 1 }
  := by
  rw [armTimers, hx] at h
  simp only at h
  split at h
  · cases h
  · next active ds hactive =>
    simp only [Evaluated.value_bind, Evaluated.value_pure, Except.ok.injEq] at h
    exact ⟨active, ds, hactive, h.symm⟩

/-- Arming changes the timers and the generation of an instance, and nothing else of any
instance. -/
theorem rearms_of_armTimers (hx : r.get? i = some x) (h : (r.armTimers i).value = .ok r') :
  ∃ active ds es, activeDelays x = .ok (active, ds)
    ∧ es = (arming r i x active ds).armed
    ∧ Rearms r r' i x (armingOf i x active) es
  := by
  obtain ⟨active, ds, hactive, rfl⟩ := armTimers_eq_ok hx h
  obtain ⟨es, harmed, hfollows⟩ :=
    follows_armEach (armingOf i x active) ds ⟨r.timing, x.timers, []⟩
  have hes : (arming r i x active ds).armed = es := harmed
  refine ⟨active, ds, es, hactive, hes.symm, ?_⟩
  constructor
  · exact next_modify _ _ _
  · intro j
    rw [get?_modify]
    split
    · next hj =>
      subst hj
      rw [hes]
      exact congrArg (Option.map _) hx
    · rfl
  · exact hfollows.trans (Timing.follows_destroyEach _ _)

/-- For every delay there is one timer, kept or new; all others are destroyed. -/
theorem arms_of_armTimers (hx : r.get? i = some x) (h : (r.armTimers i).value = .ok r')
    (harmory : Armory r.timing x.timers) {active : Option (String × Option Meta)}
    {ds : List (Delayed κ)} (hactive : activeDelays x = .ok (active, ds))
    (hkeys : (ds.map Delayed.key).Nodup) {es : List Armed}
    (hes : es = (arming r i x active ds).armed) :
  List.Forall₂ (Arms (armingOf i x active) r.timing x.timers r'.timing) ds es
    ∧ (∀ p ∈ x.timers, p ∈ es ∨ r'.timing.status? p.timer = some .destroyed)
    ∧ Armory r'.timing es
  := by
  obtain ⟨active', ds', hactive', rfl⟩ := armTimers_eq_ok hx h
  rw [hactive] at hactive'
  obtain ⟨rfl, rfl⟩ := Prod.mk.inj (Except.ok.inj hactive')
  obtain ⟨es', harms⟩ := armsAll_armEach (a := ⟨r.timing, x.timers, []⟩) harmory
    (armingOf i x active) hkeys
  obtain rfl : es = es' := hes.trans harms.armed
  -- The timers that are left over are destroyed, and none of the others is.
  have hothers : ∀ e ∈ es,
      ((arming r i x active ds).timing.destroyEach
        ((arming r i x active ds).previous.map Armed.timer)).timers.get? e.timer
      = (arming r i x active ds).timing.timers.get? e.timer := by
    intro e he
    exact Timing.get?_destroyEach_of_notMem _ (harms.apart e he)
  have hafter : (arming r i x active ds).timing.Later
      ((arming r i x active ds).timing.destroyEach
        ((arming r i x active ds).previous.map Armed.timer)) := Timing.follows_destroyEach _ _
  obtain ⟨_, _, hbefore⟩ := follows_armEach (armingOf i x active) ds ⟨r.timing, x.timers, []⟩
  refine ⟨?_, ?_, ?_⟩
  · apply List.Forall₂.flip
    apply ((List.forall₂_and_left es ds).mpr ⟨hothers, harms.each.flip⟩).imp
    rintro e d ⟨hother, hd⟩
    cases hd with
    | kept hmem hkey hpaused => exact .kept hmem hkey hpaused
    | fresh hpaused hkey hgeneration hnext hget hcallback =>
      exact .fresh hpaused hkey hgeneration hnext (hother.trans hget) hcallback
  · intro p hp
    obtain hleft | hkept | hdestroyed := harms.left p hp
    · right
      obtain ⟨t, ht⟩ := harmory.present p hp
      obtain ⟨u, hu, -⟩ := hbefore.kept ht
      apply Timing.status?_destroyEach _ (List.mem_map_of_mem hleft)
      exact congrArg (Option.map Timer.status) hu
    · exact .inl hkept
    · exact .inr (hafter.status?_destroyed hdestroyed)
  · constructor
    · have hforall : List.Forall₂ (· = ·) (es.map Armed.key)
          ((ds.map Delayed.key).map (armedKey (armingOf i x active).state)) := by
        rw [List.map_map, List.forall₂_map_left_iff, List.forall₂_map_right_iff]
        apply harms.each.flip.imp
        rintro e d (⟨-, hkey, -⟩ | ⟨-, hkey, -⟩) <;> exact hkey
      rw [List.forall₂_eq_eq_eq] at hforall
      rw [hforall]
      exact hkeys.map fun _ _ => armedKey_inj
    · exact harms.timers
    · intro e he
      obtain ⟨t, ht⟩ := harms.present e he
      exact ⟨t, (hothers e he).trans ht⟩

/-- To arm timers is to go on with the clock, and then to change the instance. -/
theorem Rearms.exists_sets {o : ArmingOf} {es : List Armed} (h : Rearms r r' i x o es)
    (hx : r.get? i = some x) :
  ∃ r₁, Same r r₁ ∧ r₁.get? i = some x
    ∧ Sets r₁ r' i { x with timers := es, generation := o.generation }
  := ⟨{ r with timing := r'.timing }, ⟨rfl, fun _ => rfl⟩, hx, h.next, rfl, h.get?⟩

/-- Whatever timers are armed, the clock goes on and the instance alone changes. -/
theorem exists_sets_of_armTimers (hx : r.get? i = some x) (h : (r.armTimers i).value = .ok r') :
  ∃ r₁ timers generation, Same r r₁ ∧ r₁.get? i = some x
    ∧ Sets r₁ r' i { x with timers := timers, generation := generation }
  := by
  obtain ⟨_, _, es, -, -, hrearms⟩ := rearms_of_armTimers hx h
  obtain ⟨r₁, hsame, hx₁, hsets⟩ := hrearms.exists_sets hx
  exact ⟨r₁, es, _, hsame, hx₁, hsets⟩

end Engine

end Statechart
