import Statechart.Proofs.Delays
import Statechart.Proofs.Inertness
import Statechart.Proofs.Nesting

/-!
# Listeners that are gone

A round of notifications calls the listeners that were registered when it began.  One whose
subscription is ended meanwhile, or whose instance is stopped, is still called if the round has
not come to it; apart from this, a listener that is gone is never called again
(`Configuration.Run.calls_of_gone`).
-/

namespace Statechart

variable {κ π σ : Type}

/-! ### Calls of listeners -/

namespace Configuration

variable {H : Host κ π σ} {c d : Configuration κ π σ} {i l : Nat} {x : Instance κ}

/-- The listener that is called in the next step, if one is: its instance, and its number. -/
def notifies? (c : Configuration κ π σ) : Option (Nat × Nat) :=
  match c.control, c.stack with
  | .host (.call (.subscribe i _) _), _ => (c.engine.get? i).map fun x => (i, x.nextListener)
  | .back _, .working i _ (.notify _ (l :: _) :: _) :: _ =>
    (c.engine.get? i).map fun _ => (i, l.1)
  | _, _ => none

/-- A listener that is called has just been subscribed, or is the next one in the round of its
instance, which is the innermost activity. -/
theorem exists_of_notifies? (h : notifies? c = some (i, l)) :
  (∃ code point x, c.control = .host (.call (.subscribe i code) point)
      ∧ c.engine.get? i = some x ∧ l = x.nextListener)
    ∨ ∃ reply o s code more rest below x, c.control = .back reply
      ∧ c.stack = .working i o (.notify s ((l, code) :: more) :: rest) :: below
      ∧ c.engine.get? i = some x
  := by
  rw [notifies?.eq_def] at h
  split at h
  · next j code point hcontrol =>
    obtain ⟨x, hx, heq⟩ := Option.map_eq_some_iff.mp h
    obtain ⟨rfl, rfl⟩ := Prod.mk.inj heq
    exact .inl ⟨code, point, x, hcontrol, hx, rfl⟩
  · next reply j o s p more rest below hcontrol hstack =>
    obtain ⟨x, hx, heq⟩ := Option.map_eq_some_iff.mp h
    obtain ⟨rfl, rfl⟩ := Prod.mk.inj heq
    exact .inr ⟨reply, o, s, p.2, more, rest, below, x, hcontrol, hstack, hx⟩
  · cases h

/-- A listener that is called runs code of the host. -/
theorem step?_of_notifies? (h : notifies? c = some (i, l)) :
  ∃ b code s, step? H c = some (enter H b (H.notify code s))
  := by
  obtain ⟨code, point, x, hcontrol, hx, -⟩
    | ⟨reply, o, s, code, more, rest, below, x, hcontrol, hstack, hx⟩ := exists_of_notifies? h
  · have hx' : (c.withStack (.waiting point :: c.stack)).engine.get? i = some x := hx
    simp only [step?, hcontrol, perform, subscribe, hx']
    exact ⟨_, code, x.snapshot, rfl⟩
  · simp only [step?, hcontrol, hstack, hx, stepPhase]
    exact ⟨_, code, s, rfl⟩

/-- A phase runs the code of listeners only if it has one to call. -/
theorem stepPhase_notify {o : Except MachineError Unit} {rest : List (Phase κ)}
    {below : List (Frame κ π)} {p : Phase κ} (h : ∀ s m more, p ≠ .notify s (m :: more))
    (f : κ → Snapshot κ → Engine κ → σ → Next κ π × σ) :
  stepPhase { H with notify := f } c i x o rest below p = stepPhase H c i x o rest below p
  := by
  cases p with
  | perform actions context event => cases actions <;> rfl
  | invoke state context vs => cases vs <;> rfl
  | notify s ls =>
    cases ls with
    | nil => rfl
    | cons m more => exact absurd rfl (h s m more)
  | _ => rfl

/-- A step in which no listener is called does not depend on what listeners do. -/
theorem step?_notify (h : notifies? c = none)
    (f : κ → Snapshot κ → Engine κ → σ → Next κ π × σ) :
  step? { H with notify := f } c = step? H c
  := by
  refine step?_congr H.execute f ?_ ?_
  · intro call point hcontrol
    cases call with
    | subscribe i listener =>
      rw [notifies?, hcontrol, Option.map_eq_none_iff] at h
      have hx : (c.withStack (.waiting point :: c.stack)).engine.get? i = none := h
      simp only [perform, subscribe, hx]
    | _ => rfl
  · intro reply i o p rest below x hcontrol hstack hx
    apply stepPhase_notify
    rintro s m more rfl
    simp [notifies?, hcontrol, hstack, hx] at h

/-- How often a listener has been called. -/
def calls (i l : Nat) (cs : List (Configuration κ π σ)) : Nat :=
  cs.countP fun c => notifies? c = some (i, l)

/-- A listener is not called if no step calls it. -/
theorem calls_eq_zero_iff {cs : List (Configuration κ π σ)} :
  calls i l cs = 0 ↔ ∀ c ∈ cs, notifies? c ≠ some (i, l)
  := by
  simp [calls, List.countP_eq_zero]

end Configuration

/-! ### Numbers of listeners -/

namespace Instance

variable {x : Instance κ} {listeners : List (Nat × κ)} {n l : Nat}

/-- The listeners of an instance are in the order of their numbers, which are below the next
one, and in this order they are called in a round. -/
structure Numbered (x : Instance κ) (w : Option (List (Phase κ))) : Prop where
  order : x.listeners.Pairwise fun a b => a.1 < b.1
  below : ∀ a ∈ x.listeners, a.1 < x.nextListener
  round : ∀ ps s ls, w = some ps → .notify s ls ∈ ps → ls.Pairwise fun a b => a.1 < b.1

/-- A listener was registered, and is not any more. -/
def HasLost (x : Instance κ) (l : Nat) : Prop :=
  l < x.nextListener ∧ ∀ a ∈ x.listeners, a.1 ≠ l

/-- A listener is registered under its number. -/
theorem hasListener_iff :
  x.hasListener l = true ↔ ∃ a ∈ x.listeners, a.1 = l
  := by
  simp [hasListener]

namespace Listens

theorem order (h : x.Listens listeners n) (horder : x.listeners.Pairwise fun a b => a.1 < b.1)
    (hbelow : ∀ a ∈ x.listeners, a.1 < x.nextListener) :
  listeners.Pairwise fun a b => a.1 < b.1
  := by
  cases h with
  | same | pass _ => exact horder
  | add listener _ =>
    refine List.pairwise_append.mpr ⟨horder, List.pairwise_singleton _ _, ?_⟩
    intro a ha b hb
    obtain rfl := List.mem_singleton.mp hb
    exact hbelow a ha
  | remove _ => exact horder.filter _

theorem below (h : x.Listens listeners n) (hbelow : ∀ a ∈ x.listeners, a.1 < x.nextListener) :
  ∀ a ∈ listeners, a.1 < n
  := by
  intro a ha
  cases h with
  | same => exact hbelow a ha
  | pass _ => exact Nat.lt_succ_of_lt (hbelow a ha)
  | add listener _ =>
    obtain ha | ha := List.mem_append.mp ha
    · exact Nat.lt_succ_of_lt (hbelow a ha)
    · obtain rfl := List.mem_singleton.mp ha
      exact Nat.lt_succ_self _
  | remove _ => exact hbelow a (List.mem_of_mem_filter ha)

/-- A listener that is lost is none of those that listen. -/
theorem hasLost (h : x.Listens listeners n) (hx : x.HasLost l) :
  l < n ∧ ∀ a ∈ listeners, a.1 ≠ l
  := by
  obtain ⟨hlt, hnot⟩ := hx
  cases h with
  | same => exact ⟨hlt, hnot⟩
  | pass _ => exact ⟨Nat.lt_succ_of_lt hlt, hnot⟩
  | add listener _ =>
    refine ⟨Nat.lt_succ_of_lt hlt, ?_⟩
    intro a ha
    obtain ha | ha := List.mem_append.mp ha
    · exact hnot a ha
    · obtain rfl := List.mem_singleton.mp ha
      exact Nat.ne_of_gt hlt
  | remove _ => exact ⟨hlt, fun a ha => hnot a (List.mem_of_mem_filter ha)⟩

end Listens

end Instance

/-- Listeners are not told of a start by a phase of it. -/
theorem Instance.notMem_startPhases (x : Instance κ) (s : Snapshot κ) (ls : List (Nat × κ)) :
  .notify s ls ∉ x.startPhases
  := by
  simp [startPhases]

/-- Whom a transition is told to is settled when it is published, and not before. -/
theorem notMem_transitionPhases (x : Instance κ) (next : Snapshot κ) (event : Event)
    (rearm : Configuration.Rearm) (s : Snapshot κ) (ls : List (Nat × κ)) :
  .notify s ls ∉ Configuration.transitionPhases x next event rearm
  := by
  intro hmem
  obtain h | h | h | h | h | h := Configuration.mem_transitionPhases hmem <;> cases h

namespace Turn

variable {i l : Nat} {r r' : Engine κ} {x y : Instance κ} {w w' : Option (List (Phase κ))}

/-- What happens to an instance keeps its listeners in order. -/
theorem numbered (h : Turn i r r' x w y w') (hx : x.Numbered w) :
  y.Numbered w'
  := by
  obtain ⟨horder, hbelow, hround⟩ := hx
  have hrest {p : Phase κ} {rest : List (Phase κ)} (hw : w = some (p :: rest))
      (s : Snapshot κ) (ls : List (Nat × κ)) (hmem : .notify s ls ∈ rest) :
      ls.Pairwise fun a b => a.1 < b.1 :=
    hround _ s ls hw (List.mem_cons_of_mem p hmem)
  cases h with
  | keep hw hlistens =>
    refine ⟨hlistens.order horder hbelow, hlistens.below hbelow, ?_⟩
    obtain rfl | ⟨-, rfl⟩ | ⟨-, rfl⟩ := hw
    · exact hround
    · rintro _ s ls ⟨⟩ hmem
      cases hmem
    · rintro _ s ls ⟨⟩
  | start _ =>
    refine ⟨horder, hbelow, ?_⟩
    rintro _ s ls ⟨⟩ hmem
    cases hmem
  | begin _ =>
    refine ⟨horder, hbelow, ?_⟩
    rintro _ s ls ⟨⟩ hmem
    exact absurd hmem (x.notMem_startPhases s ls)
  | commit _ _ _ =>
    refine ⟨horder, hbelow, ?_⟩
    rintro _ s ls ⟨⟩ hmem
    exact absurd hmem (notMem_transitionPhases _ _ _ _ s ls)
  | advance hadvances =>
    refine ⟨horder, hbelow, ?_⟩
    rintro _ s ls ⟨⟩ hmem
    obtain hmem | hmem := List.mem_append.mp hmem
    · cases hadvances with
      | publish s' =>
        obtain heq := List.mem_singleton.mp hmem
        cases heq
        exact horder
      | notify s' a more =>
        obtain heq := List.mem_singleton.mp hmem
        cases heq
        exact (hround _ _ _ rfl List.mem_cons_self).of_cons
      | _ => simp at hmem
    · exact hrest rfl s ls hmem
  | drop _ hw =>
    subst hw
    refine ⟨horder, hbelow, ?_⟩
    rintro _ s ls ⟨⟩ hmem
    cases hmem
  | stopChildren _ | rearm _ _ =>
    refine ⟨horder, hbelow, ?_⟩
    rintro _ s ls ⟨⟩ hmem
    exact hrest rfl s ls hmem
  | spawn _ _ _ =>
    refine ⟨horder, hbelow, ?_⟩
    rintro _ s ls ⟨⟩ hmem
    obtain heq | hmem := List.mem_cons.mp hmem
    · cases heq
    · exact hrest rfl s ls hmem
  | halt hw _ =>
    refine ⟨.nil, by rintro a ⟨⟩, ?_⟩
    obtain rfl | ⟨p, rest, hw, rfl⟩ := hw
    · exact hround
    · rintro _ s ls ⟨⟩ hmem
      exact hrest hw s ls hmem

/-- A listener that is not registered any more stays so. -/
theorem hasLost (h : Turn i r r' x w y w') (hx : x.HasLost l) :
  y.HasLost l
  := by
  cases h with
  | keep _ hlistens => exact hlistens.hasLost hx
  | halt _ _ => exact ⟨hx.1, by rintro a ⟨⟩⟩
  | _ => exact hx

end Turn

/-! ### Calls that are due -/

/-- How often a listener is still to be called in the round that comes first in some work. -/
def owed (l : Nat) : Option (List (Phase κ)) → Nat
  | some (.notify _ ls :: _) => ls.countP fun a => a.1 = l
  | _ => 0

/-- No call is due unless a round comes first. -/
theorem owed_of_ne_notify {l : Nat} {w : Option (List (Phase κ))}
    (h : ∀ s ls rest, w ≠ some (.notify s ls :: rest)) :
  owed l w = 0
  := by
  rw [owed.eq_def]
  split
  · next s ls rest => exact absurd rfl (h s ls rest)
  · rfl

/-- A round of notifications comes first in the work. -/
theorem Instance.Tidy.owed_rest {x : Instance κ} {p : Phase κ} {rest : List (Phase κ)}
    (h : x.Tidy (some (p :: rest))) (l : Nat) :
  owed l (some rest) = 0
  := by
  apply owed_of_ne_notify
  rintro s ls rest' ⟨⟩
  exact (List.rel_of_pairwise_cons (h.order _ rfl) List.mem_cons_self).2.2 s ls rfl

/-- A listener that is lost is owed no call by a new round. -/
theorem Instance.HasLost.owed_eq_zero {x : Instance κ} {l : Nat} (h : x.HasLost l)
    (s : Snapshot κ) (rest : List (Phase κ)) :
  owed l (some (.notify s x.listeners :: rest)) = 0
  := by
  rw [owed, List.countP_eq_zero]
  intro a ha
  rw [decide_eq_true_iff]
  exact h.2 a ha

/-- A listener is called at most once in a round. -/
theorem Instance.Numbered.owed_le_one {x : Instance κ} {w : Option (List (Phase κ))}
    (h : x.Numbered w) (l : Nat) :
  owed l w ≤ 1
  := by
  rw [owed.eq_def]
  split
  · next s ls rest =>
    have hnodup : (ls.map Prod.fst).Nodup :=
      List.pairwise_map.mpr ((h.round _ s ls rfl List.mem_cons_self).imp Nat.ne_of_lt)
    have hcount := List.nodup_iff_count_le_one.mp hnodup l
    rw [List.count, List.countP_map] at hcount
    exact hcount
  · exact Nat.zero_le _

/-- A round that begins does not have to call a listener that is not registered any more. -/
theorem Turn.owed_eq_zero {i l : Nat} {r r' : Engine κ} {x y : Instance κ}
    {w w' : Option (List (Phase κ))} (h : Turn i r r' x w y w') (hx : x.HasLost l)
    (htidy : x.Tidy w) (hnot : ∀ s ls rest, w ≠ some (.notify s ls :: rest)) :
  owed l w' = 0
  := by
  cases h with
  | keep hw _ =>
    obtain rfl | ⟨-, rfl⟩ | ⟨-, rfl⟩ := hw
    · exact owed_of_ne_notify hnot
    · rfl
    · rfl
  | advance hadvances =>
    cases hadvances with
    | publish s => exact hx.owed_eq_zero s _
    | notified s => exact absurd rfl (hnot s [] _)
    | notify s a more => exact absurd rfl (hnot s (a :: more) _)
    | perform | startChildren | invoke => rfl
    | _ => exact htidy.owed_rest l
  | drop _ hw =>
    subst hw
    rfl
  | stopChildren _ | rearm _ _ => exact htidy.owed_rest l
  | halt hw _ =>
    obtain rfl | ⟨p, rest, rfl, rfl⟩ := hw
    · exact owed_of_ne_notify hnot
    · exact htidy.owed_rest l
  | _ => rfl

/-! ### Listeners in runs -/

/-- The number of a listener was given by an instance, and it is not registered there. -/
def Engine.Lost (r : Engine κ) (i l : Nat) : Prop :=
  i < r.instances.next ∧ ∀ x, r.get? i = some x → x.HasLost l

namespace Configuration

variable {H : Host κ π σ} {cs before after : List (Configuration κ π σ)}
  {c d e : Configuration κ π σ} {mid : Engine κ} {i l : Nat} {x : Instance κ}

/-- In every run listeners are in the order in which they were registered. -/
theorem Run.numbered (h : Run H cs c) (hx : c.engine.get? i = some x) :
  x.Numbered (workOf i c.stack)
  := by
  refine h.each (p := fun _ x w => x.Numbered w) ?_ (fun _ hturn => hturn.numbered) hx
  intro s r i y w harrives _
  cases harrives with
  | created _ _ => exact ⟨.nil, by rintro a ⟨⟩, by rintro ps s ls ⟨⟩⟩
  | spawned _ _ _ _ _ =>
    refine ⟨.nil, by rintro a ⟨⟩, ?_⟩
    rintro _ s ls ⟨⟩ hmem
    cases hmem

/-- A listener that is not registered any more stays so. -/
theorem Goes.lost (hgoes : Goes H c mid d) (hlost : c.engine.Lost i l) :
  d.engine.Lost i l
  := by
  apply hgoes.kept hlost
  intro x y hx hmid hlost
  exact (hgoes.turn hx hmid).hasLost hlost

/-- In no round is a listener called twice. -/
theorem Run.owed_le_one (h : Run H cs c) (i l : Nat) :
  owed l (workOf i c.stack) ≤ 1
  := by
  cases hw : workOf i c.stack with
  | none => exact Nat.zero_le _
  | some ps =>
    obtain ⟨x, hx⟩ := h.orderly.there i (mem_workers_of_workOf hw)
    exact hw ▸ (h.numbered hx).owed_le_one l

/-- A step of an instance that is not in a round leads to no call of a listener that is not
registered any more. -/
theorem Run.owed_eq_zero (h : Run H cs c) (hstep : Evolves H c d) (hlost : c.engine.Lost i l)
    (hnot : ∀ s ls rest, workOf i c.stack ≠ some (.notify s ls :: rest)) :
  owed l (workOf i d.stack) = 0
  := by
  obtain ⟨mid, hgoes⟩ := h.goes hstep
  cases hw : workOf i d.stack with
  | none => rfl
  | some ps =>
    obtain ⟨y, hy⟩ := (h.next hstep).orderly.there i (mem_workers_of_workOf hw)
    obtain ⟨x, hx, hmid⟩ := hgoes.was_there hlost.1 hy
    exact hw ▸ (hgoes.turn hx hmid).owed_eq_zero (hlost.2 x hx) (h.tidy hx) hnot

/-- A round calls the next listener, or is over. -/
theorem Evolves.workOf_of_round {reply : Reply κ} {o : Except MachineError Unit} {s : Snapshot κ}
    {ls : List (Nat × κ)} {rest : List (Phase κ)} {below : List (Frame κ π)}
    (hstep : Evolves H c d) (hcontrol : c.control = .back reply)
    (hstack : c.stack = .working i o (.notify s ls :: rest) :: below)
    (hx : c.engine.get? i = some x) :
  workOf i d.stack = some (match ls with
    | [] => rest
    | _ :: more => .notify s more :: rest)
  := by
  have hstep := hstep.step?_of_stack hstack
  rw [step?, hcontrol] at hstep
  simp only [hstack, hx, Option.some.injEq] at hstep
  subst hstep
  cases ls <;> exact workOf_working_self _ _ _ _

/-- A listener that is not registered any more is called only in a round of its instance. -/
theorem exists_of_lost (h : notifies? c = some (i, l)) (hlost : c.engine.Lost i l) :
  ∃ reply o s code more rest below x, c.control = .back reply
    ∧ c.stack = .working i o (.notify s ((l, code) :: more) :: rest) :: below
    ∧ c.engine.get? i = some x
  := by
  obtain ⟨code, point, x, -, hx, rfl⟩ | hround := exists_of_notifies? h
  · exact absurd (hlost.2 x hx).1 (Nat.lt_irrefl _)
  · exact hround

/-- A lost listener that is called was owed the call. -/
theorem owed_pos_of_lost (h : notifies? c = some (i, l)) (hlost : c.engine.Lost i l) :
  0 < owed l (workOf i c.stack)
  := by
  obtain ⟨reply, o, s, code, more, rest, below, x, -, hstack, -⟩ := exists_of_lost h hlost
  rw [hstack, workOf_working_self, owed, List.countP_pos_iff]
  exact ⟨(l, code), List.mem_cons_self, decide_eq_true rfl⟩

/-- The calls of a listener in a step and those that are left of a round make up those that were
left of it, if the listener is not registered any more. -/
theorem Run.calls_add_owed (h : Run H cs c) (hstep : Evolves H c d) (hlost : c.engine.Lost i l) :
  calls i l [c] + owed l (workOf i d.stack) = owed l (workOf i c.stack)
  := by
  rw [calls, List.countP_singleton]
  by_cases hround : ∃ s ls rest, workOf i c.stack = some (.notify s ls :: rest)
  · obtain ⟨s, ls, rest, hw⟩ := hround
    obtain ⟨x, hx⟩ := h.orderly.there i (mem_workers_of_workOf hw)
    obtain hsame | ⟨reply, o, below, hcontrol, hstack⟩ := h.workOf_eq hstep hw
    · rw [hsame, hw, if_neg, Nat.zero_add]
      -- A round that is gone on with does not stay as it is.
      intro hcall
      obtain ⟨reply, o, s', code, more, rest', below, y, hcontrol, hstack, hy⟩ :=
        exists_of_lost (of_decide_eq_true hcall) hlost
      rw [hstack, workOf_working_self] at hw
      have hnext := hstep.workOf_of_round hcontrol hstack hy
      rw [hsame, ← hw] at hnext
      simp at hnext
    · rw [hstep.workOf_of_round hcontrol hstack hx, hw]
      cases ls with
      | nil =>
        have hnone : notifies? c = none := by simp [notifies?, hcontrol, hstack]
        have htidy := h.tidy hx
        rw [hw] at htidy
        rw [hnone, htidy.owed_rest l]
        rfl
      | cons a more =>
        have hcall : notifies? c = some (i, a.1) := by simp [notifies?, hcontrol, hstack, hx]
        simp only [hcall, owed, List.countP_cons, Option.some.injEq, Prod.mk.injEq, true_and]
        exact Nat.add_comm _ _
  · push Not at hround
    rw [h.owed_eq_zero hstep hlost hround, owed_of_ne_notify hround, if_neg]
    intro hcall
    have hpos := owed_pos_of_lost (of_decide_eq_true hcall) hlost
    rw [owed_of_ne_notify hround] at hpos
    exact absurd hpos (Nat.lt_irrefl 0)

/-- The calls of a listener since it was found not to be registered any more, and those that are
left of a round, make up those that were left of it then. -/
theorem Run.calls_since (h : Run H (before ++ e :: after) c) (hlost : e.engine.Lost i l) :
  calls i l (e :: after) + owed l (workOf i c.stack) = owed l (workOf i e.stack)
    ∧ c.engine.Lost i l
  := by
  refine h.since (p := fun passed c =>
    calls i l passed + owed l (workOf i c.stack) = owed l (workOf i e.stack)
      ∧ c.engine.Lost i l) ⟨Nat.zero_add _, hlost⟩ ?_
  rintro passed c d hrun hstep ⟨hcalls, hlost⟩
  obtain ⟨mid, hgoes⟩ := hrun.goes hstep
  refine ⟨?_, hgoes.lost hlost⟩
  rw [calls, List.countP_append, ← calls, ← calls, Nat.add_assoc,
    hrun.calls_add_owed hstep hlost, hcalls]

/-! ### Listeners that are gone -/

/-- The host ends the subscription of a listener, and is told that it was registered. -/
def Unsubscribes (H : Host κ π σ) (i l : Nat) (c : Configuration κ π σ) : Prop :=
  (∃ point, c.control = .host (.call (.unsubscribe i l) point))
    ∧ ∃ d, step? H c = some d ∧ d.control = .back (.flag true)

/-- A listener is gone after some configurations: its subscription was ended in one of them, or
the instance that it was subscribed to has been stopped. -/
def Gone (H : Host κ π σ) (i l : Nat) (cs : List (Configuration κ π σ))
    (c : Configuration κ π σ) : Prop :=
  (∃ d ∈ cs, Unsubscribes H i l d)
    ∨ ∃ d ∈ cs ++ [c], ∃ x, d.engine.get? i = some x ∧ x.status = .stopped ∧ l < x.nextListener

/-- A listener whose subscription is ended with success is registered. -/
theorem Unsubscribes.hasListener (h : Unsubscribes H i l c) :
  c.engine.hasListener i l = true
  := by
  obtain ⟨⟨point, hcontrol⟩, d, hd, hreply⟩ := h
  rw [step?, hcontrol] at hd
  obtain rfl := Option.some.inj hd
  exact Reply.flag.inj (Control.back.inj hreply)

/-- The listener whose subscription the host ends in the next step, if it is registered. -/
def unsubscribes? (c : Configuration κ π σ) : Option (Nat × Nat) :=
  match c.control with
  | .host (.call (.unsubscribe i l) _) => if c.engine.hasListener i l then some (i, l) else none
  | _ => none

theorem unsubscribes_iff :
  Unsubscribes H i l c ↔ unsubscribes? c = some (i, l)
  := by
  rw [unsubscribes?]
  constructor
  · intro h
    obtain ⟨point, hcontrol⟩ := h.1
    rw [hcontrol]
    exact if_pos h.hasListener
  · intro h
    split at h
    · next j m point hcontrol =>
      rw [Option.ite_none_right_eq_some, Option.some.injEq, Prod.mk.injEq] at h
      obtain ⟨hthere, rfl, rfl⟩ := h
      refine ⟨⟨point, hcontrol⟩, perform H (c.withStack (.waiting point :: c.stack))
        (.unsubscribe j m), by rw [step?, hcontrol], ?_⟩
      exact congrArg (fun flag => Control.back (Reply.flag flag)) hthere
    · cases h

instance : Decidable (Unsubscribes H i l c) :=
  decidable_of_iff _ unsubscribes_iff.symm

/-- A subscription that is ended leaves the listener not registered. -/
theorem Run.lost_of_unsubscribes (h : Run H cs c) (hstep : Evolves H c d)
    (hends : Unsubscribes H i l c) :
  d.engine.Lost i l
  := by
  obtain ⟨point, hcontrol⟩ := hends.1
  obtain rfl := hstep.eq_perform hcontrol
  have hthere := hends.hasListener
  rw [Engine.hasListener] at hthere
  split at hthere
  · next x hx =>
    obtain ⟨a, ha, rfl⟩ := Instance.hasListener_iff.mp hthere
    have hsets := Engine.sets_modify hx fun x =>
      { x with listeners := x.listeners.filter fun m => m.1 ≠ a.1 }
    constructor
    · exact Nat.lt_of_lt_of_eq (Engine.lt_next_of_get? hx) hsets.next.symm
    · intro y hy
      obtain rfl := Option.some.inj (hsets.get?_self.symm.trans hy)
      refine ⟨(h.numbered hx).below a ha, ?_⟩
      intro b hb
      exact of_decide_eq_true (List.mem_filter.mp hb).2
  · cases hthere

/-- An instance that is stopped has lost its listeners. -/
theorem Run.lost_of_stopped (h : Run H cs c) (hx : c.engine.get? i = some x)
    (hstopped : x.status = .stopped) (hl : l < x.nextListener) :
  c.engine.Lost i l
  := by
  refine ⟨Engine.lt_next_of_get? hx, fun y hy => ?_⟩
  obtain rfl := Option.some.inj (hx.symm.trans hy)
  refine ⟨hl, ?_⟩
  rw [h.silent hx hstopped]
  rintro a ⟨⟩

/-- A listener is lost once its number was unsubscribed or its instance was stopped. -/
theorem Run.lost_of_gone (h : Run H cs c) (hgone : Gone H i l cs c) :
  c.engine.Lost i l
  := by
  obtain ⟨d, hd, hends⟩ | ⟨d, hd, x, hx, hstopped, hl⟩ := hgone
  · obtain ⟨before, after, rfl⟩ := List.append_of_mem hd
    refine h.after (p := fun _ c => c.engine.Lost i l) ?_ ?_
    · exact fun hrun hstep => hrun.lost_of_unsubscribes hstep hends
    · intro rest c d hrun hstep hlost
      obtain ⟨mid, hgoes⟩ := hrun.goes hstep
      exact hgoes.lost hlost
  · obtain hd | hd := List.mem_append.mp hd
    · obtain ⟨before, after, rfl⟩ := List.append_of_mem hd
      exact (h.calls_since (h.of_append.lost_of_stopped hx hstopped hl)).2
    · obtain rfl := List.mem_singleton.mp hd
      exact h.lost_of_stopped hx hstopped hl

/-- What a listener that is gone is still called.  A listener is gone when its subscription was
ended, with the reply that it was registered, and when its instance is stopped.

From then on the calls of the listener and those that are left of a round in progress make up
those that were left of it, at most one.  So the listener is never called again if the round of
its instance, if there is one, does not have it to call; and when nothing is under way any more,
it has not been called again if and only if that was so. -/
theorem Run.calls_of_gone (h : Run H (before ++ e :: after) c) (hgone : Gone H i l before e) :
  calls i l (e :: after) + owed l (workOf i c.stack) = owed l (workOf i e.stack)
    ∧ owed l (workOf i e.stack) ≤ 1
    ∧ (owed l (workOf i e.stack) = 0 → ∀ d ∈ e :: after ++ [c], notifies? d ≠ some (i, l))
    ∧ (c.IsIdle →
      ((∀ d ∈ e :: after, notifies? d ≠ some (i, l)) ↔ owed l (workOf i e.stack) = 0))
  := by
  have hrun := h.of_append
  obtain ⟨hcalls, hlost⟩ := h.calls_since (hrun.lost_of_gone hgone)
  refine ⟨hcalls, hrun.owed_le_one i l, ?_, ?_⟩
  · intro hnone d hd
    rw [hnone, Nat.add_eq_zero_iff] at hcalls
    obtain hd | hd := List.mem_append.mp hd
    · exact calls_eq_zero_iff.mp hcalls.1 d hd
    · obtain rfl := List.mem_singleton.mp hd
      intro hcall
      exact absurd hcalls.2 (Nat.ne_of_gt (owed_pos_of_lost hcall hlost))
  · rintro ⟨hstack, -⟩
    rw [hstack] at hcalls
    rw [← hcalls, ← calls_eq_zero_iff]
    rfl

/-- The host of a relay whose listeners make some calls when they are told of the second
state. -/
def watchedHost (reaction : Script Unit) : Host Unit (Script Unit) Unit :=
  { relayHost with
    notify := fun _ s _ m =>
      (Script.next (if s.value.leaf? = some "a_1" then reaction else []), m) }

/-- The first `n` steps after a relay is made whose listeners make some calls. -/
def watchedRun (reaction calls : Script Unit) (n : Nat) :
    List (Configuration Unit (Script Unit) Unit) × Configuration Unit (Script Unit) Unit :=
  playedBy (watchedHost reaction) relay calls n

/-- The configurations that are passed after the first `k` steps and one step more, in `n`
further steps. -/
def watchedSince (reaction calls : Script Unit) (k n : Nat) :
    List (Configuration Unit (Script Unit) Unit) :=
  (trail (watchedHost reaction) n (watchedRun reaction calls (k + 1)).2).1

theorem run_watchedSince {reaction calls : Script Unit} {k n m : Nat} (hm : k + (1 + n) = m)
    (hnext : (step? (watchedHost reaction) (watchedRun reaction calls k).2).isSome = true)
    (hcalls : ((watchedRun reaction calls m).1.drop 3).all (fun c => !c.hands) = true) :
  Run (watchedHost reaction)
    ((watchedRun reaction calls k).1
      ++ (watchedRun reaction calls k).2 :: watchedSince reaction calls k n)
    (watchedRun reaction calls m).2
  := by
  subst hm
  have hsplit := (playedBy_split k n hnext).1
  rw [watchedRun, watchedRun, watchedSince, watchedRun, ← hsplit]
  exact run_playedBy isCompiled_relay (fun _ _ _ _ hok => by cases hok) hcalls

theorem mem_watchedRun {reaction calls : Script Unit} {k : Nat}
    (hnext : (step? (watchedHost reaction) (watchedRun reaction calls k).2).isSome = true) :
  (watchedRun reaction calls k).2 ∈ (watchedRun reaction calls (k + 1)).1
  := by
  have hsplit := (playedBy_split k 0 hnext).1
  rw [watchedRun, watchedRun, hsplit]
  exact List.mem_append_right _ List.mem_cons_self

/-- A listener is subscribed, and its subscription is ended before the relay goes on. -/
def quitted : Script Unit :=
  [.subscribe 0 (), .start 0, .unsubscribe 0 0, .send 0 (.named "GO")]

/-- Two listeners are subscribed before the relay goes on. -/
def watched : Script Unit :=
  [.subscribe 0 (), .subscribe 0 (), .start 0, .send 0 (.named "GO")]

/-- The relay is stopped by the first of its two listeners. -/
theorem exists_stopped_watched :
  ∃ x, (watchedRun [.stop 0] watched 28).2.engine.get? 0 = some x ∧ x.status = .stopped
    ∧ 1 < x.nextListener
  := by
  have hstopped : (watchedRun [.stop 0] watched 28).2.engine.hasStopped 0 = true := by
    decide +kernel
  obtain ⟨x, hx, hstatus⟩ := Engine.hasStopped_iff.mp hstopped
  have hnext : ((watchedRun [.stop 0] watched 28).2.engine.get? 0).map Instance.nextListener
      = some 2 := by decide +kernel
  rw [hx, Option.map_some, Option.some.injEq] at hnext
  exact ⟨x, hx, hstatus, by rw [hnext]; decide⟩

/-- A listener whose subscription was ended before the relay goes on is not called any more; one
of a relay that is stopped in a round is called once. -/
theorem relay_calls_of_gone :
  (∀ d ∈ (watchedRun [] quitted 16).2 :: watchedSince [] quitted 16 13,
      notifies? d ≠ some (0, 0))
    ∧ calls 0 1 ((watchedRun [.stop 0] watched 28).2 :: watchedSince [.stop 0] watched 28 11) = 1
  := by
  constructor
  · have hends : Unsubscribes (watchedHost []) 0 0 (watchedRun [] quitted 15).2 := by
      decide +kernel
    have hpassed : (watchedRun [] quitted 15).2 ∈ (watchedRun [] quitted 16).1 :=
      mem_watchedRun (by decide +kernel)
    obtain ⟨-, -, hnever, -⟩ := (@run_watchedSince [] quitted 16 13 30 rfl (by decide +kernel)
      (by decide +kernel)).calls_of_gone (.inl ⟨_, hpassed, hends⟩)
    exact fun d hd => hnever (by decide +kernel) d (List.mem_append_left _ hd)
  · have hdone : owed 1 (workOf 0 (watchedRun [.stop 0] watched 40).2.stack) = 0 := by
      decide +kernel
    have howed : owed 1 (workOf 0 (watchedRun [.stop 0] watched 28).2.stack) = 1 := by
      decide +kernel
    obtain ⟨hcalls, -⟩ := (@run_watchedSince [.stop 0] watched 28 11 40 rfl (by decide +kernel)
      (by decide +kernel)).calls_of_gone (.inr ⟨_, by simp, exists_stopped_watched⟩)
    omega

/-- A listener is called although its subscription has been ended, by one that was called before
it in the same round; and so is one of a relay that has been stopped. -/
theorem relay_called_late :
  (∃ cs c, Run (watchedHost [.unsubscribe 0 1]) cs c
      ∧ (∃ d ∈ cs, Unsubscribes (watchedHost [.unsubscribe 0 1]) 0 1 d)
      ∧ notifies? c = some (0, 1))
    ∧ ∃ cs c, Run (watchedHost [.stop 0]) cs c
      ∧ (∃ d ∈ cs, ∃ x, d.engine.get? 0 = some x ∧ x.status = .stopped ∧ 1 < x.nextListener)
      ∧ notifies? c = some (0, 1)
  := by
  have hends : Unsubscribes (watchedHost [.unsubscribe 0 1]) 0 1
      (watchedRun [.unsubscribe 0 1] watched 27).2 := by decide +kernel
  constructor
  · exact ⟨_, _, @run_watchedSince [.unsubscribe 0 1] watched 27 2 30 rfl (by decide +kernel)
      (by decide +kernel), ⟨_, List.mem_append_right _ List.mem_cons_self, hends⟩,
      by decide +kernel⟩
  · exact ⟨_, _, @run_watchedSince [.stop 0] watched 28 1 30 rfl (by decide +kernel)
      (by decide +kernel), ⟨_, List.mem_append_right _ List.mem_cons_self, exists_stopped_watched⟩,
      by decide +kernel⟩

end Configuration

end Statechart
