import Statechart.Proofs.Delays
import Statechart.Proofs.Operation
import Statechart.Proofs.Standing

/-!
# Pools and their timers

A pool has every timer that it made and that is not over exactly once in its list, and while it
is paused none of its timers runs (`Timing.Owns`).  This is kept by every operation, so that a
pool counts its timers, starts and destroys all of them at once, and calls nothing while it is
paused (`Configuration.Run.custody`).
-/

namespace Statechart

variable {κ π σ τ : Type}

namespace Timing

variable {t t' t'' : Timing τ} {pool : Nat} {p : TimerPool}

/-! ### Ownership -/

/-- Pools list and stash timers that they made. -/
def Homed (t : Timing τ) : Prop :=
  ∀ pool p, t.pools.get? pool = some p → ∀ id, id ∈ p.timers ∨ id ∈ p.stash →
    ∃ s, t.standing? id = some (pool, s)

/-- A pool lists each of its timers once, and those of them that are not over; while it is
paused none of them runs. -/
structure Owns (t : Timing τ) (pool : Nat) (p : TimerPool) : Prop where
  there : t.pools.get? pool = some p
  nodup : p.timers.Nodup
  listed : ∀ id s, t.standing? id = some (pool, s) → s.isFinished = false → id ∈ p.timers
  still : p.paused = true → ∀ id s, t.standing? id = some (pool, s) → s ≠ .running

/-- A clock without pools has nothing listed. -/
theorem homed_empty :
  (empty : Timing τ).Homed
  := by
  intro pool p hp
  rw [empty, Table.get?_empty] at hp
  cases hp

theorem timersOf_of_get? (h : t.pools.get? pool = some p) :
  t.timersOf pool = p.timers
  := by
  rw [timersOf, h]

theorem isPaused_of_get? (h : t.pools.get? pool = some p) :
  t.isPaused pool = p.paused
  := by
  rw [isPaused, h]

/-- A pool that was just made owns its timers. -/
theorem owns_of_new (hpool : t.pools.get? pool = some .empty)
    (hnew : ∀ id x, t.timers.get? id = some x → x.pool ≠ pool) :
  t.Owns pool .empty
  := by
  refine ⟨hpool, .nil, ?_, fun h => absurd h Bool.false_ne_true⟩
  intro id s hs
  obtain ⟨x, hx, heq⟩ := Option.map_eq_some_iff.mp hs
  exact absurd (Prod.mk.inj heq).1 (hnew id x hx)

/-- Timers stay with their pools, and pools go on owning their timers. -/
structure Guards (t t' : Timing τ) : Prop where
  kept : ∀ id pool s, t.standing? id = some (pool, s) → ∃ s, t'.standing? id = some (pool, s)
  homed : t.Homed → t'.Homed
  owns : t.Homed → ∀ pool p, t.Owns pool p → ∃ p, t'.Owns pool p

theorem Guards.refl (t : Timing τ) :
  t.Guards t
  := ⟨fun _ _ s hs => ⟨s, hs⟩, id, fun _ _ p hp => ⟨p, hp⟩⟩

/-- Custody that is kept on two stretches is kept on both together. -/
theorem Guards.trans (h : t.Guards t') (h' : t'.Guards t'') :
  t.Guards t''
  where
  kept id pool s hs := by
    obtain ⟨s', hs'⟩ := h.kept id pool s hs
    exact h'.kept id pool s' hs'
  homed ht := h'.homed (h.homed ht)
  owns ht pool p hp := by
    obtain ⟨p', hp'⟩ := h.owns ht pool p hp
    exact h'.owns (h.homed ht) pool p' hp'

/-- Of the timers that were there, only some may be started or paused, while others may end;
pools go on owning their timers, and neither their pauses nor their stashes change. -/
structure Stirs (ids : List Nat) (t t' : Timing τ) : Prop where
  pool : ∀ pool p, t.pools.get? pool = some p →
    ∃ p', t'.pools.get? pool = some p' ∧ p'.paused = p.paused ∧ p'.stash = p.stash
  shift : ∀ id pool s, t.standing? id = some (pool, s) →
    ∃ s', t'.standing? id = some (pool, s') ∧ (s' = s ∨ s'.isFinished = true ∨ id ∈ ids)
  homed : t.Homed → t'.Homed
  owns : t.Homed → ∀ pool p, t.Owns pool p → ∃ p, t'.Owns pool p

namespace Stirs

variable {ids ids' : List Nat}

/-- What stirs single timers keeps custody. -/
theorem guards (h : Stirs ids t t') :
  t.Guards t'
  where
  kept id pool s hs := by
    obtain ⟨s', hs', -⟩ := h.shift id pool s hs
    exact ⟨s', hs'⟩
  homed := h.homed
  owns := h.owns

/-- What is started or paused on two stretches is listed for both together. -/
theorem trans (h : Stirs ids t t') (h' : Stirs ids t' t'') :
  Stirs ids t t''
  where
  pool pool p hp := by
    obtain ⟨p', hp', hpaused, hstash⟩ := h.pool pool p hp
    obtain ⟨p'', hp'', hpaused', hstash'⟩ := h'.pool pool p' hp'
    exact ⟨p'', hp'', hpaused'.trans hpaused, hstash'.trans hstash⟩
  shift id pool s hs := by
    obtain ⟨s', hs', hshift⟩ := h.shift id pool s hs
    obtain ⟨s'', hs'', hshift'⟩ := h'.shift id pool s' hs'
    refine ⟨s'', hs'', ?_⟩
    obtain rfl | hfinished | hid := hshift'
    · exact hshift
    · exact .inr (.inl hfinished)
    · exact .inr (.inr hid)
  homed := (h.guards.trans h'.guards).homed
  owns := (h.guards.trans h'.guards).owns

/-- More timers may be listed than are started or paused. -/
theorem mono (h : Stirs ids t t') (hids : ids ⊆ ids') :
  Stirs ids' t t'
  := by
  refine { h with shift := fun id pool s hs => ?_ }
  obtain ⟨s', hs', hshift⟩ := h.shift id pool s hs
  exact ⟨s', hs', hshift.imp_right (Or.imp_right fun hid => hids hid)⟩

/-- Pools are left alone.  Timers that are over stay so, and one that starts has a pool that is
not paused. -/
theorem of_shift (hpools : t'.pools = t.pools)
    (hshift : ∀ id, t'.standing? id = t.standing? id
      ∨ ∃ pool s s', t.standing? id = some (pool, s) ∧ t'.standing? id = some (pool, s')
        ∧ (s.isFinished = true → s'.isFinished = true)
        ∧ (s' = .running → s = .running ∨ t.isPaused pool = false)
        ∧ (s'.isFinished = true ∨ id ∈ ids)) :
  Stirs ids t t'
  where
  pool pool p hp := ⟨p, hpools ▸ hp, rfl, rfl⟩
  shift id pool s hs := by
    obtain heq | ⟨pool', s', s'', hs', hs'', -, -, hids⟩ := hshift id
    · exact ⟨s, heq ▸ hs, .inl rfl⟩
    · rw [hs] at hs'
      cases hs'
      exact ⟨s'', hs'', .inr hids⟩
  homed ht pool p hp id hid := by
    obtain ⟨s, hs⟩ := ht pool p (hpools ▸ hp) id hid
    obtain heq | ⟨pool', s', s'', hs', hs'', -⟩ := hshift id
    · exact ⟨s, heq ▸ hs⟩
    · rw [hs] at hs'
      cases hs'
      exact ⟨s'', hs''⟩
  owns ht pool p hp := by
    refine ⟨p, hpools ▸ hp.there, hp.nodup, ?_, ?_⟩
    · intro id s' hs' hunfinished
      obtain heq | ⟨pool', s, s'', hs, hs'', hfinished, -⟩ := hshift id
      · exact hp.listed id s' (heq ▸ hs') hunfinished
      · rw [hs'] at hs''
        cases hs''
        refine hp.listed id s hs ?_
        rw [← Bool.not_eq_true]
        intro hs
        rw [hfinished hs] at hunfinished
        cases hunfinished
    · rintro hpaused id s' hs' rfl
      obtain heq | ⟨pool', s, s'', hs, hs'', -, hrunning, -⟩ := hshift id
      · exact hp.still hpaused id _ (heq ▸ hs') rfl
      · rw [hs'] at hs''
        cases hs''
        obtain rfl | hpool := hrunning rfl
        · exact hp.still hpaused id _ hs rfl
        · rw [isPaused_of_get? hp.there, hpaused] at hpool
          cases hpool

/-- Pools and the standing of timers are left alone. -/
theorem frame (hpools : t'.pools = t.pools) (htimers : t'.timers = t.timers) :
  Stirs ids t t'
  := of_shift hpools fun id => .inl (standing?_congr htimers id)

theorem refl (t : Timing τ) :
  Stirs ids t t
  := frame rfl rfl

/-- The standing of some timers changes by a function. -/
theorem of_map (hpools : t'.pools = t.pools) (touched : List Nat)
    {g : Nat × TimerStatus → TimerStatus}
    (hmap : ∀ id, t'.standing? id
      = if id ∈ touched then (t.standing? id).map (fun p => (p.1, g p)) else t.standing? id)
    (hfinished : ∀ p, p.2.isFinished = true → (g p).isFinished = true)
    (hrunning : ∀ p, g p = .running → p.2 = .running ∨ t.isPaused p.1 = false)
    (hids : ∀ id ∈ touched, ∀ p, g p = p.2 ∨ (g p).isFinished = true ∨ id ∈ ids) :
  Stirs ids t t'
  := by
  refine of_shift hpools fun id => ?_
  rw [hmap]
  split
  · next hid =>
    cases hs : t.standing? id with
    | none => exact .inl rfl
    | some p =>
      obtain heq | hshift := hids id hid p
      · left
        rw [Option.map_some, heq]
      · exact .inr ⟨p.1, p.2, g p, rfl, rfl, hfinished p, hrunning p, hshift⟩
  · exact .inl rfl

/-- Timers are started that are listed, and none in a paused pool. -/
theorem startEach (t : Timing τ) (ids : List Nat) :
  Stirs ids t (t.startEach ids)
  := by
  refine of_map (pools_startEach t ids) ids (standing?_startEach t ids) ?_ ?_ ?_
  · exact fun p hp => (TimerStatus.started_of_isFinished _ hp).symm ▸ hp
  · exact fun p hp => TimerStatus.started_eq_running hp
  · exact fun id hid p => .inr (.inr hid)

/-- A timer is started unless its pool is paused. -/
theorem start (t : Timing τ) (id : Nat) :
  Stirs [id] t (t.start id).2
  := startEach t [id]

/-- Timers are paused that are listed. -/
theorem pauseEach (t : Timing τ) (ids : List Nat) :
  Stirs ids t (t.pauseEach ids)
  := by
  refine of_map (pools_pauseEach t ids) ids (standing?_pauseEach t ids) ?_ ?_ ?_
  · exact fun p hp => (TimerStatus.suspended_of_isFinished hp).symm ▸ hp
  · exact fun p hp => absurd hp (TimerStatus.suspended_ne_running _)
  · exact fun id hid p => .inr (.inr hid)

theorem pause (t : Timing τ) (id : Nat) :
  Stirs [id] t (t.pause id)
  := pauseEach t [id]

/-- Timers that are destroyed are over, and so need no list. -/
theorem destroyEach (t : Timing τ) (touched : List Nat) :
  Stirs ids t (t.destroyEach touched)
  := by
  refine of_map (pools_destroyEach t touched) touched
    (standing?_destroyEach t touched) ?_ ?_ ?_
  · exact fun _ _ => rfl
  · rintro p ⟨⟩
  · exact fun _ _ _ => .inr (.inl rfl)

/-- A timer that is destroyed is over. -/
theorem destroy (t : Timing τ) (id : Nat) :
  Stirs ids t (t.destroy id)
  := destroyEach t [id]

/-- A timer that fires is over. -/
theorem fire (t : Timing τ) (id : Nat) :
  Stirs ids t (t.fire id).2
  := by
  refine of_map (pools_fire t id) [id] (g := fun p => p.2.expired) ?_ ?_ ?_ ?_
  · intro id'
    rw [standing?_fire]
    simp [eq_comm]
  · exact fun p hp => (TimerStatus.expired_of_isFinished hp).symm ▸ hp
  · exact fun p hp => absurd hp (TimerStatus.expired_ne_running _)
  · exact fun _ _ p => (TimerStatus.expired_eq p.2).imp_right .inl

/-- A timer is set back or gets a channel. -/
theorem updateTimer (t : Timing τ) (id : Nat) {f : Timer τ → Timer τ}
    (hf : ∀ x, (f x).pool = x.pool ∧ (f x).status = x.status) :
  Stirs ids t (t.updateTimer id f)
  := by
  refine of_shift rfl fun id' => .inl ?_
  rw [standing?_updateTimer t id (g := fun s => s) fun x _ => hf x]
  split
  · simp
  · rfl

/-- A timer is paused and started again unless its pool is paused. -/
theorem restart (t : Timing τ) (id : Nat) :
  Stirs [id] t (t.restart id).2
  := by
  rw [Timing.restart]
  split
  · exact pause t id
  · refine trans ?_ (start _ id)
    exact (pause t id).trans (updateTimer _ id fun _ => ⟨rfl, rfl⟩)

/-- A timer is started for its completion unless its pool is paused. -/
theorem completion (t : Timing τ) (id : Nat) :
  Stirs [id] t (t.completion id).2
  := by
  rw [Timing.completion]
  split
  · exact refl t
  · next x _ =>
    split
    · exact refl t
    · exact refl t
    · have hopen : Stirs [id] t ((t.disconnect x.channel).openChannel) := by
        cases x.channel <;> exact frame rfl rfl
      refine trans ?_ (start _ id)
      exact hopen.trans (updateTimer _ id fun _ => ⟨rfl, rfl⟩)

/-- Taking a message off a channel stirs no timer. -/
theorem receive (t : Timing τ) (channel : Nat) :
  Stirs ids t (t.receive channel).2
  := by
  rw [Timing.receive]
  split
  · exact refl t
  · split
    · exact frame rfl rfl
    · exact refl t

/-- The clock starts and pauses nothing: a timer that falls due fires and is over. -/
theorem tick (t : Timing τ) (target : Nat) :
  Stirs ids t (t.tick target)
  := by
  rw [Timing.tick]
  split
  · next p scheduler _ =>
    have htaken : Stirs ids t { t with scheduler := scheduler } := frame rfl rfl
    split
    · exact htaken.trans (fire _ _)
    · exact htaken
  · exact frame rfl rfl

/-- A timer is made.  Its pool forgets the timers that are over. -/
theorem newTimer (t : Timing τ) (pool delay : Nat) (callback : Option τ) :
  Stirs ids t (t.newTimer pool delay callback)
  := by
  -- The number of the new timer is not that of a timer that was there.
  have hold {id : Nat} {pool' : Nat} {s : TimerStatus} (hs : t.standing? id = some (pool', s)) :
      (t.newTimer pool delay callback).standing? id = some (pool', s) := by
    rw [standing?_newTimer, if_neg, hs]
    rintro rfl
    rw [standing?_eq_none (Nat.le_refl _)] at hs
    cases hs
  have hpools (pool' : Nat) : (t.newTimer pool delay callback).pools.get? pool'
      = if pool = pool' then (t.pools.get? pool').map (fun p => { p with
          timers := p.timers.filter (fun i => !t.isFinished i) ++ [t.timers.next] })
        else t.pools.get? pool' := Table.get?_modify _ _ _ _
  constructor
  · intro pool' p hp
    rw [hpools, hp]
    split
    · exact ⟨_, rfl, rfl, rfl⟩
    · exact ⟨p, rfl, rfl, rfl⟩
  · exact fun id pool' s hs => ⟨s, hold hs, .inl rfl⟩
  · intro ht pool' p hp id hid
    rw [hpools] at hp
    split at hp
    · next heq =>
      subst heq
      obtain ⟨q, hq, rfl⟩ := Option.map_eq_some_iff.mp hp
      simp only [List.mem_append, List.mem_filter, List.mem_singleton] at hid
      obtain (⟨hid, -⟩ | rfl) | hid := hid
      · exact (ht pool q hq id (.inl hid)).imp fun s => hold
      · exact ⟨.idle, by rw [standing?_newTimer, if_pos rfl]⟩
      · exact (ht pool q hq id (.inr hid)).imp fun s => hold
    · exact (ht pool' p hp id hid).imp fun s => hold
  · intro ht pool' p hp
    have hnew {id : Nat} {s : TimerStatus}
        (hs : (t.newTimer pool delay callback).standing? id = some (pool', s)) :
        (id = t.timers.next ∧ pool = pool' ∧ s = .idle) ∨ t.standing? id = some (pool', s) := by
      rw [standing?_newTimer] at hs
      split at hs
      · next heq =>
        cases hs
        exact .inl ⟨heq, rfl, rfl⟩
      · exact .inr hs
    have hstill : p.paused = true → ∀ id s,
        (t.newTimer pool delay callback).standing? id = some (pool', s) → s ≠ .running := by
      intro hpaused id s hs
      obtain ⟨-, -, rfl⟩ | hs := hnew hs
      · rintro ⟨⟩
      · exact hp.still hpaused id s hs
    by_cases heq : pool = pool'
    · subst heq
      refine ⟨{ p with timers := p.timers.filter (fun i => !t.isFinished i) ++ [t.timers.next] },
        ?_, ?_, ?_, hstill⟩
      · rw [hpools, if_pos rfl, hp.there]
        rfl
      · refine (hp.nodup.filter _).append (List.nodup_singleton _) ?_
        intro id hid hnext
        obtain ⟨s, hs⟩ := ht pool p hp.there id (.inl (List.mem_filter.mp hid).1)
        rw [List.mem_singleton.mp hnext, standing?_eq_none (Nat.le_refl _)] at hs
        cases hs
      · intro id s hs hunfinished
        rw [List.mem_append, List.mem_filter, List.mem_singleton]
        obtain ⟨hid, -⟩ | hs := hnew hs
        · exact .inr hid
        · refine .inl ⟨hp.listed id s hs hunfinished, ?_⟩
          rw [isFinished, status?_of_standing? hs]
          simp [hunfinished]
    · refine ⟨p, ?_, hp.nodup, ?_, hstill⟩
      · rw [hpools, if_neg heq, hp.there]
      · intro id s hs hunfinished
        obtain ⟨-, heq', -⟩ | hs := hnew hs
        · exact absurd heq' heq
        · exact hp.listed id s hs hunfinished

/-- A pool is made. -/
theorem addPool (t : Timing τ) :
  Stirs ids t { t with pools := t.pools.add .empty }
  := by
  have hpools (pool : Nat) (p : TimerPool) (hp : t.pools.get? pool = some p) :
      (t.pools.add .empty).get? pool = some p := by
    rw [Table.get?_add, if_neg, hp]
    exact Nat.ne_of_lt (Table.lt_next_of_get? hp)
  constructor
  · exact fun pool p hp => ⟨p, hpools pool p hp, rfl, rfl⟩
  · exact fun id pool s hs => ⟨s, hs, .inl rfl⟩
  · intro ht pool p hp id hid
    simp only [Table.get?_add] at hp
    split at hp
    · obtain rfl := Option.some.inj hp
      obtain hid | hid := hid <;> cases hid
    · exact ht pool p hp id hid
  · exact fun _ pool p hp => ⟨p, hpools pool p hp.there, hp.nodup, hp.listed, hp.still⟩

/-- What engines do by themselves starts and pauses no timer that was there. -/
theorem covers :
  Covers fun t t' : Timing τ => Stirs [] t t'
  where
  refl := refl
  trans := trans
  arm t pool delay callback := by
    have hmade : Stirs [] t (t.newTimer pool delay callback) := newTimer t pool delay callback
    have hstart := start (t.newTimer pool delay callback) t.timers.next
    refine { (hmade.mono (List.nil_subset [t.timers.next])).trans hstart with shift := ?_ }
    -- Only the new timer starts.
    intro id pool' s hs
    obtain ⟨s', hs', hshift⟩ := hmade.shift id pool' s hs
    refine ⟨s', ?_, hshift⟩
    rw [standing?_start, if_neg, hs']
    rintro rfl
    rw [standing?_eq_none (Nat.le_refl _)] at hs
    cases hs
  destroy t id := destroy t id
  announce t channel completion :=
    frame (pools_announce t channel completion) (timers_announce t channel completion)

end Stirs

/-! ### Operations on pools -/

/-- A pool changes.  What it lists or stashes it listed or stashed before. -/
theorem guards_updatePool (t : Timing τ) (pool : Nat) {g : TimerPool → TimerPool}
    (hhome : ∀ p, t.pools.get? pool = some p → ∀ id, id ∈ (g p).timers ∨ id ∈ (g p).stash →
      id ∈ p.timers ∨ id ∈ p.stash)
    (howns : ∀ p, t.Owns pool p → (g p).timers.Nodup
      ∧ (∀ id s, t.standing? id = some (pool, s) → s.isFinished = false → id ∈ (g p).timers)
      ∧ ((g p).paused = true → ∀ id s, t.standing? id = some (pool, s) → s ≠ .running)) :
  t.Guards (t.updatePool pool g)
  where
  kept id pool s hs := ⟨s, hs⟩
  homed ht pool' p hp := by
    simp only [updatePool, Table.get?_modify] at hp
    split at hp
    · next heq =>
      subst heq
      obtain ⟨q, hq, rfl⟩ := Option.map_eq_some_iff.mp hp
      exact fun id hid => ht pool q hq id (hhome q hq id hid)
    · exact ht pool' p hp
  owns ht pool' p hp := by
    by_cases heq : pool = pool'
    · subst heq
      obtain ⟨hnodup, hlisted, hstill⟩ := howns p hp
      refine ⟨g p, ?_, hnodup, hlisted, hstill⟩
      rw [updatePool, Table.get?_modify, if_pos rfl, hp.there]
      rfl
    · refine ⟨p, ?_, hp.nodup, hp.listed, hp.still⟩
      rw [updatePool, Table.get?_modify, if_neg heq, hp.there]

/-- The stash of a pool changes, or its pause ends. -/
theorem guards_stash (t : Timing τ) (pool : Nat) {g : TimerPool → TimerPool}
    (htimers : ∀ p, (g p).timers = p.timers)
    (hstash : ∀ p, t.pools.get? pool = some p → ∀ id ∈ (g p).stash,
      id ∈ p.timers ∨ id ∈ p.stash)
    (hpaused : ∀ p, (g p).paused = true → p.paused = true) :
  t.Guards (t.updatePool pool g)
  := by
  refine guards_updatePool t pool ?_ ?_
  · intro p hp id hid
    obtain hid | hid := hid
    · exact .inl (htimers p ▸ hid)
    · exact hstash p hp id hid
  · intro p hp
    rw [htimers]
    exact ⟨hp.nodup, hp.listed, fun h => hp.still (hpaused p h)⟩

/-- A start of a pool ends its pause before its timers run. -/
theorem guards_startAll (t : Timing τ) (pool : Nat) :
  t.Guards (t.startAll pool)
  := (guards_stash t pool (g := fun p => { p with paused := false }) (fun _ => rfl)
    (fun _ _ _ => .inr) fun _ h => absurd h Bool.false_ne_true).trans (Stirs.startEach _ _).guards

/-- Waking a pool starts what it has stashed, and empties the stash. -/
theorem guards_wake (t : Timing τ) (pool : Nat) :
  t.Guards (t.wake pool)
  := (guards_stash t pool (g := fun p => { p with stash := [] }) (fun _ => rfl)
    (fun _ _ _ h => absurd h List.not_mem_nil) fun _ h => h).trans (Stirs.startEach _ _).guards

/-- A pool that is put on standby stashes timers of its own. -/
theorem guards_standby (t : Timing τ) (pool : Nat) :
  t.Guards (t.standby pool)
  := by
  have hpruned := guards_stash t pool (g := fun p =>
      { p with stash := p.stash.filter fun id => !t.isFinished id }) (fun _ => rfl)
    (fun _ _ _ h => .inr (List.mem_filter.mp h).1) fun _ h => h
  rw [standby]
  split
  · exact hpruned
  · refine (hpruned.trans
      (Stirs.pauseEach _ ((t.timersOf pool).filter t.isRunning)).guards).trans ?_
    refine guards_stash _ pool (fun _ => rfl) ?_ fun _ h => h
    intro p hp id hstash
    obtain hid | hid := List.mem_append.mp hstash
    · exact .inr hid
    · left
      rw [pools_pauseEach, updatePool, Table.get?_modify, if_pos rfl] at hp
      obtain ⟨q, hq, rfl⟩ := Option.map_eq_some_iff.mp hp
      rw [timersOf_of_get? hq] at hid
      exact (List.mem_filter.mp hid).1

/-- Pausing a timer and changing a pool do not interfere. -/
theorem pause_updatePool (t : Timing τ) (pool : Nat) (g : TimerPool → TimerPool) (id : Nat) :
  (t.updatePool pool g).pause id = (t.pause id).updatePool pool g
  := by
  rw [pause, pause]
  cases hx : t.timers.get? id with
  | none => simp only [updatePool, hx]
  | some x =>
    simp only [updatePool, hx]
    split
    · rw [cancelTask, cancelTask]
      split <;> rfl
    · rfl

/-- Destroying a timer and changing a pool do not interfere. -/
theorem destroy_updatePool (t : Timing τ) (pool : Nat) (g : TimerPool → TimerPool) (id : Nat) :
  (t.updatePool pool g).destroy id = (t.destroy id).updatePool pool g
  := by
  rw [destroy, destroy]
  cases hx : t.timers.get? id with
  | none => simp only [updatePool, hx]
  | some x =>
    simp only [updatePool, hx]
    split
    · rfl
    · rw [cancelTask, cancelTask]
      split <;> cases x.channel <;> rfl

/-- An operation on one timer after another that does not look at a pool. -/
theorem foldl_updatePool {f : Timing τ → Nat → Timing τ} {g : TimerPool → TimerPool}
    (hf : ∀ t id, f (t.updatePool pool g) id = (f t id).updatePool pool g) (t : Timing τ)
    (ids : List Nat) :
  ids.foldl f (t.updatePool pool g) = (ids.foldl f t).updatePool pool g
  := by
  induction ids generalizing t with
  | nil => rfl
  | cons id rest ih => rw [List.foldl_cons, List.foldl_cons, hf, ih]

/-- A pool is paused when none of its timers runs any more. -/
theorem guards_pauseAll (t : Timing τ) (pool : Nat) :
  t.Guards (t.pauseAll pool)
  := by
  rw [pauseAll, pauseEach, foldl_updatePool (fun t id => pause_updatePool t pool _ id)]
  refine (Stirs.pauseEach t _).guards.trans (guards_updatePool _ pool ?_ ?_)
  · exact fun _ _ _ hid => hid
  · intro p hp
    refine ⟨hp.nodup, hp.listed, fun _ id s hs => ?_⟩
    have hids : t.timersOf pool = p.timers :=
      timersOf_of_get? (pools_pauseEach t _ ▸ hp.there)
    rintro rfl
    have hid := hp.listed id .running hs rfl
    rw [standing?_pauseEach, hids, if_pos hid] at hs
    obtain ⟨q, -, heq⟩ := Option.map_eq_some_iff.mp hs
    exact TimerStatus.suspended_ne_running q.2 (Prod.mk.inj heq).2

/-- A pool forgets its timers when all of them are over. -/
theorem guards_destroyAll (t : Timing τ) (pool : Nat) :
  t.Guards (t.destroyAll pool)
  := by
  rw [destroyAll, destroyEach, foldl_updatePool (fun t id => destroy_updatePool t pool _ id)]
  have hdestroyed : Stirs [] t (t.destroyEach (t.timersOf pool)) := .destroyEach t _
  refine hdestroyed.guards.trans (guards_updatePool _ pool ?_ ?_)
  · rintro p - id (hid | hid) <;> cases hid
  · intro p hp
    refine ⟨.nil, fun id s hs hunfinished => ?_, hp.still⟩
    have hids : t.timersOf pool = p.timers :=
      timersOf_of_get? (pools_destroyEach t _ ▸ hp.there)
    have hid := hp.listed id s hs hunfinished
    rw [standing?_destroyEach, hids, if_pos hid] at hs
    obtain ⟨q, -, heq⟩ := Option.map_eq_some_iff.mp hs
    obtain ⟨-, rfl⟩ := Prod.mk.inj heq
    cases hunfinished

/-! ### All timers of a pool -/

/-- After all timers of a pool were started, each of them runs or is over. -/
theorem standing?_startAll {id : Nat} {s : TimerStatus} (h : t.Owns pool p)
    (hs : (t.startAll pool).standing? id = some (pool, s)) :
  s = .running ∨ s.isFinished = true
  := by
  rw [startAll, standing?_startEach] at hs
  split at hs
  · obtain ⟨⟨pool', s'⟩, hs', heq⟩ := Option.map_eq_some_iff.mp hs
    obtain ⟨rfl, rfl⟩ := Prod.mk.inj heq
    have hpaused : (t.updatePool pool' fun p => { p with paused := false }).isPaused pool'
        = false := by
      rw [isPaused, updatePool, Table.get?_modify, if_pos rfl, h.there]
      rfl
    rw [hpaused]
    exact TimerStatus.started_false s'
  · next hid =>
    right
    rw [timersOf_of_get? h.there] at hid
    by_contra hunfinished
    exact hid (h.listed id s hs (by simpa using hunfinished))

/-- After all timers of a pool were destroyed, each of them is over. -/
theorem standing?_destroyAll {id : Nat} {s : TimerStatus} (h : t.Owns pool p)
    (hs : (t.destroyAll pool).standing? id = some (pool, s)) :
  s.isFinished = true
  := by
  rw [destroyAll, standing?_destroyEach] at hs
  split at hs
  · obtain ⟨q, -, heq⟩ := Option.map_eq_some_iff.mp hs
    obtain ⟨-, rfl⟩ := Prod.mk.inj heq
    rfl
  · next hid =>
    rw [timersOf_of_get? h.there] at hid
    by_contra hunfinished
    exact hid (h.listed id s hs (by simpa using hunfinished))

/-- The timers that a pool made and that are not over. -/
def unfinished (t : Timing τ) (pool : Nat) : List Nat :=
  (List.range t.timers.next).filter fun id =>
    match t.standing? id with
    | some (pool', s) => pool' = pool && !s.isFinished
    | none => false

/-- The unfinished timers of a pool, by their standing. -/
theorem mem_unfinished {id : Nat} :
  id ∈ t.unfinished pool ↔ ∃ s, t.standing? id = some (pool, s) ∧ s.isFinished = false
  := by
  rw [unfinished, List.mem_filter, List.mem_range]
  constructor
  · rintro ⟨-, hid⟩
    split at hid
    · next pool' s hs =>
      simp only [Bool.and_eq_true, decide_eq_true_eq, Bool.not_eq_true'] at hid
      obtain ⟨rfl, hunfinished⟩ := hid
      exact ⟨s, hs, hunfinished⟩
    · cases hid
  · rintro ⟨s, hs, hunfinished⟩
    refine ⟨?_, by simp [hs, hunfinished]⟩
    by_contra hle
    rw [standing?_eq_none (Nat.not_lt.mp hle)] at hs
    cases hs

/-- A pool counts the timers that it made and that are not over. -/
theorem Owns.live_eq (h : t.Owns pool p) (ht : t.Homed) :
  t.live pool = (t.unfinished pool).length
  := by
  rw [live, timersOf_of_get? h.there]
  refine List.Perm.length_eq ?_
  refine (List.perm_ext_iff_of_nodup (h.nodup.filter _) (List.nodup_range.filter _)).mpr ?_
  intro id
  rw [← unfinished, mem_unfinished, List.mem_filter]
  constructor
  · rintro ⟨hid, hunfinished⟩
    obtain ⟨s, hs⟩ := ht pool p h.there id (.inl hid)
    refine ⟨s, hs, ?_⟩
    rw [isFinished, status?_of_standing? hs] at hunfinished
    simpa using hunfinished
  · rintro ⟨s, hs, hunfinished⟩
    refine ⟨h.listed id s hs hunfinished, ?_⟩
    rw [isFinished, status?_of_standing? hs]
    simp [hunfinished]

end Timing

/-- An operation of the host on timers leaves them with their pools. -/
theorem Call.guards {call : Call κ} {f : Timing (Callback κ) → Timing (Callback κ)}
    (hf : call.operation? = some f) (t : Timing (Callback κ)) :
  t.Guards (f t)
  := by
  cases call with
  | schedule | cancel =>
    cases hf
    exact Timing.Stirs.guards (show Timing.Stirs [] t _ from .frame rfl rfl)
  | newTimer =>
    cases hf
    exact Timing.Stirs.guards (show Timing.Stirs [] t _ from .newTimer t _ _ _)
  | startTimer =>
    cases hf
    exact (Timing.Stirs.start t _).guards
  | pauseTimer =>
    cases hf
    exact (Timing.Stirs.pause t _).guards
  | restartTimer =>
    cases hf
    exact (Timing.Stirs.restart t _).guards
  | destroyTimer =>
    cases hf
    exact Timing.Stirs.guards (show Timing.Stirs [] t _ from .destroy t _)
  | completion =>
    cases hf
    exact (Timing.Stirs.completion t _).guards
  | receive =>
    cases hf
    exact Timing.Stirs.guards (show Timing.Stirs [] t _ from .receive t _)
  | pauseAll =>
    cases hf
    exact Timing.guards_pauseAll t _
  | startAll =>
    cases hf
    exact Timing.guards_startAll t _
  | standby =>
    cases hf
    exact Timing.guards_standby t _
  | wake =>
    cases hf
    exact Timing.guards_wake t _
  | destroyAll =>
    cases hf
    exact Timing.guards_destroyAll t _
  | _ => cases hf

namespace Configuration

variable {H : Host κ π σ} {cs before after : List (Configuration κ π σ)}
  {a b c d : Configuration κ π σ} {pool : Nat} {p : TimerPool}

/-! ### Runs -/

/-- However a run goes on, timers stay with their pools. -/
theorem Evolves.guards (h : Evolves H c d) :
  c.engine.timing.Guards d.engine.timing
  := by
  cases h with
  | step _ hstep =>
    obtain ⟨f, hf, -, htiming⟩ | ⟨target, -, -, hstirs⟩ | ⟨-, -, hstirs⟩ :=
      Timing.Stirs.covers.step hstep
    · obtain ⟨call, point, -, hf⟩ := exists_call_of_operation? hf
      exact htiming ▸ call.guards hf _
    · exact ((Timing.Stirs.tick _ target).trans hstirs).guards
    · exact hstirs.guards
  | enter memory code =>
    exact (Timing.Stirs.covers.enter (c := idle c.engine memory) (.refl _) code).guards
  | addRegistry => exact .refl _
  | addPool => exact Timing.Stirs.guards (show Timing.Stirs [] _ _ from .addPool _)

/-- In every run pools list and stash timers that they made. -/
theorem Run.homed (h : Run H cs c) :
  c.engine.timing.Homed
  := h.invariant (fun _ => Timing.homed_empty) fun hc hstep => hstep.guards.homed hc

/-- Since a pool was made it owns its timers. -/
theorem Run.pool_owns (h : Run H (before ++ a :: after) c)
    (hpool : a.engine.timing.pools.get? pool = some .empty)
    (hnew : ∀ id x, a.engine.timing.timers.get? id = some x → x.pool ≠ pool) :
  ∃ p, c.engine.timing.Owns pool p
  := by
  refine h.since (p := fun _ c => ∃ p, c.engine.timing.Owns pool p) ?_ ?_
  · exact ⟨.empty, Timing.owns_of_new hpool hnew⟩
  · rintro rest c d hrun hstep ⟨p, hp⟩
    exact hstep.guards.owns hrun.homed pool p hp

/-- From one configuration of a run to a later one custody is kept. -/
theorem Run.guards (h : Run H cs c) (hb : b ∈ cs) :
  b.engine.timing.Guards c.engine.timing
  := h.related (p := fun b c => b.engine.timing.Guards c.engine.timing)
    (fun _ hstep => hstep.guards) .trans hb

/-- The custody of a pool over the timers that it made.  A timer stays with its pool.  As long
as it is not over it is in the list of the pool exactly once, so that the pool counts the timers
that it made and that are not over.

While the pool is paused none of its timers runs, and the clock calls nothing with one of them.
After it has started all of them none is idle or paused, and after it has destroyed all of them
each one that it ever made is over. -/
theorem Run.custody (h : Run H (before ++ a :: after) c)
    (hpool : a.engine.timing.pools.get? pool = some .empty)
    (hnew : ∀ id x, a.engine.timing.timers.get? id = some x → x.pool ≠ pool) :
  (∀ b ∈ a :: after, ∀ id x, b.engine.timing.timers.get? id = some x →
      ∃ y, c.engine.timing.timers.get? id = some y ∧ y.pool = x.pool)
    ∧ (∀ id x, c.engine.timing.timers.get? id = some x → x.pool = pool →
      x.status.isFinished = false → (c.engine.timing.timersOf pool).count id = 1)
    ∧ c.engine.timing.live pool = (c.engine.timing.unfinished pool).length
    ∧ (c.engine.timing.isPaused pool = true →
      ∀ id x, c.engine.timing.timers.get? id = some x → x.pool = pool →
        x.status ≠ .running ∧ ∀ cb, ¬Fires id cb c)
    ∧ (∀ point, c.control = .host (.call (.startAll pool) point) →
      ∃ d, step? H c = some d ∧ ∀ id x, d.engine.timing.timers.get? id = some x →
        x.pool = pool → x.status ≠ .idle ∧ x.status ≠ .paused)
    ∧ ∀ point, c.control = .host (.call (.destroyAll pool) point) →
      ∃ d, step? H c = some d ∧ ∀ id x, d.engine.timing.timers.get? id = some x →
        x.pool = pool → x.status.isFinished = true
  := by
  obtain ⟨p, hp⟩ := h.pool_owns hpool hnew
  have hstanding {t : Timing (Callback κ)} {id : Nat} {x : Timer (Callback κ)}
      (hx : t.timers.get? id = some x) (hxp : x.pool = pool) :
      t.standing? id = some (pool, x.status) := hxp ▸ Timing.standing?_of_get? hx
  refine ⟨?_, ?_, hp.live_eq h.homed, ?_, ?_, ?_⟩
  · intro b hb id x hx
    obtain ⟨s, hs⟩ := (h.guards (List.mem_append_right before hb)).kept id _ _
      (Timing.standing?_of_get? hx)
    obtain ⟨y, hy, heq⟩ := Option.map_eq_some_iff.mp hs
    exact ⟨y, hy, (Prod.mk.inj heq).1⟩
  · intro id x hx hxp hunfinished
    rw [Timing.timersOf_of_get? hp.there]
    exact List.count_eq_one_of_mem hp.nodup (hp.listed id _ (hstanding hx hxp) hunfinished)
  · intro hpaused id x hx hxp
    have hresting := hp.still (Timing.isPaused_of_get? hp.there ▸ hpaused) id _ (hstanding hx hxp)
    refine ⟨hresting, fun cb hfires => ?_⟩
    obtain ⟨target, below, reply, -, -, hdue⟩ := hfires
    obtain ⟨y, hy, hrunning, -⟩ := exists_timer_of_due? hdue
    rw [hx] at hy
    obtain rfl := Option.some.inj hy
    exact hresting hrunning
  · intro point hcontrol
    rw [step?, hcontrol]
    refine ⟨_, rfl, fun id x hx hxp => ?_⟩
    obtain hrunning | hfinished := Timing.standing?_startAll hp (hstanding hx hxp)
    · rw [hrunning]
      exact ⟨by decide, by decide⟩
    · constructor <;> intro hs <;> rw [hs] at hfinished <;> cases hfinished
  · intro point hcontrol
    rw [step?, hcontrol]
    exact ⟨_, rfl, fun id x hx hxp => Timing.standing?_destroyAll hp (hstanding hx hxp)⟩

/-- A timer is started, and its pool is paused; another one is made, and the clock goes on. -/
def frozen : Script Unit :=
  [.newTimer 0 5 (some ()), .startTimer 0, .pauseAll 0, .newTimer 0 7 none, .startTimer 1,
    .advance 10]

/-- The relay begins with a pool that was just made. -/
def pooled : Configuration Unit (Script Unit) Unit := idle Engine.empty.addPool ()

theorem pools_pooled :
  pooled.engine.timing.pools.get? 0 = some .empty
  := rfl

theorem timers_pooled (id : Nat) (x : Timer (Callback Unit))
    (hx : pooled.engine.timing.timers.get? id = some x) :
  x.pool ≠ 0
  := by
  rw [show pooled.engine.timing.timers = .empty from rfl, Table.get?_empty] at hx
  cases hx

/-- The configurations since the pool of the relay was made. -/
def pooledRun (calls : Script Unit) (n : Nat) : List (Configuration Unit (Script Unit) Unit) :=
  (relayRun calls n).1.tail.tail

theorem run_pooledRun {calls : Script Unit} {n : Nat}
    (hcalls : ((relayRun calls n).1.drop 3).all (fun c => !c.hands) = true) :
  Run relayHost ([idle .empty ()] ++ pooled :: pooledRun calls n) (relayRun calls n).2
  := run_relayRun hcalls

/-- Neither of the two timers runs, although the clock has passed the time of the first one. -/
theorem relay_custody :
  (relayRun frozen 15).2.engine.timing.isPaused 0 = true
    ∧ (relayRun frozen 15).2.engine.timing.now = 10
    ∧ (relayRun frozen 15).2.engine.timing.unfinished 0 = [0, 1]
    ∧ (relayRun frozen 15).2.engine.timing.live 0 = 2
    ∧ ∀ id x, (relayRun frozen 15).2.engine.timing.timers.get? id = some x → x.pool = 0 →
      x.status ≠ .running ∧ ∀ cb, ¬Fires id cb (relayRun frozen 15).2
  := by
  have hrun := @run_pooledRun frozen 15 (by decide +kernel)
  obtain ⟨-, -, hlive, hpaused, -⟩ := hrun.custody pools_pooled timers_pooled
  have hfrozen : (relayRun frozen 15).2.engine.timing.isPaused 0 = true := by decide +kernel
  have hunfinished : (relayRun frozen 15).2.engine.timing.unfinished 0 = [0, 1] := by
    decide +kernel
  exact ⟨hfrozen, by decide +kernel, hunfinished, hlive.trans (congrArg _ hunfinished),
    hpaused hfrozen⟩

end Configuration

end Statechart
