import Statechart.Proofs.Operation

/-!
# Channels of timers

A channel on which a timer is to announce its completion is attached to the timer until it ends.
If it fires, the completion is announced after its callback; if it is destroyed, at once; and if
another channel is attached before, the first one loses its sender.  This module says for every
operation on timers at which of these stages it leaves a channel (`Timing.Channelled`).
-/

namespace Statechart

variable {κ τ : Type}

/-- Where a channel of a timer stands: it is attached to the timer; the callback of the timer is
being called; the completion has been announced, and waits unless it was received; another channel
has taken its place. -/
inductive Stage where
  | attached
  | calling
  | announced (message : Option Completion)
  | displaced
deriving DecidableEq

namespace Stage

/-- What is on a channel at a stage. -/
def content : Stage → Channel
  | attached => ⟨none, true⟩
  | calling => ⟨none, true⟩
  | announced message => ⟨message, false⟩
  | displaced => ⟨none, false⟩

/-- What a stage of a channel says of its timer: whether it is over, and which channel is attached
to it. -/
def Fits (stage : Stage) (ch : Nat) (finished : Bool) (channel : Option Nat) : Prop :=
  match stage with
  | attached => finished = false ∧ channel = some ch
  | displaced => channel ≠ some ch
  | _ => finished = true ∧ channel ≠ some ch

/-- What becomes of a stage when timers are destroyed. -/
def Ends (stage stage' : Stage) : Prop :=
  stage' = stage ∨ stage = attached ∧ stage' = announced (some .cancelled)

/-- What becomes of a stage when the channel is read. -/
def read : Stage → Stage
  | announced _ => announced none
  | stage => stage

variable {stage stage' stage'' : Stage} {ch : Nat} {finished : Bool} {channel : Option Nat}

/-- A channel that was cancelled is not cancelled again. -/
theorem Ends.trans (h : stage.Ends stage') (h' : stage'.Ends stage'') :
  stage.Ends stage''
  := by
  obtain rfl | ⟨rfl, rfl⟩ := h
  · exact h'
  · obtain rfl | ⟨hattached, -⟩ := h'
    · exact .inr ⟨rfl, rfl⟩
    · cases hattached

/-- The channel that a timer holds is the attached one. -/
theorem Fits.eq_attached (h : stage.Fits ch finished (some ch)) :
  stage = attached
  := by
  cases stage with
  | attached => rfl
  | displaced => exact absurd rfl h
  | calling | announced => exact absurd rfl h.2

/-- A timer that is over holds no channel, whatever came of the one it had. -/
theorem fits_over (h : stage ≠ attached) :
  stage.Fits ch true none
  := by
  cases stage with
  | attached => exact absurd rfl h
  | displaced => exact (Option.some_ne_none ch).symm
  | calling | announced => exact ⟨rfl, (Option.some_ne_none ch).symm⟩

/-- As long as the timer is not over, its channel is attached to it, or another one is. -/
theorem Fits.of_unfinished (h : stage.Fits ch false channel) :
  stage = attached ∨ stage = displaced
  := by
  cases stage with
  | attached => exact .inl rfl
  | displaced => exact .inr rfl
  | calling | announced => cases h.1

end Stage

namespace Timing

variable {t t' t'' : Timing τ}

/-- Whether a timer is over, and the channel that is attached to it. -/
def attached? (t : Timing τ) (id : Nat) : Option (Bool × Option Nat) :=
  (t.timers.get? id).map fun x => (x.status.isFinished, x.channel)

/-- What is attached to a timer that is there. -/
theorem attached?_of_get? {id : Nat} {x : Timer τ} (h : t.timers.get? id = some x) :
  t.attached? id = some (x.status.isFinished, x.channel)
  := by
  rw [attached?, h]
  rfl

/-- What is attached depends on the timers alone. -/
theorem attached?_congr (h : t'.timers = t.timers) (id : Nat) :
  t'.attached? id = t.attached? id
  := by
  rw [attached?, h, attached?]

/-- A timer changes. -/
theorem attached?_updateTimer {id : Nat} {x : Timer τ} (hx : t.timers.get? id = some x)
    (f : Timer τ → Timer τ) (id' : Nat) :
  (t.updateTimer id f).attached? id'
    = if id = id' then some ((f x).status.isFinished, (f x).channel) else t.attached? id'
  := by
  rw [attached?, updateTimer, get?_modify_timer hx]
  split <;> rfl

/-! ### Channels -/

/-- An announcement is put on its channel and closes it. -/
theorem get?_announce (t : Timing τ) (channel : Option Nat) (completion : Completion) (ch : Nat) :
  (t.announce channel completion).channels.get? ch
    = if channel = some ch then (t.channels.get? ch).map (fun _ => ⟨some completion, false⟩)
      else t.channels.get? ch
  := by
  cases channel with
  | none => rfl
  | some c => simp [announce, Table.get?_modify]

/-- A channel that is given up is closed, and keeps a message. -/
theorem get?_disconnect (t : Timing τ) (channel : Option Nat) (ch : Nat) :
  (t.disconnect channel).channels.get? ch
    = if channel = some ch then (t.channels.get? ch).map (fun c => { c with isOpen := false })
      else t.channels.get? ch
  := by
  cases channel with
  | none => rfl
  | some c => simp [disconnect, Table.get?_modify]

theorem next_announce (t : Timing τ) (channel : Option Nat) (completion : Completion) :
  (t.announce channel completion).channels.next = t.channels.next
  := by
  cases channel with
  | none => rfl
  | some c => exact Table.next_modify _ _ _

theorem next_disconnect (t : Timing τ) (channel : Option Nat) :
  (t.disconnect channel).channels.next = t.channels.next
  := by
  cases channel with
  | none => rfl
  | some c => exact Table.next_modify _ _ _

theorem channels_cancelTask (t : Timing τ) (x : Timer τ) :
  (t.cancelTask x).channels = t.channels
  := by
  rw [cancelTask]
  split <;> rfl

/-! ### Operations that leave channels alone -/

/-- Channels are left alone, and so is what is attached to timers; a new timer has no channel. -/
structure Leaves (t t' : Timing τ) : Prop where
  channels : t'.channels = t.channels
  attached : ∀ id, t'.attached? id = t.attached? id
    ∨ t.attached? id = none ∧ t'.attached? id = some (false, none)

namespace Leaves

/-- Whatever else changes, timers and channels are left alone. -/
theorem of_timers_eq (hchannels : t'.channels = t.channels) (htimers : t'.timers = t.timers) :
  t.Leaves t'
  := ⟨hchannels, fun id => .inl (attached?_congr htimers id)⟩

theorem refl (t : Timing τ) :
  t.Leaves t
  := of_timers_eq rfl rfl

theorem trans (h : t.Leaves t') (h' : t'.Leaves t'') :
  t.Leaves t''
  where
  channels := h'.channels.trans h.channels
  attached id := by
    obtain heq' | ⟨hnone', hnew'⟩ := h'.attached id
    · rw [heq']
      exact h.attached id
    · obtain heq | ⟨-, hnew⟩ := h.attached id
      · exact .inr ⟨heq.symm.trans hnone', hnew'⟩
      · rw [hnew] at hnone'
        cases hnone'

theorem updatePool (t : Timing τ) (pool : Nat) (f : TimerPool → TimerPool) :
  t.Leaves (t.updatePool pool f)
  := of_timers_eq rfl rfl

/-- A timer changes that keeps its channel and is no more over than it was. -/
theorem updateTimer (t : Timing τ) (id : Nat) {f : Timer τ → Timer τ}
    (hf : ∀ x, t.timers.get? id = some x →
      (f x).status.isFinished = x.status.isFinished ∧ (f x).channel = x.channel) :
  t.Leaves (t.updateTimer id f)
  where
  channels := rfl
  attached id' := by
    left
    cases hx : t.timers.get? id with
    | none =>
      rw [attached?, Timing.updateTimer, Table.get?_modify, attached?]
      split
      · next heq => rw [← heq, hx, Option.map_none]
      · rfl
    | some x =>
      rw [attached?_updateTimer hx]
      split
      · next heq => rw [(hf x hx).1, (hf x hx).2, ← heq, attached?_of_get? hx]
      · rfl

/-- Starting a timer leaves its channel attached. -/
theorem start (t : Timing τ) (id : Nat) :
  t.Leaves (t.start id).2
  := by
  rw [Timing.start]
  split
  · exact refl t
  · next x hx =>
    split
    · next hcan =>
      have hwaits : x.status.isFinished = false := by
        simp only [canStart, Bool.and_eq_true, Bool.or_eq_true, decide_eq_true_eq] at hcan
        obtain ⟨-, hidle | hpaused⟩ := hcan
        · rw [hidle]
          rfl
        · rw [hpaused]
          rfl
      refine ⟨rfl, (updateTimer t id ?_).attached⟩
      intro y hy
      obtain rfl := Option.some.inj (hx.symm.trans hy)
      exact ⟨hwaits.symm, rfl⟩
    · exact refl t

/-- Pausing a timer leaves its channel attached. -/
theorem pause (t : Timing τ) (id : Nat) :
  t.Leaves (t.pause id)
  := by
  rw [Timing.pause]
  split
  · exact refl t
  · next x hx =>
    split
    · next hrunning =>
      refine trans (of_timers_eq (channels_cancelTask t x) (timers_cancelTask t x))
        (updateTimer _ id ?_)
      intro y hy
      rw [timers_cancelTask] at hy
      obtain rfl := Option.some.inj (hx.symm.trans hy)
      rw [hrunning]
      exact ⟨rfl, rfl⟩
    · exact refl t

/-- Restarting a timer leaves its channel attached. -/
theorem restart (t : Timing τ) (id : Nat) :
  t.Leaves (t.restart id).2
  := by
  rw [Timing.restart]
  split
  · exact pause t id
  · refine trans (trans (pause t id) (updateTimer _ id ?_)) (start _ id)
    exact fun _ _ => ⟨rfl, rfl⟩

/-- A new timer has no channel. -/
theorem newTimer (t : Timing τ) (pool delay : Nat) (callback : Option τ) :
  t.Leaves (t.newTimer pool delay callback)
  where
  channels := rfl
  attached id := by
    rw [attached?, attached?, Timing.newTimer, Table.get?_add]
    split
    · next hnew =>
      subst hnew
      rw [Table.get?_eq_none_of_le _ (Nat.le_refl _)]
      exact .inr ⟨rfl, rfl⟩
    · exact .inl rfl

/-- Operations on one timer after another that leave channels alone. -/
theorem foldl {f : Timing τ → Nat → Timing τ} (hf : ∀ t id, Leaves t (f t id)) (t : Timing τ)
    (ids : List Nat) :
  t.Leaves (ids.foldl f t)
  := List.foldlRecOn ids f (motive := t.Leaves) (refl t) fun _ h id _ => h.trans (hf _ id)

theorem pauseAll (t : Timing τ) (pool : Nat) :
  t.Leaves (t.pauseAll pool)
  := (updatePool t pool _).trans (foldl pause _ _)

theorem startAll (t : Timing τ) (pool : Nat) :
  t.Leaves (t.startAll pool)
  := (updatePool t pool _).trans (foldl start _ _)

/-- Timers that are woken keep their channels. -/
theorem wake (t : Timing τ) (pool : Nat) :
  t.Leaves (t.wake pool)
  := (updatePool t pool _).trans (foldl start _ _)

/-- Timers on standby keep their channels. -/
theorem standby (t : Timing τ) (pool : Nat) :
  t.Leaves (t.standby pool)
  := by
  rw [Timing.standby]
  simp only
  split
  · exact updatePool t pool _
  · exact ((updatePool t pool _).trans (foldl pause _ _)).trans (updatePool _ pool _)

end Leaves

/-! ### A channel of a timer -/

/-- The channel `ch` of the timer `id` is at a stage. -/
structure Channelled (t : Timing τ) (id ch : Nat) (stage : Stage) : Prop where
  content : t.channels.get? ch = some stage.content
  own : ∃ finished channel,
    t.attached? id = some (finished, channel) ∧ stage.Fits ch finished channel
  others : ∀ id' finished, t.attached? id' = some (finished, some ch) → id' = id

namespace Channelled

variable {id ch j : Nat} {stage stage' : Stage} {finished : Bool} {channel : Option Nat}

/-- The stage of a channel fits what is attached to its timer. -/
theorem fits (h : t.Channelled id ch stage) (hid : t.attached? id = some (finished, channel)) :
  stage.Fits ch finished channel
  := by
  obtain ⟨finished', channel', hid', hfits⟩ := h.own
  obtain ⟨rfl, rfl⟩ := Prod.mk.inj (Option.some.inj (hid.symm.trans hid'))
  exact hfits

/-- The channel belongs to no other timer. -/
theorem eq_of_attached (h : t.Channelled id ch stage)
    (hj : t.attached? j = some (finished, some ch)) :
  j = id ∧ stage = .attached
  := by
  obtain rfl := h.others j finished hj
  exact ⟨rfl, (h.fits hj).eq_attached⟩

/-- A channel at a stage has been made. -/
theorem lt_next (h : t.Channelled id ch stage) :
  ch < t.channels.next
  := Table.lt_next_of_get? h.content

/-- What leaves channels alone leaves them at their stages. -/
theorem leaves (h : t.Channelled id ch stage) (hleaves : t.Leaves t') :
  t'.Channelled id ch stage
  where
  content := hleaves.channels ▸ h.content
  own := by
    obtain ⟨finished, channel, hid, hfits⟩ := h.own
    obtain heq | ⟨hnone, -⟩ := hleaves.attached id
    · exact ⟨finished, channel, heq.trans hid, hfits⟩
    · rw [hid] at hnone
      cases hnone
  others id' finished hid' := by
    obtain heq | ⟨-, hnew⟩ := hleaves.attached id'
    · exact h.others id' finished (heq.symm.trans hid')
    · rw [hid'] at hnew
      cases hnew

end Channelled

/-! ### Ends of timers -/

/-- The timer `j` is over.  The channel that was attached to it is changed by `f`, and other
channels are left alone. -/
structure Finishes (t t' : Timing τ) (j : Nat) (channel : Option Nat) (f : Channel → Channel) :
    Prop where
  before : ∃ finished, t.attached? j = some (finished, channel)
  attached : ∀ id, t'.attached? id = if j = id then some (true, none) else t.attached? id
  next : t'.channels.next = t.channels.next
  content : ∀ ch, t'.channels.get? ch
    = if channel = some ch then (t.channels.get? ch).map f else t.channels.get? ch

/-- When a timer is destroyed that was not before, its completion is announced. -/
theorem destroy_cases (t : Timing τ) (j : Nat) :
  t.destroy j = t
    ∨ ∃ channel, t.Finishes (t.destroy j) j channel fun _ => ⟨some .cancelled, false⟩
  := by
  rw [destroy]
  split
  · exact .inl rfl
  · next x hx =>
    split
    · exact .inl rfl
    · have hx' : (t.cancelTask x).timers.get? j = some x := by rwa [timers_cancelTask]
      refine .inr ⟨x.channel, ⟨_, attached?_of_get? hx⟩, ?_, ?_, ?_⟩
      · intro id
        rw [attached?_congr (timers_announce _ _ _), attached?_updateTimer hx',
          attached?_congr (timers_cancelTask t x)]
        rfl
      · rw [next_announce, updateTimer, channels_cancelTask]
      · intro ch
        rw [get?_announce, updateTimer, channels_cancelTask]

/-- When a timer fires, the channel that was attached to it is given out. -/
theorem fire_cases (t : Timing τ) (j : Nat) :
  t.fire j = (none, t)
    ∨ ∃ callback channel, (t.fire j).1 = some (callback, channel)
      ∧ t.attached? j = some (false, channel) ∧ t.Finishes (t.fire j).2 j channel id
  := by
  rw [fire]
  split
  · exact .inl rfl
  · next x hx =>
    split
    · next hrunning =>
      have hj : t.attached? j = some (false, x.channel) := by
        rw [attached?_of_get? hx, hrunning]
        rfl
      refine .inr ⟨x.callback, x.channel, rfl, hj, ⟨_, hj⟩, ?_, rfl, ?_⟩
      · intro id
        rw [attached?_updateTimer hx]
        rfl
      · intro ch
        simp [updateTimer]
    · exact .inl rfl

/-- A new channel is attached to the timer `j`, which is not over.  The channel that was attached
to it loses its sender, and others are left alone. -/
structure Attaches (t t' : Timing τ) (j : Nat) (channel : Option Nat) : Prop where
  before : t.attached? j = some (false, channel)
  attached : ∀ id, t'.attached? id
    = if j = id then some (false, some t.channels.next) else t.attached? id
  next : t'.channels.next = t.channels.next + 1
  content : ∀ ch, t'.channels.get? ch
    = if ch = t.channels.next then some ⟨none, true⟩
      else if channel = some ch then (t.channels.get? ch).map (fun c => { c with isOpen := false })
      else t.channels.get? ch

/-- A channel is attached to a timer that is not over, and the timer starts. -/
theorem completion_cases (t : Timing τ) (j : Nat) :
  (∃ e, t.completion j = (.error e, t))
      ∧ (∀ finished channel, t.attached? j = some (finished, channel) → finished = true)
    ∨ (t.completion j).1 = .ok t.channels.next
      ∧ ∃ t' channel, t.Attaches t' j channel ∧ t'.Leaves (t.completion j).2
  := by
  rw [completion]
  split
  · next hnone =>
    refine .inl ⟨⟨_, rfl⟩, ?_⟩
    rw [attached?, hnone]
    intro finished channel hj
    cases hj
  · next x hx =>
    have hover (e : TimerError) (hfinished : x.status.isFinished = true) :
        (∃ e', ((.error e, t) : Except TimerError Nat × Timing τ) = (.error e', t))
          ∧ ∀ finished channel, t.attached? j = some (finished, channel) → finished = true := by
      refine ⟨⟨e, rfl⟩, fun finished channel hj => ?_⟩
      rw [attached?_of_get? hx, hfinished] at hj
      exact (Prod.mk.inj (Option.some.inj hj)).1.symm
    split
    · next hstatus => exact .inl (hover _ (by rw [hstatus]; rfl))
    · next hstatus => exact .inl (hover _ (by rw [hstatus]; rfl))
    · next hdestroyed hfired =>
      have hunfinished : x.status.isFinished = false := by
        cases hstatus : x.status with
        | destroyed => exact absurd hstatus hdestroyed
        | fired => exact absurd hstatus hfired
        | idle | running | paused => rfl
      have hx' : ((t.disconnect x.channel).openChannel).timers.get? j = some x := by
        cases x.channel <;> exact hx
      refine .inr ⟨rfl, _, x.channel, ⟨?_, ?_, ?_, ?_⟩, .start _ j⟩
      · rw [attached?_of_get? hx, hunfinished]
      · intro id
        rw [attached?_updateTimer hx']
        cases x.channel <;> simp only [hunfinished] <;> rfl
      · rw [updateTimer, openChannel, Table.next_add, next_disconnect]
      · intro ch
        rw [updateTimer, openChannel, Table.get?_add, next_disconnect, get?_disconnect]

/-- A channel gets the next number. -/
theorem completion_next (t : Timing τ) {j ch : Nat} (hok : (t.completion j).1 = .ok ch) :
  ch = t.channels.next
  := by
  obtain ⟨⟨e, heq⟩, -⟩ | ⟨hnext, -⟩ := t.completion_cases j
  · rw [heq] at hok
    cases hok
  · exact Except.ok.inj (hok.symm.trans hnext)

/-- Asking for completions makes channels and takes none away. -/
theorem next_le_completion (t : Timing τ) (j : Nat) :
  t.channels.next ≤ (t.completion j).2.channels.next
  := by
  obtain ⟨⟨e, heq⟩, -⟩ | ⟨-, t', channel, hattaches, hleaves⟩ := t.completion_cases j
  · exact Nat.le_of_eq (by rw [heq])
  · rw [hleaves.channels, hattaches.next]
    exact Nat.le_succ _

/-- To read a channel leaves timers alone. -/
theorem receive_timers (t : Timing τ) (k : Nat) :
  (t.receive k).2.timers = t.timers ∧ (t.receive k).2.channels.next = t.channels.next
  := by
  rw [receive]
  split
  · exact ⟨rfl, rfl⟩
  · split
    · exact ⟨rfl, Table.next_modify _ _ _⟩
    · exact ⟨rfl, rfl⟩

/-! ### Stages -/

namespace Channelled

variable {id ch j : Nat} {stage stage' : Stage} {finished : Bool} {channel : Option Nat}

/-- A timer ends.  If it is the one of the channel, the channel is at another stage. -/
theorem finishes (h : t.Channelled id ch stage) {f : Channel → Channel}
    (hfinishes : t.Finishes t' j channel f)
    (hstage : if channel = some ch
      then stage' ≠ .attached ∧ stage'.content = f stage.content else stage' = stage) :
  t'.Channelled id ch stage'
  := by
  obtain ⟨⟨finished, hj⟩, hattached, -, hcontent⟩ := hfinishes
  constructor
  · rw [hcontent, h.content]
    split at hstage
    · next hchannel => rw [if_pos hchannel, hstage.2, Option.map_some]
    · next hchannel => rw [if_neg hchannel, hstage]
  · rw [hattached]
    split at hstage
    · next hchannel =>
      rw [if_pos (h.eq_of_attached (hchannel ▸ hj)).1]
      exact ⟨true, none, rfl, Stage.fits_over hstage.1⟩
    · next hchannel =>
      obtain rfl := hstage
      split
      · next hself =>
        refine ⟨true, none, rfl, Stage.fits_over ?_⟩
        rintro rfl
        exact hchannel (h.fits (hself ▸ hj)).2
      · exact h.own
  · intro id' finished hid'
    rw [hattached] at hid'
    split at hid'
    · cases hid'
    · exact h.others id' finished hid'

/-- When timers are destroyed, the completion is announced on a channel that is attached. -/
theorem destroy (h : t.Channelled id ch stage) (j : Nat) :
  ∃ stage', stage.Ends stage' ∧ (t.destroy j).Channelled id ch stage'
  := by
  obtain hsame | ⟨channel, hfinishes⟩ := t.destroy_cases j
  · exact ⟨stage, .inl rfl, hsame.symm ▸ h⟩
  · by_cases hchannel : channel = some ch
    · obtain ⟨finished, hj⟩ := hfinishes.before
      obtain ⟨-, rfl⟩ := h.eq_of_attached (hchannel ▸ hj)
      refine ⟨.announced (some .cancelled), .inr ⟨rfl, rfl⟩, h.finishes hfinishes ?_⟩
      rw [if_pos hchannel]
      exact ⟨nofun, rfl⟩
    · refine ⟨stage, .inl rfl, h.finishes hfinishes ?_⟩
      rw [if_neg hchannel]

/-- A new channel takes the place of one that is attached. -/
theorem completion (h : t.Channelled id ch stage) (j : Nat) :
  (t.completion j).2.Channelled id ch (if j = id ∧ stage = .attached then .displaced else stage)
  := by
  obtain ⟨⟨e, heq⟩, hover⟩ | ⟨-, t', channel, hattaches, hleaves⟩ := t.completion_cases j
  · rw [if_neg, heq]
    · exact h
    · rintro ⟨rfl, rfl⟩
      obtain ⟨finished, channel, hid, hfits⟩ := h.own
      rw [hover finished channel hid] at hfits
      cases hfits.1
  · refine leaves ?_ hleaves
    have hnew : ch ≠ t.channels.next := Nat.ne_of_lt h.lt_next
    constructor
    · rw [hattaches.content, if_neg hnew, h.content]
      split
      · next hchannel =>
        rw [if_pos (h.eq_of_attached (hchannel ▸ hattaches.before)),
          (h.eq_of_attached (hchannel ▸ hattaches.before)).2]
        rfl
      · next hchannel =>
        rw [if_neg]
        rintro ⟨rfl, rfl⟩
        exact hchannel (h.fits hattaches.before).2
    · rw [hattaches.attached]
      split
      · next hself =>
        refine ⟨_, _, rfl, ?_⟩
        obtain rfl | rfl := (h.fits (hself ▸ hattaches.before)).of_unfinished
        · rw [if_pos ⟨hself, rfl⟩]
          simpa [Stage.Fits] using hnew.symm
        · rw [if_neg (by simp)]
          simpa [Stage.Fits] using hnew.symm
      · next hself =>
        rw [if_neg (fun hboth => hself hboth.1)]
        exact h.own
    · intro id' finished hid'
      rw [hattaches.attached] at hid'
      split at hid'
      · exact absurd (Option.some.inj (Prod.mk.inj (Option.some.inj hid')).2).symm hnew
      · exact h.others id' finished hid'

/-- No channel is attached to a timer that is over. -/
theorem completion_eq_error (h : t.Channelled id ch stage) (hattached : stage ≠ .attached)
    (hdisplaced : stage ≠ .displaced) :
  ∃ e, t.completion id = (.error e, t)
  := by
  obtain ⟨herror, -⟩ | ⟨-, t', channel, hattaches, -⟩ := t.completion_cases id
  · exact herror
  · obtain rfl | rfl := (h.fits hattaches.before).of_unfinished
    · exact absurd rfl hattached
    · exact absurd rfl hdisplaced

/-- A timer that has a channel attached is not over, so that a new one is made. -/
theorem completion_eq_ok (h : t.Channelled id ch .attached) :
  (t.completion id).1 = .ok t.channels.next
  := by
  obtain ⟨-, hover⟩ | ⟨hok, -⟩ := t.completion_cases id
  · obtain ⟨finished, channel, hid, hfits⟩ := h.own
    rw [hover finished channel hid] at hfits
    cases hfits.1
  · exact hok

/-- What is announced on the channel is on it. -/
theorem announce (h : t.Channelled id ch stage) (channel : Option Nat) (completion : Completion)
    (hstage : channel = some ch → stage = .calling) :
  (t.announce channel completion).Channelled id ch
    (if channel = some ch then .announced (some completion) else stage)
  where
  content := by
    rw [get?_announce, h.content]
    split <;> rfl
  own := by
    rw [attached?_congr (timers_announce _ _ _)]
    split
    · next hchannel =>
      obtain rfl := hstage hchannel
      exact h.own
    · exact h.own
  others id' finished hid' :=
    h.others id' finished (attached?_congr (timers_announce _ _ _) id' ▸ hid')

/-- A channel stays at its stage when its content and the timers do. -/
theorem of_timers_eq (h : t.Channelled id ch stage) (htimers : t'.timers = t.timers)
    (hcontent : t'.channels.get? ch = t.channels.get? ch) :
  t'.Channelled id ch stage
  where
  content := hcontent.trans h.content
  own := attached?_congr htimers id ▸ h.own
  others id' finished hid' := h.others id' finished (attached?_congr htimers id' ▸ hid')

/-- A completion that waits on the channel is taken off when it is read. -/
theorem receive_self (h : t.Channelled id ch stage) :
  (t.receive ch).2.Channelled id ch stage.read
    ∧ (∀ m, (t.receive ch).1 = .message m ↔ stage = .announced (some m))
  := by
  rw [receive, h.content]
  cases stage with
  | announced message =>
    cases message with
    | none => exact ⟨h, by simp [Stage.content]⟩
    | some m =>
      have hread : (t.channels.modify ch fun c => { c with message := none }).get? ch
          = some (Stage.announced none).content := by
        rw [Table.get?_modify, if_pos rfl, h.content]
        rfl
      exact ⟨⟨hread, h.own, h.others⟩, by simp [Stage.content]⟩
  | attached | calling | displaced => exact ⟨h, by simp [Stage.content]⟩

/-- Other channels may be read. -/
theorem receive_of_ne (h : t.Channelled id ch stage) (hne : j ≠ ch) :
  (t.receive j).2.Channelled id ch stage
  := by
  rw [receive]
  split
  · exact h
  · split
    · refine h.of_timers_eq rfl ?_
      rw [Table.get?_modify, if_neg hne]
    · exact h

end Channelled

/-! ### Numbers of channels -/

/-- The channels that are attached to timers have been made. -/
def Fresh (t : Timing τ) : Prop :=
  ∀ id finished ch, t.attached? id = some (finished, some ch) → ch < t.channels.next

/-- Channels that are attached to timers were so before, or have been made since. -/
theorem Fresh.mono (h : t.Fresh) (hnext : t.channels.next ≤ t'.channels.next)
    (hattached : ∀ id finished ch, t'.attached? id = some (finished, some ch) →
      t.attached? id = some (finished, some ch) ∨ ch < t'.channels.next) :
  t'.Fresh
  := by
  intro id finished ch hid
  obtain hid | hlt := hattached id finished ch hid
  · exact Nat.lt_of_lt_of_le (h id finished ch hid) hnext
  · exact hlt

/-- What leaves channels alone attaches none that was not made. -/
theorem Fresh.leaves (h : t.Fresh) (hleaves : t.Leaves t') :
  t'.Fresh
  := by
  refine h.mono (Nat.le_of_eq (congrArg Table.next hleaves.channels.symm)) ?_
  intro id finished ch hid
  obtain heq | ⟨-, hnew⟩ := hleaves.attached id
  · exact .inl (heq ▸ hid)
  · rw [hid] at hnew
    cases hnew

/-- A timer that is over gives its channel up. -/
theorem Fresh.finishes (h : t.Fresh) {j : Nat} {channel : Option Nat} {f : Channel → Channel}
    (hfinishes : t.Finishes t' j channel f) :
  t'.Fresh
  := by
  refine h.mono (Nat.le_of_eq hfinishes.next.symm) ?_
  intro id finished ch hid
  rw [hfinishes.attached] at hid
  split at hid
  · cases hid
  · exact .inl hid

/-- A channel is made as it is attached. -/
theorem Fresh.attaches (h : t.Fresh) {j : Nat} {channel : Option Nat}
    (hattaches : t.Attaches t' j channel) :
  t'.Fresh
  := by
  refine h.mono (by rw [hattaches.next]; exact Nat.le_succ _) ?_
  intro id finished ch hid
  rw [hattaches.attached] at hid
  split at hid
  · obtain rfl := Option.some.inj (Prod.mk.inj (Option.some.inj hid)).2
    exact .inr (by rw [hattaches.next]; exact Nat.lt_succ_self _)
  · exact .inl hid

/-- A completion attaches a channel that was just made. -/
theorem Fresh.completion (h : t.Fresh) (j : Nat) :
  (t.completion j).2.Fresh
  := by
  obtain ⟨⟨e, heq⟩, -⟩ | ⟨-, t', channel, hattaches, hleaves⟩ := t.completion_cases j
  · rw [heq]
    exact h
  · exact (h.attaches hattaches).leaves hleaves

/-- A channel that was just given out is attached to its timer. -/
theorem Fresh.channelled (h : t.Fresh) {id ch : Nat} (hok : (t.completion id).1 = .ok ch) :
  (t.completion id).2.Channelled id ch .attached
  := by
  obtain ⟨⟨e, heq⟩, -⟩ | ⟨hnext, t', channel, hattaches, hleaves⟩ := t.completion_cases id
  · rw [heq] at hok
    cases hok
  · rw [hnext] at hok
    obtain rfl := Except.ok.inj hok
    refine Channelled.leaves ⟨?_, ?_, ?_⟩ hleaves
    · rw [hattaches.content, if_pos rfl]
      rfl
    · rw [hattaches.attached, if_pos rfl]
      exact ⟨false, _, rfl, rfl, rfl⟩
    · intro id' finished hid'
      rw [hattaches.attached] at hid'
      split at hid'
      · next hself => exact hself.symm
      · exact absurd (h id' finished _ hid') (Nat.lt_irrefl _)

/-! ### What engines do by themselves -/

/-- No channel is made or attached, and one that is attached may be given up by a timer that is
destroyed. -/
structure Sheds (t t' : Timing τ) : Prop where
  next : t'.channels.next = t.channels.next
  fresh : t.Fresh → t'.Fresh
  stage : ∀ {id ch stage}, t.Channelled id ch stage →
    ∃ stage', stage.Ends stage' ∧ t'.Channelled id ch stage'

namespace Sheds

theorem refl (t : Timing τ) :
  t.Sheds t
  := ⟨rfl, id, fun h => ⟨_, .inl rfl, h⟩⟩

theorem trans (h : t.Sheds t') (h' : t'.Sheds t'') :
  t.Sheds t''
  where
  next := h'.next.trans h.next
  fresh := h'.fresh ∘ h.fresh
  stage hch := by
    obtain ⟨stage', hends, hch'⟩ := h.stage hch
    obtain ⟨stage'', hends', hch''⟩ := h'.stage hch'
    exact ⟨stage'', hends.trans hends', hch''⟩

/-- Leaving all channels alone is shedding none. -/
theorem of_leaves (h : t.Leaves t') :
  t.Sheds t'
  := ⟨congrArg Table.next h.channels, fun hfresh => hfresh.leaves h,
    fun hch => ⟨_, .inl rfl, hch.leaves h⟩⟩

theorem destroy (t : Timing τ) (id : Nat) :
  t.Sheds (t.destroy id)
  := by
  obtain hsame | ⟨channel, hfinishes⟩ := t.destroy_cases id
  · rw [hsame]
    exact refl t
  · exact ⟨hfinishes.next, fun h => h.finishes hfinishes, fun h => h.destroy id⟩

/-- Operations of the engine on its own timers shed channels at most. -/
theorem manages :
  Manages (Sheds (τ := τ))
  where
  refl := refl
  trans := trans
  arm t pool delay callback :=
    of_leaves ((Leaves.newTimer t pool delay callback).trans (.start _ _))
  destroy := destroy

end Sheds

/-- As the clock goes on, one timer may fire, and channels are left alone otherwise. -/
theorem tick_cases (t : Timing τ) (target : Nat) :
  (t.Leaves (t.tick target) ∧ t.firesOn? target = none
      ∧ (t.Accurate → t.dueTimer? target = none))
    ∨ ∃ j channel, t.dueTimer? target = some j ∧ t.firesOn? target = some channel
      ∧ t.attached? j = some (false, channel) ∧ t.Finishes (t.tick target) j channel id
  := by
  rw [Timing.tick, firesOn?, dueTimer?]
  cases htake : t.scheduler.takeDue target with
  | none => exact .inl ⟨.of_timers_eq rfl rfl, rfl, fun _ => rfl⟩
  | some taken =>
    obtain ⟨p, scheduler⟩ := taken
    simp only
    cases htask : p.task with
    | task code => exact .inl ⟨.of_timers_eq rfl rfl, rfl, fun _ => rfl⟩
    | timer j =>
      simp only
      obtain hsame | ⟨callback, channel, hfire, hbefore, hfinishes⟩ :=
        Timing.fire_cases { t with scheduler := scheduler } j
      · rw [hsame]
        refine .inl ⟨.of_timers_eq rfl rfl, rfl, fun haccurate => ?_⟩
        -- The timer of a task runs, and so it fires.
        obtain ⟨x, hx, hrunning, -⟩ := haccurate.of_takeDue htake htask
        rw [Timing.fire] at hsame
        simp only [hx, hrunning, if_true] at hsame
        cases hsame
      · exact .inr ⟨j, channel, rfl, by rw [hfire]; rfl, hbefore,
          ⟨hfinishes.before, hfinishes.attached, hfinishes.next, hfinishes.content⟩⟩

end Timing

/-- What the host asks for makes no channel and reads none, except when it asks for that. -/
theorem Call.sheds {call : Call κ} {f : Timing (Callback κ) → Timing (Callback κ)}
    (hf : call.operation? = some f) (hcompletion : ∀ id, call ≠ .completion id)
    (hreceive : ∀ ch, call ≠ .receive ch) (t : Timing (Callback κ)) :
  t.Sheds (f t)
  := by
  cases call with
  | schedule | cancel =>
    cases hf
    exact .of_leaves (.of_timers_eq rfl rfl)
  | newTimer =>
    cases hf
    exact .of_leaves (.newTimer t _ _ _)
  | startTimer =>
    cases hf
    exact .of_leaves (.start t _)
  | pauseTimer =>
    cases hf
    exact .of_leaves (.pause t _)
  | restartTimer =>
    cases hf
    exact .of_leaves (.restart t _)
  | destroyTimer =>
    cases hf
    exact .destroy t _
  | completion id => exact absurd rfl (hcompletion id)
  | receive ch => exact absurd rfl (hreceive ch)
  | pauseAll =>
    cases hf
    exact .of_leaves (.pauseAll t _)
  | startAll =>
    cases hf
    exact .of_leaves (.startAll t _)
  | standby =>
    cases hf
    exact .of_leaves (.standby t _)
  | wake =>
    cases hf
    exact .of_leaves (.wake t _)
  | destroyAll pool =>
    cases hf
    exact .trans (.of_leaves (.updatePool t pool _)) (Timing.Sheds.manages.destroyEach _ _)
  | _ => cases hf

end Statechart
