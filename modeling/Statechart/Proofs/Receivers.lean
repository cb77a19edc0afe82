import Statechart.Proofs.Accounting
import Statechart.Proofs.Channels

/-!
# What receivers yield

The receiver of a channel that the host attaches to a timer yields one completion when the timer
is over, and says how it ended, unless the host attaches another channel to the timer before: then
it yields nothing at all (`Configuration.Run.completions`).
-/

namespace Statechart

variable {κ π σ : Type}

/-- The channel on which a completion is to be announced when the activity is over. -/
def Frame.channel? : Frame κ π → Option Nat
  | fired channel => channel
  | _ => none

/-- The channels on which completions are to be announced when callbacks have been carried out. -/
def announcing (st : List (Frame κ π)) : List Nat := st.filterMap Frame.channel?

/-- Only callbacks of timers have completions to be announced after them. -/
theorem announcing_cons {f : Frame κ π} (st : List (Frame κ π)) (hf : f.isFired = false) :
  announcing (f :: st) = announcing st
  := by
  cases f with
  | fired channel => cases hf
  | _ => rfl

/-- After the callback of a timer its completion is announced on its channel, if it has one. -/
theorem announcing_fired (channel : Option Nat) (st : List (Frame κ π)) :
  announcing (.fired channel :: st) = channel.toList ++ announcing st
  := by
  cases channel <;> rfl

/-- What engines do by themselves leaves the announcements that are to come. -/
theorem covers_announcing :
  Configuration.Covers (κ := κ) fun _ (st : List (Frame κ π)) _ st' =>
    announcing st' = announcing st
  where
  refl _ _ := rfl
  trans h h' := h'.trans h
  push _ st hf := announcing_cons st hf
  pop _ st hf := (announcing_cons st hf).symm
  add _ _ _ := rfl
  modify _ _ _ _ := rfl
  stop _ _ _ := rfl
  release _ _ _ := rfl
  rearm _ _ _ := rfl

namespace Configuration

variable {H : Host κ π σ} {cs before after : List (Configuration κ π σ)}
  {a b c d : Configuration κ π σ} {id ch : Nat} {stage stage' : Stage}

/-- However a run goes on, after its impulse no channel is made or attached. -/
theorem Evolves.sheds (h : Evolves H c d) :
  c.impulse.1.timing.Sheds d.engine.timing ∧ announcing d.stack = announcing c.impulse.2
  := by
  have hcovers := Timing.Sheds.manages.covers.and (covers_announcing (κ := κ) (π := π))
  cases h with
  | step _ hstep => exact hcovers.step hstep
  | enter memory code h =>
    rw [impulse_of_isIdle h, h.1]
    exact hcovers.enter (c := idle c.engine memory) ⟨.refl _, rfl⟩ code
  | addPool h =>
    rw [impulse_of_isIdle h, h.1]
    exact ⟨.of_leaves (.of_timers_eq rfl rfl), rfl⟩
  | addRegistry pool h =>
    rw [impulse_of_isIdle h, h.1]
    exact ⟨.refl _, rfl⟩

/-! ### What the host does with channels -/

/-- The channel that the host attaches to a timer in the next step. -/
def attaches? (id : Nat) (c : Configuration κ π σ) : Option Nat :=
  match c.control with
  | .host (.call (.completion j) _) =>
    if j = id then (c.engine.timing.completion j).1.toOption else none
  | _ => none

/-- The completion that the host receives from a channel in the next step. -/
def receives? (ch : Nat) (c : Configuration κ π σ) : Option Completion :=
  match c.control with
  | .host (.call (.receive k) _) =>
    if k = ch then
      match (c.engine.timing.receive k).1 with
      | .message completion => some completion
      | _ => none
    else none
  | _ => none

/-- The completions that the host has received from a channel, in order. -/
def received (ch : Nat) (cs : List (Configuration κ π σ)) : List Completion :=
  cs.filterMap (receives? ch)

/-- What a receiver yields: what the host has received from its channel, and what waits there. -/
def yielded (ch : Nat) (cs : List (Configuration κ π σ)) (c : Configuration κ π σ) :
    List Completion :=
  received ch cs ++ ((c.engine.timing.channels.get? ch).bind Channel.message).toList

/-- Whether the host has attached a channel to a timer. -/
def hasAttached (id : Nat) (cs : List (Configuration κ π σ)) : Bool :=
  cs.any fun c => (attaches? id c).isSome

/-- Whether a timer has fired. -/
def hasFired (id : Nat) (cs : List (Configuration κ π σ)) : Bool :=
  cs.any fun c => c.firing? = some id

/-- How a timer has ended. -/
def ending (id : Nat) (cs : List (Configuration κ π σ)) : Completion :=
  if hasFired id cs then .fired else .cancelled

/-! ### Impulses -/

/-- What the impulse of a step does with channels: the host attaches one or reads one; a timer
fires, and its channel is kept until the callback has been carried out, when the completion is
announced; or none of this. -/
inductive Strikes (c : Configuration κ π σ) : Timing (Callback κ) → List (Frame κ π) → Prop where
  | attaches {j : Nat} {point : π} :
    c.control = .host (.call (.completion j) point) →
    Strikes c (c.engine.timing.completion j).2 c.stack
  | receives {k : Nat} {point : π} :
    c.control = .host (.call (.receive k) point) →
    Strikes c (c.engine.timing.receive k).2 c.stack
  | fires {j : Nat} {channel : Option Nat} {reply : Reply κ} {t : Timing (Callback κ)} :
    c.control = .back reply → c.firing? = some j →
    c.engine.timing.attached? j = some (false, channel) →
    c.engine.timing.Finishes t j channel (fun content => content) →
    Strikes c t (.fired channel :: c.stack)
  | announces {channel : Option Nat} {reply : Reply κ} {below : List (Frame κ π)} :
    c.control = .back reply → c.stack = .fired channel :: below →
    Strikes c (c.engine.timing.announce channel .fired) below
  | sheds {t : Timing (Callback κ)} :
    (∀ id, attaches? id c = none) → (∀ ch, receives? ch c = none) →
    (c.engine.timing.Accurate → c.firing? = none) → c.engine.timing.Sheds t →
    Strikes c t c.stack

/-- No timer fires while code of the host goes on. -/
theorem firing?_of_host {next : Next κ π} (h : c.control = .host next) :
  c.firing? = none
  := by
  rw [firing?, h]

/-- No channel is attached while no code of the host goes on. -/
theorem attaches?_of_back {reply : Reply κ} (h : c.control = .back reply) (id : Nat) :
  attaches? id c = none
  := by
  rw [attaches?, h]

/-- No channel is read while no code of the host goes on. -/
theorem receives?_of_back {reply : Reply κ} (h : c.control = .back reply) (ch : Nat) :
  receives? ch c = none
  := by
  rw [receives?, h]

/-- An impulse strikes channels in one of these ways. -/
theorem strikes_impulse (c : Configuration κ π σ) :
  c.Strikes c.impulse.1.timing c.impulse.2
  := by
  rw [impulse.eq_def]
  cases hcontrol : c.control with
  | host next =>
    have hfiring : c.firing? = none := firing?_of_host hcontrol
    cases next with
    | done =>
      exact .sheds (by simp [attaches?, hcontrol]) (by simp [receives?, hcontrol])
        (fun _ => hfiring) (.refl _)
    | call call point =>
      by_cases hcompletion : ∃ id, call = .completion id
      · obtain ⟨j, rfl⟩ := hcompletion
        exact .attaches hcontrol
      · by_cases hreceive : ∃ ch, call = .receive ch
        · obtain ⟨k, rfl⟩ := hreceive
          exact .receives hcontrol
        · rw [not_exists] at hcompletion hreceive
          refine .sheds ?_ ?_ (fun _ => hfiring) ?_
          · intro id
            rw [attaches?, hcontrol]
            cases call with
            | completion j => exact absurd rfl (hcompletion j)
            | _ => rfl
          · intro ch
            rw [receives?, hcontrol]
            cases call with
            | receive k => exact absurd rfl (hreceive k)
            | _ => rfl
          · rw [Call.timing_impulse]
            cases hf : call.operation? with
            | none => exact .refl _
            | some f => exact Call.sheds hf hcompletion hreceive _
  | back reply =>
    have hsame {st : List (Frame κ π)} (hst : c.stack = st) (hfiring : c.firing? = none) :
        c.Strikes c.engine.timing st :=
      hst ▸ .sheds (attaches?_of_back hcontrol) (receives?_of_back hcontrol) (fun _ => hfiring)
        (.refl _)
    cases hst : c.stack with
    | nil => exact hsame hst (by rw [firing?, hcontrol, hst])
    | cons f below =>
      cases f with
      | advancing target =>
        have hfiring : c.firing? = c.engine.timing.dueTimer? target := by
          rw [firing?, hcontrol, hst]
        obtain ⟨hleaves, hfires, hdue⟩ | ⟨j, channel, hdue, hfires, hbefore, hfinishes⟩ :=
          c.engine.timing.tick_cases target
        · simp only [hfires]
          rw [← hst]
          exact .sheds (attaches?_of_back hcontrol) (receives?_of_back hcontrol)
            (fun haccurate => hfiring.trans (hdue haccurate)) (.of_leaves hleaves)
        · simp only [hfires]
          rw [← hst]
          exact .fires hcontrol (hfiring.trans hdue) hbefore hfinishes
      | fired channel => exact .announces hcontrol hst
      | waiting point => exact hsame hst (by rw [firing?, hcontrol, hst])
      | working i o phases => exact hsame hst (by rw [firing?, hcontrol, hst])
      | replaying i listener => exact hsame hst (by rw [firing?, hcontrol, hst])

/-! ### Numbers of channels -/

/-- The channels of timers, and those on which completions are to be announced, have been made. -/
structure Issued (t : Timing (Callback κ)) (st : List (Frame κ π)) : Prop where
  timers : t.Fresh
  calls : ∀ ch ∈ announcing st, ch < t.channels.next

/-- Channels that have been made are so after some were given up. -/
theorem Issued.sheds {t t' : Timing (Callback κ)} {st st' : List (Frame κ π)}
    (h : Issued t st) (hsheds : t.Sheds t') (hst : announcing st' = announcing st) :
  Issued t' st'
  := ⟨hsheds.fresh h.timers, hst ▸ hsheds.next ▸ h.calls⟩

/-- An impulse uses channels that have been made. -/
theorem Strikes.issued {t : Timing (Callback κ)} {st : List (Frame κ π)} (h : c.Strikes t st)
    (hissued : Issued c.engine.timing c.stack) :
  Issued t st
  := by
  obtain ⟨htimers, hcalls⟩ := hissued
  cases h with
  | @attaches j point hcontrol =>
    refine ⟨htimers.completion j, fun ch hch => ?_⟩
    exact Nat.lt_of_lt_of_le (hcalls ch hch) (c.engine.timing.next_le_completion j)
  | @receives k point hcontrol =>
    obtain ⟨htimers', hnext⟩ := c.engine.timing.receive_timers k
    refine ⟨htimers.mono (Nat.le_of_eq hnext.symm) fun id _ ch hid => .inl ?_, hnext ▸ hcalls⟩
    exact Timing.attached?_congr htimers' id ▸ hid
  | @fires j channel reply t hcontrol hfiring hbefore hfinishes =>
    refine ⟨htimers.finishes hfinishes, fun ch hch => ?_⟩
    rw [announcing_fired] at hch
    rw [hfinishes.next]
    obtain hchannel | hch := List.mem_append.mp hch
    · rw [Option.mem_toList] at hchannel
      exact htimers j false ch (hchannel ▸ hbefore)
    · exact hcalls ch hch
  | @announces channel reply below hcontrol hst =>
    constructor
    · refine htimers.mono (Nat.le_of_eq (Timing.next_announce _ _ _).symm)
        fun id _ ch hid => .inl ?_
      exact Timing.attached?_congr (Timing.timers_announce _ _ _) id ▸ hid
    · intro ch hch
      rw [Timing.next_announce]
      refine hcalls ch ?_
      rw [hst, announcing_fired]
      exact List.mem_append_right _ hch
  | sheds hattaches hreceives hfiring hsheds =>
    exact Issued.sheds ⟨htimers, hcalls⟩ hsheds rfl

/-- Throughout a run channels are used after they have been made. -/
theorem Run.issued (h : Run H cs c) :
  Issued c.engine.timing c.stack
  := by
  refine h.invariant (p := fun c => Issued c.engine.timing c.stack) ?_ ?_
  · refine fun memory => ⟨fun id finished ch hid => ?_, nofun⟩
    cases hid
  · intro c d hc hstep
    obtain ⟨hsheds, hst⟩ := hstep.sheds
    exact (c.strikes_impulse.issued hc).sheds hsheds hst

/-! ### Stages -/

/-- The channel `ch` of the timer `id` is at a stage, and its completion is to be announced once
more if the callback is being called. -/
structure Awaits (id ch : Nat) (stage : Stage) (t : Timing (Callback κ))
    (st : List (Frame κ π)) : Prop where
  channel : t.Channelled id ch stage
  calls : (announcing st).count ch = if stage = .calling then 1 else 0

/-- What has happened since a channel was attached to a timer that brought it to a stage. -/
def Records (id ch : Nat) (cs : List (Configuration κ π σ)) : Stage → Prop
  | .attached => received ch cs = [] ∧ hasFired id cs = false ∧ hasAttached id cs = false
  | .calling => received ch cs = [] ∧ hasFired id cs = true ∧ hasAttached id cs = false
  | .announced message =>
    received ch cs ++ message.toList = [ending id cs] ∧ hasAttached id cs = false
  | .displaced => received ch cs = [] ∧ hasAttached id cs = true

/-- What was received on a channel, by the last step. -/
theorem received_concat (ch : Nat) (cs : List (Configuration κ π σ)) (c : Configuration κ π σ) :
  received ch (cs ++ [c]) = received ch cs ++ (receives? ch c).toList
  := by
  rw [received, List.filterMap_append]
  cases h : receives? ch c <;> simp [received, h]

/-- Whether a channel was attached, by the last step. -/
theorem hasAttached_concat (id : Nat) (cs : List (Configuration κ π σ))
    (c : Configuration κ π σ) :
  hasAttached id (cs ++ [c]) = (hasAttached id cs || (attaches? id c).isSome)
  := by
  simp [hasAttached]

/-- Whether a timer has fired, by the last step. -/
theorem hasFired_concat (id : Nat) (cs : List (Configuration κ π σ)) (c : Configuration κ π σ) :
  hasFired id (cs ++ [c]) = (hasFired id cs || c.firing? = some id)
  := by
  simp [hasFired]

/-- A step in which nothing happens to a channel. -/
theorem Records.concat (h : Records id ch cs stage) (hreceives : receives? ch c = none)
    (hattaches : stage ≠ .displaced → attaches? id c = none)
    (hfiring : stage ≠ .displaced → c.firing? ≠ some id) :
  Records id ch (cs ++ [c]) stage
  := by
  have hreceived : received ch (cs ++ [c]) = received ch cs := by
    rw [received_concat, hreceives, Option.toList_none, List.append_nil]
  cases stage with
  | displaced =>
    rw [Records, hreceived, hasAttached_concat, h.2]
    exact ⟨h.1, rfl⟩
  | attached | calling | announced =>
    have hattached : hasAttached id (cs ++ [c]) = hasAttached id cs := by
      rw [hasAttached_concat, hattaches nofun, Option.isSome_none, Bool.or_false]
    have hfired : hasFired id (cs ++ [c]) = hasFired id cs := by
      rw [hasFired_concat, decide_eq_false (hfiring nofun), Bool.or_false]
    simp only [Records, hreceived, hattached, hfired, ending] at h ⊢
    exact h

/-- A timer that has not fired has been destroyed. -/
theorem Records.ends (h : Records id ch cs stage) (hends : stage.Ends stage') :
  Records id ch cs stage'
  := by
  obtain rfl | ⟨rfl, rfl⟩ := hends
  · exact h
  · obtain ⟨hreceived, hfired, hattached⟩ := h
    refine ⟨?_, hattached⟩
    rw [hreceived, ending, hfired]
    rfl

/-- A channel may be cancelled when timers are destroyed. -/
theorem Awaits.sheds {t t' : Timing (Callback κ)} {st st' : List (Frame κ π)}
    (h : Awaits id ch stage t st) (hsheds : t.Sheds t') (hst : announcing st' = announcing st) :
  ∃ stage', stage.Ends stage' ∧ Awaits id ch stage' t' st'
  := by
  obtain ⟨stage', hends, hchannel⟩ := hsheds.stage h.channel
  refine ⟨stage', hends, hchannel, ?_⟩
  rw [hst, h.calls]
  obtain rfl | ⟨rfl, rfl⟩ := hends
  · rfl
  · rfl

/-! ### Steps -/

section

variable {st : List (Frame κ π)} {point : π} {reply : Reply κ} {j k : Nat} {channel : Option Nat}

/-- A channel is displaced when another one is attached to its timer. -/
theorem Awaits.attaches (h : Awaits id ch stage c.engine.timing c.stack)
    (hrecords : Records id ch cs stage)
    (hcontrol : c.control = .host (.call (.completion j) point)) :
  ∃ stage', Awaits id ch stage' (c.engine.timing.completion j).2 c.stack
    ∧ Records id ch (cs ++ [c]) stage'
  := by
  have hreceives : receives? ch c = none := by rw [receives?, hcontrol]
  have hchannel := h.channel.completion j
  by_cases hself : j = id ∧ stage = .attached
  · rw [if_pos hself] at hchannel
    obtain ⟨rfl, rfl⟩ := hself
    refine ⟨.displaced, ⟨hchannel, h.calls⟩, ?_, ?_⟩
    · rw [received_concat, hrecords.1, hreceives]
      rfl
    · rw [hasAttached_concat, attaches?, hcontrol]
      simp [h.channel.completion_eq_ok, Except.toOption]
  · rw [if_neg hself] at hchannel
    refine ⟨stage, ⟨hchannel, h.calls⟩, hrecords.concat hreceives ?_ ?_⟩
    · intro hdisplaced
      rw [attaches?, hcontrol]
      simp only [ite_eq_right_iff]
      rintro rfl
      obtain ⟨e, herror⟩ :=
        h.channel.completion_eq_error (fun hattached => hself ⟨rfl, hattached⟩) hdisplaced
      rw [herror]
      rfl
    · rw [firing?_of_host hcontrol]
      exact nofun

/-- A message that waits is received once. -/
theorem Awaits.receives (h : Awaits id ch stage c.engine.timing c.stack)
    (hrecords : Records id ch cs stage)
    (hcontrol : c.control = .host (.call (.receive k) point)) :
  ∃ stage', Awaits id ch stage' (c.engine.timing.receive k).2 c.stack
    ∧ Records id ch (cs ++ [c]) stage'
  := by
  have hattaches : attaches? id c = none := by rw [attaches?, hcontrol]
  have hfiring : c.firing? ≠ some id := by
    rw [firing?_of_host hcontrol]
    exact nofun
  by_cases hself : k = ch
  · subst hself
    obtain ⟨hchannel, hmessage⟩ := h.channel.receive_self
    by_cases hwaits : ∃ m, stage = .announced (some m)
    · obtain ⟨m, rfl⟩ := hwaits
      have hreceives : receives? k c = some m := by
        rw [receives?, hcontrol]
        simp [(hmessage m).mpr rfl]
      obtain ⟨hreceived, hattached⟩ := hrecords
      refine ⟨.announced none, ⟨hchannel, h.calls⟩, ?_, ?_⟩
      · rw [received_concat, hreceives, ending, hasFired_concat, decide_eq_false hfiring,
          Bool.or_false, Option.toList_none, List.append_nil]
        exact hreceived
      · rw [hasAttached_concat, hattached, hattaches]
        rfl
    · have hread : stage.read = stage := by
        cases stage with
        | announced message =>
          cases message with
          | none => rfl
          | some m => exact absurd ⟨m, rfl⟩ hwaits
        | attached | calling | displaced => rfl
      rw [hread] at hchannel
      refine ⟨stage, ⟨hchannel, h.calls⟩, hrecords.concat ?_ (fun _ => hattaches) fun _ => hfiring⟩
      rw [receives?, hcontrol]
      simp only [if_true]
      split
      · next m hreceipt => exact absurd ⟨m, (hmessage m).mp hreceipt⟩ hwaits
      · rfl
  · refine ⟨stage, ⟨h.channel.receive_of_ne hself, h.calls⟩,
      hrecords.concat ?_ (fun _ => hattaches) fun _ => hfiring⟩
    rw [receives?, hcontrol]
    exact if_neg hself

/-- A timer that fires calls back before it announces on its channel. -/
theorem Awaits.fires {t : Timing (Callback κ)} (h : Awaits id ch stage c.engine.timing c.stack)
    (hrecords : Records id ch cs stage) (hcontrol : c.control = .back reply)
    (hfiring : c.firing? = some j) (hbefore : c.engine.timing.attached? j = some (false, channel))
    (hfinishes : c.engine.timing.Finishes t j channel fun content => content) :
  ∃ stage', Awaits id ch stage' t (.fired channel :: c.stack)
    ∧ Records id ch (cs ++ [c]) stage'
  := by
  have hreceives := receives?_of_back hcontrol ch
  have hattaches := attaches?_of_back hcontrol id
  by_cases hchannel : channel = some ch
  · subst hchannel
    obtain ⟨rfl, rfl⟩ := h.channel.eq_of_attached hbefore
    obtain ⟨hreceived, -, hattached⟩ := hrecords
    refine ⟨.calling, ⟨h.channel.finishes hfinishes ?_, ?_⟩, ?_, ?_, ?_⟩
    · rw [if_pos rfl]
      exact ⟨nofun, rfl⟩
    · rw [announcing_fired, List.count_append, h.calls]
      simp
    · rw [received_concat, hreceived, hreceives]
      rfl
    · rw [hasFired_concat, decide_eq_true hfiring, Bool.or_true]
    · rw [hasAttached_concat, hattached, hattaches]
      rfl
  · refine ⟨stage, ⟨h.channel.finishes hfinishes (if_neg hchannel ▸ rfl), ?_⟩,
      hrecords.concat hreceives (fun _ => hattaches) ?_⟩
    · rw [announcing_fired, List.count_append, h.calls, List.count_eq_zero_of_not_mem, Nat.zero_add]
      rwa [Option.mem_toList]
    · intro hdisplaced hself
      obtain rfl := Option.some.inj (hfiring.symm.trans hself)
      obtain rfl | rfl := (h.channel.fits hbefore).of_unfinished
      · exact hchannel (h.channel.fits hbefore).2
      · exact hdisplaced rfl

/-- When its callback was carried out, a timer announces on the channel that it had. -/
theorem Awaits.announces {below : List (Frame κ π)}
    (h : Awaits id ch stage c.engine.timing c.stack) (hrecords : Records id ch cs stage)
    (hcontrol : c.control = .back reply) (hst : c.stack = .fired channel :: below) :
  ∃ stage', Awaits id ch stage' (c.engine.timing.announce channel .fired) below
    ∧ Records id ch (cs ++ [c]) stage'
  := by
  have hreceives := receives?_of_back hcontrol ch
  have hattaches := attaches?_of_back hcontrol id
  have hfiring : c.firing? ≠ some id := by
    rw [firing?, hcontrol, hst]
    exact (Option.some_ne_none id).symm
  have hcalls := h.calls
  rw [hst, announcing_fired, List.count_append] at hcalls
  by_cases hchannel : channel = some ch
  · subst hchannel
    have hcalling : stage = .calling := by
      by_contra hnot
      rw [if_neg hnot] at hcalls
      simp at hcalls
    subst hcalling
    have hannounced := h.channel.announce (some ch) .fired fun _ => rfl
    rw [if_pos rfl] at hannounced
    obtain ⟨hreceived, hfired, hattached⟩ := hrecords
    refine ⟨.announced (some .fired), ⟨hannounced, ?_⟩, ?_, ?_⟩
    · simpa using hcalls
    · rw [received_concat, hreceived, hreceives, ending, hasFired_concat, hfired]
      rfl
    · rw [hasAttached_concat, hattached, hattaches]
      rfl
  · have hannounced := h.channel.announce channel .fired fun hsome => absurd hsome hchannel
    rw [if_neg hchannel] at hannounced
    refine ⟨stage, ⟨hannounced, ?_⟩,
      hrecords.concat hreceives (fun _ => hattaches) fun _ => hfiring⟩
    rwa [List.count_eq_zero_of_not_mem (by rwa [Option.mem_toList]), Nat.zero_add] at hcalls

/-- What comes first in a step brings a channel to the stage that it is recorded to be at. -/
theorem Strikes.awaits {t : Timing (Callback κ)} (h : c.Strikes t st)
    (haccurate : c.engine.timing.Accurate) (hawaits : Awaits id ch stage c.engine.timing c.stack)
    (hrecords : Records id ch cs stage) :
  ∃ stage', Awaits id ch stage' t st ∧ Records id ch (cs ++ [c]) stage'
  := by
  cases h with
  | attaches hcontrol => exact hawaits.attaches hrecords hcontrol
  | receives hcontrol => exact hawaits.receives hrecords hcontrol
  | fires hcontrol hfiring hbefore hfinishes =>
    exact hawaits.fires hrecords hcontrol hfiring hbefore hfinishes
  | announces hcontrol hst => exact hawaits.announces hrecords hcontrol hst
  | sheds hattaches hreceives hfiring hsheds =>
    obtain ⟨stage', hends, hawaits'⟩ := hawaits.sheds hsheds rfl
    refine ⟨stage', hawaits', Records.ends ?_ hends⟩
    refine hrecords.concat (hreceives ch) (fun _ => hattaches id) fun _ => ?_
    rw [hfiring haccurate]
    exact nofun

end

/-! ### Runs -/

/-- A channel is attached by a call for a completion that is granted. -/
theorem exists_completion_of_attaches? (h : attaches? id c = some ch) :
  (∃ point, c.control = .host (.call (.completion id) point))
    ∧ (c.engine.timing.completion id).1 = .ok ch
  := by
  rw [attaches?] at h
  split at h
  · next j point hcontrol =>
    split at h
    · next hj =>
      subst hj
      refine ⟨⟨point, hcontrol⟩, ?_⟩
      cases hresult : (c.engine.timing.completion j).1 with
      | error e => simp [hresult, Except.toOption] at h
      | ok k =>
        rw [hresult] at h
        rw [Option.some.inj h]
    · cases h
  · cases h

/-- A channel is attached to a timer under a new number. -/
theorem Issued.awaits (h : Issued c.engine.timing c.stack) (hattaches : attaches? id c = some ch) :
  Awaits id ch .attached c.impulse.1.timing c.impulse.2
  := by
  obtain ⟨⟨point, hcontrol⟩, hok⟩ := exists_completion_of_attaches? hattaches
  rw [impulse, hcontrol]
  refine ⟨h.timers.channelled hok, List.count_eq_zero_of_not_mem fun hch => ?_⟩
  have hlt := h.calls ch hch
  rw [c.engine.timing.completion_next hok] at hlt
  exact absurd hlt (Nat.lt_irrefl _)

/-- Since a channel was attached to a timer it is at a stage. -/
theorem Run.exists_awaits (h : Run H (before ++ a :: after) c)
    (hspares : ∀ d ∈ before ++ a :: after, d.spares = true)
    (hattaches : attaches? id a = some ch) :
  ∃ stage, Awaits id ch stage c.engine.timing c.stack ∧ Records id ch after stage
  := by
  revert hspares
  refine h.after (p := fun after c => (∀ d ∈ before ++ a :: after, d.spares = true) →
    ∃ stage, Awaits id ch stage c.engine.timing c.stack ∧ Records id ch after stage) ?_ ?_
  · intro d hrun hstep _
    obtain ⟨stage, hends, hawaits⟩ :=
      (hrun.issued.awaits hattaches).sheds hstep.sheds.1 hstep.sheds.2
    have hrecords : Records id ch ([] : List (Configuration κ π σ)) .attached := ⟨rfl, rfl, rfl⟩
    exact ⟨stage, hawaits, hrecords.ends hends⟩
  · intro rest c d hrun hstep ih hspares
    have hbefore : ∀ b ∈ before ++ a :: rest, b.spares = true := by
      intro b hb
      rw [← List.cons_append, ← List.append_assoc] at hspares
      exact hspares b (List.mem_append_left _ hb)
    obtain ⟨stage, hawaits, hrecords⟩ := ih hbefore
    obtain ⟨stage', hawaits', hrecords'⟩ :=
      c.strikes_impulse.awaits (hrun.accurate hbefore) hawaits hrecords
    obtain ⟨hsheds, hst⟩ := hstep.sheds
    obtain ⟨stage'', hends, hawaits''⟩ := hawaits'.sheds hsheds hst
    exact ⟨stage'', hawaits'', hrecords'.ends hends⟩

/-- A timer that has fired did so in the run. -/
theorem Run.hasFired_of_fired (h : Run H cs c) (hspares : ∀ d ∈ cs, d.spares = true)
    {x : Timer (Callback κ)} (hx : c.engine.timing.timers.get? id = some x)
    (hfired : x.status = .fired) :
  hasFired id cs = true
  := by
  refine (h.spared (p := fun cs c => ∀ x, c.engine.timing.timers.get? id = some x →
    x.status = .fired → hasFired id cs = true) hspares ?_ ?_).2 x hx hfired
  · intro memory x hx
    cases hx
  · intro cs c d _ _ hpasses ih y hy hfired
    rw [hasFired_concat, Bool.or_eq_true, decide_eq_true_eq]
    cases hx : c.engine.timing.timers.get? id with
    | none => exact absurd hfired (hpasses.fresh id y hx hy).2
    | some x =>
      obtain ⟨y', hy', -, -, hcause, -⟩ := hpasses.kept id x hx
      obtain rfl := Option.some.inj (hy.symm.trans hy')
      exact (hcause hfired).imp_left (ih x hx)

/-- A timer to which a channel is attached may fire since. -/
theorem Run.hasFired_since (h : Run H (before ++ a :: after) c)
    (hspares : ∀ d ∈ before ++ a :: after, d.spares = true)
    (hattaches : attaches? id a = some ch) (hfired : hasFired id (before ++ a :: after) = true) :
  hasFired id after = true
  := by
  obtain ⟨⟨point, hcontrol⟩, hok⟩ := exists_completion_of_attaches? hattaches
  obtain ⟨d, hd, hfiring⟩ := List.any_eq_true.mp hfired
  rw [decide_eq_true_eq] at hfiring
  have hbefore : ∀ b ∈ before, b.spares = true := fun b hb =>
    hspares b (List.mem_append_left _ hb)
  obtain hd | hd := List.mem_append.mp hd
  · -- It was not over when the channel was attached.
    obtain ⟨y, hy, hfinished, -⟩ := h.of_append.over_of_firing? hbefore hd hfiring
      (h.of_append.exists_timer_of_firing? hbefore hd hfiring)
    obtain ⟨⟨e, herror⟩, -⟩ | ⟨-, t, channel, hopens, -⟩ := a.engine.timing.completion_cases id
    · rw [herror] at hok
      cases hok
    · have hbefore := hopens.before
      rw [Timing.attached?_of_get? hy, hfinished] at hbefore
      cases hbefore
  · obtain rfl | hd := List.mem_cons.mp hd
    · rw [firing?_of_host hcontrol] at hfiring
      cases hfiring
    · exact List.any_eq_true.mpr ⟨d, hd, decide_eq_true hfiring⟩

/-- What a receiver yields is known by the stage of its channel. -/
theorem Records.yields (h : Records id ch cs stage) {finished : Bool} {channel : Option Nat}
    (hfits : stage.Fits ch finished channel) {completions : List Completion}
    (heq : completions = received ch cs ++ stage.content.message.toList) :
  (finished = false ∨ stage = .calling → completions = [])
    ∧ (finished = true → stage ≠ .calling →
      (completions = [ending id cs] ↔ hasAttached id cs = false))
    ∧ (hasAttached id cs = true → completions = [])
  := by
  subst heq
  cases stage with
  | attached =>
    obtain ⟨hreceived, -, hattached⟩ := h
    obtain ⟨rfl, -⟩ := hfits
    rw [hreceived]
    exact ⟨fun _ => rfl, nofun, fun _ => rfl⟩
  | calling =>
    rw [h.1]
    exact ⟨fun _ => rfl, fun _ hnot => absurd rfl hnot, fun _ => rfl⟩
  | announced message =>
    obtain ⟨hreceived, hattached⟩ := h
    obtain ⟨rfl, -⟩ := hfits
    refine ⟨?_, fun _ _ => iff_of_true hreceived hattached, fun hyes => ?_⟩
    · rintro (hnot | hnot) <;> cases hnot
    · rw [hattached] at hyes
      cases hyes
  | displaced =>
    obtain ⟨hreceived, hattached⟩ := h
    rw [hreceived]
    refine ⟨fun _ => rfl, fun _ _ => iff_of_false nofun ?_, fun _ => rfl⟩
    rw [hattached]
    exact nofun

/-- The account of a channel that the host attaches to a timer, in a run in which it cancels no
task of a timer.  As long as the timer is not over, and while its callback is being called, the
receiver yields nothing.  After that it has yielded one completion and yields no other, unless
another channel was attached to the timer in between: then it yields nothing at all.  The
completion says that the timer has fired, which it does when its whole delay has run, or else that
it was cancelled; in particular it says so of a timer that fired and was destroyed since, be it by
its own callback. -/
theorem Run.completions (h : Run H (before ++ a :: after) c)
    (hspares : ∀ d ∈ before ++ a :: after, d.spares = true)
    (hattaches : attaches? id a = some ch) :
  ∃ x, c.engine.timing.timers.get? id = some x
    ∧ (x.status.isFinished = false ∨ ch ∈ announcing c.stack → yielded ch after c = [])
    ∧ (x.status.isFinished = true → ch ∉ announcing c.stack →
      (yielded ch after c = [ending id after] ↔ hasAttached id after = false))
    ∧ (hasAttached id after = true → yielded ch after c = [])
    ∧ (ending id after = .fired → x.elapsedAt c.engine.timing.now = x.delay)
    ∧ (ending id after = .cancelled → x.status ≠ .fired)
  := by
  obtain ⟨stage, ⟨hchannel, hcalls⟩, hrecords⟩ := h.exists_awaits hspares hattaches
  obtain ⟨finished, channel, hid, hfits⟩ := hchannel.own
  obtain ⟨x, hx, heq⟩ := Option.map_eq_some_iff.mp hid
  obtain ⟨rfl, rfl⟩ := Prod.mk.inj heq
  have hyielded : yielded ch after c = received ch after ++ stage.content.message.toList := by
    rw [yielded, hchannel.content]
    rfl
  have hcalling : ch ∈ announcing c.stack ↔ stage = .calling := by
    rw [← List.count_pos_iff, hcalls]
    split <;> simp_all
  obtain ⟨hsilent, hends, hdisplaced⟩ := hrecords.yields hfits hyielded
  have hfired : x.status = .fired → hasFired id after = true := fun hfired =>
    h.hasFired_since hspares hattaches (h.hasFired_of_fired hspares hx hfired)
  rw [hcalling]
  refine ⟨x, hx, hsilent, hends, hdisplaced, fun hending => ?_, fun hending hstatus => ?_⟩
  · have hany : hasFired id after = true := by
      by_contra hnot
      rw [ending, if_neg hnot] at hending
      cases hending
    obtain ⟨d, hd, hfiring⟩ := List.any_eq_true.mp hany
    have hd : d ∈ before ++ a :: after := List.mem_append_right _ (List.mem_cons_of_mem _ hd)
    rw [decide_eq_true_eq] at hfiring
    obtain ⟨y, hy, -, hfull⟩ :=
      h.over_of_firing? hspares hd hfiring (h.exists_timer_of_firing? hspares hd hfiring)
    obtain rfl := Option.some.inj (hx.symm.trans hy)
    exact hfull
  · rw [ending, if_pos (hfired hstatus)] at hending
    cases hending

/-- A host whose callback destroys the first timer. -/
def quitterHost : Host Unit (Script Unit) Unit :=
  { relayHost with invoke := fun _ _ m => (Script.next [.destroyTimer 0], m) }

/-- A timer of 5 ms that destroys itself when it fires, and the receiver of its completion. -/
def quits : Script Unit := [.newTimer 0 5 (some ()), .completion 0, .advance 5, .receive 0]

/-- The configurations since the channel was attached. -/
theorem run_quits :
  Run quitterHost ((playedBy quitterHost relay quits 4).1
      ++ (playedBy quitterHost relay quits 4).2 :: playedSince quitterHost relay quits 4 10)
    (playedBy quitterHost relay quits 15).2
  := run_playedSince rfl isCompiled_relay (fun _ _ _ _ hok => by cases hok) (by decide +kernel)
    (by decide +kernel)

/-- The receiver has yielded that the timer has fired, although it has been destroyed. -/
theorem quitter_completions :
  (playedBy quitterHost relay quits 15).2.engine.timing.status? 0 = some .destroyed
    ∧ yielded 0 (playedSince quitterHost relay quits 4 10) (playedBy quitterHost relay quits 15).2
      = [.fired]
  := by
  have hattaches : attaches? 0 (playedBy quitterHost relay quits 4).2 = some 0 := by
    decide +kernel
  obtain ⟨x, hx, -, hends, -⟩ := run_quits.completions (by decide +kernel) hattaches
  have hdestroyed : (playedBy quitterHost relay quits 15).2.engine.timing.status? 0
      = some .destroyed := by decide +kernel
  refine ⟨hdestroyed, ?_⟩
  rw [Timing.status?, hx, Option.map_some, Option.some.injEq] at hdestroyed
  have hending : ending 0 (playedSince quitterHost relay quits 4 10) = .fired := by
    decide +kernel
  rw [← hending]
  exact (hends (by rw [hdestroyed]; rfl) (by decide +kernel)).mpr (by decide +kernel)

/-- A timer to which two channels are attached. -/
def doubled : Script Unit := [.newTimer 0 5 none, .completion 0, .completion 0, .advance 5]

/-- The timer has fired, and the first receiver has yielded nothing and has no sender. -/
theorem relay_displaced :
  ∃ before a after c id ch, Run relayHost (before ++ a :: after) c ∧ attaches? id a = some ch
    ∧ (∀ d ∈ before ++ a :: after, d.spares = true)
    ∧ c.engine.timing.status? id = some .fired ∧ announcing c.stack = []
    ∧ yielded ch after c = []
    ∧ c.engine.timing.channels.get? ch = some ⟨none, false⟩
  := by
  have hrun : Run relayHost ((playedBy relayHost relay doubled 4).1
        ++ (playedBy relayHost relay doubled 4).2 :: playedSince relayHost relay doubled 4 10)
      (playedBy relayHost relay doubled 15).2 :=
    run_playedSince rfl isCompiled_relay (fun _ _ _ _ hok => by cases hok) (by decide +kernel)
      (by decide +kernel)
  exact ⟨_, _, _, _, 0, 0, hrun, by decide +kernel, by decide +kernel, by decide +kernel,
    by decide +kernel, by decide +kernel, by decide +kernel⟩

end Configuration

end Statechart
