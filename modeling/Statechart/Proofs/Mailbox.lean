import Statechart.Proofs.Turn

/-!
# Mailboxes in runs

What is posted to an instance that is not stopped is taken in the order of posting, each
envelope once, and when nothing is under way nothing is left
(`Configuration.Run.envelopes`).
-/

namespace Statechart

variable {κ π σ : Type}

/-! ### Envelopes on their way -/

/-- The envelope that is posted to an instance. -/
def Signal.postedTo (s : Signal κ) (i : Nat) : Option Envelope :=
  s.posted.bind fun p => if p.owner = i then some p.envelope else none

/-- The envelope that an instance takes. -/
def Signal.takenBy (s : Signal κ) (i : Nat) : Option Envelope :=
  s.taken.bind fun t => if t.1 = i then some t.2 else none

namespace Engine

/-- The mail of an instance; none if it is not there. -/
def mailboxOf (r : Engine κ) (i : Nat) : List Envelope :=
  match r.get? i with
  | some x => x.mailbox
  | none => []

/-- An instance was stopped, or is gone for good: numbers are not given again. -/
def IsOver (r : Engine κ) (i : Nat) : Prop :=
  i < r.instances.next ∧ ∀ x, r.get? i = some x → x.status = .stopped

/-- Whether an instance was stopped. -/
def hasStopped (r : Engine κ) (i : Nat) : Bool :=
  (r.get? i).any fun x => x.status = .stopped

variable {r r' : Engine κ} {i j : Nat} {x y : Instance κ}

theorem IsStopped.isOver (h : r.IsStopped i) :
  r.IsOver i
  := by
  obtain ⟨x, hx, hstatus⟩ := h
  refine ⟨lt_next_of_get? hx, ?_⟩
  intro y hy
  rw [hx] at hy
  obtain rfl := Option.some.inj hy
  exact hstatus

theorem hasStopped_iff :
  r.hasStopped i = true ↔ r.IsStopped i
  := by
  rw [hasStopped, IsStopped]
  cases r.get? i <;> simp

theorem mailboxOf_of_get? (hx : r.get? i = some x) :
  r.mailboxOf i = x.mailbox
  := by
  rw [mailboxOf, hx]

theorem Same.mailboxOf_eq (h : Same r r') (i : Nat) :
  r'.mailboxOf i = r.mailboxOf i
  := by
  rw [mailboxOf, h.get?, mailboxOf]

theorem Sets.mailboxOf_eq (h : Sets r r' j y) (i : Nat) :
  r'.mailboxOf i = if j = i then y.mailbox else r.mailboxOf i
  := by
  rw [mailboxOf, h.get?]
  by_cases hj : j = i
  · rw [if_pos hj, if_pos hj]
  · rw [if_neg hj, if_neg hj, mailboxOf]

/-- An instance changes whose mail is as before. -/
theorem Sets.mailboxOf_keep (h : Sets r r' j y) (hx : r.get? j = some x)
    (hmail : y.mailbox = x.mailbox) (i : Nat) :
  r'.mailboxOf i = r.mailboxOf i
  := by
  rw [h.mailboxOf_eq]
  split
  · next hj => rw [hmail, ← hj, mailboxOf_of_get? hx]
  · rfl

theorem Adds.mailboxOf_eq (h : Adds r r' y) (hmail : y.mailbox = []) (i : Nat) :
  r'.mailboxOf i = r.mailboxOf i
  := by
  have hnone : r.get? r.instances.next = none := Table.get?_eq_none_of_le _ (Nat.le_refl _)
  by_cases hi : r.instances.next = i
  · subst hi
    simp [mailboxOf, h.get?, hnone, hmail]
  · rw [mailboxOf, h.get?, if_neg hi, mailboxOf]

theorem Halts.mailboxOf_eq (h : Halts r r') (hi : ¬r'.IsStopped i) :
  r'.mailboxOf i = r.mailboxOf i
  := by
  obtain hsame | ⟨x, -, -, hhalted, -⟩ := h.instances i
  · rw [mailboxOf, hsame, mailboxOf]
  · exact absurd ⟨_, hhalted, rfl⟩ hi

end Engine

/-- What is posted goes to the end of the mail. -/
theorem Engine.Sets.mailboxOf_post {r r' : Engine κ} {j : Nat} {x y : Instance κ}
    {e : Envelope} (h : Engine.Sets r r' j (y.enqueued e)) (hx : r.get? j = some x)
    (hmail : y.mailbox = x.mailbox) {s : Signal κ} {sender : Option Nat}
    (hs : s.posted = some ⟨j, e, sender⟩) (i : Nat) :
  r'.mailboxOf i = r.mailboxOf i ++ (s.postedTo i).toList
  := by
  rw [h.mailboxOf_eq, Signal.postedTo, hs, Option.bind_some]
  by_cases hj : j = i
  · subst hj
    rw [if_pos rfl, if_pos rfl, Engine.mailboxOf_of_get? hx, Option.toList_some, ← hmail]
    rfl
  · rw [if_neg hj, if_neg hj, Option.toList_none, List.append_nil]

/-- What is taken comes from the front of the mail. -/
theorem Engine.Sets.mailboxOf_take {r r' : Engine κ} {j : Nat} {x y : Instance κ}
    {e : Envelope} (h : Engine.Sets r r' j y) (hx : r.get? j = some x)
    (hmail : x.mailbox = e :: y.mailbox) {s : Signal κ} (hs : s.taken = some (j, e)) (i : Nat) :
  r.mailboxOf i = (s.takenBy i).toList ++ r'.mailboxOf i
  := by
  rw [h.mailboxOf_eq, Signal.takenBy, hs, Option.bind_some]
  by_cases hj : j = i
  · subst hj
    rw [if_pos rfl, if_pos rfl, Engine.mailboxOf_of_get? hx, Option.toList_some, hmail]
    rfl
  · rw [if_neg hj, if_neg hj, Option.toList_none, List.nil_append]

/-- In a move the mail of an instance that is not stopped grows by what is posted, at the
end, and shrinks by what is taken, at the front. -/
theorem Move.mailboxOf_eq {s : Signal κ} {r r' : Engine κ} {st st' : List (Frame κ π)}
    (hmove : Move s r st r' st') {i : Nat} (hi : ¬r'.IsStopped i) :
  r.mailboxOf i ++ (s.postedTo i).toList = (s.takenBy i).toList ++ r'.mailboxOf i
  := by
  -- Moves without envelopes; those that post one; and those that take one.
  have hkeep : s.posted = none → s.taken = none → r'.mailboxOf i = r.mailboxOf i →
      r.mailboxOf i ++ (s.postedTo i).toList = (s.takenBy i).toList ++ r'.mailboxOf i := by
    intro hposted htaken h
    rw [Signal.postedTo, Signal.takenBy, hposted, htaken, h, Option.bind_none,
      Option.bind_none, Option.toList_none, List.append_nil, List.nil_append]
  have hpost : s.taken = none → r'.mailboxOf i = r.mailboxOf i ++ (s.postedTo i).toList →
      r.mailboxOf i ++ (s.postedTo i).toList = (s.takenBy i).toList ++ r'.mailboxOf i := by
    intro htaken h
    rw [h, Signal.takenBy, htaken, Option.bind_none, Option.toList_none, List.nil_append]
  have htake : s.posted = none → r.mailboxOf i = (s.takenBy i).toList ++ r'.mailboxOf i →
      r.mailboxOf i ++ (s.postedTo i).toList = (s.takenBy i).toList ++ r'.mailboxOf i := by
    intro hposted h
    rw [h, Signal.postedTo, hposted, Option.bind_none, Option.toList_none, List.append_nil]
  cases hmove with
  | quiet hsame _ _ => exact hkeep rfl rfl (hsame.mailboxOf_eq i)
  | create hadds _ => exact hkeep rfl rfl (hadds.mailboxOf_eq rfl i)
  | interpret hsame _ _ => exact hkeep rfl rfl (hsame.mailboxOf_eq i)
  | listen hx _ hsets _ => exact hkeep rfl rfl (hsets.mailboxOf_keep hx rfl i)
  | stop j _ => exact hkeep rfl rfl ((Engine.halts_stop r j).mailboxOf_eq hi)
  | call hx haccepts hsets _ =>
    apply hpost rfl
    cases haccepts with
    | event event hrunning => exact hsets.mailboxOf_post hx rfl rfl i
    | start hstatus => exact hsets.mailboxOf_post hx rfl rfl i
    | startAt hstatus hs => exact hsets.mailboxOf_post hx rfl rfl i
  | @fire _ r₁ _ _ _ j x _ _ _ hx _ hsame _ hsets _ =>
    apply hpost rfl
    have hx₁ : r₁.get? j = some x := by
      rw [hsame.get?, hx]
    rw [← hsame.mailboxOf_eq]
    exact hsets.mailboxOf_post hx₁ rfl rfl i
  | ignore hx hmail _ hsets => exact htake rfl (hsets.mailboxOf_take hx hmail rfl i)
  | stumble hx hmail _ _ hsets => exact htake rfl (hsets.mailboxOf_take hx hmail rfl i)
  | begin hx hmail _ hsets => exact htake rfl (hsets.mailboxOf_take hx hmail rfl i)
  | commit hx hmail _ _ hsets => exact htake rfl (hsets.mailboxOf_take hx hmail rfl i)
  | finish hx _ hsets => exact hkeep rfl rfl (hsets.mailboxOf_keep hx rfl i)
  | vanish _ => exact hkeep rfl rfl rfl
  | advance _ _ => exact hkeep rfl rfl rfl
  | drop _ _ => exact hkeep rfl rfl rfl
  | fail _ _ => exact hkeep rfl rfl rfl
  | stopChildren hx =>
    obtain ⟨r₁, hsets, hhalts, -⟩ := Engine.halts_stopChildren hx
    apply hkeep rfl rfl
    rw [hhalts.mailboxOf_eq hi, hsets.mailboxOf_keep hx rfl]
  | @spawn _ _ _ j x _ _ state _ v _ m services hx _ _ hspawns =>
    obtain ⟨r₁, r₂, hadds, hx₁, hsets, hchild, hsets'⟩ := hspawns.exists_sets hx
      { Instance.new m services x.pool (some ⟨v.id, state, j⟩) with status := .running }
    apply hpost rfl
    rw [← hadds.mailboxOf_eq rfl, ← hsets.mailboxOf_keep hx₁ rfl]
    exact hsets'.mailboxOf_post hchild rfl rfl i
  | @missing _ _ _ j x _ _ state message _ v _ hx _ _ hsets =>
    apply hpost rfl
    rw [hsets.mailboxOf_eq, Signal.postedTo, Option.bind_some]
    by_cases hj : j = i
    · subst hj
      rw [if_pos rfl, if_pos rfl, Engine.mailboxOf_of_get? hx, Option.toList_some]
    · rw [if_neg hj, if_neg hj, Option.toList_none, List.append_nil]
  | rearm hx _ harmed =>
    obtain ⟨r₁, timers, generation, hsame, hx₁, hsets⟩ := Engine.exists_sets_of_armTimers hx harmed
    apply hkeep rfl rfl
    rw [hsets.mailboxOf_keep hx₁ rfl, hsame.mailboxOf_eq]
  | conclude hx hsets => exact hkeep rfl rfl (hsets.mailboxOf_keep hx rfl i)
  | report hx _ _ hsets hy hsets' =>
    apply hpost rfl
    rw [← hsets.mailboxOf_keep hx rfl]
    exact hsets'.mailboxOf_post hy rfl rfl i

/-- Only an instance that has been started takes an envelope. -/
theorem Move.status_of_taken {s : Signal κ} {r r' : Engine κ} {st st' : List (Frame κ π)}
    (hmove : Move s r st r' st') (h : r.Started) {i : Nat} {e : Envelope}
    (htaken : s.taken = some (i, e)) :
  ∃ x, r.get? i = some x ∧ x.status ≠ .notStarted
  := by
  cases hmove with
  | ignore hx hmail _ _ =>
    cases htaken
    exact ⟨_, hx, h.status_of_mailbox hx hmail⟩
  | stumble hx hmail _ _ _ =>
    cases htaken
    exact ⟨_, hx, h.status_of_mailbox hx hmail⟩
  | begin hx hmail _ _ =>
    cases htaken
    exact ⟨_, hx, h.status_of_mailbox hx hmail⟩
  | commit hx hmail _ _ _ =>
    cases htaken
    exact ⟨_, hx, h.status_of_mailbox hx hmail⟩
  | _ => cases htaken

/-! ### Envelopes in runs -/

namespace Configuration

variable {H : Host κ π σ} {cs : List (Configuration κ π σ)} {c d : Configuration κ π σ}

/-- An envelope that is taken is processed in this step, and when it is taken its
instance is done with the pieces of work before. -/
theorem step?_of_taken {i : Nat} {e : Envelope} (h : (signal H c).taken = some (i, e)) :
  ∃ x more outcome below, c.engine.get? i = some x ∧ x.mailbox = e :: more
    ∧ c.stack = .working i outcome [] :: below
    ∧ step? H c = some
        (process H (c.withEngine (c.engine.modify i fun x => { x with mailbox := more })) i
          { x with mailbox := more } outcome below e)
  := by
  have hsignals := signals H c
  generalize signal H c = s at h hsignals
  cases hsignals with
  | @take reply j outcome below x e' more hcontrol hstack hx hmail =>
    obtain ⟨rfl, rfl⟩ := Prod.mk.inj (Option.some.inj h)
    refine ⟨x, more, outcome, below, hx, hmail, hstack, ?_⟩
    simp only [step?, hcontrol, hstack, hx, nextEnvelope, hmail]
  | _ => cases h

/-- The envelopes that have been posted to an instance, in order. -/
def posts (H : Host κ π σ) (i : Nat) (cs : List (Configuration κ π σ)) : List Envelope :=
  cs.filterMap fun c => (signal H c).postedTo i

/-- The envelope that an instance takes in the next step, if it runs. -/
def handles (H : Host κ π σ) (i : Nat) (c : Configuration κ π σ) : Option Envelope :=
  if c.engine.isRunning i then (signal H c).takenBy i else none

/-- The envelopes that an instance has taken while it was running, in order. -/
def handled (H : Host κ π σ) (i : Nat) (cs : List (Configuration κ π σ)) : List Envelope :=
  cs.filterMap (handles H i)

theorem filterMap_concat {α : Type} (f : Configuration κ π σ → Option α) :
  (cs ++ [c]).filterMap f = cs.filterMap f ++ (f c).toList
  := by
  rw [List.filterMap_append]
  cases hf : f c <;> simp [hf]

/-- An instance that has been stopped stays so, or is gone. -/
theorem Goes.isOver {mid : Engine κ} (hgoes : Goes H c mid d) {i : Nat} (h : c.engine.IsOver i) :
  d.engine.IsOver i
  := by
  apply hgoes.kept h
  intro x y hx hmid hstopped
  obtain heq | hnot | heq := (hgoes.turn hx hmid).status
  · rw [heq, hstopped]
  · rw [hstopped] at hnot
    cases hnot
  · exact heq

/-- An instance that was stopped stays so, or is gone. -/
theorem Run.isOver_of_isStopped (h : Run H cs c) (hd : d ∈ cs) {i : Nat}
    (hstopped : d.engine.IsStopped i) :
  c.engine.IsOver i
  := by
  refine h.related (p := fun d c => d.engine.IsOver i → c.engine.IsOver i) ?_
    (fun hab hbc ha => hbc (hab ha)) hd hstopped.isOver
  intro cs c d hrun hstep hover
  obtain ⟨mid, hgoes⟩ := hrun.goes hstep
  exact hgoes.isOver hover

/-- An instance that was stopped never runs again. -/
theorem Run.isRunning_of_isStopped (h : Run H cs c) (hd : d ∈ cs) {i : Nat}
    (hstopped : d.engine.IsStopped i) :
  c.engine.isRunning i = false
  := by
  have hover := h.isOver_of_isStopped hd hstopped
  rw [Engine.isRunning]
  cases hy : c.engine.get? i with
  | none => rfl
  | some y => exact Instance.isRunning_of_stopped (hover.2 y hy)

/-- A step of an instance that is not stopped adds to its mail and takes from it. -/
theorem Goes.mailboxOf_eq {mid : Engine κ} (h : Goes H c mid d)
    (horderly : Orderly mid d.stack) {i : Nat} (hc : ¬c.engine.IsStopped i)
    (hd : ¬d.engine.IsStopped i) :
  c.engine.mailboxOf i ++ ((signal H c).postedTo i).toList
    = ((signal H c).takenBy i).toList ++ d.engine.mailboxOf i
  := by
  have hmid : ¬mid.IsStopped i := by
    obtain heq | hgentle := h.gentle
    · rw [heq]
      exact hd
    · rintro ⟨y, hy, hstopped⟩
      exact hc (hgentle.stops hy hstopped)
  have hreleases : d.engine.mailboxOf i = mid.mailboxOf i := by
    obtain heq | ⟨x, hx, hheld, hgone, -⟩ := h.releases.instances i
    · rw [Engine.mailboxOf, heq, Engine.mailboxOf]
    · -- What is let go is not at work, and so it has no mail.
      have hempty : x.mailbox = [] := by
        by_contra hne
        exact hheld (workers_subset_owners _ (horderly.mail i x hx hne))
      rw [Engine.mailboxOf, hgone, Engine.mailboxOf_of_get? hx, hempty]
  rw [hreleases]
  exact h.move.mailboxOf_eq hmid

/-- An instance that takes an envelope runs, unless it is stopped. -/
theorem Run.handles_eq (h : Run H cs c) {mid : Engine κ} (hgoes : Goes H c mid d) {i : Nat}
    (hi : ¬c.engine.IsStopped i) :
  handles H i c = (signal H c).takenBy i
  := by
  rw [handles]
  split
  · rfl
  · next hrunning =>
    symm
    rw [Signal.takenBy, Option.bind_eq_none_iff]
    rintro ⟨j, e⟩ htaken
    by_cases hj : j = i
    · subst hj
      obtain ⟨x, hx, hstatus⟩ := hgoes.move.status_of_taken h.started htaken
      have hstopped : x.status ≠ .stopped := fun hstopped => hi ⟨x, hx, hstopped⟩
      exfalso
      apply hrunning
      rw [Engine.isRunning, hx]
      cases hcases : x.status with
      | notStarted => exact absurd hcases hstatus
      | running => simp [Instance.isRunning, hcases]
      | stopped => exact absurd hcases hstopped
    · exact if_neg hj

/-- What has been posted to an instance that was never stopped has been handled, in the
order of posting, or waits. -/
theorem Run.posts_eq (h : Run H cs c) {i : Nat}
    (hi : ∀ d ∈ cs ++ [c], ¬d.engine.IsStopped i) :
  posts H i cs = handled H i cs ++ c.engine.mailboxOf i
  := by
  induction h with
  | start memory => simp [posts, handled, idle, Engine.empty, Engine.mailboxOf, Engine.get?]
  | @next cs c d hrun hstep ih =>
    obtain ⟨mid, hgoes⟩ := hrun.goes hstep
    have hc : ¬c.engine.IsStopped i := hi c (by simp)
    have hstep' := hgoes.mailboxOf_eq (hgoes.move.orderly hrun.orderly) hc (hi d (by simp))
    calc posts H i (cs ++ [c])
        = posts H i cs ++ ((signal H c).postedTo i).toList := filterMap_concat _
      _ = handled H i cs ++ c.engine.mailboxOf i ++ ((signal H c).postedTo i).toList := by
          rw [ih fun d hd => hi d (List.mem_append_left _ hd)]
      _ = handled H i cs ++ ((handles H i c).toList ++ d.engine.mailboxOf i) := by
          rw [List.append_assoc, hstep', hrun.handles_eq hgoes hc]
      _ = handled H i (cs ++ [c]) ++ d.engine.mailboxOf i := by
          rw [handled, handled, filterMap_concat, List.append_assoc]

/-- What an instance has handled comes first of what has been posted to it. -/
theorem Run.handled_prefix (h : Run H cs c) (i : Nat) :
  handled H i cs <+: posts H i cs
  := by
  induction h with
  | start memory => exact List.prefix_refl _
  | @next cs c d hrun hstep ih =>
    rw [handled, posts, filterMap_concat, filterMap_concat]
    by_cases hstopped : ∃ b ∈ cs ++ [c], b.engine.IsStopped i
    · -- Nothing is handled after the end.
      have hrunning : c.engine.isRunning i = false := by
        obtain ⟨b, hb, hstopped⟩ := hstopped
        obtain hb | hb := List.mem_append.mp hb
        · exact hrun.isRunning_of_isStopped hb hstopped
        · obtain rfl := List.mem_singleton.mp hb
          obtain ⟨x, hx, hstatus⟩ := hstopped
          simp [Engine.isRunning, hx, Instance.isRunning, hstatus]
      rw [handles, hrunning, if_neg Bool.false_ne_true, Option.toList_none, List.append_nil]
      exact ih.trans (List.prefix_append _ _)
    · have hnever : ∀ b ∈ cs ++ [c], ¬b.engine.IsStopped i := by
        exact fun b hb hb' => hstopped ⟨b, hb, hb'⟩
      have hposts := hrun.posts_eq hnever
      rw [posts, handled] at hposts
      rw [hposts, List.append_assoc, List.prefix_append_right_inj]
      -- The envelope that is taken was the first to wait.
      cases htaken : handles H i c with
      | none => exact List.nil_prefix
      | some e =>
        rw [handles] at htaken
        split at htaken
        · obtain ⟨⟨j, e'⟩, hsignal, hj⟩ := Option.bind_eq_some_iff.mp htaken
          obtain ⟨x, more, -, -, hx, hmailbox, -, -⟩ := step?_of_taken hsignal
          split at hj
          · next hi =>
            obtain rfl := Option.some.inj hj
            obtain rfl : j = i := hi
            rw [Engine.mailboxOf_of_get? hx, hmailbox, Option.toList_some]
            exact ⟨_, rfl⟩
          · cases hj
        · cases htaken

/-- In every run no instance is at work twice; an envelope is taken when the pieces of
work before it are done, and is processed in that step; an event sent to an instance that
runs is posted.  What an instance has handled comes first of what has been posted to it,
and all the rest waits unless the instance has been stopped.  When nothing is under way
all mailboxes are empty and no instance is busy. -/
theorem Run.envelopes (h : Run H cs c) :
  (workers c.stack).Nodup
    ∧ (∀ i e, (signal H c).taken = some (i, e) →
        ∃ x more outcome below, c.engine.get? i = some x ∧ x.mailbox = e :: more
          ∧ c.stack = .working i outcome [] :: below
          ∧ step? H c = some
              (process H (c.withEngine (c.engine.modify i fun x => { x with mailbox := more }))
                i { x with mailbox := more } outcome below e))
    ∧ (∀ i event point, c.control = .host (.call (.send i event) point) →
        c.engine.isRunning i = true → (signal H c).postedTo i = some (.event event))
    ∧ (∀ i, handled H i cs <+: posts H i cs
        ∧ ((∀ d ∈ cs ++ [c], ¬d.engine.IsStopped i) →
            posts H i cs = handled H i cs ++ c.engine.mailboxOf i))
    ∧ (c.IsIdle → ∀ i x, c.engine.get? i = some x → x.mailbox = [] ∧ x.busy = false)
  := by
  refine ⟨h.orderly.nodup, fun i e => step?_of_taken, ?_, ?_, ?_⟩
  · intro i event point hcontrol hrunning
    rw [signal, hcontrol]
    simp [Call.signal, hrunning, Signal.postedTo]
  · intro i
    exact ⟨h.handled_prefix i, h.posts_eq⟩
  · rintro ⟨hst, -⟩ i x hx
    have hnot : i ∉ workers c.stack := by
      rw [hst]
      exact List.not_mem_nil
    constructor
    · by_contra hne
      exact hnot (h.orderly.mail i x hx hne)
    · rw [← Bool.not_eq_true, h.orderly.busy i x hx]
      exact hnot

end Configuration

/-! ### Events sent from an action -/

/-- Nothing for the start, and the kind for an event without payload. -/
def Envelope.plain? : Envelope → Option (Option String)
  | start => some none
  | event e => if e.payload.entries = [] then some (some e.kind) else none
  | _ => none

theorem Envelope.eq_of_plain? {es : List Envelope} {ks : List (Option String)}
    (h : es.map plain? = ks.map some) :
  es = ks.map fun k => k.elim .start fun kind => .event (.named kind)
  := by
  induction es generalizing ks with
  | nil => simpa using h
  | cons e es ih =>
    cases ks with
    | nil => cases h
    | cons k ks =>
      rw [List.map_cons, List.map_cons, List.cons.injEq] at h
      rw [List.map_cons, ← ih h.2]
      congr 1
      cases e with
      | start =>
        obtain rfl := Option.some.inj h.1
        rfl
      | event e =>
        obtain ⟨kind, ⟨entries⟩⟩ := e
        rw [plain?] at h
        split at h
        · next hentries =>
          obtain rfl := Option.some.inj h.1
          obtain rfl : entries = [] := hentries
          rfl
        · cases h.1
      | _ => cases h.1

/-- A machine whose action on the event `GO` is the code `()`. -/
def echoDescriptor : MachineDescriptor Unit where
  id := some "echo"
  initial := some "a"
  kind := .atomic
  context := .empty
  metadata := none
  states := ⟨[
    ("a", { StateDescriptor.empty with
      on := ⟨[("GO", [⟨some "b", [.inline "twice" ()], none⟩])]⟩ }),
    ("b", { StateDescriptor.empty with on := ⟨[("PING", [.ofTarget "c"])]⟩ }),
    ("c", .empty)]⟩

/-- The machine of `echoDescriptor`. -/
def echo : Machine Unit where
  id := some "echo"
  metadata := none
  context := .empty
  topology := .flat
    { owner := "echo"
      region := none
      initial := "a"
      nodes := ⟨[
        ("a", ⟨"a", .atomic, ⟨[("GO", [⟨some "b", [.effect "twice" ()], none⟩])]⟩, [], [], [],
          [], none⟩),
        ("b", ⟨"b", .atomic, ⟨[("PING", [⟨some "c", [], none⟩])]⟩, [], [], [], [], none⟩),
        ("c", ⟨"c", .atomic, .empty, [], [], [], [], none⟩)]⟩ }
  initial := ⟨.leaf "a", .empty, none, [], false, false⟩
  services := .empty

theorem isCompiled_echo :
  echo.IsCompiled
  := ⟨echoDescriptor, .empty, MachineDescriptor.keyed_of_shallow (by decide) (by decide), rfl⟩

namespace Configuration

/-- The host whose action sends two events to the instance that it is an action of. -/
def echoHost : Host Unit (Script Unit) Unit :=
  scripted (fun _ => [.send 0 (.named "PING"), .send 0 (.named "PONG")])
    (fun _ => .error (.unknownService "")) 1

/-- The run in which the echo gets the event `GO`. -/
def echoRun : List (Configuration Unit (Script Unit) Unit)
    × Configuration Unit (Script Unit) Unit :=
  played (fun _ => [.send 0 (.named "PING"), .send 0 (.named "PONG")])
    (fun _ => .error (.unknownService "")) 1 echo [.start 0, .send 0 (.named "GO")] 60

theorem run_echoRun :
  Run echoHost echoRun.1 echoRun.2
  := run_played isCompiled_echo (fun _ _ h => by cases h) (by decide +kernel)

/-- The events that the action sends are handled after the event that it is the action
of. -/
theorem echo_envelopes :
  Run echoHost echoRun.1 echoRun.2 ∧ echoRun.2.IsIdle
    ∧ handled echoHost 0 echoRun.1
      = [.start, .event (.named "GO"), .event (.named "PING"), .event (.named "PONG")]
    ∧ echoRun.2.engine.mailboxOf 0 = []
  := by
  obtain ⟨-, -, -, hposts, hempty⟩ := run_echoRun.envelopes
  have hidle : echoRun.2.IsIdle := by decide +kernel
  have hthere : (echoRun.2.engine.get? 0).isSome = true := by decide +kernel
  obtain ⟨x, hx⟩ := Option.isSome_iff_exists.mp hthere
  have hmailbox : echoRun.2.engine.mailboxOf 0 = [] := by
    rw [Engine.mailboxOf_of_get? hx]
    exact (hempty hidle 0 x hx).1
  have hnever : ∀ d ∈ echoRun.1 ++ [echoRun.2], ¬d.engine.IsStopped 0 := by
    have hall : (echoRun.1 ++ [echoRun.2]).all (fun d => !d.engine.hasStopped 0) = true := by
      decide +kernel
    intro d hd hstopped
    have hd' := List.all_eq_true.mp hall d hd
    rw [Engine.hasStopped_iff.mpr hstopped] at hd'
    cases hd'
  refine ⟨run_echoRun, hidle, ?_, hmailbox⟩
  have heq := (hposts 0).2 hnever
  rw [hmailbox, List.append_nil] at heq
  rw [← heq]
  exact @Envelope.eq_of_plain? _ [none, some "GO", some "PING", some "PONG"] (by decide +kernel)

end Configuration

end Statechart
