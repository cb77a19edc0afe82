import Statechart.Proofs.Armed
import Statechart.Proofs.Invocations

/-!
# Delayed transitions in runs

When a step leads to another state and arms timers, a timer that is paused under the key
of a delay is kept instead of being replaced.  Otherwise the timers of the state before
are destroyed, every delay gets a timer of its own, and when this fires the delayed
transition is attempted; this is `Configuration.Run.renewed_iff`.
-/

namespace Statechart

variable {κ π σ : Type}

/-! ### Arming in a step -/

/-- An instance that has taken an envelope keeps its timers, and arms them later if it
moves to another state. -/
theorem Turn.timers_of_taken {i : Nat} {r r' : Engine κ} {x y : Instance κ}
    {w' : Option (List (Phase κ))} (h : Turn i r r' x (some []) y w')
    (hx : x.isRunning = true) (hy : y.isRunning = true) :
  y.timers = x.timers ∧ (y.snapshot.value.leaf? = x.snapshot.value.leaf?
    ∨ ∃ ps, w' = some ps ∧ .rearm ∈ ps)
  := by
  cases h with
  | keep _ _ => exact ⟨rfl, .inl rfl⟩
  | begin _ => exact ⟨rfl, .inl rfl⟩
  | @commit e mailbox event rearm next now found _ _ _ =>
    refine ⟨rfl, ?_⟩
    cases hvalue : x.snapshot.value == next.value with
    | true => exact .inl (StateValue.leaf?_eq_of_beq hvalue).symm
    | false =>
      refine .inr ⟨_, rfl, ?_⟩
      cases rearm <;> simp [Configuration.transitionPhases, Configuration.phasesOf, hvalue]
  | drop hnot _ =>
    rw [hx] at hnot
    cases hnot
  | halt _ _ => cases hy

/-- An instance at work keeps its timers and what is ahead of them, or arms them. -/
theorem Turn.timers_of_working {i : Nat} {r r' : Engine κ} {x y : Instance κ} {q : Phase κ}
    {qs : List (Phase κ)} {w' : Option (List (Phase κ))}
    (h : Turn i r r' x (some (q :: qs)) y w') (hx : x.isRunning = true)
    (hy : y.isRunning = true) :
  y.snapshot = x.snapshot
    ∧ ((q = .rearm ∧ w' = some qs ∧ (r.armTimers i).value = .ok r')
      ∨ (y.timers = x.timers ∧ ∃ ps, w' = some ps ∧ (.rearm ∈ ps ↔ .rearm ∈ q :: qs)))
  := by
  cases h with
  | keep hw _ =>
    obtain rfl | ⟨hw, -⟩ | ⟨hw, -⟩ := hw
    · exact ⟨rfl, .inr ⟨rfl, _, rfl, Iff.rfl⟩⟩
    · cases hw
    · cases hw
  | @advance _ ps _ _ _ _ hadvances =>
    refine ⟨rfl, .inr ⟨rfl, _, rfl, ?_⟩⟩
    cases hadvances with
    | rearm hnot =>
      rw [hx] at hnot
      cases hnot
    | _ => simp
  | drop hnot _ =>
    rw [hx] at hnot
    cases hnot
  | stopChildren _ => exact ⟨rfl, .inr ⟨rfl, _, rfl, by simp⟩⟩
  | spawn _ _ _ => exact ⟨rfl, .inr ⟨rfl, _, rfl, by simp⟩⟩
  | rearm _ harmed => exact ⟨rfl, .inl ⟨rfl, rfl, harmed⟩⟩
  | halt _ _ => cases hy

/-- Where no timers are armed, those of an arming were kept, whatever becomes of the
clock. -/
theorem Engine.Arms.of_quiet {r r' : Engine κ} {o : ArmingOf} {previous : List Armed}
    {d : Delayed κ} {e : Armed} (h : Arms o r.timing previous r'.timing d e)
    (hquiet : Engine.Quiet r r') (t : Timing (Callback κ)) :
  Arms o r.timing previous t d e
  := by
  cases h with
  | kept hmem hkey hpaused => exact .kept hmem hkey hpaused
  | fresh _ _ _ hnext hget hcallback =>
    obtain ⟨u, hu, -⟩ | ⟨-, -, hcode⟩ := hquiet.origin hget
    · exact absurd (Table.lt_next_of_get? hu) (Nat.not_lt.mpr hnext)
    · obtain ⟨code, hcode⟩ := hcode _ hcallback
      cases hcode

namespace Configuration

variable {H : Host κ π σ} {cs before inner : List (Configuration κ π σ)}
  {a b c d : Configuration κ π σ} {i : Nat} {x y : Instance κ}

/-- An instance is at work on an envelope that it has taken. -/
def IsWorking (i : Nat) (c : Configuration κ π σ) : Prop :=
  ∃ p ps, workOf i c.stack = some (p :: ps)

instance (i : Nat) (c : Configuration κ π σ) : Decidable (IsWorking i c) :=
  decidable_of_iff ((workOf i c.stack).any (fun ps => !ps.isEmpty) = true) (by
    rw [IsWorking]
    cases workOf i c.stack with
    | none => simp
    | some ps => cases ps <;> simp)

/-- An instance is about to arm its timers. -/
def Rearming (i : Nat) (c : Configuration κ π σ) : Prop :=
  ∃ rest, workOf i c.stack = some (.rearm :: rest)

/-- The timers of an instance, which are those of `x` until then, are armed in the step
from `c` to `d`, and `y` has what was armed. -/
inductive Rearmed (i : Nat) (x y : Instance κ) (c d : Configuration κ π σ) : Prop where
  | intro {z : Instance κ} {active : Option (String × Option Meta)} {ds : List (Delayed κ)} :
    Rearming i c → c.engine.get? i = some z → z.timers = x.timers →
      y.snapshot = z.snapshot → y.machine = z.machine →
      Engine.activeDelays z = .ok (active, ds) →
      List.Forall₂ (Engine.Arms (Engine.armingOf i z active) c.engine.timing x.timers
        d.engine.timing) ds y.timers →
      Rearmed i x y c d

/-- Since an instance has taken an envelope its timers are as before, and will be armed if
its state is another. -/
def Unarmed (x y : Instance κ) (w : Option (List (Phase κ))) : Prop :=
  y.timers = x.timers ∧ (y.snapshot.value.leaf? = x.snapshot.value.leaf?
    ∨ ∃ ps, w = some ps ∧ .rearm ∈ ps)

/-- An instance that is about to arm its timers arms them. -/
theorem Goes.rearmed {mid : Engine κ} (hgoes : Goes H c mid d) (hrun : Run H cs c)
    {z : Instance κ} (harming : Rearming i c) (hz : c.engine.get? i = some z)
    (htimers : z.timers = x.timers) (harmed : (c.engine.armTimers i).value = .ok mid)
    (hy : mid.get? i = some y) (hsnapshot : y.snapshot = z.snapshot)
    (hmachine : y.machine = z.machine) :
  Rearmed i x y c d
  := by
  obtain ⟨active, ds, hactive, harms, -, -⟩ := Engine.armTimers_cases hz (hrun.valid.1 i z hz)
    (hrun.wound.armory i z hz) harmed hy
  refine .intro harming hz htimers hsnapshot hmachine hactive ?_
  rw [← htimers]
  obtain rfl | hgentle := hgoes.gentle
  · exact harms
  · exact harms.imp fun _ _ h => h.of_quiet hgentle.quiet _

/-- Since an instance has taken an envelope and while it is at work on it, its timers are
armed at most once, and they are if its state is another at the end. -/
theorem Run.unarmed_or_rearmed (h : Run H (before ++ a :: inner) b)
    (hx : a.engine.get? i = some x) (hbegun : a.engine.Begun i)
    (htaken : workOf i a.stack = some [])
    (hwork : ∀ c ∈ inner, IsWorking i c)
    (hy : b.engine.get? i = some y) (hrunning : y.isRunning = true) :
  Unarmed x y (workOf i b.stack)
    ∨ ((∀ ps, workOf i b.stack = some ps → .rearm ∉ ps)
      ∧ ∃ c ∈ inner, ∃ d ∈ inner ++ [b], Rearmed i x y c d)
  := by
  -- The induction is on the steps since `a`; the order of phases carries it.
  have hsince := h.since
    (p := fun rest b => b.engine.Begun i ∧ (rest = [] → b = a)
      ∧ ((∀ c ∈ rest.tail, IsWorking i c) →
        ∀ y, b.engine.get? i = some y → y.isRunning = true →
          Unarmed x y (workOf i b.stack)
            ∨ ((∀ ps, workOf i b.stack = some ps → .rearm ∉ ps)
              ∧ ∃ c ∈ rest.tail, ∃ d ∈ rest.tail ++ [b], Rearmed i x y c d)))
    ⟨hbegun, fun _ => rfl, ?_⟩ ?_
  · exact hsince.2.2 hwork y hy hrunning
  · intro _ y hy _
    rw [hx] at hy
    obtain rfl := Option.some.inj hy
    exact .inl ⟨rfl, .inl rfl⟩
  · rintro rest c d hrun hstep ⟨hbegun, hnil, ih⟩
    obtain ⟨mid, hgoes⟩ := hrun.goes hstep
    refine ⟨hgoes.begun hbegun, by simp, ?_⟩
    intro hwork y hy hrunning
    obtain ⟨z, hz, hzrunning, hturn⟩ := hgoes.runs hbegun hy hrunning
    cases rest with
    | nil =>
      obtain rfl := hnil rfl
      rw [hx] at hz
      obtain rfl := Option.some.inj hz
      rw [htaken] at hturn
      exact .inl (hturn.timers_of_taken hzrunning hrunning)
    | cons e rest =>
      simp only [List.cons_append, List.tail_cons] at hwork ih ⊢
      obtain ⟨q, qs, hq⟩ := hwork c (by simp)
      have hcases := ih (fun c' hc' => hwork c' (by simp [hc'])) z hz hzrunning
      have horder := (hrun.tidy hz).order _ hq
      rw [hq] at hturn hcases
      obtain ⟨hsnapshot, ⟨rfl, hw, harmed⟩ | ⟨htimers, ps, hw, hiff⟩⟩ :=
        hturn.timers_of_working hzrunning hrunning
      · -- The timers are armed now, so they were not before.
        obtain hunarmed | ⟨hnot, -⟩ := hcases
        · right
          refine ⟨?_, c, by simp, d, by simp, ?_⟩
          · intro ps hps hmem
            rw [hw] at hps
            obtain rfl := Option.some.inj hps
            exact (List.rel_of_pairwise_cons horder hmem).2.1 rfl rfl
          · exact hgoes.rearmed hrun ⟨qs, hq⟩ hz hunarmed.1 harmed
              (hgoes.releases.get?_of_get? hy) hsnapshot hturn.machine_eq.1
        · exact absurd List.mem_cons_self (hnot _ rfl)
      · rw [hw]
        obtain ⟨htimers', hleaf⟩ | ⟨hnot, c', hc', d', hd', harmed⟩ := hcases
        · refine .inl ⟨htimers.trans htimers', ?_⟩
          obtain hleaf | ⟨ps', hps', hmem⟩ := hleaf
          · left
            rw [hsnapshot, hleaf]
          · obtain rfl := Option.some.inj hps'
            exact .inr ⟨ps, rfl, hiff.mpr hmem⟩
        · right
          refine ⟨?_, c', by simp [hc'], d', List.mem_append_left _ hd', ?_⟩
          · rintro _ ⟨⟩ hmem
            exact hnot _ rfl (hiff.mp hmem)
          · obtain ⟨harming, hget, hprevious, hs, hm, hactive, harms⟩ := harmed
            rw [← htimers] at harms
            exact .intro harming hget hprevious (hsnapshot.trans hs)
              (hturn.machine_eq.1.trans hm) hactive harms

/-- A paused timer of an instance has the key of a delay of a state. -/
def Blocked (i : Nat) (state : String) (n : Node κ) (c : Configuration κ π σ) : Prop :=
  ∃ x, c.engine.get? i = some x ∧ ∃ e ∈ x.timers, ∃ d ∈ n.after,
    e.key = armedKey state d.key ∧ c.engine.timing.status? e.timer = some .paused

/-- In a step of an instance, from `a` to `b`, from a state `s` to a state `t` with node
`n`, the timers of `s` are destroyed, and every delay of `t` has a timer of its own, made
in that step.  Whenever this fires later, in the state `t` and between two steps of the
instance, the delayed transition is attempted. -/
structure Renewed (H : Host κ π σ) (before : List (Configuration κ π σ))
    (a : Configuration κ π σ) (inner : List (Configuration κ π σ)) (b : Configuration κ π σ)
    (i : Nat) (s t : String) (n : Node κ) : Prop where
  destroyed : ∀ c ∈ before ++ [a], ∀ id key generation,
    Calls c id (.after i s key generation) → b.engine.timing.status? id = some .destroyed
  armed : ∀ d ∈ n.after, ∃ id generation, a.engine.timing.timers.get? id = none
    ∧ (∃ y, b.engine.get? i = some y ∧ ⟨armedKey t d.key, id, generation⟩ ∈ y.timers)
    ∧ (∃ c ∈ inner ++ [b], Calls c id (.after i t d.key generation))
    ∧ ∀ later c cb, Run H ((before ++ a :: inner) ++ b :: later) c → Fires id cb c →
        c.engine.isRunning i = true → leafOf c i = some t → workOf i c.stack = none →
          Attempts H i t d.key c

/-- What is on the left of lists that are related has a partner on the right. -/
theorem exists_of_mem_left {α β : Type} {p : α → β → Prop} {as : List α} {bs : List β}
    (h : List.Forall₂ p as bs) {u : α} (hu : u ∈ as) :
  ∃ v ∈ bs, p u v
  := by
  induction h with
  | nil => cases hu
  | cons hp _ ih =>
    obtain rfl | hu := List.mem_cons.mp hu
    · exact ⟨_, List.mem_cons_self, hp⟩
    · obtain ⟨v, hv, hp⟩ := ih hu
      exact ⟨v, List.mem_cons_of_mem _ hv, hp⟩

/-- The timers after an arming are those of the delays of the node of the active state. -/
theorem Rearmed.exists_node (h : Rearmed i x y c d) (hvalid : c.engine.All Instance.Valid)
    {t : String} (hleaf : y.snapshot.value.leaf? = some t) :
  ∃ chart n o, y.machine.flat? = some chart ∧ chart.nodes.get? t = some n
    ∧ o.owner = i ∧ o.state = t
    ∧ List.Forall₂ (Engine.Arms o c.engine.timing x.timers d.engine.timing) n.after y.timers
    ∧ (Blocked i t n c ↔ ∃ e ∈ x.timers, ∃ d ∈ n.after,
        e.key = armedKey t d.key ∧ c.engine.timing.status? e.timer = some .paused)
  := by
  obtain ⟨harming, hz, htimers, hsnapshot, hmachine, hactive, harms⟩ := h
  rw [hsnapshot] at hleaf
  obtain ⟨chart, n, hflat, hn, rfl, rfl⟩ := ((hvalid i _ hz).activeDelays_eq hactive).2 t hleaf
  refine ⟨chart, n, _, hmachine ▸ hflat, hn, rfl, rfl, harms, ?_⟩
  rw [Blocked, hz, ← htimers]
  simp

section Renewal

variable {o : Engine.ArmingOf} {n : Node κ} {s t : String}

/-- Timers that were there before an arming in a run have smaller numbers than those that
are made in it. -/
theorem Run.lt_next_of_append {after : List (Configuration κ π σ)}
    (h : Run H (cs ++ c :: after) b) (ha : a ∈ cs) {id : Nat} {u : Timer (Callback κ)}
    (hu : a.engine.timing.timers.get? id = some u) :
  id < c.engine.timing.timers.next
  := Nat.lt_of_lt_of_le (Table.lt_next_of_get? hu) (h.of_append.follows ha).next_le

/-- A timer makes for the delayed transition that it was made with whenever it fires in its
state. -/
theorem Run.attempts_of_calls (h : Run H cs c) (hd : d ∈ cs) {id generation : Nat}
    {key : String} (hcalls : Calls d id (.after i t key generation)) {cb : Callback κ}
    (hfires : Fires id cb c) (hrunning : c.engine.isRunning i = true)
    (hleaf : leafOf c i = some t) (hidle : workOf i c.stack = none) :
  Attempts H i t key c
  := by
  obtain ⟨u, hu, hcallback⟩ := hcalls
  obtain ⟨target, below, reply, hcontrol, hstack, hdue⟩ := hfires
  have hcb : cb = .after i t key generation := by
    obtain ⟨v, hv, hcb⟩ := calls_of_due? hdue
    obtain ⟨w, hw, hbecomes⟩ := (h.follows hd).kept hu
    rw [hv] at hw
    obtain rfl := Option.some.inj hw
    have hcb' := hbecomes.callback_eq hcb
    rw [hcallback] at hcb'
    exact (Option.some.inj hcb').symm
  rw [hcb] at hdue
  obtain ⟨x, hx, hleaf⟩ := Option.bind_eq_some_iff.mp hleaf
  rw [Engine.isRunning, hx] at hrunning
  exact h.attempts_of_fires ⟨target, below, reply, hcontrol, hstack, hdue⟩ hx hrunning hleaf hidle

/-- If no paused timer is in the way, arming replaces all timers. -/
theorem Run.renewed (h : Run H (before ++ a :: inner) b) (hc : c ∈ inner)
    (hd : d ∈ inner ++ [b]) (hy : b.engine.get? i = some y)
    (harms : List.Forall₂ (Engine.Arms o c.engine.timing x.timers d.engine.timing) n.after
      y.timers) (howner : o.owner = i) (hstate : o.state = t)
    (hfree : ¬∃ e ∈ x.timers, ∃ f ∈ n.after, e.key = armedKey t f.key
      ∧ c.engine.timing.status? e.timer = some .paused) :
  Renewed H before a inner b i s t n
  := by
  obtain ⟨inner₁, inner₂, rfl⟩ := List.append_of_mem hc
  rw [← List.cons_append, ← List.append_assoc] at h
  constructor
  · intro c₀ hc₀ id key generation hcalls
    have hc₀' : c₀ ∈ before ++ a :: inner₁ := by
      obtain hc₀ | hc₀ := List.mem_append.mp hc₀
      · exact List.mem_append_left _ hc₀
      · obtain rfl := List.mem_singleton.mp hc₀
        simp
    obtain ⟨e, he, rfl⟩ | hdestroyed := h.accounts (List.mem_append_left _ hc₀') hcalls hy
    · obtain ⟨f, hf, harms⟩ := exists_of_mem_left harms.flip he
      cases harms with
      | kept hmem hkey hpaused =>
        rw [hstate] at hkey
        exact absurd ⟨e, hmem, f, hf, hkey, hpaused⟩ hfree
      | fresh _ _ _ hnext _ _ =>
        obtain ⟨u, hu, -⟩ := hcalls
        exact absurd (h.lt_next_of_append hc₀' hu) (Nat.not_lt.mpr hnext)
    · exact hdestroyed
  · intro f hf
    obtain ⟨e, he, harms⟩ := exists_of_mem_left harms hf
    cases harms with
    | kept hmem hkey hpaused =>
      rw [hstate] at hkey
      exact absurd ⟨e, hmem, f, hf, hkey, hpaused⟩ hfree
    | @fresh u _ hkey hgeneration hnext hu hcallback =>
      rw [howner, hstate, ← hgeneration] at hcallback
      refine ⟨e.timer, e.generation, ?_, ⟨y, hy, ?_⟩, ⟨d, hd, u, hu, hcallback⟩, ?_⟩
      · cases hget : a.engine.timing.timers.get? e.timer with
        | none => rfl
        | some u => exact absurd (h.lt_next_of_append (by simp) hget) (Nat.not_lt.mpr hnext)
      · rw [← hstate, ← hkey]
        exact he
      · intro later g cb hg hfires hrunning hleaf hidle
        have hgd : d ∈ (before ++ a :: (inner₁ ++ c :: inner₂)) ++ b :: later := by
          obtain hd | hd := List.mem_append.mp hd
          · exact List.mem_append_left _ (List.mem_append_right _ (List.mem_cons_of_mem _ hd))
          · obtain rfl := List.mem_singleton.mp hd
            simp
        exact hg.attempts_of_calls hgd ⟨u, hu, hcallback⟩ hfires hrunning hleaf hidle

/-- If all timers are replaced, no paused timer was in the way. -/
theorem Run.not_blocked (h : Run H (before ++ a :: inner) b) (hx : a.engine.get? i = some x)
    (hy : b.engine.get? i = some y)
    (harms : List.Forall₂ (Engine.Arms o c.engine.timing x.timers d.engine.timing) n.after
      y.timers) (hstate : o.state = t) (hrenewed : Renewed H before a inner b i s t n) :
  ¬∃ e ∈ x.timers, ∃ f ∈ n.after, e.key = armedKey t f.key
    ∧ c.engine.timing.status? e.timer = some .paused
  := by
  rintro ⟨e, he, f, hf, hkey, hpaused⟩
  have harmory := h.of_append.wound.armory i x hx
  have hmem : e ∈ y.timers := by
    obtain ⟨e', he', harms⟩ := exists_of_mem_left harms hf
    cases harms with
    | kept hmem hkey' _ =>
      rw [hstate, ← hkey] at hkey'
      rwa [harmory.eq_of_key_eq he hmem hkey'.symm]
    | fresh hnone _ _ _ _ _ => exact absurd hpaused (hnone e he (hstate ▸ hkey))
  obtain ⟨id, generation, hnew, ⟨y', hy', hentry⟩, -, -⟩ := hrenewed.armed f hf
  rw [hy] at hy'
  obtain rfl := Option.some.inj hy'
  obtain rfl := (h.wound.armory i y hy).eq_of_key_eq hmem hentry hkey
  obtain ⟨u, hu⟩ := harmory.present _ he
  rw [hnew] at hu
  cases hu

/-- A step that takes an instance to another state, and leaves it running, arms the timers
once.  The timers of the state before are destroyed and every delay has a timer of its
own exactly if no paused timer has the key of a delay of the new state then. -/
theorem Run.renewed_iff {e : Envelope} (h : Run H (before ++ a :: inner) b)
    (htaken : (signal H a).taken = some (i, e))
    (hwork : ∀ c ∈ inner, IsWorking i c)
    (hdone : workOf i b.stack = some []) (hs : leafOf a i = some s) (ht : leafOf b i = some t)
    (hne : s ≠ t) (hrunning : b.engine.isRunning i = true) :
  ∃ y chart n, b.engine.get? i = some y ∧ y.machine.flat? = some chart
    ∧ chart.nodes.get? t = some n
    ∧ ∃ c ∈ inner, Rearming i c ∧ (Renewed H before a inner b i s t n ↔ ¬Blocked i t n c)
  := by
  obtain ⟨x, more, outcome, below, hx, hmail, hstack, -⟩ := step?_of_taken htaken
  obtain ⟨y, hy⟩ : ∃ y, b.engine.get? i = some y := by
    rw [leafOf] at ht
    obtain ⟨y, hy, -⟩ := Option.bind_eq_some_iff.mp ht
    exact ⟨y, hy⟩
  rw [(eq_of_get? hx).1] at hs
  rw [(eq_of_get? hy).1] at ht
  rw [Engine.isRunning, hy] at hrunning
  have hbegun : a.engine.Begun i := by
    apply Engine.begun_of_status hx
    intro hnot
    rw [(h.of_append.started.mail i x hx hnot).1] at hmail
    cases hmail
  have hidle : workOf i a.stack = some [] := by
    rw [hstack, workOf_working_self]
  obtain ⟨-, hleaf⟩ | ⟨-, c, hc, d, hd, hrearmed⟩ :=
    h.unarmed_or_rearmed hx hbegun hidle hwork hy hrunning
  · -- Without an arming the state would be the same.
    exfalso
    obtain hleaf | ⟨ps, hps, hmem⟩ := hleaf
    · rw [hs, ht] at hleaf
      exact hne (Option.some.inj hleaf).symm
    · rw [hdone] at hps
      obtain rfl := Option.some.inj hps
      cases hmem
  · have hvalid : c.engine.All Instance.Valid := by
      obtain ⟨before', after', hcs⟩ :=
        List.append_of_mem (List.mem_append_right before (List.mem_cons_of_mem a hc))
      rw [hcs] at h
      exact h.of_append.valid.1
    obtain ⟨chart, n, o, hflat, hn, howner, hstate, harms, hblocked⟩ :=
      hrearmed.exists_node hvalid ht
    refine ⟨y, chart, n, hy, hflat, hn, c, hc, ?_, ?_⟩
    · cases hrearmed
      assumption
    · rw [hblocked]
      constructor
      · intro hrenewed
        exact h.not_blocked hx hy harms hstate hrenewed
      · intro hfree
        exact h.renewed hc hd hy harms howner hstate hfree

end Renewal

end Configuration

/-- What a delayed transition is about: the instance, the state, the delay and the
generation. -/
def Callback.delayed? : Callback κ → Option (Nat × String × String × Nat)
  | code _ => none
  | after owner state key generation => some (owner, state, key, generation)

theorem Callback.eq_of_delayed? {cb : Callback κ} {i generation : Nat} {state key : String}
    (h : cb.delayed? = some (i, state, key, generation)) :
  cb = .after i state key generation
  := by
  cases cb with
  | code _ => cases h
  | after _ _ _ _ =>
    cases h
    rfl

namespace Configuration

/-- The host of the relay, whose code does nothing. -/
def relayHost : Host Unit (Script Unit) Unit :=
  scripted (fun _ => []) (fun _ => .error (.unknownService "")) 1

/-- The first `n` steps after a relay is made: calls are made one after another. -/
def relayRun (calls : Script Unit) (n : Nat) : List (Configuration Unit (Script Unit) Unit)
    × Configuration Unit (Script Unit) Unit :=
  played (fun _ => []) (fun _ => .error (.unknownService "")) 1 relay calls n

theorem run_relayRun {calls : Script Unit} {n : Nat}
    (hcalls : ((relayRun calls n).1.drop 3).all (fun c => !c.hands) = true) :
  Run relayHost (relayRun calls n).1 (relayRun calls n).2
  := run_played isCompiled_relay nofun hcalls

/-- The relay is started and goes on to the second state. -/
def relayed : Script Unit := [.start 0, .send 0 (.named "GO")]

/-- The relay is started, its timers are paused, and it goes on to the second state. -/
def pausedAndRelayed : Script Unit := [.start 0, .pauseAll 0, .send 0 (.named "GO")]

/-- The configurations that are passed after the first `k` steps and one step more. -/
def relayInner (calls : Script Unit) (k : Nat) : List (Configuration Unit (Script Unit) Unit) :=
  (trail relayHost 8 (relayRun calls (k + 1)).2).1

theorem run_relayInner {calls : Script Unit} {k : Nat}
    (hnext : (step? relayHost (relayRun calls k).2).isSome = true)
    (hcalls : ((relayRun calls (k + 9)).1.drop 3).all (fun c => !c.hands) = true) :
  Run relayHost ((relayRun calls k).1 ++ (relayRun calls k).2 :: relayInner calls k)
    (relayRun calls (k + 9)).2
  := by
  have hsplit : (relayRun calls (k + 9)).1
      = (relayRun calls k).1 ++ (relayRun calls k).2 :: relayInner calls k :=
    (played_split k 8 hnext).1
  rw [← hsplit]
  exact run_relayRun hcalls

/-- The node of a state of an instance of a flat machine. -/
def nodeOf (c : Configuration κ π σ) (i : Nat) (state : String) : Option (Node κ) :=
  ((c.engine.get? i).bind fun x => x.machine.flat?).bind fun chart => chart.nodes.get? state

theorem workOf_eq_nil {i : Nat} {c : Configuration κ π σ}
    (h : (workOf i c.stack).map List.isEmpty = some true) :
  workOf i c.stack = some []
  := by
  obtain ⟨ps, hps, hempty⟩ := Option.map_eq_some_iff.mp h
  rw [hps, List.isEmpty_iff.mp hempty]

/-- No timer is paused on the way to the second state, so its delay gets a timer. -/
theorem relay_renewed :
  ∃ n, nodeOf (relayRun relayed 21).2 0 "a_1" = some n ∧ n.after.map Delayed.key = ["5"]
    ∧ Renewed relayHost (relayRun relayed 12).1 (relayRun relayed 12).2 (relayInner relayed 12)
      (relayRun relayed 21).2 0 "a" "a_1" n
  := by
  have hrun := @run_relayInner relayed 12 (by decide +kernel) (by decide +kernel)
  have htaken : (signal relayHost (relayRun relayed 12).2).taken.map Prod.fst = some 0 := by
    decide +kernel
  obtain ⟨⟨_, e⟩, htaken, rfl⟩ := Option.map_eq_some_iff.mp htaken
  have hwork : ∀ c ∈ relayInner relayed 12, IsWorking 0 c := by decide +kernel
  have hdone : workOf 0 (relayRun relayed 21).2.stack = some [] :=
    workOf_eq_nil (by decide +kernel)
  obtain ⟨y, chart, n, hy, hflat, hn, c, hc, -, hiff⟩ := hrun.renewed_iff htaken hwork hdone
    (s := "a") (t := "a_1") (by decide +kernel) (by decide +kernel) (by decide)
    (by decide +kernel)
  have hnode : nodeOf (relayRun relayed 21).2 0 "a_1" = some n := by
    rw [nodeOf, hy, Option.bind_some, hflat, Option.bind_some, hn]
  have hkeys : (nodeOf (relayRun relayed 21).2 0 "a_1").map (fun n => n.after.map Delayed.key)
      = some ["5"] := by decide +kernel
  rw [hnode] at hkeys
  refine ⟨n, hnode, Option.some.inj hkeys, hiff.mpr ?_⟩
  rintro ⟨x, hx, e, he, -, -, -, hpaused⟩
  have hfree : ∀ c ∈ relayInner relayed 12, (c.engine.get? 0).all (fun x => x.timers.all fun e =>
      c.engine.timing.status? e.timer ≠ some .paused) = true := by decide +kernel
  have hnot := hfree c hc
  rw [hx, Option.all_some, List.all_eq_true] at hnot
  exact absurd hpaused (by simpa using hnot e he)

/-- A timer that is paused when the relay moves on is kept for the delay of the second
state, whose key is the same. -/
theorem relay_not_renewed :
  ∃ before a inner b n, Run relayHost (before ++ a :: inner) b
    ∧ (∃ e, (signal relayHost a).taken = some (0, e)) ∧ (∀ c ∈ inner, IsWorking 0 c)
    ∧ workOf 0 b.stack = some [] ∧ leafOf a 0 = some "a" ∧ leafOf b 0 = some "a_1"
    ∧ b.engine.isRunning 0 = true ∧ nodeOf b 0 "a_1" = some n
    ∧ ¬Renewed relayHost before a inner b 0 "a" "a_1" n
  := by
  have hrun := @run_relayInner pausedAndRelayed 14 (by decide +kernel) (by decide +kernel)
  have htaken : (signal relayHost (relayRun pausedAndRelayed 14).2).taken.map Prod.fst
      = some 0 := by decide +kernel
  obtain ⟨⟨_, e⟩, htaken, rfl⟩ := Option.map_eq_some_iff.mp htaken
  have hnode : (nodeOf (relayRun pausedAndRelayed 23).2 0 "a_1").isSome = true := by
    decide +kernel
  obtain ⟨n, hnode⟩ := Option.isSome_iff_exists.mp hnode
  have hcalls : ((relayRun pausedAndRelayed 14).2.engine.timing.timers.get? 0).map (fun t =>
      t.callback.bind Callback.delayed?) = some (some (0, "a", "1_5", 1)) := by decide +kernel
  obtain ⟨t, ht, hdelayed⟩ := Option.map_eq_some_iff.mp hcalls
  obtain ⟨cb, hcb, hdelayed⟩ := Option.bind_eq_some_iff.mp hdelayed
  obtain rfl := Callback.eq_of_delayed? hdelayed
  refine ⟨_, _, _, _, n, hrun, ⟨e, htaken⟩, by decide +kernel, workOf_eq_nil (by decide +kernel),
    by decide +kernel, by decide +kernel, by decide +kernel, hnode, ?_⟩
  intro hrenewed
  have hdestroyed := hrenewed.destroyed _ (by simp) 0 "1_5" 1 ⟨t, ht, hcb⟩
  have hpaused : (relayRun pausedAndRelayed 23).2.engine.timing.status? 0 = some .paused := by
    decide +kernel
  rw [hpaused] at hdestroyed
  cases hdestroyed

end Configuration

end Statechart
