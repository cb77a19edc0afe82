import Statechart.Proofs.Delays
import Statechart.Proofs.Pausing
import Statechart.Proofs.Replay

/-!
# Stale firings

In a run without pauses a delayed firing is acted upon only during the stay that its timer was
armed for: since then the state was active throughout, and the timers were not armed again.  No
delayed firing is taken twice (`Configuration.Run.never_stale`).
-/

namespace Statechart

variable {κ π σ : Type}

/-! ### Generations -/

/-- The timers of an instance are to be armed. -/
def Rewinding (w : Option (List (Phase κ))) : Prop :=
  ∃ ps, w = some ps ∧ .rearm ∈ ps

@[simp]
theorem not_rewinding_none :
  ¬Rewinding (none : Option (List (Phase κ)))
  := by
  simp [Rewinding]

@[simp]
theorem rewinding_some {ps : List (Phase κ)} :
  Rewinding (some ps) ↔ .rearm ∈ ps
  := by
  simp [Rewinding]

/-- An instance keeps its generation and its timers, or it gets the next generation: then its
timers are armed, or it has none. -/
theorem Turn.generation {i : Nat} {r r' : Engine κ} {x y : Instance κ}
    {w w' : Option (List (Phase κ))} (h : Turn i r r' x w y w') (hx : r.get? i = some x)
    (hy : r'.get? i = some y) :
  (y.generation = x.generation ∧ y.timers = x.timers)
    ∨ (y.generation = x.generation + 1 ∧ (y.timers = []
      ∨ (x.isRunning = true ∧ y.snapshot = x.snapshot ∧ (∃ rest, w = some (.rearm :: rest)
        ∧ w' = some rest) ∧ (r.armTimers i).value = .ok r')))
  := by
  cases h with
  | rearm hrunning harmed =>
    obtain ⟨active, ds, es, -, -, hrearms⟩ := Engine.rearms_of_armTimers hx harmed
    have heq := Option.some.inj (hy.symm.trans ((hrearms.get? i).trans (if_pos rfl)))
    exact .inr ⟨congrArg Instance.generation heq, .inr ⟨hrunning, rfl, ⟨_, rfl, rfl⟩, harmed⟩⟩
  | halt => exact .inr ⟨rfl, .inl rfl⟩
  | _ => exact .inl ⟨rfl, rfl⟩

/-- An instance that runs, and keeps its generation, is to arm its timers, or it stays in its
state. -/
theorem Turn.rewinds {i : Nat} {r r' : Engine κ} {x y : Instance κ}
    {w w' : Option (List (Phase κ))} (h : Turn i r r' x w y w') (hx : r.get? i = some x)
    (hy : r'.get? i = some y) (hxrunning : x.isRunning = true) (hrunning : y.isRunning = true)
    (hgeneration : y.generation = x.generation) :
  Rewinding w' ∨ (¬Rewinding w ∧ y.snapshot.value.leaf? = x.snapshot.value.leaf?)
  := by
  cases w with
  | none =>
    refine .inr ⟨not_rewinding_none, ?_⟩
    cases h with
    | keep => rfl
    | start hnot => simp [Instance.isRunning, hnot] at hxrunning
    | drop => rfl
    | halt => cases hrunning
  | some ps =>
    cases ps with
    | nil =>
      obtain ⟨-, hleaf | hrearm⟩ := h.timers_of_taken hxrunning hrunning
      · exact .inr ⟨by simp, hleaf⟩
      · exact .inl hrearm
    | cons q qs =>
      obtain ⟨hsnapshot, ⟨-, -, harmed⟩ | ⟨-, ps', rfl, hiff⟩⟩ :=
        h.timers_of_working hxrunning hrunning
      · obtain ⟨active, ds, es, -, -, hrearms⟩ := Engine.rearms_of_armTimers hx harmed
        have heq := Option.some.inj (hy.symm.trans ((hrearms.get? i).trans (if_pos rfl)))
        exact absurd (hgeneration.symm.trans (congrArg Instance.generation heq))
          (Nat.ne_of_lt (Nat.lt_succ_self _))
      · by_cases hrearm : .rearm ∈ ps'
        · exact .inl ⟨ps', rfl, hrearm⟩
        · exact .inr ⟨by rwa [rewinding_some, ← hiff], by rw [hsnapshot]⟩

/-- An instance that acts upon a delayed firing has a timer of the generation of the firing. -/
theorem Instance.exists_timer_of_after {x : Instance κ} {state key : String} {generation : Nat}
    (h : x.resolution (.after state key generation) ≠ .ignore) :
  ∃ e ∈ x.timers, e.generation = generation
  := by
  have hfresh : Configuration.isFresh x state key generation = true := by
    by_contra hstale
    exact h (by simp [resolution, hstale])
  rw [Configuration.isFresh, Bool.and_eq_true] at hfresh
  obtain ⟨-, hfresh⟩ := hfresh
  split at hfresh
  · next e he => exact ⟨e, List.mem_of_find?_eq_some he, by simpa using hfresh⟩
  · cases hfresh

/-! ### Arming -/

namespace Engine

variable {r r' : Engine κ} {i : Nat} {x y : Instance κ}

/-- Delays are those of the active state. -/
theorem leaf?_of_activeDelays {active : Option (String × Option Meta)} {ds : List (Delayed κ)}
    (h : activeDelays x = .ok (active, ds)) {d : Delayed κ} (hd : d ∈ ds) (i : Nat) :
  x.snapshot.value.leaf? = some (armingOf i x active).state
  := by
  rw [activeDelays] at h
  split at h
  · next hleaf =>
    split at h
    · cases h
    · cases h
      exact hleaf
  · cases h
    cases hd

/-- If no timer is paused, arming gives new timers, for the next generation and for delays of
the active state. -/
theorem fresh_of_armTimers (hx : r.get? i = some x) (hvalid : x.Valid)
    (harmory : Armory r.timing x.timers) (hunpaused : r.timing.Unpaused)
    (harmed : (r.armTimers i).value = .ok r') (hy : r'.get? i = some y) {e : Armed}
    (he : e ∈ y.timers) :
  ∃ state key u, x.snapshot.value.leaf? = some state ∧ e.generation = x.generation + 1
    ∧ r'.timing.timers.get? e.timer = some u
    ∧ u.callback = some (.after i state key e.generation)
  := by
  obtain ⟨active, ds, hactive, harms, -, -⟩ := armTimers_cases hx hvalid harmory harmed hy
  obtain ⟨d, hd, hkept | hfresh⟩ := Configuration.exists_of_mem_left harms.flip he
  · next hpaused => exact absurd hpaused (hunpaused.status?_ne _)
  · next u _ hgeneration _ hu hcallback =>
    exact ⟨_, d.key, u, leaf?_of_activeDelays hactive hd i, hgeneration, hu,
      hgeneration ▸ hcallback⟩

end Engine

/-! ### Timers that have fired -/

/-- A timer that fires is left without a callback. -/
theorem Timing.silent_of_fire {τ : Type} {t : Timing τ} {id : Nat}
    {fired : Option τ × Option Nat} (h : (t.fire id).1 = some fired) :
  ∃ u, (t.fire id).2.timers.get? id = some u ∧ u.callback = none
  := by
  obtain ⟨x, hx, hrunning, -⟩ := fire_eq_some h
  simp [fire, hx, hrunning, updateTimer, Table.get?_modify]

/-- A timer that calls something is left without a callback. -/
theorem Engine.silent_of_due? {r : Engine κ} {target id : Nat} {cb : Callback κ}
    (h : r.due? target = some (cb, some id)) :
  ∃ u, (r.timing.tick target).timers.get? id = some u ∧ u.callback = none
  := by
  rw [due?] at h
  rw [Timing.tick]
  split at h
  · cases h
  · next p scheduler htake =>
    split at h
    · simp at h
    · next id' htask =>
      split at h
      · next callback channel hfire =>
        simp only [Option.some.injEq, Prod.mk.injEq] at h
        obtain ⟨-, rfl⟩ := h
        simp only [htake, htask]
        exact Timing.silent_of_fire hfire
      · cases h

/-- What engines do by themselves leads to a later reading of the clock. -/
theorem Timing.covers_later :
  Timing.Covers (Timing.Later (τ := Callback κ))
  where
  refl := .refl
  trans := .trans
  arm t pool delay _ :=
    (t.follows_newTimer pool delay fun _ _ => trivial).trans (Timing.follows_start _ _)
  destroy t id := t.follows_destroy id
  announce t channel completion := t.follows_announce channel completion

namespace Configuration

variable {H : Host κ π σ} {cs before after : List (Configuration κ π σ)}
  {a b c d : Configuration κ π σ} {i id generation : Nat} {state key : String}
  {x y : Instance κ}

/-! ### Timers of a generation -/

/-- In a run without pauses the timers of an instance have its generation. -/
theorem Run.generation_eq (h : Run H cs c) (hpauses : ∀ b ∈ cs, b.pauses = false)
    (hx : c.engine.get? i = some x) :
  ∀ e ∈ x.timers, e.generation = x.generation
  := by
  induction h generalizing x with
  | start => simp [idle] at hx
  | next hrun hstep ih =>
    have hpauses' := fun b hb => hpauses b (List.mem_append_left _ hb)
    obtain ⟨mid, hgoes⟩ := hrun.goes hstep
    have hmid := hgoes.releases.get?_of_get? hx
    obtain ⟨z, hz⟩ | ⟨-, harrives⟩ := hgoes.arrives hmid
    · obtain ⟨hgeneration, htimers⟩ | ⟨hgeneration, htimers | ⟨-, -, -, harmed⟩⟩ :=
        (hgoes.turn hz hmid).generation hz hmid
      · rw [hgeneration, htimers]
        exact ih hpauses' hz
      · rw [htimers]
        exact fun _ h => absurd h List.not_mem_nil
      · intro e he
        obtain ⟨-, -, -, -, heq, -⟩ := Engine.fresh_of_armTimers hz (hrun.valid.1 i z hz)
          (hrun.wound.armory i z hz) (hrun.unpaused hpauses') harmed hmid he
        exact heq.trans hgeneration.symm
    · rw [harrives.timers_eq]
      exact fun _ h => absurd h List.not_mem_nil

/-- The timer of a delay of a state is armed for an instance, in the step from `a` to `b`. -/
structure ArmsTimer (i : Nat) (state key : String) (id generation : Nat)
    (a b : Configuration κ π σ) : Prop where
  rearming : Rearming i a
  fresh : a.engine.timing.timers.get? id = none
  calls : Calls b id (.after i state key generation)
  generation : ∃ x, a.engine.get? i = some x ∧ generation = x.generation + 1

/-- An instance is in a state, its timer for a delay of it is of the present generation, and the
timers are not to be armed again. -/
structure Current (i : Nat) (state key : String) (id generation : Nat)
    (c : Configuration κ π σ) : Prop where
  stay : ∃ x, c.engine.get? i = some x ∧ x.snapshot.value.leaf? = some state
    ∧ x.generation = generation ∧ ⟨armedKey state key, id, generation⟩ ∈ x.timers
  settled : ¬Rewinding (workOf i c.stack)

/-- A timer that comes to call a delayed transition in a step is armed in it. -/
theorem Goes.armsTimer {mid : Engine κ} (hgoes : Goes H c mid d) (hrun : Run H cs c)
    (hunpaused : c.engine.timing.Unpaused) (hcalls : Calls d id (.after i state key generation))
    (hnot : ¬Calls c id (.after i state key generation)) :
  ArmsTimer i state key id generation c d ∧ Current i state key id generation d
  := by
  obtain ⟨u, hu, hcallback⟩ := hcalls
  -- Where timers are armed nothing is let go.
  have hmid : mid = d.engine := by
    obtain hmid | hgentle := hgoes.gentle
    · exact hmid
    · exfalso
      obtain ⟨v, hv, hbecomes⟩ | ⟨-, -, hnone⟩ := hgoes.releases.timing.origin hu
      · have hv' := hbecomes.callback_eq hcallback
        obtain ⟨w, hw, hbecomes⟩ | ⟨-, -, hcode⟩ := hgentle.quiet.origin hv
        · exact hnot ⟨w, hw, hbecomes.callback_eq hv'⟩
        · obtain ⟨_, ⟨⟩⟩ := hcode _ hv'
      · exact hnone _ hcallback
  subst hmid
  obtain ⟨v, hv, hbecomes⟩ | ⟨hle, -, hfiles⟩ := hgoes.move.follows.origin hu
  · exact absurd ⟨v, hv, hbecomes.callback_eq hcallback⟩ hnot
  have hfresh := Table.get?_eq_none_of_le _ hle
  cases hfiles _ hcallback with
  | @after _ _ _ _ y hy hmem =>
    obtain ⟨x, hx⟩ | ⟨-, harrives⟩ := hgoes.arrives hy
    · have harmory := hrun.wound.armory i x hx
      obtain ⟨-, htimers⟩ | ⟨hgeneration, htimers | ⟨-, hsnapshot, ⟨rest, hw, hw'⟩, harmed⟩⟩ :=
        (hgoes.turn hx hy).generation hx hy
      · obtain ⟨v, hv⟩ := harmory.present _ (htimers ▸ hmem)
        cases hfresh.symm.trans hv
      · rw [htimers] at hmem
        cases hmem
      · obtain ⟨state', key', v, hleaf, heq, hv, hcallback'⟩ := Engine.fresh_of_armTimers hx
          (hrun.valid.1 i x hx) harmory hunpaused harmed hy hmem
        rw [hu] at hv
        obtain rfl := Option.some.inj hv
        obtain ⟨-, rfl, rfl, -⟩ :=
          Callback.after.inj (Option.some.inj (hcallback.symm.trans hcallback'))
        refine ⟨⟨⟨rest, hw⟩, hfresh, ⟨u, hu, hcallback⟩, x, hx, heq⟩,
          ⟨y, hy, hsnapshot ▸ hleaf, hgeneration.trans heq.symm, hmem⟩, ?_⟩
        rw [hw', rewinding_some]
        intro hrest
        exact (List.rel_of_pairwise_cons ((hrun.tidy hx).order _ hw) hrest).2.1 rfl rfl
    · rw [harrives.timers_eq] at hmem
      cases hmem

/-- A timer calls delayed transitions of instances that were started. -/
theorem Run.begun_of_calls (h : Run H cs c)
    (hcalls : Calls c id (.after i state key generation)) :
  c.engine.Begun i
  := by
  obtain ⟨u, hu, hcallback⟩ := hcalls
  exact h.started.timer id u i state key generation hu hcallback

/-- A timer that calls a delayed transition was armed in a step of the run. -/
theorem Run.exists_armsTimer (h : Run H cs c) (hpauses : ∀ b ∈ cs, b.pauses = false)
    (hcalls : Calls c id (.after i state key generation)) :
  ∃ before a b after, cs ++ [c] = before ++ a :: b :: after ∧ c ∈ b :: after
    ∧ ArmsTimer i state key id generation a b ∧ Current i state key id generation b
  := by
  induction h with
  | start =>
    obtain ⟨u, hu, -⟩ := hcalls
    simp [idle, Engine.empty, Timing.empty] at hu
  | @next cs c d hrun hstep ih =>
    have hpauses' := fun b hb => hpauses b (List.mem_append_left _ hb)
    by_cases hold : Calls c id (.after i state key generation)
    · obtain ⟨before, a, b, after, heq, -, harms⟩ := ih hpauses' hold
      exact ⟨before, a, b, after ++ [d], by simp [heq], by simp, harms⟩
    · obtain ⟨mid, hgoes⟩ := hrun.goes hstep
      exact ⟨cs, c, d, [], by simp, by simp,
        hgoes.armsTimer hrun (hrun.unpaused hpauses') hcalls hold⟩

/-! ### The stay -/

/-- The stay goes on in a step that neither arms the timers nor leaves the state. -/
theorem Current.next (h : Current i state key id generation c) (hx : c.engine.get? i = some x)
    (hy : d.engine.get? i = some y) (hleaf : y.snapshot.value.leaf? = x.snapshot.value.leaf?)
    (hgeneration : y.generation = x.generation) (htimers : y.timers = x.timers)
    (hsettled : ¬Rewinding (workOf i d.stack)) :
  Current i state key id generation d
  := by
  obtain ⟨z, hz, hzleaf, hzgeneration, hmem⟩ := h.stay
  rw [hx] at hz
  obtain rfl := Option.some.inj hz
  exact ⟨⟨y, hy, hleaf.trans hzleaf, hgeneration.trans hzgeneration, htimers ▸ hmem⟩, hsettled⟩

/-- Since a timer of the present generation was armed an instance that runs has got another
generation, or it is to arm its timers, or the stay goes on. -/
theorem Run.current (h : Run H (before ++ b :: after) c)
    (hbegun : b.engine.Begun i) (hcurrent : Current i state key id generation b)
    (hx : c.engine.get? i = some x) (hrunning : x.isRunning = true) :
  generation < x.generation ∨ Rewinding (workOf i c.stack)
    ∨ ∀ e ∈ b :: after ++ [c], Current i state key id generation e
  := by
  have hsince := h.since
    (p := fun rest c => c.engine.Begun i ∧ ∀ x, c.engine.get? i = some x → x.isRunning = true →
      generation < x.generation ∨ (x.generation = generation
        ∧ (Rewinding (workOf i c.stack)
          ∨ ∀ e ∈ rest ++ [c], Current i state key id generation e)))
    ⟨hbegun, ?_⟩ ?_
  · exact (hsince.2 x hx hrunning).imp_right And.right
  · intro x hx _
    obtain ⟨y, hy, -, hgeneration, -⟩ := hcurrent.stay
    rw [hx] at hy
    obtain rfl := Option.some.inj hy
    exact .inr ⟨hgeneration, .inr (by simpa using hcurrent)⟩
  · rintro rest c d hrun hstep ⟨hbegun, ih⟩
    obtain ⟨mid, hgoes⟩ := hrun.goes hstep
    refine ⟨hgoes.begun hbegun, fun y hy hrunning => ?_⟩
    obtain ⟨x, hx, hxrunning, hturn⟩ := hgoes.runs hbegun hy hrunning
    have hmid := hgoes.releases.get?_of_get? hy
    obtain ⟨heq, htimers⟩ | ⟨heq, -⟩ := hturn.generation hx hmid
    · obtain hlt | ⟨hgeneration, hstay⟩ := ih x hx hxrunning
      · exact .inl (heq ▸ hlt)
      refine .inr ⟨heq.trans hgeneration, or_iff_not_imp_left.mpr fun hsettled => ?_⟩
      obtain ⟨hnot, hleaf⟩ := (hturn.rewinds hx hmid hxrunning hrunning heq).resolve_left hsettled
      have hrest := hstay.resolve_left hnot
      intro e he
      obtain he | he := List.mem_append.mp he
      · exact hrest e he
      · obtain rfl := List.mem_singleton.mp he
        exact (hrest c (by simp)).next hx hy hleaf heq htimers hsettled
    · obtain hlt | ⟨hgeneration, -⟩ := ih x hx hxrunning
      · exact .inl (heq ▸ Nat.lt_succ_of_lt hlt)
      · exact .inl (heq ▸ hgeneration ▸ Nat.lt_succ_self _)

/-- The generation of an instance grows. -/
theorem Run.generation_le (h : Run H (before ++ b :: after) c) (hx : b.engine.get? i = some x)
    (hy : c.engine.get? i = some y) :
  x.generation ≤ y.generation
  := by
  refine (h.since (p := fun _ c => i < c.engine.instances.next
    ∧ ∀ y, c.engine.get? i = some y → x.generation ≤ y.generation)
    ⟨Engine.lt_next_of_get? hx, ?_⟩ ?_).2 y hy
  · intro y hy
    rw [hx] at hy
    obtain rfl := Option.some.inj hy
    exact Nat.le_refl _
  · intro rest c d hrun hstep ih
    obtain ⟨mid, hgoes⟩ := hrun.goes hstep
    apply hgoes.kept ih
    intro z y hz hmid ih
    obtain ⟨heq, -⟩ | ⟨heq, -⟩ := (hgoes.turn hz hmid).generation hz hmid
    · exact heq ▸ ih
    · exact heq ▸ Nat.le_succ_of_le ih

/-- A timer that calls a delayed transition is the one that its instance has for the delay, of
the present generation. -/
theorem Run.entry_of_calls (h : Run H cs c) (hpauses : ∀ b ∈ cs, b.pauses = false)
    (hcalls : Calls c id (.after i state key generation)) (hx : c.engine.get? i = some x) :
  ⟨armedKey state key, id, generation⟩ ∈ x.timers ∧ generation = x.generation
  := by
  obtain ⟨u, hu, hcallback⟩ := hcalls
  have hmem := h.wound.entry id u i state key generation x hu hcallback hx
  exact ⟨hmem, h.generation_eq hpauses hx _ hmem⟩

/-- A timer that called a delayed transition had no greater generation than its instance has. -/
theorem Run.generation_of_calls (h : Run H cs c) (hpauses : ∀ b ∈ cs, b.pauses = false)
    (hb : b ∈ cs ++ [c]) (hcalls : Calls b id (.after i state key generation))
    (hx : c.engine.get? i = some x) :
  generation ≤ x.generation
  := by
  obtain hb | hb := List.mem_append.mp hb
  swap
  · obtain rfl := List.mem_singleton.mp hb
    exact Nat.le_of_eq (h.entry_of_calls hpauses hcalls hx).2
  obtain ⟨before, after, rfl⟩ := List.append_of_mem hb
  have hrun := h.of_append
  obtain ⟨z, hz⟩ := (h.later hb).2 i x (hrun.begun_of_calls hcalls).1 hx
  have hpauses' := fun b hb => hpauses b (List.mem_append_left _ hb)
  rw [(hrun.entry_of_calls hpauses' hcalls hz).2]
  exact h.generation_le hz hx

/-! ### Firing -/

/-- A delayed firing that is posted is that of a timer. -/
theorem Run.exists_fires_of_postedTo (h : Run H cs c)
    (hposted : (signal H c).postedTo i = some (.after state key generation)) :
  ∃ id, Fires id (.after i state key generation) c
  := by
  obtain ⟨sender, hposted⟩ := posted_of_postedTo hposted
  have hsignals := signals H c
  generalize signal H c = s at hposted hsignals
  cases hsignals with
  | @after reply target _ _ _ _ timer below hcontrol hstack hdue =>
    cases hposted
    cases timer with
    | some id => exact ⟨id, target, below, reply, hcontrol, hstack, hdue⟩
    | none =>
      rw [Engine.due?] at hdue
      split at hdue
      · cases hdue
      · next p scheduler htake =>
        split at hdue
        · next callback htask =>
          obtain ⟨_, rfl⟩ := h.started.task p
            (Timing.follows_takeDue (P := fun _ _ => True) (Q := fun _ => True)
              c.engine.timing htake).1 _ htask
          cases hdue
        · split at hdue <;> cases hdue
  | _ => cases hposted

theorem calls_of_fires {cb : Callback κ} (h : Fires id cb c) :
  Calls c id cb
  := by
  obtain ⟨_, _, _, -, -, hdue⟩ := h
  exact calls_of_due? hdue

/-- A timer that calls something calls nothing again. -/
theorem Evolves.not_calls (h : Evolves H c d) {cb cb' : Callback κ} (hfires : Fires id cb c) :
  ¬Calls d id cb'
  := by
  obtain ⟨target, below, reply, hcontrol, hstack, hdue⟩ := hfires
  obtain ⟨u, hu, hnone⟩ := Engine.silent_of_due? hdue
  have hd : (c.engine.timing.tick target).Later d.engine.timing := by
    have hstep := h.step?_of_stack hstack
    rw [step?, hcontrol] at hstep
    simp only [hstack, Option.some.injEq] at hstep
    subst hstep
    exact Timing.covers_later.stepClock hstack
  rintro ⟨w, hw, hcallback⟩
  obtain ⟨v, hv, hbecomes⟩ := hd.kept hu
  rw [hw] at hv
  obtain rfl := Option.some.inj hv
  cases hnone.symm.trans (hbecomes.callback_eq hcallback)

/-- No timer is to call a delayed transition once more after its firing was posted. -/
theorem Run.not_calls_of_postedTo (h : Run H cs c) (hpauses : ∀ b ∈ cs, b.pauses = false)
    (hb : b ∈ cs) (hposted : (signal H b).postedTo i = some (.after state key generation))
    (hx : c.engine.get? i = some x) :
  ¬Calls c id (.after i state key generation)
  := by
  induction h generalizing x id with
  | start => cases hb
  | @next cs c d hrun hstep ih =>
    intro hcalls
    have hpauses' := fun b hb => hpauses b (List.mem_append_left _ hb)
    obtain ⟨mid, hgoes⟩ := hrun.goes hstep
    obtain ⟨z, hz⟩ | ⟨-, harrives⟩ := hgoes.arrives (hgoes.releases.get?_of_get? hx)
    swap
    · have hmem := ((hrun.next hstep).entry_of_calls hpauses hcalls hx).1
      exact absurd (harrives.timers_eq ▸ hmem) List.not_mem_nil
    obtain ⟨before, after, heq⟩ := List.append_of_mem hb
    have hpassed : Run H (before ++ b :: after) d := heq ▸ hrun.next hstep
    obtain ⟨id', hfires⟩ := hpassed.of_append.exists_fires_of_postedTo hposted
    by_cases hold : Calls c id (.after i state key generation)
    · obtain hb | hb := List.mem_append.mp hb
      · exact ih hpauses' hb hz hold
      · obtain rfl := List.mem_singleton.mp hb
        have hid : id = id' := congrArg Armed.timer
          ((hrun.wound.armory i z hz).eq_of_key_eq (hrun.entry_of_calls hpauses' hold hz).1
            (hrun.entry_of_calls hpauses' (calls_of_fires hfires) hz).1 rfl)
        exact hstep.not_calls (hid ▸ hfires) hcalls
    · obtain ⟨w, hw, hgeneration⟩ :=
        (hgoes.armsTimer hrun (hrun.unpaused hpauses') hcalls hold).1.generation
      rw [hz] at hw
      obtain rfl := Option.some.inj hw
      have hle := hrun.generation_of_calls hpauses' hb (calls_of_fires hfires) hz
      omega

/-! ### Taking -/

/-- An instance that runs has taken no delayed firing that it takes now. -/
theorem Run.not_taken_twice (h : Run H cs c) (hpauses : ∀ b ∈ cs, b.pauses = false)
    (htaken : (signal H c).taken = some (i, .after state key generation))
    (hx : c.engine.get? i = some x) (hrunning : x.isRunning = true) :
  ∀ e ∈ cs, (signal H e).taken ≠ some (i, .after state key generation)
  := by
  intro e he htaken'
  have hnever := h.never_stopped hx (Instance.status_ne_stopped hrunning)
  -- What was taken in `e` was posted before what is taken now.
  obtain ⟨before, a, after, rfl, hposted, hposts⟩ := h.exists_post htaken
    (Engine.isRunning_of_get? hx hrunning)
  obtain ⟨b, hb, hbposted⟩ : ∃ b ∈ before,
      (signal H b).postedTo i = some (.after state key generation) := by
    obtain ⟨inner, outer, heq⟩ := List.append_of_mem he
    have hrun : Run H (inner ++ e :: outer) c := heq ▸ h
    obtain ⟨mid, d, hgoes⟩ := hrun.goes_of_append
    have hhandles : handles H i e = some (.after state key generation) := by
      rw [hrun.of_append.handles_eq hgoes (hnever e (List.mem_append_left _ he)),
        Signal.takenBy, htaken']
      simp
    have hmem := List.mem_filterMap.mpr ⟨e, he, hhandles⟩
    rw [← handled, ← hposts] at hmem
    exact List.mem_filterMap.mp hmem
  have hpassed := h.of_append
  obtain ⟨id, hfires⟩ := hpassed.exists_fires_of_postedTo hposted
  obtain ⟨z, hz⟩ := (h.later (List.mem_append_right _ List.mem_cons_self)).2 i x
    (hpassed.begun_of_calls (calls_of_fires hfires)).1 hx
  exact hpassed.not_calls_of_postedTo (fun b hb => hpauses b (List.mem_append_left _ hb)) hb
    hbposted hz (calls_of_fires hfires)

/-- In a run without pauses, when an instance takes the firing of a delay of a state and does not
ignore it, the timer for it was armed in a step of the run, and its firing was posted later.  Ever
since the step the instance has been in this state, and the timer has been the one that it has for
the delay, of its present generation and not to be replaced.  And the firing was not taken
before. -/
theorem Run.never_stale (h : Run H cs c) (hpauses : ∀ b ∈ cs, b.pauses = false)
    (htaken : (signal H c).taken = some (i, .after state key generation))
    (hx : c.engine.get? i = some x)
    (hattempt : x.resolution (.after state key generation) ≠ .ignore) :
  (∃ before a b after id, cs ++ [c] = before ++ a :: b :: after
      ∧ ArmsTimer i state key id generation a b
      ∧ (∃ f ∈ b :: after, Fires id (.after i state key generation) f)
      ∧ ∀ e ∈ b :: after, Current i state key id generation e)
    ∧ ∀ e ∈ cs, (signal H e).taken ≠ some (i, .after state key generation)
  := by
  have hrunning := Instance.isRunning_of_resolution hattempt
  refine ⟨?_, h.not_taken_twice hpauses htaken hx hrunning⟩
  obtain ⟨inner, f, outer, rfl, hposted, -⟩ := h.exists_post htaken
    (Engine.isRunning_of_get? hx hrunning)
  have hpassed := h.of_append
  obtain ⟨id, hfires⟩ := hpassed.exists_fires_of_postedTo hposted
  obtain ⟨before, a, b, after, heq, hf, harms, hcurrent⟩ := hpassed.exists_armsTimer
    (fun b hb => hpauses b (List.mem_append_left _ hb)) (calls_of_fires hfires)
  have hsplit : inner ++ f :: outer = (before ++ [a]) ++ b :: (after ++ outer) := by
    rw [List.append_cons, heq]
    simp
  have hrun : Run H ((before ++ [a]) ++ b :: (after ++ outer)) c := hsplit ▸ h
  refine ⟨before, a, b, after ++ outer ++ [c], id, by simp [hsplit], harms,
    ⟨f, List.mem_append_left _ (List.mem_append_left outer hf), hfires⟩, ?_⟩
  obtain hlt | hrewinding | hstay := hrun.current
    (hrun.of_append.begun_of_calls harms.calls) hcurrent hx hrunning
  · obtain ⟨e, he, rfl⟩ := Instance.exists_timer_of_after hattempt
    exact absurd (h.generation_eq hpauses hx e he) (Nat.ne_of_lt hlt)
  · obtain ⟨_, _, _, _, -, -, hstack, -⟩ := step?_of_taken htaken
    simp [hstack] at hrewinding
  · exact hstay

end Configuration

/-! ### A stale firing -/

/-- A machine that leaves the state `s` after 5 ms.  Its action is the code `()`. -/
def detourDescriptor : MachineDescriptor Unit where
  id := some "detour"
  initial := some "s"
  kind := .atomic
  context := .empty
  metadata := none
  states := ⟨[
    ("s", { StateDescriptor.empty with
      on := ⟨[("PLAY", [⟨none, [.inline "stray" ()], none⟩]), ("LEAVE", [.ofTarget "r"])]⟩
      after := ⟨[("5", [.ofTarget "late"])]⟩ }),
    ("r", { StateDescriptor.empty with on := ⟨[("BACK", [.ofTarget "s"])]⟩ }),
    ("late", .empty)]⟩

/-- The machine of `detourDescriptor`. -/
def detour : Machine Unit where
  id := some "detour"
  metadata := none
  context := .empty
  topology := .flat
    { owner := "detour"
      region := none
      initial := "s"
      nodes := ⟨[
        ("s", ⟨"s", .atomic,
          ⟨[("PLAY", [⟨none, [.effect "stray" ()], none⟩]), ("LEAVE", [⟨some "r", [], none⟩])]⟩,
          [], [], [⟨"5", .fixed 5, [⟨some "late", [], none⟩]⟩], [], none⟩),
        ("r", ⟨"r", .atomic, ⟨[("BACK", [⟨some "s", [], none⟩])]⟩, [], [], [], [], none⟩),
        ("late", ⟨"late", .atomic, .empty, [], [], [], [], none⟩)]⟩ }
  initial := ⟨.leaf "s", .empty, none, [], false, false⟩
  services := .empty

theorem isCompiled_detour :
  detour.IsCompiled
  := ⟨detourDescriptor, .empty, MachineDescriptor.keyed_of_shallow (by decide) (by decide), rfl⟩

/-- What a delayed firing is about: the state, the delay and the generation. -/
def Envelope.delayed? : Envelope → Option (String × String × Nat)
  | after state key generation => some (state, key, generation)
  | _ => none

theorem Envelope.eq_of_delayed? {e : Envelope} {state key : String} {generation : Nat}
    (h : e.delayed? = some (state, key, generation)) :
  e = .after state key generation
  := by
  cases e <;> cases h
  rfl

namespace Configuration

/-- What the action does: it sends the machine away and back, and advances the clock. -/
def stray : Script Unit :=
  [.send 0 (.named "LEAVE"), .send 0 (.named "BACK"), .advance 5]

/-- The host of the detour. -/
def detourHost : Host Unit (Script Unit) Unit :=
  scripted (fun _ => stray) (fun _ => .error (.unknownService "")) 1

/-- The first `n` steps after the machine is made: it is started, takes its detour, and the clock
is advanced. -/
def detourRun (n : Nat) : List (Configuration Unit (Script Unit) Unit)
    × Configuration Unit (Script Unit) Unit :=
  played (fun _ => stray) (fun _ => .error (.unknownService "")) 1 detour
    [.start 0, .send 0 (.named "PLAY"), .advance 5] n

theorem taken_of_delayed? {s : Signal κ} {i generation : Nat} {state key : String}
    (h : s.taken.map (fun t => (t.1, t.2.delayed?)) = some (i, some (state, key, generation))) :
  s.taken = some (i, .after state key generation)
  := by
  obtain ⟨⟨j, e⟩, htaken, heq⟩ := Option.map_eq_some_iff.mp h
  obtain ⟨rfl, he⟩ := Prod.mk.inj heq
  obtain rfl := Envelope.eq_of_delayed? he
  exact htaken

/-- The firing of the first timer waits behind the detour and is ignored; that of the timer that
is armed at the end of the detour is acted upon. -/
theorem detour_never_stale :
  Run detourHost (detourRun 52).1 (detourRun 52).2
    ∧ (∃ b ∈ (detourRun 52).1, ∃ x, (signal detourHost b).taken = some (0, .after "s" "5" 1)
      ∧ b.engine.get? 0 = some x ∧ x.snapshot.value.leaf? = some "s"
      ∧ (x.resolution (.after "s" "5" 1)).attempts = false)
    ∧ (signal detourHost (detourRun 52).2).taken = some (0, .after "s" "5" 4)
    ∧ (∃ x, (detourRun 52).2.engine.get? 0 = some x
      ∧ x.resolution (.after "s" "5" 4) ≠ .ignore)
    ∧ ∃ before a b after id, (detourRun 52).1 ++ [(detourRun 52).2] = before ++ a :: b :: after
      ∧ ArmsTimer 0 "s" "5" id 4 a b ∧ ∀ e ∈ b :: after, Current 0 "s" "5" id 4 e
  := by
  have hrun : Run detourHost (detourRun 52).1 (detourRun 52).2 :=
    run_played isCompiled_detour nofun (by decide +kernel)
  have hpauses : ∀ b ∈ (detourRun 52).1, b.pauses = false := by decide +kernel
  have hstale : ∃ b ∈ (detourRun 52).1,
      (signal detourHost b).taken.map (fun t => (t.1, t.2.delayed?)) = some (0, some ("s", "5", 1))
        ∧ (b.engine.get? 0).map (fun x =>
          (x.snapshot.value.leaf?, (x.resolution (.after "s" "5" 1)).attempts))
          = some (some "s", false) := by decide +kernel
  obtain ⟨b, hb, htaken₁, hignored⟩ := hstale
  obtain ⟨y, hy, heq⟩ := Option.map_eq_some_iff.mp hignored
  obtain ⟨hleaf, hignored⟩ := Prod.mk.inj heq
  have htaken : (signal detourHost (detourRun 52).2).taken = some (0, .after "s" "5" 4) :=
    taken_of_delayed? (by decide +kernel)
  have hattempts : ((detourRun 52).2.engine.get? 0).map (fun x =>
      (x.resolution (.after "s" "5" 4)).attempts) = some true := by decide +kernel
  obtain ⟨x, hx, hattempts⟩ := Option.map_eq_some_iff.mp hattempts
  have hattempt := Resolution.ne_ignore hattempts
  obtain ⟨⟨before, a, b', after, id, hsplit, harms, -, hstay⟩, -⟩ :=
    hrun.never_stale hpauses htaken hx hattempt
  exact ⟨hrun, ⟨b, hb, y, taken_of_delayed? htaken₁, hy, hleaf, hignored⟩, htaken,
    ⟨x, hx, hattempt⟩, before, a, b', after, id, hsplit, harms, hstay⟩

end Configuration

end Statechart
