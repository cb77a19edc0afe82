import Statechart.Proofs.Parallel

/-!
# What is seen of a tree of instances

The sight of a configuration is what the next step does with an instance that descends from a
root: which one it is, by the invocations on the way to it, at which time, in which state, and
what is done.  It has no numbers in it.  The host performs calls one after another, each when
nothing is under way, and what is seen of it are the sights of the configurations that are
passed.
-/

namespace Statechart

variable {κ π σ : Type}

/-! ### Sights -/

/-- An envelope without the number of an arming. -/
def Envelope.unnumbered : Envelope → Envelope
  | .after state key _ => .after state key 0
  | e => e

/-- A phase without the numbers of listeners. -/
def Phase.unnumbered : Phase κ → Phase κ
  | .notify s ls => .notify s (ls.map fun l => (0, l.2))
  | p => p

/-- What an instance at work does in a step: it takes an envelope, or it goes on with a phase;
of effects to be performed the first one is executed. -/
inductive Deed (κ : Type) where
  | take (e : Envelope)
  | perform (p : Phase κ)

/-- Whether an instance tells its listeners. -/
def Deed.isTelling : Deed κ → Bool
  | perform (.notify _ _) => true
  | _ => false

/-- What an instance does next that has these phases left to do. -/
def Instance.deed? (x : Instance κ) : List (Phase κ) → Option (Deed κ)
  | [] => x.mailbox.head?.map fun e => .take e.unnumbered
  | p :: _ => some (.perform p.unnumbered)

/-- A step of an instance: the invocations on the way to it from a root, the last one first,
the time, its value, context and metadata, and what it does. -/
structure Sight (κ : Type) where
  path : List String
  time : Nat
  value : StateValue
  context : Context
  metadata : Option Meta
  deed : Deed κ

/-- The invocations on the way from a root to an instance, if it descends from the root through
less than `fuel` of them. -/
def Engine.lineage (r : Engine κ) (root : Nat) : Nat → Nat → Option (List String)
  | 0, _ => none
  | fuel + 1, i =>
    if i = root then some []
    else
      match (r.get? i).bind Instance.parent with
      | some link => (lineage r root fuel link.parent).map (link.id :: ·)
      | none => none

/-- What is seen of the next step of a running instance that descends from a root. -/
def Configuration.sight (root : Nat) (c : Configuration κ π σ) : Option (Sight κ) :=
  match c.control, c.stack with
  | .back _, .working i _ phases :: _ =>
    match c.engine.get? i with
    | some x =>
      if x.isRunning then do
        let path ← c.engine.lineage root (i + 1) i
        let deed ← x.deed? phases
        return ⟨path, c.engine.timing.now, x.snapshot.value, x.snapshot.context,
          x.snapshot.metadata, deed⟩
      else none
    | none => none
  | _, _ => none

/-- What is seen of the steps that are taken from configurations; where listeners are not heeded,
all but that they are told. -/
def Configuration.seen (heeds : Bool) (root : Nat) (cs : List (Configuration κ π σ)) :
    List (Sight κ) :=
  (cs.filterMap (Configuration.sight root)).filter fun s => heeds || !s.deed.isTelling

/-- The state of an instance that runs. -/
def Engine.outline (r : Engine κ) (i : Nat) : Option (StateValue × Context × Option Meta) :=
  match r.get? i with
  | some x =>
    if x.isRunning then some (x.snapshot.value, x.snapshot.context, x.snapshot.metadata) else none
  | none => none

/-! ### Counterparts are seen alike -/

/-- Alike envelopes differ in the number of an arming alone. -/
theorem Envelope.Alike.unnumbered_eq {lead : Int} {e e' : Envelope} (h : e.Alike lead e') :
  e.unnumbered = e'.unnumbered
  := by
  cases h <;> rfl

/-- Alike phases differ in the numbers of listeners alone, where listeners are heeded or none is
told. -/
theorem Phase.Alike.unnumbered_eq {heeds : Bool} {p p' : Phase κ} (h : p.Alike heeds p')
    (hheeds : heeds = true ∨ ∀ s ls, p ≠ .notify s ls) :
  p.unnumbered = p'.unnumbered
  := by
  cases h with
  | same => rfl
  | notify s hls =>
    have hmap := congrArg (List.map fun code : κ => (0, code))
      (hls (hheeds.resolve_right fun h => h _ _ rfl))
    rw [List.map_map, List.map_map] at hmap
    exact congrArg (Phase.notify s) hmap

/-- Counterparts with alike phases left do the same next. -/
theorem Instance.Alike.deed?_eq {P : Pairing} {lead : Int} {x y : Instance κ}
    (h : x.Alike P lead y) {heeds : Bool} {ps ps' : List (Phase κ)}
    (hps : List.Forall₂ (Phase.Alike heeds) ps ps')
    (hheeds : heeds = true ∨ ∀ s ls rest, ps ≠ .notify s ls :: rest) :
  x.deed? ps = y.deed? ps'
  := by
  cases hps with
  | cons hp _ =>
    have hquiet := hheeds.imp_right fun hne s ls heq => hne s ls _ (congrArg (· :: _) heq)
    rw [deed?, deed?, hp.unnumbered_eq hquiet]
  | nil =>
    have hmail := h.mailbox
    rw [deed?, deed?]
    generalize x.mailbox = es, y.mailbox = es' at hmail
    cases hmail with
    | nil => rfl
    | cons he _ => simp [he.unnumbered_eq]

namespace Engine.Alike

variable {P : Pairing} {r s : Engine κ} {t : Tie} {i : Nat} {x : Instance κ}

/-- Counterparts descend from the roots by the same invocations. -/
theorem lineage_eq (h : Alike P r s) (hr : r.Nested) (hs : s.Nested) {fuel fuel' : Nat}
    (ht : t ∈ P.ties) (hx : r.get? t.left = some x) (hstatus : x.status ≠ .stopped)
    (hfuel : t.left < fuel) (hfuel' : t.right < fuel') :
  r.lineage P.root.left fuel t.left = s.lineage P.root.right fuel' t.right
  := by
  induction fuel generalizing fuel' t x with
  | zero => cases hfuel
  | succ fuel ih =>
    obtain _ | fuel' := fuel'
    · cases hfuel'
    · obtain ⟨y, hy, hxy⟩ := h.exists_right ht hx hstatus
      rw [Engine.lineage, Engine.lineage]
      by_cases hroot : t = P.root
      · rw [if_pos (congrArg Tie.left hroot), if_pos (congrArg Tie.right hroot)]
      · rw [if_neg fun heq => hroot (h.eq_of_left t ht _ h.root heq),
          if_neg fun heq => hroot (h.eq_of_right t ht _ h.root heq), hx, hy]
        have hlinks := hxy.parent
        generalize hparent : x.parent = l, hparent' : y.parent = l' at hlinks
        cases hlinks with
        | none => exact absurd (h.orphan t ht x hx hparent) hroot
        | @some link link' hl =>
          obtain ⟨t', ht', hleft, hright⟩ := hl.parent
          obtain ⟨p, hp⟩ := h.rooted t ht x link hx hstatus hparent
          obtain ⟨hup, hchild⟩ := hr.stored _ x link p hx hstatus hparent hp
          obtain ⟨p', hp', -⟩ := h.exists_right ht' (hleft ▸ hp) hup
          have hchild' := (hs.stored _ y link' p' hy (hxy.status ▸ hstatus) hparent'
            (hright ▸ hp')).2
          have hlt := hr.older _ p hp _ hchild
          have hlt' := hs.older _ p' (hright ▸ hp') _ hchild'
          have hpath : r.lineage P.root.left fuel t'.left = s.lineage P.root.right fuel' t'.right :=
            ih ht' (hleft ▸ hp) hup (by omega) (by omega)
          simp only [Option.bind_some, hparent, hparent', hl.id, ← hleft, ← hright, hpath]

/-- An instance without a counterpart does not descend from the root. -/
theorem lineage_eq_none (h : Alike P r s) (hi : P.Free i) (fuel : Nat) :
  r.lineage P.root.left fuel i = none
  := by
  induction fuel generalizing i with
  | zero => rfl
  | succ fuel ih =>
    rw [Engine.lineage, if_neg fun heq => hi _ h.root heq.symm]
    cases hx : r.get? i with
    | none => rfl
    | some x =>
      cases hparent : x.parent with
      | none => simp [hparent]
      | some link =>
        simp [hparent, ih ((h.foreign i x hx hi).parent link hparent)]

/-- The two roots run in the same state, or neither runs. -/
theorem outline_eq (h : Alike P r s) :
  r.outline P.root.left = s.outline P.root.right
  := by
  have hlikened := h.likened _ h.root
  rw [Engine.outline, Engine.outline]
  generalize r.get? P.root.left = a, s.get? P.root.right = b at hlikened
  cases hlikened with
  | alike hxy => simp only [hxy.isRunning_eq, hxy.value, hxy.context, hxy.metadata]
  | left hstopped => simp [Instance.isRunning_of_stopped hstopped]
  | right hstopped => simp [Instance.isRunning_of_stopped hstopped]
  | none => rfl

end Engine.Alike

/-- A call for an instance. -/
inductive Call.IsOn (i : Nat) : Call κ → Prop where
  | start : IsOn i (.start i)
  | send (event : Event) : IsOn i (.send i event)
  | stop : IsOn i (.stop i)

/-- Stopping an instance that is not there does nothing. -/
theorem Engine.stop_of_none {r : Engine κ} {i : Nat} (h : r.get? i = none) :
  r.stop i = r
  := by
  rw [Engine.stop]
  cases r.instances.next with
  | zero => rfl
  | succ n => rw [Engine.stopWithin, h]

namespace Configuration

variable {H : Host κ π σ} {P : Pairing} {cs ds as bs : List (Configuration κ π σ)}
  {c c' d d' : Configuration κ π σ} {heeds : Bool}

/-- The same is seen of both. -/
theorem Alike.sight_eq (h : Alike H P c d) (hheeds : P.heeds = true ∨ ¬c.Tells) (hr : Run H cs c)
    (hs : Run H ds d) (htime : InTime c.engine.timing.now d.engine.timing.now c.stack) :
  c.sight P.root.left = d.sight P.root.right
  := by
  have hcontrol := h.control
  have hstack := h.stack
  rw [Configuration.sight, Configuration.sight]
  generalize hk : c.control = k, d.control = k' at hcontrol
  cases hcontrol with
  | done => rfl
  | back reply reply' =>
    generalize hst : c.stack = st, hst' : d.stack = st' at hstack
    cases hstack with
    | nil => rfl
    | cons hf _ =>
      cases hf with
      | waiting _ | advancing _ | fired _ _ => rfl
      | @working t o o' ps ps' ht hps =>
        obtain ⟨x, hx⟩ := hr.orderly.there t.left (by simp [hst, workers, Frame.worker?])
        obtain ⟨y, hy⟩ := hs.orderly.there t.right (by simp [hst', workers, Frame.worker?])
        have hxy := h.engine.alike ht hx hy
        have hquiet : P.heeds = true ∨ ∀ s ls rest, ps ≠ .notify s ls :: rest := by
          refine hheeds.imp_right fun hnot s ls rest heq => ?_
          exact hnot ⟨⟨_, hk⟩, _, _, s, ls, rest, _, heq ▸ hst⟩
        have hnow : c.engine.timing.now = d.engine.timing.now := by
          refine htime.now.resolve_right ?_
          rintro ⟨target, below, heq⟩
          rw [hst] at heq
          cases heq
        simp only [hx, hy, ← hxy.isRunning_eq]
        split
        · next hrunning =>
          have hstatus := Instance.status_ne_stopped hrunning
          rw [h.engine.lineage_eq hr.nested hs.nested ht hx hstatus (Nat.lt_succ_self _)
              (Nat.lt_succ_self _), hxy.deed?_eq hps hquiet, hnow, hxy.value, hxy.context,
            hxy.metadata]
        · rfl

/-- What the left does alone is not seen. -/
theorem Ahead.sight_eq_none {top st : List (Frame κ π)} (h : Ahead H P top st c d)
    (hnot : top ≠ [] ∨ c.control = .host .done) :
  c.sight P.root.left = none
  := by
  rw [Configuration.sight, h.left]
  obtain hcontrol | ⟨reply, hcontrol⟩ := h.control
  · rw [hcontrol]
  · rw [hcontrol] at hnot ⊢
    cases top with
    | nil => simp at hnot
    | cons f more =>
      have hf := h.foreign f List.mem_cons_self
      cases hf with
      | waiting _ | fired _ => rfl
      | @working i o ps hi =>
        simp only [List.cons_append, h.engine.lineage_eq_none hi]
        split
        · split <;> rfl
        · rfl

/-- A clock that is being advanced is not seen. -/
theorem sight_of_target? (h : c.target? ≠ none) (root : Nat) :
  c.sight root = none
  := by
  obtain ⟨target, htarget⟩ := Option.ne_none_iff_exists'.mp h
  obtain ⟨⟨reply, hcontrol⟩, below, hstack⟩ := exists_of_target? htarget
  rw [Configuration.sight, hcontrol, hstack]

/-- Code of the host is not seen. -/
theorem sight_of_host {next : Next κ π} (h : c.control = .host next) (root : Nat) :
  c.sight root = none
  := by
  rw [Configuration.sight, h]

theorem seen_append (root : Nat) (as bs : List (Configuration κ π σ)) :
  seen heeds root (as ++ bs) = seen heeds root as ++ seen heeds root bs
  := by
  rw [seen, List.filterMap_append, List.filter_append]
  rfl

theorem seen_cons (root : Nat) (c : Configuration κ π σ) (cs : List (Configuration κ π σ)) :
  seen heeds root (c :: cs) = seen heeds root [c] ++ seen heeds root cs
  := seen_append root [c] cs

theorem seen_of_sight_eq_none {root : Nat} (h : c.sight root = none) :
  seen heeds root [c] = []
  := by
  simp [seen, h]

/-- Equal sights are seen alike, and kept back alike where they tell a listener. -/
theorem seen_of_sight_eq {root root' : Nat} (h : c.sight root = d.sight root') :
  seen heeds root [c] = seen heeds root' [d]
  := by
  rw [seen, seen, List.filterMap_cons, List.filterMap_cons, h]
  rfl

/-- Where listeners are not heeded, nothing is seen of one being told. -/
theorem seen_of_tells {root : Nat} (h : c.Tells) :
  seen false root [c] = []
  := by
  obtain ⟨⟨reply, hcontrol⟩, i, o, s, ls, rest, below, hstack⟩ := h
  rw [seen, List.filter_eq_nil_iff]
  intro sight hsight
  obtain ⟨c', hc', hseen⟩ := List.mem_filterMap.mp hsight
  obtain rfl := List.mem_singleton.mp hc'
  simp only [Configuration.sight, hcontrol, hstack] at hseen
  split at hseen
  · split at hseen
    · obtain ⟨path, -, hseen⟩ := Option.bind_eq_some_iff.mp hseen
      obtain ⟨deed, hdeed, hseen⟩ := Option.bind_eq_some_iff.mp hseen
      obtain rfl := Option.some.inj hdeed
      obtain rfl := Option.some.inj hseen
      simp [Deed.isTelling, Phase.unnumbered]
    · cases hseen
  · cases hseen

/-- Where listeners are not heeded, nothing is seen of what they do. -/
theorem seen_of_aside {root : Nat} (h : ∀ c ∈ cs, c.Aside) :
  seen false root cs = []
  := by
  induction cs with
  | nil => rfl
  | cons c cs ih =>
    rw [seen_cons, ih fun c hc => h c (List.mem_cons_of_mem _ hc), List.append_nil]
    obtain ⟨next, hcontrol⟩ | htells := h c List.mem_cons_self
    · exact seen_of_sight_eq_none (sight_of_host hcontrol root)
    · exact seen_of_tells htells

namespace Follows

variable (h : Follows H P c d)

include h

/-- Neither side hands over a machine. -/
theorem hands_eq :
  c.hands = false ∧ d.hands = false
  := by
  cases h with
  | alike h _ =>
    have hcontrol := h.control
    rw [hands, hands]
    generalize c.control = k, d.control = k' at hcontrol
    cases hcontrol <;> exact ⟨rfl, rfl⟩
  | ahead h _ _ =>
    obtain ⟨reply, hbehind⟩ := h.behind
    rw [hands, hands, hbehind]
    obtain hcontrol | ⟨reply', hcontrol⟩ := h.control <;> exact ⟨by rw [hcontrol], rfl⟩
  | hearing hcontrol h _ =>
    have hbehind := h.control
    rw [hands, hands, hcontrol]
    generalize d.control = k' at hbehind
    cases hbehind
    exact ⟨rfl, rfl⟩

/-- The right takes as many steps as it needs, and the same is seen. -/
theorem step (hcalm : H.Calm) (hsure : Sure H c) (hsure' : Sure H d) (hr : Run H cs c)
    (hs : Run H ds d) (hheld : H.Holds P.root.left) (hheld' : H.Holds P.root.right)
    (hstep : step? H c = some c') :
  ∃ P' bs d', P.Grows P' ∧ Steps H d bs d' ∧ Run H (ds ++ bs) d' ∧ Sure H d' ∧ Follows H P' c' d'
    ∧ seen P.heeds P.root.left [c] = seen P.heeds P.root.right bs
  := by
  have hstays : Run H (ds ++ []) d := by simpa using hs
  cases h with
  | alike h htime =>
    by_cases hheeds : P.heeds = true ∨ ¬c.Tells
    · have hhands := (Follows.alike h htime).hands_eq.2
      obtain ⟨d', P', hstep', hgrows, halike, htime'⟩ | ⟨htarget, top, hahead, htime'⟩ :=
        h.step hcalm hsure hheeds hr hs hheld hheld' htime hstep
      · obtain ⟨hevolves, hsure''⟩ := hs.next_of_sure hsure' hhands hstep'
        exact ⟨P', [d], d', hgrows, .step hstep' (.refl _), hs.next hevolves, hsure'',
          .alike halike htime', seen_of_sight_eq (h.sight_eq hheeds hr hs htime)⟩
      · exact ⟨P, [], d, .refl P, .refl d, hstays, hsure', hahead.follows htime',
          seen_of_sight_eq_none (sight_of_target? htarget _)⟩
    · rw [not_or, Bool.not_eq_true, not_not] at hheeds
      obtain ⟨bs, d', hsteps, hs', hsure'', hfollows, haside⟩ := h.step_of_tells hheeds.1 hheeds.2
        hcalm hsure' hr hs hheld hheld' htime hstep
      refine ⟨P, bs, d', .refl P, hsteps, hs', hsure'', hfollows, ?_⟩
      rw [hheeds.1, seen_of_tells hheeds.2, seen_of_aside haside]
  | ahead h hnot htime =>
    obtain ⟨top', hahead⟩ := h.step hcalm hr hheld hnot hstep
    have hoperation : c.operation? = none := by
      rw [operation?]
      obtain hcontrol | ⟨reply, hcontrol⟩ := h.control <;> rw [hcontrol]
    have hnow := hr.step?_now hstep hoperation (h.target?_eq hnot)
    exact ⟨P, [], d, .refl P, .refl d, hstays, hsure', hahead.follows (hnow ▸ htime),
      seen_of_sight_eq_none (h.sight_eq_none hnot)⟩
  | hearing hcontrol h htime =>
    rw [step?, hcontrol] at hstep
    obtain rfl := Option.some.inj hstep
    exact ⟨P, [], d, .refl P, .refl d, hstays, hsure', .alike h htime,
      seen_of_sight_eq_none (sight_of_host hcontrol _)⟩

/-- Whatever steps the left takes, the right follows it, and the same is seen. -/
theorem steps (hcalm : H.Calm) (hsure : Sure H c) (hsure' : Sure H d) (hr : Run H cs c)
    (hs : Run H ds d) (hheld : H.Holds P.root.left) (hheld' : H.Holds P.root.right)
    (hsteps : Steps H c as c') :
  ∃ P' bs d', P.Grows P' ∧ Steps H d bs d' ∧ Follows H P' c' d'
    ∧ Run H (cs ++ as) c' ∧ Run H (ds ++ bs) d' ∧ Sure H c' ∧ Sure H d'
    ∧ seen P.heeds P.root.left as = seen P.heeds P.root.right bs
  := by
  induction hsteps generalizing P d cs ds with
  | refl c =>
    exact ⟨P, [], d, .refl P, .refl d, h, by simpa using hr, by simpa using hs, hsure, hsure', rfl⟩
  | @step c c₁ c' as hstep _ ih =>
    obtain ⟨hevolves, hsure₁⟩ := hr.next_of_sure hsure h.hands_eq.1 hstep
    obtain ⟨P₁, bs₁, d₁, hgrows, hsteps₁, hs₁, hsure₁', hfollows, hseen⟩ :=
      h.step hcalm hsure hsure' hr hs hheld hheld' hstep
    obtain ⟨P', bs, d', hgrows', hsteps', hfollows', hr', hs', hsure₂, hsure₂', hseen'⟩ :=
      ih hfollows hsure₁ hsure₁' (hr.next hevolves) hs₁ (hgrows.root ▸ hheld)
        (hgrows.root ▸ hheld')
    rw [hgrows.root, hgrows.heeds] at hseen'
    refine ⟨P', bs₁ ++ bs, d', hgrows.trans hgrows', hsteps₁.trans hsteps', hfollows',
      by simpa using hr', by simpa using hs', hsure₂, hsure₂', ?_⟩
    rw [seen_cons, hseen, hseen', seen_append]

end Follows

/-! ### Calls one after another -/

/-- Code of the host is entered that makes a call and ends at `point`. -/
def calling (H : Host κ π σ) (c : Configuration κ π σ) (call : Call κ) (point : π) :
    Configuration κ π σ :=
  (idle c.engine c.memory).enter H fun _ memory => (.call call point, memory)

/-- The host makes calls one after another, each when nothing is under way; the last one may not
be done with. -/
inductive Performs (H : Host κ π σ) (point : π) : Configuration κ π σ → List (Call κ) →
    List (Configuration κ π σ) → Configuration κ π σ → Prop where
  | nil (c : Configuration κ π σ) : Performs H point c [] [] c
  | cons {c d e : Configuration κ π σ} {call : Call κ} {calls : List (Call κ)}
      {cs ds : List (Configuration κ π σ)} : c.IsIdle → Steps H (c.calling H call point) cs d →
    Performs H point d calls ds e → Performs H point c (call :: calls) (cs ++ ds) e

/-- Nothing is under way on both sides, at the same time. -/
structure Meets (P : Pairing) (c d : Configuration κ π σ) : Prop where
  engine : Engine.Alike P c.engine d.engine
  now : c.engine.timing.now = d.engine.timing.now
  left : c.IsIdle
  right : d.IsIdle

/-- Sides of which the left is idle are both idle, at the same time. -/
theorem Follows.meets (h : Follows H P c d) (hidle : c.IsIdle) :
  Meets P c d
  := by
  obtain ⟨hstack, reply, hcontrol⟩ := hidle
  cases h with
  | alike h htime =>
    refine ⟨h.engine, htime.now.resolve_right ?_, ⟨hstack, reply, hcontrol⟩,
      h.isIdle_iff.mp ⟨hstack, reply, hcontrol⟩⟩
    rintro ⟨target, below, heq⟩
    rw [hstack] at heq
    cases heq
  | ahead h hnot _ =>
    have hleft := h.left
    rw [hstack] at hleft
    rw [(List.append_eq_nil_iff.mp hleft.symm).1, hcontrol] at hnot
    simp at hnot
  | hearing hdone _ _ =>
    rw [hcontrol] at hdone
    cases hdone

namespace Meets

variable {call call' : Call κ} {point : π}

/-- The release when the host is entered keeps the engines alike, as the roots are held. -/
theorem calling (h : Meets P c d) (hr : c.engine.Nested) (hs : d.engine.Nested)
    (hheld : H.Holds P.root.left) (hheld' : H.Holds P.root.right) :
  Engine.Alike P (c.calling H call point).engine (d.calling H call' point).engine
  := h.engine.release hr hs (List.mem_append_left _ (hheld c.memory))
    (List.mem_append_left _ (hheld' d.memory))

/-- Entering the host brings no invocations with it. -/
theorem sure_calling (h : Sure H c) :
  Sure H (c.calling H call point)
  := by
  refine h.imp_right fun hchildless i y hy => ?_
  exact hchildless i y ((Engine.releases_release c.engine _).get?_of_get? hy)

/-- The first step from the entered code performs the call. -/
theorem step?_calling (c : Configuration κ π σ) :
  step? H (c.calling H call point)
    = some (perform H ((c.calling H call point).withStack [.waiting point]) call)
  := rfl

theorem hands_calling (c d : Configuration κ π σ) (point : π) (hcall : call.Alike P call') :
  (c.calling H call point).hands = false ∧ (d.calling H call' point).hands = false
  := by
  cases hcall <;> exact ⟨rfl, rfl⟩

/-- The clock stands still when the host is entered. -/
theorem now_calling (hr : Run H cs c) :
  (c.calling H call point).engine.timing.now = c.engine.timing.now
  := by
  have hkeeps := Timing.Keeps.covers.enter (H := H) (c := idle c.engine c.memory)
    (Timing.Keeps.covers.refl _) fun _ memory => (.call call point, memory)
  exact (hkeeps hr.tasked).now

/-- The same is called on counterparts. -/
theorem follows (h : Meets P c d) (hr : Run H cs c) (hs : Run H ds d) (hheld : H.Holds P.root.left)
    (hheld' : H.Holds P.root.right) (hcall : call.Alike P call') (hpoint : H.Ends point) :
  Follows H P (perform H ((c.calling H call point).withStack [.waiting point]) call)
    (perform H ((d.calling H call' point).withStack [.waiting point]) call')
  := by
  have hr' : Run H (cs ++ [c]) (c.calling H call point) := hr.next (.enter _ _ h.left)
  have hs' : Run H (ds ++ [d]) (d.calling H call' point) := hs.next (.enter _ _ h.right)
  have hnow : (c.calling H call point).engine.timing.now
      = (d.calling H call' point).engine.timing.now :=
    (now_calling hr).trans (h.now.trans (now_calling hs).symm)
  have halike := Alike.perform
    (c := (c.calling H call point).withStack [.waiting point])
    (d := (d.calling H call' point).withStack [.waiting point])
    (h.calling hr.nested hs.nested hheld hheld') (.cons (.waiting hpoint) .nil)
    hr'.nested.older hs'.nested.older hnow hcall
  have hoperation : (c.calling H call point).operation? = none
      ∧ (d.calling H call' point).operation? = none := by
    cases hcall <;> exact ⟨rfl, rfl⟩
  have hafter := hr'.step?_now (step?_calling c) hoperation.1 rfl
  have hafter' := hs'.step?_now (step?_calling d) hoperation.2 rfl
  refine .alike halike ⟨.inl (hafter.trans (hnow.trans hafter'.symm)), ?_⟩
  rw [hafter, hafter']
  have hnone : (∀ ms, call ≠ .advance ms) →
      targets (perform H ((c.calling H call point).withStack [.waiting point]) call).stack = [] :=
    fun hne => (tops_perform (c := (c.calling H call point).withStack [.waiting point])
      (.refl _) hne).targets_eq
  cases hcall with
  | advance ms => exact .inr ⟨_, rfl, Nat.le_add_right _ _, hnow ▸ Nat.le_add_right _ _⟩
  | start _ => exact .inl (hnone (by simp))
  | send _ _ => exact .inl (hnone (by simp))
  | stop _ => exact .inl (hnone (by simp))

theorem perform_back (c : Configuration κ π σ) (reply : Reply κ) {j : Nat} (hcall : call.IsOn j) :
  perform H (c.back reply) call = perform H c call
  := by
  cases hcall with
  | start => rfl
  | send event => rfl
  | stop => rfl

/-- A call for an instance that is not there is answered at once. -/
theorem perform_of_none {j : Nat} (hcall : call.IsOn j) (hx : c.engine.get? j = none) :
  ∃ reply, perform H c call = c.back reply
  := by
  cases hcall with
  | start =>
    refine ⟨.outcome (.ok ()), ?_⟩
    rw [perform, start, hx]
  | send event =>
    refine ⟨.outcome (.ok ()), ?_⟩
    rw [perform, send, Engine.isRunning, hx]
    rfl
  | stop =>
    refine ⟨.done, ?_⟩
    rw [perform, Engine.stop_of_none hx]
    rfl

/-- An instance without a counterpart is called, or none at all. -/
theorem follows_left (h : Meets P c d) (hr : Run H cs c) (hheld : H.Holds P.root.left) {j : Nat}
    (hcall : call.IsOn j) (hfree : ∀ x, c.engine.get? j = some x → P.Free j)
    (hpoint : H.Ends point) :
  Follows H P (perform H ((c.calling H call point).withStack [.waiting point]) call) d
  := by
  have hr' : Run H (cs ++ [c]) (c.calling H call point) := hr.next (.enter _ _ h.left)
  obtain ⟨hstack, reply, hcontrol⟩ := h.right
  have hahead : Ahead H P [.waiting point] []
      (((c.calling H call point).withStack [.waiting point]).back .done) d := by
    refine ⟨h.engine.release_left hr.nested (List.mem_append_left _ (hheld c.memory)), rfl, ?_,
      ?_, .inr ⟨_, rfl⟩, ⟨reply, hcontrol⟩⟩
    · intro f hf
      obtain rfl := List.mem_singleton.mp hf
      exact .waiting hpoint
    · rw [hstack]
      exact .nil
  have hperformed : ∃ top, Ahead H P top []
      (perform H ((c.calling H call point).withStack [.waiting point]) call) d := by
    rw [← perform_back _ .done hcall]
    cases hx : (c.calling H call point).engine.get? j with
    | some x =>
      have hj : P.Free j := hfree x ((Engine.releases_release c.engine _).get?_of_get? hx)
      cases hcall with
      | start => exact hahead.start hj
      | send event => exact hahead.send hj event
      | stop => exact ⟨_, (hahead.withEngine (hahead.engine.stop_left hj)).back _⟩
    | none =>
      obtain ⟨reply', hperform⟩ := perform_of_none (H := H)
        (c := ((c.calling H call point).withStack [.waiting point]).back .done) hcall hx
      exact ⟨_, hperform ▸ hahead.back reply'⟩
  obtain ⟨top, hahead'⟩ := hperformed
  have hoperation : (c.calling H call point).operation? = none := by
    cases hcall <;> rfl
  have hafter := hr'.step?_now (step?_calling c) hoperation rfl
  exact hahead'.follows ⟨.inl (hafter.trans ((now_calling hr).trans h.now)), .inl rfl⟩

end Meets

/-- What has become of two configurations: the runs that lead to what they are now, in which
counterparts are alike and the same was seen; when nothing is under way on the left, nothing
is on the right. -/
structure Matched (H : Host κ π σ) (P : Pairing) (cs : List (Configuration κ π σ))
    (c : Configuration κ π σ) (ds : List (Configuration κ π σ)) (d : Configuration κ π σ)
    (as bs : List (Configuration κ π σ)) : Prop where
  run : Run H cs c
  run' : Run H ds d
  sure : Sure H c
  sure' : Sure H d
  engine : Engine.Alike P c.engine d.engine
  meets : c.IsIdle → Meets P c d
  seen : seen P.heeds P.root.left as = seen P.heeds P.root.right bs

namespace Meets

variable {call call' : Call κ} {point : π}

/-- A call on both sides is followed by steps on both sides. -/
theorem matched (h : Meets P c d) (hcalm : H.Calm) (hsure : Sure H c) (hsure' : Sure H d)
    (hr : Run H cs c) (hs : Run H ds d) (hheld : H.Holds P.root.left)
    (hheld' : H.Holds P.root.right) (hcall : call.Alike P call') (hpoint : H.Ends point)
    (hsteps : Steps H (c.calling H call point) as c') :
  ∃ P' bs d', P.Grows P' ∧ Steps H (d.calling H call' point) bs d'
    ∧ Matched H P' (cs ++ c :: as) c' (ds ++ d :: bs) d' as bs
  := by
  have hr' : Run H (cs ++ [c]) (c.calling H call point) := hr.next (.enter _ _ h.left)
  have hs' : Run H (ds ++ [d]) (d.calling H call' point) := hs.next (.enter _ _ h.right)
  have hcalling : Sure H (c.calling H call point) := sure_calling hsure
  have hcalling' : Sure H (d.calling H call' point) := sure_calling hsure'
  obtain ⟨hhands, hhands'⟩ := hands_calling (H := H) c d point hcall
  cases hsteps with
  | refl =>
    refine ⟨P, [], _, .refl P, .refl _, hr', hs', hcalling, hcalling',
      h.calling hr.nested hs.nested hheld hheld', ?_, rfl⟩
    rintro ⟨-, reply, hcontrol⟩
    cases hcontrol
  | step hstep hrest =>
    obtain rfl := Option.some.inj ((step?_calling c).symm.trans hstep)
    obtain ⟨hevolves, hsure₁⟩ := hr'.next_of_sure hcalling hhands (step?_calling c)
    obtain ⟨hevolves', hsure₁'⟩ := hs'.next_of_sure hcalling' hhands' (step?_calling d)
    obtain ⟨P', bs, d', hgrows, hsteps', hfollows, hrun, hrun', hsure₂, hsure₂', hseen⟩ :=
      (h.follows hr hs hheld hheld' hcall hpoint).steps hcalm hsure₁ hsure₁' (hr'.next hevolves)
        (hs'.next hevolves') hheld hheld' hrest
    refine ⟨P', d.calling H call' point :: bs, d', hgrows, .step (step?_calling d) hsteps',
      by simpa using hrun, by simpa using hrun', hsure₂, hsure₂', hfollows.engine, hfollows.meets,
      ?_⟩
    rw [hgrows.root, hgrows.heeds, seen_cons, seen_cons _ (d.calling H call' point),
      seen_of_sight_eq_none (sight_of_host rfl _), seen_of_sight_eq_none (sight_of_host rfl _),
      hseen]

/-- A call on the left alone is followed by steps on the left alone, of which nothing is
seen. -/
theorem matched_left (h : Meets P c d) (hcalm : H.Calm) (hsure : Sure H c) (hsure' : Sure H d)
    (hr : Run H cs c) (hs : Run H ds d) (hheld : H.Holds P.root.left)
    (hheld' : H.Holds P.root.right) {j : Nat} (hcall : call.IsOn j)
    (hfree : ∀ x, c.engine.get? j = some x → P.Free j) (hpoint : H.Ends point)
    (hsteps : Steps H (c.calling H call point) as c') :
  ∃ P', P.Grows P' ∧ Matched H P' (cs ++ c :: as) c' ds d as []
  := by
  have hr' : Run H (cs ++ [c]) (c.calling H call point) := hr.next (.enter _ _ h.left)
  have hcalling : Sure H (c.calling H call point) := sure_calling hsure
  have hhands : (c.calling H call point).hands = false := by
    cases hcall <;> rfl
  cases hsteps with
  | refl =>
    refine ⟨P, .refl P, hr', hs, hcalling, hsure',
      h.engine.release_left hr.nested (List.mem_append_left _ (hheld c.memory)), ?_, rfl⟩
    rintro ⟨-, reply, hcontrol⟩
    cases hcontrol
  | step hstep hrest =>
    obtain rfl := Option.some.inj ((step?_calling c).symm.trans hstep)
    obtain ⟨hevolves, hsure₁⟩ := hr'.next_of_sure hcalling hhands (step?_calling c)
    obtain ⟨P', bs, d', hgrows, hsteps', hfollows, hrun, hrun', hsure₂, hsure₂', hseen⟩ :=
      (h.follows_left hr hheld hcall hfree hpoint).steps hcalm hsure₁ hsure' (hr'.next hevolves) hs
        hheld hheld' hrest
    obtain ⟨rfl, rfl⟩ := hsteps'.eq_of_idle h.right
    refine ⟨P', hgrows, by simpa using hrun, hs, hsure₂, hsure', hfollows.engine, hfollows.meets,
      ?_⟩
    rw [hgrows.root, hgrows.heeds, seen_cons, seen_of_sight_eq_none (sight_of_host rfl _), hseen]
    rfl

end Meets

/-- The instances with the first `n` numbers were invoked by none. -/
def Orphans (n : Nat) (c : Configuration κ π σ) : Prop :=
  n ≤ c.engine.instances.next ∧ ∀ i x, i < n → c.engine.get? i = some x → x.parent = none

theorem Orphans.later {n : Nat} (h : Orphans n c) (hr : Run H cs d) (hc : c ∈ cs) :
  Orphans n d
  := by
  have hrelated := hr.related (p := fun c d => Orphans n c → Orphans n d) ?_
    (fun hab hbc ha => hbc (hab ha)) hc
  · exact hrelated h
  · rintro cs c d hr hstep ⟨hn, horphan⟩
    obtain ⟨mid, hgoes⟩ := hr.goes hstep
    refine ⟨hn.trans (hgoes.releases.next ▸ hgoes.next_le), fun i y hi hy => ?_⟩
    obtain ⟨x, hx, hmid⟩ := hgoes.was_there (hi.trans_le hn) hy
    exact (hgoes.turn hx hmid).machine_eq.2.trans (horphan i x hi hx)

/-- Calls of which those on counterparts and those of the clock are picked out; the others are
on instances with the first `n` numbers. -/
inductive Picked (P : Pairing) (n : Nat) : List (Call κ) → List (Call κ) → Prop where
  | nil : Picked P n [] []
  | both {call call' : Call κ} {calls calls' : List (Call κ)} :
    call.Alike P call' → Picked P n calls calls' → Picked P n (call :: calls) (call' :: calls')
  | skip {j : Nat} {call : Call κ} {calls calls' : List (Call κ)} :
    call.IsOn j → j < n → j ≠ P.root.left → Picked P n calls calls' →
      Picked P n (call :: calls) calls'

/-- The calls that are picked out are performed on the right as all are on the left, and the
same is seen. -/
theorem Performs.matched {point : π} {calls calls' : List (Call κ)} {P₀ : Pairing} {n : Nat}
    (h : Performs H point c calls as c') (hpicked : Picked P₀ n calls calls')
    (hcalm : H.Calm) (hpoint : H.Ends point) (hheld : H.Holds P₀.root.left)
    (hheld' : H.Holds P₀.root.right) (hgrows : P₀.Grows P) (horphans : Orphans n c)
    (hsure : Sure H c) (hsure' : Sure H d) (hr : Run H cs c) (hs : Run H ds d)
    (hengine : Engine.Alike P c.engine d.engine) (hmeets : c.IsIdle → Meets P c d) :
  ∃ P' cs' ds' bs d', P.Grows P' ∧ Performs H point d calls' bs d'
    ∧ Matched H P' cs' c' ds' d' as bs
  := by
  induction h generalizing P cs ds d calls' with
  | nil c =>
    cases hpicked
    exact ⟨P, cs, ds, [], d, .refl P, .nil d, hr, hs, hsure, hsure', hengine, hmeets, rfl⟩
  | @cons c c₁ c' call calls as₁ as hidle hsteps _ ih =>
    have hroot : P.root = P₀.root := hgrows.root
    cases hpicked with
    | both hcall hrest =>
      obtain ⟨P₁, bs₁, d₁, hgrows₁, hsteps', hmatched⟩ := (hmeets hidle).matched hcalm hsure hsure'
        hr hs (hroot ▸ hheld) (hroot ▸ hheld') (hcall.mono hgrows) hpoint hsteps
      obtain ⟨P', cs', ds', bs, d', hgrows', hperforms, hmatched'⟩ := ih hrest
        (hgrows.trans hgrows₁) (horphans.later hmatched.run (by simp)) hmatched.sure
        hmatched.sure' hmatched.run hmatched.run' hmatched.engine hmatched.meets
      refine ⟨P', cs', ds', bs₁ ++ bs, d', hgrows₁.trans hgrows',
        .cons (hmeets hidle).right hsteps' hperforms, { hmatched' with seen := ?_ }⟩
      have hseen := hmatched.seen
      rw [← hgrows'.root, ← hgrows'.heeds] at hseen
      rw [seen_append, seen_append, hseen, hmatched'.seen]
    | @skip j _ _ _ hon hlt hne hrest =>
      have hfree : ∀ x, c.engine.get? j = some x → P.Free j := by
        rintro x hx t ht rfl
        have htied := hengine.orphan t ht x hx (horphans.2 _ x hlt hx)
        exact hne (by rw [htied, hroot])
      obtain ⟨P₁, hgrows₁, hmatched⟩ := (hmeets hidle).matched_left hcalm hsure hsure' hr hs
        (hroot ▸ hheld) (hroot ▸ hheld') hon hfree hpoint hsteps
      obtain ⟨P', cs', ds', bs, d', hgrows', hperforms, hmatched'⟩ := ih hrest
        (hgrows.trans hgrows₁) (horphans.later hmatched.run (by simp)) hmatched.sure
        hmatched.sure' hmatched.run hmatched.run' hmatched.engine hmatched.meets
      refine ⟨P', cs', ds', bs, d', hgrows₁.trans hgrows', hperforms,
        { hmatched' with seen := ?_ }⟩
      have hseen := hmatched.seen
      rw [← hgrows'.root, ← hgrows'.heeds] at hseen
      rw [seen_append, hseen, hmatched'.seen]
      rfl

/-! ### Calls that are performed by computation -/

/-- The configurations that are passed when calls are made one after another, each in at most
`n` steps, and the last one. -/
def performed (H : Host κ π σ) (point : π) (n : Nat) : Configuration κ π σ → List (Call κ) →
    List (Configuration κ π σ) × Configuration κ π σ
  | c, [] => ([], c)
  | c, call :: calls =>
    let first := trail H n (c.calling H call point)
    let rest := performed H point n first.2 calls
    (first.1 ++ rest.1, rest.2)

/-- Whether each of the calls is made when nothing is under way. -/
def inTurn (H : Host κ π σ) (point : π) (n : Nat) : Configuration κ π σ → List (Call κ) → Bool
  | _, [] => true
  | c, call :: calls =>
    decide c.IsIdle && inTurn H point n (trail H n (c.calling H call point)).2 calls

theorem performs_performed {point : π} {n : Nat} {calls : List (Call κ)}
    (h : inTurn H point n c calls = true) :
  Performs H point c calls (performed H point n c calls).1 (performed H point n c calls).2
  := by
  induction calls generalizing c with
  | nil => exact .nil c
  | cons call calls ih =>
    rw [inTurn, Bool.and_eq_true, decide_eq_true_eq] at h
    exact .cons h.1 (steps_trail H n _) (ih h.2)

end Configuration

end Statechart
