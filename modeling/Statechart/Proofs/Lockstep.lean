import Statechart.Proofs.Completion
import Statechart.Proofs.Invocations
import Statechart.Proofs.Likeness
import Statechart.Proofs.Nesting
import Statechart.Proofs.Punctuality
import Statechart.Proofs.Staleness

/-!
# Lockstep

Two configurations go in lockstep if their engines are alike, and counterparts do the same
work on both stacks.
-/

namespace Statechart

variable {κ π σ : Type}

/-! ### Engines in runs -/

namespace Engine

/-- What holds of an engine in a run, as far as counterparts depend on it. -/
structure Regular (r : Engine κ) : Prop extends Nested r where
  started : r.Started
  lt_next : ∀ i x, r.get? i = some x → ∀ a ∈ x.timers, a.timer < r.timing.timers.next
  owner : ∀ id u i state key generation, r.timing.timers.get? id = some u →
    u.callback = some (.after i state key generation) →
    ∃ x, r.get? i = some x ∧ x.status ≠ .stopped

/-- The instances have just been made: none was started, the clock has nothing to do and no
pool is paused. -/
structure Fresh (r : Engine κ) : Prop where
  notStarted : ∀ i x, r.get? i = some x → x.status = .notStarted
  timers : ∀ id, r.timing.timers.get? id = none
  queue : r.timing.scheduler.queue = []
  awake : r.timing.Awake

theorem Fresh.blank {r : Engine κ} (h : r.Fresh) :
  r.timing.Blank
  := ⟨h.timers, h.queue, h.awake⟩

theorem modify_id (r : Engine κ) (i : Nat) :
  r.modify i id = r
  := by
  have hcells : r.instances.cells.modify i (Option.map id) = r.instances.cells := by
    apply Array.ext <;> simp [Array.getElem_modify]
  rw [Engine.modify, Table.modify, hcells]

/-- A change that keeps status, children, parent and timers keeps the order of parents and
children. -/
theorem Nested.modify {r : Engine κ} (h : r.Nested) (i : Nat) {f : Instance κ → Instance κ}
    (hf : ∀ x, (f x).status = x.status ∧ (f x).children = x.children
      ∧ (f x).parent = x.parent ∧ (f x).timers = x.timers) :
  (r.modify i f).Nested
  := by
  have hold : ∀ {j y}, (r.modify i f).get? j = some y → ∃ x, r.get? j = some x
      ∧ y.status = x.status ∧ y.children = x.children ∧ y.parent = x.parent
      ∧ y.timers = x.timers := by
    intro j y hy
    rw [get?_modify] at hy
    split at hy
    · obtain ⟨x, hx, rfl⟩ := Option.map_eq_some_iff.mp hy
      exact ⟨x, hx, hf x⟩
    · exact ⟨y, hy, rfl, rfl, rfl, rfl⟩
  constructor
  · intro j y hy child hchild
    obtain ⟨x, hx, -, hchildren, -⟩ := hold hy
    rw [next_modify]
    exact h.older j x hx child (hchildren ▸ hchild)
  · intro child y link x hy hstatus hlink hx
    obtain ⟨y', hy', hs, -, hp, -⟩ := hold hy
    obtain ⟨x', hx', hs', hc', -⟩ := hold hx
    obtain ⟨hrunning, hchild⟩ := h.stored child y' link x' hy' (hs ▸ hstatus) (hp ▸ hlink) hx'
    exact ⟨hs' ▸ hrunning, hc' ▸ hchild⟩
  · intro j y hy hstopped
    obtain ⟨x, hx, hs, -, -, ht⟩ := hold hy
    exact ht ▸ h.empty j x hx (hs ▸ hstopped)

end Engine

namespace Configuration

variable {H : Host κ π σ} {cs : List (Configuration κ π σ)} {c d : Configuration κ π σ}

theorem Run.nested (h : Run H cs c) :
  c.engine.Nested
  where
  older := h.whole.older
  stored child y link x hy hstatus hlink hx := by
    have hinvoked : Invoked (cs ++ [c]) link.parent child :=
      ⟨c, by simp, y, link, hy, hlink, rfl⟩
    have hrunning : x.status ≠ .stopped := by
      intro hstopped
      have hdown : StoppedIn (cs ++ [c]) child :=
        h.stoppedIn_of_invoked hinvoked (.inl ⟨c, by simp, x, hx, hstopped⟩)
      exact hstatus (h.status_of_stoppedIn hdown hy)
    have hchild := h.kindred.stored child y link x hy hstatus hlink hx hrunning
    exact ⟨hrunning, OrderedMap.mem_values_of_get? hchild⟩
  empty i x hx hstopped := (h.empty_of_stopped hx hstopped).2

/-- A timer with a delayed transition belongs to an instance that is there. -/
theorem Run.exists_owner (h : Run H cs c) {id i generation : Nat} {state key : String}
    {u : Timer (Callback κ)} (hu : c.engine.timing.timers.get? id = some u)
    (hcb : u.callback = some (.after i state key generation)) :
  ∃ x, c.engine.get? i = some x
  := by
  induction h generalizing id i state key generation u with
  | start memory => simp [idle, Engine.empty, Timing.empty] at hu
  | @next cs c d hrun hstep ih =>
    obtain ⟨mid, hgoes⟩ := hrun.goes hstep
    have hwound := hgoes.wound hrun hrun.wound
    obtain ⟨v, hv, hbecomes⟩ | ⟨-, -, hnone⟩ := hgoes.releases.timing.origin hu
    · have hcb' := hbecomes.callback_eq hcb
      obtain ⟨x, hx⟩ : ∃ x, mid.get? i = some x := by
        obtain ⟨w, hw, hbecomes'⟩ | ⟨-, -, hfiles⟩ := hgoes.move.follows.origin hv
        · obtain ⟨x, hx⟩ := ih hw (hbecomes'.callback_eq hcb')
          exact hgoes.move.exists_get? hx
        · cases hfiles _ hcb' with
          | after hx _ => exact ⟨_, hx⟩
      obtain hsame | ⟨x', hx', -, -, hdestroyed⟩ := hgoes.releases.instances i
      · exact ⟨x, hsame.trans hx⟩
      · -- With the instance its timers are destroyed, and what is destroyed calls nothing.
        have hentry := hwound.entry id v i state key generation x' hv hcb' hx'
        have hstatus := hdestroyed _ hentry v.status (congrArg (Option.map Timer.status) hv)
        have hsilent := (hrun.next hstep).wound.silent hu
          (by simpa [Timing.status?, hu] using hstatus)
        rw [hcb] at hsilent
        cases hsilent
    · exact (hnone _ hcb).elim

theorem Run.regular (h : Run H cs c) :
  c.engine.Regular
  where
  toNested := h.nested
  started := h.started
  lt_next i x hx a ha := (h.wound.armory i x hx).lt_next ha
  owner id u i state key generation hu hcb := by
    obtain ⟨x, hx⟩ := h.exists_owner hu hcb
    refine ⟨x, hx, fun hstopped => ?_⟩
    have hentry := h.wound.entry id u i state key generation x hu hcb hx
    rw [(h.empty_of_stopped hx hstopped).2] at hentry
    cases hentry

end Configuration

/-! ### The host -/

/-- The code that instances execute and the listeners ask the engine for nothing. -/
structure Host.Calm (H : Host κ π σ) : Prop where
  execute : ∀ code context event metadata, Silent (H.execute code context event metadata)
  notify : ∀ code s, Silent (H.notify code s)

/-- What makes machines depends on its arguments alone. -/
structure Host.Pure (H : Host κ π σ) : Prop where
  build : ∀ code context event memory memory',
    (H.build code context event memory).1 = (H.build code context event memory').1
  built : ∀ code context event memory m,
    (H.build code context event memory).1 = .ok m → m.IsCompiled

/-- The host holds on to an instance, whatever its memory. -/
def Host.Holds (H : Host κ π σ) (i : Nat) : Prop := ∀ memory, i ∈ H.held memory

/-- The code of the host ends at once with any reply. -/
def Host.Ends (H : Host κ π σ) (point : π) : Prop := ∀ reply, Silent (H.resume point reply)

namespace Configuration

variable {H : Host κ π σ} {cs : List (Configuration κ π σ)} {c d : Configuration κ π σ}

/-- No instance invokes anything. -/
def Childless (c : Configuration κ π σ) : Prop :=
  ∀ i x, c.engine.get? i = some x → x.machine.Childless

/-- What is made for invocations depends on the invocation alone, or nothing is invoked. -/
def Sure (H : Host κ π σ) (c : Configuration κ π σ) : Prop := H.Pure ∨ c.Childless

/-- If nothing is invoked and the host makes no instance, none is made. -/
theorem Run.handed_eq_none (h : Run H cs c) (hchildless : c.Childless) (hhands : c.hands = false) :
  (signal H c).handed = none
  := by
  have hsignals := signals H c
  generalize signal H c = s at hsignals ⊢
  cases hsignals with
  | create hcontrol | interpret hcontrol => simp [hands, hcontrol] at hhands
  | invoke _ hstack hx =>
    have hnil := (h.barren hx (hchildless _ _ hx)).2 _ _ _ _
      (by rw [hstack, workOf_working_self]) List.mem_cons_self
    cases hnil
  | _ => rfl

/-- A run in which the host makes no instance goes on, and if nothing is invoked, nothing is
after the step. -/
theorem Run.next_of_sure (h : Run H cs c) (hsure : Sure H c) (hhands : c.hands = false)
    (hstep : step? H c = some d) :
  Evolves H c d ∧ Sure H d
  := by
  obtain hpure | hchildless := hsure
  · refine ⟨.step (fun m hm => ?_) hstep, .inl hpure⟩
    obtain ⟨code, context, memory, hok⟩ := exists_build hhands hm
    exact hpure.built code context .init memory m hok
  · have hnone := h.handed_eq_none hchildless hhands
    have hevolves : Evolves H c d := .step (fun m hm => by rw [hnone] at hm; cases hm) hstep
    refine ⟨hevolves, .inr fun i y hy => ?_⟩
    obtain ⟨mid, hgoes⟩ := h.goes hevolves
    have hmid := hgoes.releases.get?_of_get? hy
    obtain ⟨x, hx⟩ | ⟨-, harrives⟩ := hgoes.arrives hmid
    · rw [(hgoes.turn hx hmid).machine_eq.1]
      exact hchildless i x hx
    · generalize workOf i d.stack = w at harrives
      cases harrives with
      | created pool hhanded =>
        rw [hnone] at hhanded
        cases hhanded
      | spawned services pool hhanded =>
        rw [hnone] at hhanded
        cases hhanded

end Configuration

/-! ### What is alike -/

/-- The same work of counterparts; the numbers of listeners do not matter, nor do listeners that
are not heeded. -/
inductive Phase.Alike (heeds : Bool) : Phase κ → Phase κ → Prop where
  | same (p : Phase κ) : Alike heeds p p
  | notify (s : Snapshot κ) {ls ls' : List (Nat × κ)} :
    (heeds = true → ls.map Prod.snd = ls'.map Prod.snd) →
      Alike heeds (.notify s ls) (.notify s ls')

/-- The same activity of counterparts. -/
inductive Frame.Alike (H : Host κ π σ) (P : Pairing) : Frame κ π → Frame κ π → Prop where
  | waiting {point : π} : H.Ends point → Alike H P (.waiting point) (.waiting point)
  | advancing (target : Nat) : Alike H P (.advancing target) (.advancing target)
  | fired (channel channel' : Option Nat) : Alike H P (.fired channel) (.fired channel')
  | working {t : Tie} {o o' : Except MachineError Unit} {ps ps' : List (Phase κ)} :
    t ∈ P.ties → List.Forall₂ (Phase.Alike P.heeds) ps ps' →
      Alike H P (.working t.left o ps) (.working t.right o' ps')

/-- The same operation on counterparts. -/
inductive Call.Alike (P : Pairing) : Call κ → Call κ → Prop where
  | start {t : Tie} : t ∈ P.ties → Alike P (.start t.left) (.start t.right)
  | send {t : Tie} (event : Event) : t ∈ P.ties →
    Alike P (.send t.left event) (.send t.right event)
  | stop {t : Tie} : t ∈ P.ties → Alike P (.stop t.left) (.stop t.right)
  | advance (ms : Nat) : Alike P (.advance ms) (.advance ms)

theorem Call.Alike.mono {P P' : Pairing} (hgrows : P.Grows P') {call call' : Call κ}
    (h : call.Alike P call') :
  call.Alike P' call'
  := by
  cases h with
  | start ht => exact .start (hgrows.ties ht)
  | send event ht => exact .send event (hgrows.ties ht)
  | stop ht => exact .stop (hgrows.ties ht)
  | advance ms => exact .advance ms

/-- No code of the host is about to make a call, and control is at the same place; replies do
not matter. -/
inductive Control.Alike : Control κ π → Control κ π → Prop where
  | done : Alike (.host .done) (.host .done)
  | back (reply reply' : Reply κ) : Alike (.back reply) (.back reply')

/-- Two configurations in which the same is to be done. -/
structure Configuration.Alike (H : Host κ π σ) (P : Pairing) (c d : Configuration κ π σ) :
    Prop where
  engine : Engine.Alike P c.engine d.engine
  stack : List.Forall₂ (Frame.Alike H P) c.stack d.stack
  control : c.control.Alike d.control

theorem Frame.Alike.mono {H : Host κ π σ} {P P' : Pairing} (hgrows : P.Grows P')
    {f f' : Frame κ π} (h : Frame.Alike H P f f') :
  Frame.Alike H P' f f'
  := by
  cases h with
  | waiting hpoint => exact .waiting hpoint
  | advancing target => exact .advancing target
  | fired channel channel' => exact .fired channel channel'
  | working ht hps => exact .working (hgrows.ties ht) (hgrows.heeds ▸ hps)

theorem forall₂_frame_mono {H : Host κ π σ} {P P' : Pairing} (hgrows : P.Grows P')
    {st st' : List (Frame κ π)} (h : List.Forall₂ (Frame.Alike H P) st st') :
  List.Forall₂ (Frame.Alike H P') st st'
  := h.imp fun _ _ hf => hf.mono hgrows

theorem Phase.Alike.forall₂_refl (heeds : Bool) (ps : List (Phase κ)) :
  List.Forall₂ (Phase.Alike heeds) ps ps
  := List.forall₂_same.mpr fun p _ => .same p

namespace Configuration

variable {H : Host κ π σ} {P : Pairing} {t : Tie} {c d : Configuration κ π σ}
  {x y : Instance κ} {o o' : Except MachineError Unit} {below below' : List (Frame κ π)}
  {ps ps' : List (Phase κ)}

/-! ### Deliveries -/

/-- An envelope is delivered to counterparts. -/
theorem Alike.deliver (h : Engine.Alike P c.engine d.engine)
    (hst : List.Forall₂ (Frame.Alike H P) c.stack d.stack) (ht : t ∈ P.ties)
    (hx : c.engine.get? t.left = some x) (hstatus : x.status ≠ .stopped) {e e' : Envelope}
    (he : e.Alike t.lead e')
    (hstart : e = .start → ∀ y, d.engine.get? t.right = some y →
      x.snapshot.actions = y.snapshot.actions) :
  Alike H P (c.deliver t.left e) (d.deliver t.right e')
  := by
  obtain ⟨y, hy, hxy⟩ := h.exists_right ht hx hstatus
  have hqueued := h.modify ht
    (f := fun x => { x with mailbox := x.mailbox ++ [e], busy := true })
    (g := fun y => { y with mailbox := y.mailbox ++ [e'], busy := true }) (by
      intro x' y' hx' hy' hxy'
      obtain rfl := Option.some.inj (hx.symm.trans hx')
      refine { hxy' with actions := ?_, mailbox := ?_, busy := rfl }
      · by_cases heq : e = .start
        · exact .inl (hstart heq y' hy')
        · refine hxy'.actions.imp_right fun h => ⟨h.1, ?_⟩
          simp only [List.mem_append, List.mem_singleton, not_or]
          exact ⟨h.2, Ne.symm heq⟩
      · exact List.rel_append hxy'.mailbox (.cons he .nil)) (fun _ _ => ⟨id, rfl⟩) fun _ _ => id
  rw [Configuration.deliver, Configuration.deliver, hx, hy]
  simp only [← hxy.busy]
  split
  · exact ⟨hqueued, hst, .back _ _⟩
  · exact ⟨hqueued, .cons (.working ht .nil) hst, .back _ _⟩

/-- Counterparts are started, unless they were started before. -/
theorem Alike.start (h : Engine.Alike P c.engine d.engine)
    (hst : List.Forall₂ (Frame.Alike H P) c.stack d.stack) (ht : t ∈ P.ties) :
  Alike H P (c.start t.left) (d.start t.right)
  := by
  have hlikened := h.likened t ht
  generalize hx : c.engine.get? t.left = a, hy : d.engine.get? t.right = b at hlikened
  cases hlikened with
  | @alike x y hxy =>
    by_cases hnot : x.status = .notStarted
    · have hactions : x.snapshot.actions = y.snapshot.actions :=
        hxy.actions.resolve_right fun h => h.1 hnot
      have hmarked := h.modify ht (f := fun x => { x with status := .running })
        (g := fun y => { y with status := .running }) (by
          intro x' y' hx' hy' hxy'
          obtain rfl := Option.some.inj (hx.symm.trans hx')
          obtain rfl := Option.some.inj (hy.symm.trans hy')
          exact { hxy' with status := rfl, actions := .inl hactions })
        (by
          intro x' hx'
          obtain rfl := Option.some.inj (hx.symm.trans hx')
          simp [hnot])
        (by
          intro y' hy'
          obtain rfl := Option.some.inj (hy.symm.trans hy')
          simp [← hxy.status, hnot])
      rw [Configuration.start, Configuration.start, hx, hy]
      simp only [hnot, hxy.status ▸ hnot, if_true]
      have hget : ∀ {r : Engine κ} {i : Nat} {x : Instance κ}, r.get? i = some x →
          (r.modify i fun x => { x with status := .running }).get? i
            = some { x with status := .running } :=
        fun hx => (Engine.sets_modify hx _).get?_self
      refine Alike.deliver (c := c.withEngine _) (d := d.withEngine _) hmarked hst ht (hget hx)
        (by rintro ⟨⟩) .start ?_
      intro _ y' hy'
      obtain rfl := Option.some.inj ((hget hy).symm.trans hy')
      exact hactions
    · rw [start_of_started hx hnot, start_of_started hy (hxy.status ▸ hnot)]
      exact ⟨h, hst, .back _ _⟩
  | left hstopped =>
    rw [start_of_started hx (by simp [hstopped]), Configuration.start, hy]
    exact ⟨h, hst, .back _ _⟩
  | right hstopped =>
    rw [Configuration.start, hx, start_of_started hy (by simp [hstopped])]
    exact ⟨h, hst, .back _ _⟩
  | none =>
    rw [Configuration.start, Configuration.start, hx, hy]
    exact ⟨h, hst, .back _ _⟩

/-- An event is sent to counterparts. -/
theorem Alike.send (h : Engine.Alike P c.engine d.engine)
    (hst : List.Forall₂ (Frame.Alike H P) c.stack d.stack) (ht : t ∈ P.ties) (event : Event) :
  Alike H P (c.send t.left event) (d.send t.right event)
  := by
  have hlikened := h.likened t ht
  rw [Configuration.send, Configuration.send, Engine.isRunning, Engine.isRunning]
  generalize hx : c.engine.get? t.left = a, hy : d.engine.get? t.right = b at hlikened
  cases hlikened with
  | @alike x y hxy =>
    simp only [← hxy.isRunning_eq]
    split
    · next hrunning =>
      exact Alike.deliver h hst ht hx (Instance.status_ne_stopped hrunning) (.event event)
        fun heq => Envelope.noConfusion heq
    · exact ⟨h, hst, .back _ _⟩
  | left hstopped =>
    simp only [Instance.isRunning_of_stopped hstopped]
    exact ⟨h, hst, .back _ _⟩
  | right hstopped =>
    simp only [Instance.isRunning_of_stopped hstopped]
    exact ⟨h, hst, .back _ _⟩
  | none => exact ⟨h, hst, .back _ _⟩

/-! ### Code of the host -/

/-- The same is called on counterparts. -/
theorem Alike.perform (h : Engine.Alike P c.engine d.engine)
    (hst : List.Forall₂ (Frame.Alike H P) c.stack d.stack) (hr : c.engine.Older)
    (hs : d.engine.Older) (hnow : c.engine.timing.now = d.engine.timing.now)
    {call call' : Call κ} (hcall : call.Alike P call') :
  Alike H P (perform H c call) (perform H d call')
  := by
  cases hcall with
  | start ht => exact Alike.start h hst ht
  | send event ht => exact Alike.send h hst ht event
  | stop ht => exact ⟨h.stop hr hs ht, hst, .back _ _⟩
  | advance ms =>
    refine ⟨h, .cons ?_ hst, .back _ _⟩
    rw [hnow]
    exact .advancing _

section

variable (hr : c.engine.Nested) (hs : d.engine.Nested) (hheld : H.Holds P.root.left)
  (hheld' : H.Holds P.root.right)

include hr hs hheld hheld'

/-- Neither side lets go of a counterpart that is not stopped. -/
theorem Alike.settle (h : Engine.Alike P c.engine d.engine) :
  Engine.Alike P (settle H c).engine (settle H d).engine
  := h.release hr hs (List.mem_append_left _ (hheld c.memory))
    (List.mem_append_left _ (hheld' d.memory))

/-- Code runs on both sides that asks for nothing. -/
theorem Alike.enter (h : Engine.Alike P c.engine d.engine)
    (hst : List.Forall₂ (Frame.Alike H P) c.stack d.stack)
    {code code' : Engine κ → σ → Next κ π × σ} (hcode : Silent code) (hcode' : Silent code') :
  Alike H P (enter H c code) (enter H d code')
  := by
  have hsettled := Alike.settle (H := H)
    (c := { c with memory := (code c.engine c.memory).2, control := .host .done })
    (d := { d with memory := (code' d.engine d.memory).2, control := .host .done })
    hr hs hheld hheld' h
  rw [Configuration.enter, Configuration.enter]
  simp only [hcode c.engine c.memory, hcode' d.engine d.memory]
  exact ⟨hsettled, hst, .done⟩

end

/-! ### Work -/

/-- What reports to nobody takes note of the report at most. -/
theorem exists_report_eq (i : Nat) (hparent : x.parent = none) (value : StateValue) :
  ∃ f : Instance κ → Instance κ, c.report i x value = c.withEngine (c.engine.modify i f)
    ∧ ∀ z, f z = { z with doneReported := (f z).doneReported }
  := by
  rw [report, hparent]
  split
  · exact ⟨_, rfl, fun _ => rfl⟩
  · exact ⟨id, by rw [Engine.modify_id, withEngine], fun _ => rfl⟩

/-- Counterparts are at work on top of both stacks. -/
structure Abreast (H : Host κ π σ) (P : Pairing) (t : Tie) (x y : Instance κ)
    (below below' : List (Frame κ π)) (c d : Configuration κ π σ) : Prop where
  engine : Engine.Alike P c.engine d.engine
  tie : t ∈ P.ties
  left : c.engine.get? t.left = some x
  right : d.engine.get? t.right = some y
  below : List.Forall₂ (Frame.Alike H P) below below'
  control : ∃ reply, c.control = .back reply
  control' : ∃ reply, d.control = .back reply

namespace Abreast

variable (h : Abreast H P t x y below below' c d)

include h

theorem alike :
  x.Alike P t.lead y
  := h.engine.alike h.tie h.left h.right

/-- Both go on with the same work. -/
theorem work (hps : List.Forall₂ (Phase.Alike P.heeds) ps ps') :
  Alike H P (c.work t.left o ps below) (d.work t.right o' ps' below')
  := by
  refine ⟨h.engine, .cons (.working h.tie hps) h.below, ?_⟩
  obtain ⟨reply, hcontrol⟩ := h.control
  obtain ⟨reply', hcontrol'⟩ := h.control'
  rw [Configuration.work, Configuration.work, withStack, withStack, hcontrol, hcontrol']
  exact .back _ _

/-- Both are changed alike. -/
theorem modify {f g : Instance κ → Instance κ} (hfg : (f x).Alike P t.lead (g y))
    (hf : (x.status = .stopped → (f x).status = .stopped) ∧ (f x).parent = x.parent)
    (hg : y.status = .stopped → (g y).status = .stopped) :
  Abreast H P t (f x) (g y) below below' (c.withEngine (c.engine.modify t.left f))
    (d.withEngine (d.engine.modify t.right g))
  where
  engine := by
    refine h.engine.modify h.tie ?_ ?_ ?_
    · intro x' y' hx' hy' _
      obtain rfl := Option.some.inj (h.left.symm.trans hx')
      obtain rfl := Option.some.inj (h.right.symm.trans hy')
      exact hfg
    · intro x' hx'
      obtain rfl := Option.some.inj (h.left.symm.trans hx')
      exact hf
    · intro y' hy'
      obtain rfl := Option.some.inj (h.right.symm.trans hy')
      exact hg
  tie := h.tie
  left := (Engine.sets_modify h.left f).get?_self
  right := (Engine.sets_modify h.right g).get?_self
  below := h.below
  control := h.control
  control' := h.control'

theorem observe (es es' : List Evaluation) :
  Abreast H P t x y below below' (c.observe H es) (d.observe H es')
  := ⟨h.engine, h.tie, h.left, h.right, h.below, h.control, h.control'⟩

/-- The same transition was found on both sides. -/
theorem settleTransition (event : Event) (rearm : Rearm)
    (found : Evaluated (Except MachineError (Option (Snapshot κ)))) :
  Alike H P (settleTransition H c t.left x o below event rearm found)
    (settleTransition H d t.right y o' below' event rearm found)
  := by
  have hobserved := h.observe found.evaluations found.evaluations
  rw [Configuration.settleTransition, Configuration.settleTransition]
  cases found.value with
  | error e => exact hobserved.work .nil
  | ok next? =>
    cases next? with
    | none => exact hobserved.work .nil
    | some next =>
      have hcommitted := hobserved.modify
        (f := fun x => commitTo x next event c.engine.timing.now)
        (g := fun y => commitTo y next event d.engine.timing.now)
        { h.alike with
          value := rfl, context := rfl, metadata := rfl, actions := .inl rfl }
        ⟨id, rfl⟩ id
      simp only [commit, h.alike.value]
      exact hcommitted.work (Phase.Alike.forall₂_refl _ _)

/-- Both process the same envelope. -/
theorem process {e e' : Envelope} (he : e.Alike t.lead e')
    (hstart : e = .start → x.snapshot.actions = y.snapshot.actions) :
  Alike H P (process H c t.left x o below e) (process H d t.right y o' below' e')
  := by
  rw [process_eq, process_eq, ← h.alike.resolution_eq he]
  cases hres : x.resolution e with
  | ignore => exact h.work .nil
  | begin =>
    have hphases : x.startPhases = y.startPhases := by
      rw [Instance.startPhases, Instance.startPhases, hstart (Instance.eq_start_of_resolution hres),
        h.alike.context, h.alike.value]
    rw [hphases]
    exact h.work (Phase.Alike.forall₂_refl _ _)
  | attempt event rearm found => exact h.settleTransition event rearm found

/-- Both take the next envelope, or end their activity. -/
theorem nextEnvelope (hr : c.engine.Nested) (hs : d.engine.Nested)
    (hheld : H.Holds P.root.left) (hheld' : H.Holds P.root.right) :
  Alike H P (nextEnvelope H c t.left x o below) (nextEnvelope H d t.right y o' below')
  := by
  have hmail := h.alike.mailbox
  rw [Configuration.nextEnvelope, Configuration.nextEnvelope]
  generalize hx : x.mailbox = es, hy : y.mailbox = es' at hmail
  cases hmail with
  | nil =>
    have hrested := h.modify (f := fun x => { x with busy := false })
      (g := fun y => { y with busy := false }) { h.alike with busy := rfl } ⟨id, rfl⟩ id
    have hsettled := Alike.settle (H := H)
      (c := ((c.withEngine (c.engine.modify t.left fun x => { x with busy := false })).withStack
        below).back (.outcome o))
      (d := ((d.withEngine (d.engine.modify t.right fun y => { y with busy := false })).withStack
        below').back (.outcome o'))
      (hr.modify t.left fun x => ⟨rfl, rfl, rfl, rfl⟩)
      (hs.modify t.right fun y => ⟨rfl, rfl, rfl, rfl⟩) hheld hheld' hrested.engine
    exact ⟨hsettled, h.below, .back _ _⟩
  | @cons e e' more more' he hmore =>
    have hactions := h.alike.actions
    rw [hx] at hactions
    have htaken := h.modify (f := fun x => { x with mailbox := more })
      (g := fun y => { y with mailbox := more' })
      { h.alike with
        mailbox := hmore
        actions := hactions.imp_right fun h =>
          ⟨h.1, fun hmem => h.2 (List.mem_cons_of_mem _ hmem)⟩ } ⟨id, rfl⟩ id
    refine htaken.process he ?_
    rintro rfl
    exact hactions.resolve_right fun h => h.2 List.mem_cons_self

/-! ### Phases -/

/-- Both step outward, into code of the host that asks for nothing. -/
theorem enter (hr : c.engine.Nested) (hs : d.engine.Nested) (hheld : H.Holds P.root.left)
    (hheld' : H.Holds P.root.right) {code code' : Engine κ → σ → Next κ π × σ}
    (hcode : Silent code) (hcode' : Silent code')
    (hps : List.Forall₂ (Phase.Alike P.heeds) ps ps') :
  Alike H P (enter H (c.work t.left o ps below) code) (enter H (d.work t.right o' ps' below') code')
  := Alike.enter (c := c.work t.left o ps below) (d := d.work t.right o' ps' below') hr hs hheld
    hheld' h.engine (.cons (.working h.tie hps) h.below) hcode hcode'

/-- The children of both are stopped. -/
theorem stopChildren (hr : c.engine.Older) (hs : d.engine.Older)
    (hps : List.Forall₂ (Phase.Alike P.heeds) ps ps') :
  Alike H P ((c.withEngine (c.engine.stopChildren t.left)).work t.left o ps below)
    ((d.withEngine (d.engine.stopChildren t.right)).work t.right o' ps' below')
  := by
  have hwork : Alike H P (c.work t.left o ps below) (d.work t.right o' ps' below') := h.work hps
  exact ⟨h.engine.stopChildren hr hs h.tie h.left h.right, .cons (.working h.tie hps) h.below,
    hwork.control⟩

/-- The same machine is made for both. -/
theorem resolveChild_eq (hpure : H.Pure) (v : Invocation κ) (context : Context) :
  ∃ memory memory', (resolveChild H c x v context).2 = { c with memory := memory }
    ∧ (resolveChild H d y v context).2 = { d with memory := memory' }
    ∧ (resolveChild H c x v context).1 = (resolveChild H d y v context).1
  := by
  rw [resolveChild, resolveChild, ← h.alike.services]
  cases v.source with
  | factory code => exact ⟨_, _, rfl, rfl, hpure.build _ _ _ _ _⟩
  | service name =>
    simp only
    cases x.services.get? name with
    | none => exact ⟨_, _, rfl, rfl, rfl⟩
    | some code => exact ⟨_, _, rfl, rfl, hpure.build _ _ _ _ _⟩

/-- The same invocation is carried out on both sides; the children are counterparts. -/
theorem startChild (hpure : H.Pure) (hr : c.engine.Regular) (state : String) (context : Context)
    (v : Invocation κ) (hps : List.Forall₂ (Phase.Alike P.heeds) ps ps') :
  ∃ P', P.Grows P'
    ∧ Alike H P' (startChild H (c.work t.left o ps below) t.left x state context v)
      (startChild H (d.work t.right o' ps' below') t.right y state context v)
  := by
  have hwork : Alike H P (c.work t.left o ps below) (d.work t.right o' ps' below') := h.work hps
  have habreast : Abreast H P t x y (.working t.left o ps :: below)
      (.working t.right o' ps' :: below') (c.work t.left o ps below)
      (d.work t.right o' ps' below') :=
    ⟨h.engine, h.tie, h.left, h.right, hwork.stack, h.control, h.control'⟩
  obtain ⟨memory, memory', hc, hd, heq⟩ := habreast.resolveChild_eq hpure v context
  rw [Configuration.startChild, Configuration.startChild, h.alike.contains_eq]
  split
  · exact ⟨P, .refl P, hwork⟩
  · generalize resolveChild H (c.work t.left o ps below) x v context = a,
      resolveChild H (d.work t.right o' ps' below') y v context = b at hc hd heq
    obtain ⟨result, c'⟩ := a
    obtain ⟨result', d'⟩ := b
    obtain rfl : c' = _ := hc
    obtain rfl : d' = _ := hd
    obtain rfl : result = result' := heq
    cases result with
    | ok machine =>
      have hspawned := h.engine.spawn hr.older hr.started h.tie h.left h.right machine v.id state
      have hgrows := P.grows_tie ⟨c.engine.instances.next, d.engine.instances.next, 0⟩
      exact ⟨_, hgrows, Alike.start
        (c := { c.work t.left o ps below with
          engine := c.engine.spawn t.left machine v.id state, memory := memory })
        (d := { d.work t.right o' ps' below' with
          engine := d.engine.spawn t.right machine v.id state, memory := memory' })
        hspawned (forall₂_frame_mono hgrows hwork.stack) List.mem_cons_self⟩
    | error e =>
      have hfailed := h.modify
        (f := fun x => { x with mailbox := x.mailbox ++ [.invokeFailed v.id state e.message] })
        (g := fun y => { y with mailbox := y.mailbox ++ [.invokeFailed v.id state e.message] })
        { h.alike with
          mailbox := List.rel_append h.alike.mailbox (.cons (.invokeFailed _ _ _) .nil)
          actions := h.alike.actions.imp_right fun h => ⟨h.1, by simpa using h.2⟩ } ⟨id, rfl⟩ id
      exact ⟨P, .refl P, hfailed.engine, hwork.stack, hwork.control⟩

/-- The timers of both are armed anew; those made in the course of it are paired. -/
theorem rearm (hr : c.engine.Regular) (hnow : c.engine.timing.now = d.engine.timing.now)
    (hrunning : x.isRunning = true) {rest rest' : List (Phase κ)}
    (hrest : List.Forall₂ (Phase.Alike P.heeds) rest rest') :
  ∃ P', P.Grows P' ∧ Alike H P' (stepPhase H c t.left x o rest below .rearm)
    (stepPhase H d t.right y o' rest' below' .rearm)
  := by
  have hobserved := h.observe (c.engine.armTimers t.left).evaluations
    (d.engine.armTimers t.right).evaluations
  simp only [stepPhase, ← h.alike.isRunning_eq, hrunning, if_true]
  obtain ⟨e, hx, hy⟩ | ⟨r', s', T, hx, hy, hT, halike⟩ :=
    h.engine.armTimers h.tie h.left h.right hnow hr.lt_next
  · simp only [hx, hy]
    exact ⟨P, .refl P, hobserved.work .nil⟩
  · simp only [hx, hy]
    have hgrows := Pairing.grows_withTimers hT
    have hwork : Alike H P ((c.observe H _).work t.left o rest below)
        ((d.observe H _).work t.right o' rest' below') := hobserved.work hrest
    exact ⟨_, hgrows, halike, forall₂_frame_mono hgrows hwork.stack, hwork.control⟩

/-- Only a root may have reported on one side alone, and it reports to nobody. -/
theorem report_of_orphan (hparent : x.parent = none) (value : StateValue)
    (hps : List.Forall₂ (Phase.Alike P.heeds) ps ps') :
  Alike H P ((c.work t.left o ps below).report t.left x value)
    ((d.work t.right o' ps' below').report t.right y value)
  := by
  have hparent' : y.parent = none := by
    have := h.alike.parent
    rw [hparent] at this
    generalize y.parent = l at this
    cases this
    rfl
  obtain ⟨f, hf, hfx⟩ := exists_report_eq (c := c.work t.left o ps below) t.left hparent value
  obtain ⟨g, hg, hgy⟩ := exists_report_eq (c := d.work t.right o' ps' below') t.right hparent' value
  have hmarked := h.modify (f := f) (g := g) (by
      rw [hfx x, hgy y]
      exact { h.alike with doneReported := .inl hparent })
    (by rw [hfx x]; exact ⟨id, rfl⟩) (by rw [hgy y]; exact id)
  rw [hf, hg]
  exact hmarked.work hps

/-- A child reports to its parent on both sides. -/
theorem report_of_child (hr : c.engine.Nested) (hrunning : x.isRunning = true) {link : ParentLink}
    (hparent : x.parent = some link) (value : StateValue)
    (hps : List.Forall₂ (Phase.Alike P.heeds) ps ps') :
  Alike H P ((c.work t.left o ps below).report t.left x value)
    ((d.work t.right o' ps' below').report t.right y value)
  := by
  obtain ⟨link', hparent', hlink⟩ : ∃ link', y.parent = some link' ∧ link.Alike P link' := by
    have := h.alike.parent
    rw [hparent] at this
    generalize y.parent = l at this ⊢
    cases this with
    | some hlink => exact ⟨_, rfl, hlink⟩
  have hreported : x.doneReported = y.doneReported :=
    h.alike.doneReported.resolve_left (by simp [hparent])
  have hwork : Alike H P (c.work t.left o ps below) (d.work t.right o' ps' below') := h.work hps
  rw [Configuration.report, Configuration.report, hparent, hparent', ← h.alike.isRunning_eq,
    ← h.alike.machine, ← hreported]
  split
  · obtain ⟨t', ht', hleft, hright⟩ := hlink.parent
    have hmarked := h.modify (f := fun x => { x with doneReported := true })
      (g := fun y => { y with doneReported := true })
      { h.alike with doneReported := .inr rfl } ⟨id, rfl⟩ id
    have hrunning' := Instance.status_ne_stopped hrunning
    obtain ⟨p, hp⟩ := hmarked.engine.rooted t h.tie _ link hmarked.left hrunning' hparent
    have hstatus := ((hr.modify t.left (f := fun x => { x with doneReported := true })
      fun x => ⟨rfl, rfl, rfl, rfl⟩).stored t.left _ link p hmarked.left hrunning' hparent hp).1
    rw [← hleft] at hp
    simp only [← hleft, ← hright, hlink.id, hlink.state]
    exact Alike.deliver (c := (c.work t.left o ps below).withEngine _)
      (d := (d.work t.right o' ps' below').withEngine _) hmarked.engine hwork.stack ht' hp hstatus
      (.childDone _ _) fun heq => Envelope.noConfusion heq
  · exact hwork

/-- Both take one step of the same phase, unless listeners that are not heeded are told. -/
theorem stepPhase (o o' : Except MachineError Unit) (hcalm : H.Calm) (hr : c.engine.Regular)
    (hs : d.engine.Regular) (hheld : H.Holds P.root.left) (hheld' : H.Holds P.root.right)
    (hnow : c.engine.timing.now = d.engine.timing.now) {p p' : Phase κ}
    (hp : p.Alike P.heeds p')
    (hpure : H.Pure ∨ ∀ state context vs, p = .invoke state context vs → vs = [])
    (hheeds : P.heeds = true ∨ ∀ s ls, p ≠ .notify s ls)
    (hps : List.Forall₂ (Phase.Alike P.heeds) ps ps') :
  ∃ P', P.Grows P' ∧ Alike H P' (stepPhase H c t.left x o ps below p)
    (stepPhase H d t.right y o' ps' below' p')
  := by
  have hrunning := h.alike.isRunning_eq
  cases hp with
  | @notify s ls ls' hmap =>
    have hls := hmap (hheeds.resolve_right fun hnot => hnot s ls rfl)
    refine ⟨P, .refl P, ?_⟩
    cases ls with
    | nil =>
      obtain rfl := List.map_eq_nil_iff.mp hls.symm
      exact h.work hps
    | cons l more =>
      obtain ⟨l', more', rfl, hl, hmore⟩ := List.map_eq_cons_iff.mp hls.symm
      exact h.enter hr.toNested hs.toNested hheld hheld' (hcalm.notify _ s) (hcalm.notify _ s)
        (.cons (.notify s fun _ => hmore.symm) hps)
  | same p =>
    cases p with
    | rearm =>
      cases hrun : x.isRunning with
      | true => exact h.rearm hr hnow hrun hps
      | false =>
        simp only [Configuration.stepPhase, ← hrunning, hrun]
        exact ⟨P, .refl P, h.work hps⟩
    | invoke state context vs =>
      cases vs with
      | nil => exact ⟨P, .refl P, h.work hps⟩
      | cons v more =>
        simp only [Configuration.stepPhase, ← hrunning]
        split
        · have hpure := hpure.resolve_right fun hnil =>
            List.cons_ne_nil _ _ (hnil _ _ _ rfl)
          exact h.startChild hpure hr state context v (.cons (.same _) hps)
        · exact ⟨P, .refl P, h.work hps⟩
    | report value =>
      refine ⟨P, .refl P, ?_⟩
      simp only [Configuration.stepPhase]
      cases hparent : x.parent with
      | none => exact h.report_of_orphan hparent value hps
      | some link =>
        cases hrun : x.isRunning with
        | true => exact h.report_of_child hr.toNested hrun hparent value hps
        | false =>
          rw [Configuration.report, Configuration.report, ← hrunning, hrun]
          exact h.work hps
    | stopChildren =>
      exact ⟨P, .refl P, h.stopChildren hr.older hs.older hps⟩
    | perform actions context event =>
      refine ⟨P, .refl P, ?_⟩
      cases actions with
      | nil => exact h.work hps
      | cons a more =>
        simp only [Configuration.stepPhase, ← hrunning]
        split
        · exact h.enter hr.toNested hs.toNested hheld hheld' (hcalm.execute _ _ _ _)
            (hcalm.execute _ _ _ _) (.cons (.same _) hps)
        · exact h.work .nil
    | startChildren =>
      refine ⟨P, .refl P, ?_⟩
      simp only [Configuration.stepPhase, ← hrunning, ← h.alike.activeInvocations_eq,
        ← h.alike.context]
      split
      · split
        · exact h.work .nil
        · exact h.work hps
        · exact h.work (.cons (.same _) hps)
      · exact h.work hps
    | publish s =>
      refine ⟨P, .refl P, ?_⟩
      simp only [Configuration.stepPhase, ← hrunning]
      split
      · exact h.work (.cons (.notify s h.alike.listeners) hps)
      · exact h.work .nil
    | notify s ls =>
      refine ⟨P, .refl P, ?_⟩
      cases ls with
      | nil => exact h.work hps
      | cons l more =>
        exact h.enter hr.toNested hs.toNested hheld hheld' (hcalm.notify _ s) (hcalm.notify _ s)
          (.cons (.same _) hps)

end Abreast

end Configuration

end Statechart
