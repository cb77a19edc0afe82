import Statechart.Proofs.Completion

/-!
# Simulation of `Machine.next`

Events that are sent to an instance one after another from outside lead it where folding
`Machine.next` over them leads to, from the initial snapshot on
(`Configuration.Run.simulates`).
-/

namespace Statechart

variable {κ π σ : Type}

namespace Configuration

variable {H : Host κ π σ} {cs ds : List (Configuration κ π σ)} {c d : Configuration κ π σ}
  {i : Nat} {x y : Instance κ} {m : Machine κ} {s₀ : Snapshot κ}

/-! ### What steps without calls do -/

/-- An instance of a machine was started at a snapshot, and as long as it runs it is where folding
`next` over the events that it has handled leads to. -/
structure Mirrors (H : Host κ π σ) (i : Nat) (m : Machine κ) (s₀ : Snapshot κ)
    (cs : List (Configuration κ π σ)) (c : Configuration κ π σ) : Prop where
  still : ∀ b ∈ cs, b.Still
  begun : c.engine.Begun i
  tracks : ∀ x, c.engine.get? i = some x → x.isRunning = true →
    x.machine = m ∧ Tracks m s₀ (handled H i cs) x.snapshot (executed i cs) (workOf i c.stack)

/-- No step of a host that makes no call takes an instance off its track. -/
theorem Mirrors.next (h : Mirrors H i m s₀ cs c) (hrun : Run H cs c) (hc : c.Still)
    (hstep : Evolves H c d) (hchildless : m.Childless) :
  Mirrors H i m s₀ (cs ++ [c]) d
  := by
  have hstill : ∀ b ∈ cs ++ [c], b.Still := by
    intro b hb
    rcases List.mem_append.mp hb with hb | hb
    · exact h.still b hb
    · rwa [List.mem_singleton.mp hb]
  obtain ⟨mid, hgoes⟩ := hrun.goes hstep
  refine ⟨hstill, hgoes.begun h.begun, ?_⟩
  intro y hy hrunning
  obtain ⟨x, hx, hxrunning, hturn⟩ := hgoes.runs h.begun hy hrunning
  obtain ⟨rfl, htracks⟩ := h.tracks x hx hxrunning
  exact ⟨hturn.machine_eq.1,
    hrun.tracks_next hstill hstep hx hxrunning hchildless hy hrunning htracks⟩

/-- No steps without calls take an instance off its track. -/
theorem Mirrors.glides (h : Mirrors H i m s₀ cs c) (hrun : Run H cs c)
    (hglides : Glides H c ds d) (hchildless : m.Childless) :
  Mirrors H i m s₀ (cs ++ ds) d
  := by
  induction hglides generalizing cs with
  | refl => rwa [List.append_nil]
  | @step c d e ds hstep hcontrol hhanded _ _ ih =>
    have hevolves : Evolves H c d := .step (fun m hm => by rw [hhanded] at hm; cases hm) hstep
    rw [List.append_cons]
    refine ih (h.next hrun ?_ hevolves hchildless) (hrun.next hevolves)
    exact fun ms point => hcontrol (.advance ms) point

/-! ### Calls -/

/-- An instance that is not at work begins to work when an envelope is posted to it. -/
theorem engaged_deliver (hx : c.engine.get? i = some x) (hbusy : x.busy = false) (e : Envelope) :
  Engaged i [] c.stack (x.enqueued e) (c.deliver i e)
  := by
  obtain ⟨hsets, hstack⟩ := deliver_of_some hx e
  refine ⟨?_, ?_, hsets.get?_self⟩
  · rw [deliver, hx]
    simp only [hbusy]
    exact ⟨_, rfl⟩
  · rw [hstack, hbusy]
    rfl

/-- An instance that is started is engaged with its start. -/
theorem engaged_start (hx : c.engine.get? i = some x) (hnot : x.status = .notStarted)
    (hbusy : x.busy = false) :
  Engaged i [] c.stack (Instance.enqueued { x with status := .running } .start) (c.start i)
  := by
  rw [start, hx]
  simp only
  rw [if_pos hnot]
  exact engaged_deliver
    (c := c.withEngine (c.engine.modify i fun x => { x with status := .running }))
    (Engine.sets_modify hx _).get?_self hbusy .start

/-- An instance that is sent an event is engaged with it. -/
theorem engaged_send (hx : c.engine.get? i = some x) (hrunning : x.isRunning = true)
    (hbusy : x.busy = false) (event : Event) :
  Engaged i [] c.stack (x.enqueued (.event event)) (c.send i event)
  := by
  rw [send, if_pos (Engine.isRunning_of_get? hx hrunning)]
  exact engaged_deliver hx hbusy _

/-- A call for an instance has returned to a point of control, above other activities: the
instance runs, without parent and with these listeners, and it is where folding `next` leads to. -/
structure Served (H : Host κ π σ) (i : Nat) (m : Machine κ) (listeners : List (Nat × κ))
    (below : List (Frame κ π)) (point : π) (cs : List (Configuration κ π σ))
    (c : Configuration κ π σ) : Prop where
  run : Run H cs c
  mirrors : Mirrors H i m m.initial cs c
  control : c.control = .back (.outcome (.ok ()))
  stack : c.stack = .waiting point :: below
  idle : workOf i below = none
  there : ∃ x, c.engine.get? i = some x ∧ x.isRunning = true ∧ x.parent = none
    ∧ x.listeners = listeners

variable {point : π} {below : List (Frame κ π)} {listeners : List (Nat × κ)}

/-- A call that posts an envelope is a step of the run, and it posts nothing else. -/
theorem evolves_of_call {call : Call κ} {post : Post}
    (hcontrol : c.control = .host (.call call point))
    (hsignal : call.signal c.engine = { posted := some post }) :
  signal H c = { posted := some post }
    ∧ Evolves H c (perform H (c.withStack (.waiting point :: c.stack)) call)
  := by
  have hseen : signal H c = { posted := some post } := by
    simp only [signal, hcontrol, hsignal]
  refine ⟨hseen, .step (fun m hm => ?_) (by rw [step?, hcontrol])⟩
  rw [hseen] at hm
  cases hm

/-- A call that posts an envelope returns if the work comes to an end. -/
theorem served_of_returns (hrun : Run H cs c) {call : Call κ} {e : Envelope}
    (hcontrol : c.control = .host (.call call point))
    (hsignal : call.signal c.engine = { posted := some ⟨i, e, none⟩ })
    (hchildless : m.Childless) (hidle : workOf i c.stack = none)
    (hmirrors : Mirrors H i m m.initial (cs ++ [c])
      (perform H (c.withStack (.waiting point :: c.stack)) call))
    (hreturns : Returns H i x (perform H (c.withStack (.waiting point :: c.stack)) call)
      (.waiting point :: c.stack))
    (hparent : x.parent = none) :
  ∃ rest d, Served H i m x.listeners c.stack point (cs ++ c :: rest) d
    ∧ sent H i (cs ++ c :: rest) = sent H i cs ++ [e].filterMap Envelope.event?
  := by
  obtain ⟨hseen, hevolves⟩ := evolves_of_call (H := H) hcontrol hsignal
  obtain ⟨ds, d, y, hglides, hback, hstack, hy, hresembles⟩ := hreturns
  refine ⟨ds, d, ⟨?_, ?_, hback, hstack, hidle, y, hy, hresembles.running,
    hresembles.parent.trans hparent, hresembles.listeners⟩, ?_⟩
  · rw [List.append_cons]
    exact hglides.run (hrun.next hevolves)
  · rw [List.append_cons]
    exact hmirrors.glides (hrun.next hevolves) hglides hchildless
  · have hposted : (signal H c).postedTo i = some e := by
      simp [hseen, Signal.postedTo]
    have hposts : posts H i (c :: ds) = e :: posts H i ds := List.filterMap_cons_some hposted
    rw [hglides.posts_eq] at hposts
    rw [sent, posts, List.filterMap_append, ← posts, ← posts, hposts, List.filterMap_append]
    rfl

/-- An instance that was never started has no parent. -/
theorem Run.parent_of_notStarted (h : Run H cs c) (hx : c.engine.get? i = some x)
    (hnot : x.status = .notStarted) :
  x.parent = none
  := by
  refine h.each (p := fun _ x _ => x.status = .notStarted → x.parent = none) ?_ ?_ hx hnot
  · intro s r i y w harrives _ hnot
    cases harrives with
    | created => rfl
    | spawned => cases hnot
  · intro r r' i x y w w' _ hturn ih hnot
    rw [hturn.machine_eq.2]
    obtain hstatus | hstatus | hstatus := hturn.status
    · exact ih (hstatus.symm.trans hnot)
    · exact ih hstatus
    · rw [hstatus] at hnot
      cases hnot

/-- To start an instance is a call that returns. -/
theorem Run.served_of_start (h : Run H cs c) (hstill : ∀ b ∈ cs, b.Still)
    (hcontrol : c.control = .host (.call (.start i) point)) (hx : c.engine.get? i = some x)
    (hnot : x.status = .notStarted) (hchildless : x.machine.Childless)
    (hheld : ∀ memory, i ∈ H.held memory)
    (hsilent : ∀ fx ∈ x.machine.initial.effects .init, H.Silences fx) :
  ∃ rest d, Served H i x.machine x.listeners c.stack point (cs ++ c :: rest) d
    ∧ sent H i (cs ++ c :: rest) = []
  := by
  have hsignal : (Call.start i).signal c.engine = { posted := some ⟨i, .start, none⟩ } := by
    simp [Call.signal, hx, hnot]
  obtain ⟨hmail, hbusy⟩ := h.started.mail i x hx hnot
  have hsnapshot := (h.untouched_of_notStarted hx hnot).1
  have hparent := h.parent_of_notStarted hx hnot
  have hidle := h.workOf_of_notStarted hx hnot
  have hengaged : Engaged i [] (.waiting point :: c.stack)
      (Instance.enqueued { x with status := .running } .start)
      (perform H (c.withStack (.waiting point :: c.stack)) (.start i)) :=
    engaged_start (c := c.withStack (.waiting point :: c.stack)) hx hnot hbusy
  have hmirrors : Mirrors H i x.machine x.machine.initial (cs ++ [c])
      (perform H (c.withStack (.waiting point :: c.stack)) (.start i)) := by
    refine ⟨?_, Engine.begun_of_isRunning hengaged.get? rfl, ?_⟩
    · intro b hb
      rcases List.mem_append.mp hb with hb | hb
      · exact hstill b hb
      · rw [List.mem_singleton.mp hb]
        exact still_of_call hcontrol (by rintro _ ⟨⟩)
    · intro y hy _
      obtain rfl := Option.some.inj (hengaged.get?.symm.trans hy)
      obtain ⟨hhandled, hexecuted⟩ :=
        handled_of_not_ran (H := H) (h.not_ran (.inr ⟨x, hx, hnot⟩))
      refine ⟨rfl, ?_⟩
      rw [hhandled, hexecuted, ← hsnapshot, hengaged.stack]
      exact .opening (by rw [workOf_working_self, remaining_nil])
  have hevolves := (evolves_of_call (H := H) hcontrol hsignal).2
  have hreturns := hengaged.returns_of_start (h.next hevolves) rfl hparent hchildless hheld
    (by simp [Instance.enqueued, hmail]) (by exact hsnapshot ▸ hsilent)
  obtain ⟨rest, d, hserved, hsent⟩ :=
    served_of_returns h hcontrol hsignal hchildless hidle hmirrors hreturns hparent
  refine ⟨rest, d, hserved, ?_⟩
  rw [hsent, sent, (h.posts_of_not_ran (.inr ⟨x, hx, hnot⟩)).1]
  rfl

/-- To send an event to an instance that is not at work is a call that returns. -/
theorem Run.served_of_send (h : Run H cs c) (hmirrors : Mirrors H i m m.initial cs c)
    {event : Event} (hcontrol : c.control = .host (.call (.send i event) point))
    (hx : c.engine.get? i = some x) (hrunning : x.isRunning = true) (hparent : x.parent = none)
    (hidle : workOf i c.stack = none) (hchildless : m.Childless)
    (hheld : ∀ memory, i ∈ H.held memory)
    (hsilent : ∀ s effects, m.replay m.initial (sent H i cs ++ [event]) = .ok (s, effects) →
      (∀ fx ∈ effects, H.Silences fx) ∧ ∀ l ∈ x.listeners, Silent (H.notify l.2 s)) :
  ∃ rest d, Served H i m x.listeners c.stack point (cs ++ c :: rest) d
    ∧ sent H i (cs ++ c :: rest) = sent H i cs ++ [event]
  := by
  obtain ⟨rfl, htracks⟩ := hmirrors.tracks x hx hrunning
  have hreplay := h.replay_of_tracks hmirrors.still hx hrunning hidle htracks
  have hvalid := h.valid.1 i x hx
  obtain ⟨s, hs, -⟩ :=
    hvalid.compiled.sound.exists_transition hvalid.fits x.snapshot.context event
  obtain ⟨heffects, hlisteners⟩ := hsilent s _ (Machine.replay_concat hreplay hs)
  have hisRunning := Engine.isRunning_of_get? hx hrunning
  have hsignal : (Call.send i event).signal c.engine = { posted := some ⟨i, .event event, none⟩ } :=
    if_pos hisRunning
  obtain ⟨hmail, hbusy⟩ := h.rests_of_idle hx hidle
  have hengaged : Engaged i [] (.waiting point :: c.stack) (x.enqueued (.event event))
      (perform H (c.withStack (.waiting point :: c.stack)) (.send i event)) :=
    engaged_send (c := c.withStack (.waiting point :: c.stack)) hx hrunning hbusy event
  have hstill : c.Still := still_of_call hcontrol (by rintro _ ⟨⟩)
  have hevolves := (evolves_of_call (H := H) hcontrol hsignal).2
  have hreturns := hengaged.returns_of_event (h.next hevolves) hrunning hparent hchildless hheld
    (by simp [Instance.enqueued, hmail]) hs
    (fun fx hfx => heffects fx (List.mem_append_right _ hfx)) hlisteners
  have hserved := served_of_returns h hcontrol hsignal hchildless hidle
    (hmirrors.next h hstill hevolves hchildless) hreturns hparent
  exact hserved

/-- The host goes on when a call has returned, and sends an event. -/
theorem Served.send (h : Served H i m listeners below point cs c) (hchildless : m.Childless)
    (hheld : ∀ memory, i ∈ H.held memory) {event : Event} {point' : π}
    (hresume : ∀ r memory,
      (H.resume point (.outcome (.ok ())) r memory).1 = .call (.send i event) point')
    (hsilent : ∀ s effects, m.replay m.initial (sent H i cs ++ [event]) = .ok (s, effects) →
      (∀ fx ∈ effects, H.Silences fx) ∧ ∀ l ∈ listeners, Silent (H.notify l.2 s)) :
  ∃ rest d, Served H i m listeners below point' (cs ++ c :: rest) d
    ∧ sent H i (cs ++ c :: rest) = sent H i cs ++ [event]
  := by
  obtain ⟨x, hx, hrunning, hparent, rfl⟩ := h.there
  let sends := enter H (c.withStack below) (H.resume point (.outcome (.ok ())))
  have hcontrol : sends.control = .host (.call (.send i event) point') :=
    congrArg Control.host (hresume c.engine c.memory)
  have hget : sends.engine.get? i = some x :=
    ((Engine.releases_release _ _).get?_of_mem (List.mem_append_left _ (hheld _))).trans hx
  have hgoes : Glides H c [c] sends := by
    refine .single h.control ?_ ?_ ?_
    · simp only [step?, h.control, h.stack]
      rfl
    · simp only [signal, h.control, h.stack]
    · simp only [signal, h.control, h.stack]
  have hsent : sent H i (cs ++ [c]) = sent H i cs := by
    rw [sent, posts, List.filterMap_append, ← posts, ← posts, hgoes.posts_eq, List.append_nil]
    rfl
  rw [← hsent] at hsilent ⊢
  obtain ⟨rest, d, hserved, hsent'⟩ := (hgoes.run h.run).served_of_send
    (h.mirrors.glides h.run hgoes hchildless) hcontrol hget hrunning hparent h.idle hchildless
    hheld hsilent
  refine ⟨sends :: rest, d, ?_, ?_⟩
  · rw [List.append_cons]
    exact hserved
  · rw [List.append_cons]
    exact hsent'

/-! ### Events sent one after another -/

/-- The host sends events to an instance one after another, each when the call before has
returned. -/
def Sends (H : Host κ π σ) (i : Nat) : List Event → π → Prop
  | [], _ => True
  | event :: events, point =>
    ∃ point', (∀ r memory,
      (H.resume point (.outcome (.ok ())) r memory).1 = .call (.send i event) point')
        ∧ Sends H i events point'

/-- Event by event, an instance that is sent events is where folding over them leads. -/
theorem Served.sends {events before : List Event}
    (h : Served H i m listeners below point cs c) (hchildless : m.Childless)
    (hheld : ∀ memory, i ∈ H.held memory) (hsends : Sends H i events point)
    (hsent : sent H i cs = before)
    (hsilent : ∀ es s effects, es <+: before ++ events →
      m.replay m.initial es = .ok (s, effects) →
        (∀ fx ∈ effects, H.Silences fx) ∧ ∀ l ∈ listeners, Silent (H.notify l.2 s))
    {k : Nat} (hk : k ≤ events.length) :
  ∃ rest d point', Served H i m listeners below point' (cs ++ rest) d
    ∧ sent H i (cs ++ rest) = before ++ events.take k
  := by
  induction k generalizing events before point cs c with
  | zero => exact ⟨[], c, point, by rwa [List.append_nil], by simpa using hsent⟩
  | succ k ih =>
    cases events with
    | nil => exact absurd hk (by simp)
    | cons event events =>
      obtain ⟨point', hresume, hsends⟩ := hsends
      obtain ⟨rest, d, hserved, hsent'⟩ := h.send hchildless hheld hresume fun s effects =>
        hsilent _ s effects (by rw [hsent]; exact (List.prefix_append_right_inj _).mpr (by simp))
      rw [hsent] at hsent'
      obtain ⟨rest', d', point'', hserved', hsent''⟩ := ih hserved hsends hsent'
        (fun es s effects hes => hsilent es s effects (by simpa using hes))
        (Nat.le_of_succ_le_succ hk)
      refine ⟨c :: rest ++ rest', d', point'', ?_, ?_⟩
      · rwa [← List.append_assoc]
      · rw [← List.append_assoc, hsent'', List.take_succ_cons, List.append_assoc]
        rfl

/-- An instance of a machine without invocations is started, and events are sent to it one after
another, by a host whose effects and listeners make no calls and that never advances the clock.
After each of the events the instance is where folding `next` over the events up to it leads to
from the initial snapshot, and exactly the effects of the snapshots on the way have been
executed. -/
theorem Run.simulates (h : Run H cs c) (hstill : ∀ b ∈ cs, b.Still)
    (hcontrol : c.control = .host (.call (.start i) point)) (hx : c.engine.get? i = some x)
    (hnot : x.status = .notStarted) (hchildless : x.machine.Childless)
    (hheld : ∀ memory, i ∈ H.held memory) {events : List Event} (hsends : Sends H i events point)
    (hsilent : ∀ es s effects, es <+: events →
      x.machine.replay x.machine.initial es = .ok (s, effects) →
        (∀ fx ∈ effects, H.Silences fx) ∧ ∀ l ∈ x.listeners, Silent (H.notify l.2 s))
    {k : Nat} (hk : k ≤ events.length) :
  ∃ rest d point' y, Run H (cs ++ c :: rest) d ∧ d.control = .back (.outcome (.ok ()))
    ∧ d.stack = .waiting point' :: c.stack ∧ d.engine.get? i = some y ∧ y.isRunning = true
    ∧ sent H i (cs ++ c :: rest) = events.take k
    ∧ x.machine.replay x.machine.initial (events.take k)
      = .ok (y.snapshot, executed i (cs ++ c :: rest))
  := by
  obtain ⟨hinitial, -⟩ := hsilent [] x.machine.initial (x.machine.initial.effects .init)
    List.nil_prefix rfl
  obtain ⟨rest, d, hserved, hsent⟩ :=
    h.served_of_start hstill hcontrol hx hnot hchildless hheld hinitial
  obtain ⟨rest', e, point', hserved', hsent'⟩ :=
    hserved.sends hchildless hheld hsends hsent hsilent hk
  obtain ⟨y, hy, hrunning, -, -⟩ := hserved'.there
  obtain ⟨hmachine, htracks⟩ := hserved'.mirrors.tracks y hy hrunning
  have hidle : workOf i e.stack = none := by
    rw [hserved'.stack]
    exact hserved'.idle
  rw [← hmachine] at htracks
  have hreplay := hserved'.run.replay_of_tracks hserved'.mirrors.still hy hrunning hidle htracks
  rw [hsent', hmachine] at hreplay
  refine ⟨rest ++ rest', e, point', y, ?_, hserved'.control, hserved'.stack, hy, hrunning, ?_, ?_⟩
  · rw [← List.cons_append, ← List.append_assoc]
    exact hserved'.run
  · rw [← List.cons_append, ← List.append_assoc]
    exact hsent'
  · rw [← List.cons_append, ← List.append_assoc]
    exact hreplay

end Configuration

/-! ### An example -/

/-- A meter that hums when it is on, and that notes each tick before it keeps its kind. -/
def meterDescriptor : MachineDescriptor Unit where
  id := some "meter"
  initial := some "on"
  kind := .atomic
  context := .empty
  metadata := none
  states := ⟨[
    ("on", { StateDescriptor.empty with
      entry := [.inline "hum" ()]
      on := ⟨[
        ("TICK", [⟨none, [.inline "note" (), .assign (.properties [("last", .computed
          ⟨"kind", fun _ event _ => .string event.kind⟩)])], none⟩]),
        ("HALT", [⟨some "off", [.inline "beep" ()], none⟩])]⟩ }),
    ("off", .empty)]⟩

/-- The machine of `meterDescriptor`. -/
def meter : Machine Unit where
  id := some "meter"
  metadata := none
  context := .empty
  topology := .flat
    { owner := "meter"
      region := none
      initial := "on"
      nodes := ⟨[
        ("on", ⟨"on", .atomic, ⟨[
          ("TICK", [⟨none, [.effect "note" (), .assign (.properties [("last", .computed
            ⟨"kind", fun _ event _ => .string event.kind⟩)])], none⟩]),
          ("HALT", [⟨some "off", [.effect "beep" ()], none⟩])]⟩,
          [.effect "hum" ()], [], [], [], none⟩),
        ("off", ⟨"off", .atomic, .empty, [], [], [], [], none⟩)]⟩ }
  initial := ⟨.leaf "on", .empty, none, [⟨"hum", (), none⟩], false, false⟩
  services := .empty

theorem isCompiled_meter :
  meter.IsCompiled
  := ⟨meterDescriptor, .empty, MachineDescriptor.keyed_of_shallow (by decide) (by decide), rfl⟩

namespace Configuration

/-- The host whose effects make no calls. -/
def meterHost : Host Unit (Script Unit) Unit :=
  scripted (fun _ => []) (fun _ => .error (.unknownService "")) 1

/-- The run up to the start of the meter, with the events that are to be sent. -/
def meterRun : List (Configuration Unit (Script Unit) Unit)
    × Configuration Unit (Script Unit) Unit :=
  played (fun _ => []) (fun _ => .error (.unknownService "")) 1 meter
    [.start 0, .send 0 (.named "TICK"), .send 0 (.named "NONE"), .send 0 (.named "HALT")] 2

theorem run_meterRun :
  Run meterHost meterRun.1 meterRun.2
  := run_played isCompiled_meter (fun _ _ h => by cases h) (by decide +kernel)

/-- The note is made with the kind that is kept after it, and the event that the meter does not
know makes no difference. -/
theorem meter_simulates :
  ∃ rest d y, Run meterHost (meterRun.1 ++ meterRun.2 :: rest) d
    ∧ d.control = .back (.outcome (.ok ())) ∧ d.engine.get? 0 = some y
    ∧ sent meterHost 0 (meterRun.1 ++ meterRun.2 :: rest)
      = [.named "TICK", .named "NONE", .named "HALT"]
    ∧ y.snapshot.value = .leaf "off" ∧ y.snapshot.context = ⟨[("last", .string "TICK")]⟩
    ∧ executed 0 (meterRun.1 ++ meterRun.2 :: rest)
      = [(⟨"hum", (), none⟩, .empty, .init),
        (⟨"note", (), none⟩, ⟨[("last", .string "TICK")]⟩, .named "TICK"),
        (⟨"beep", (), none⟩, ⟨[("last", .string "TICK")]⟩, .named "HALT")]
  := by
  have hx : meterRun.2.engine.get? 0 = some (.new meter .empty 0 none) := rfl
  have hchildless : meter.Childless := by
    intro chart hchart key n hn
    obtain rfl := Option.some.inj hchart
    obtain rfl | hn := List.mem_cons.mp (OrderedMap.mem_values_of_get? hn)
    · rfl
    · obtain rfl := List.mem_singleton.mp hn
      rfl
  have hsends : Sends meterHost 0 [.named "TICK", .named "NONE", .named "HALT"]
      [.send 0 (.named "TICK"), .send 0 (.named "NONE"), .send 0 (.named "HALT")] :=
    ⟨_, fun _ _ => rfl, _, fun _ _ => rfl, _, fun _ _ => rfl, trivial⟩
  have hsilent (code : Unit) (context : Context) (event : Event) (metadata : Option Meta) :
      Silent (meterHost.execute code context event metadata) := fun _ _ => rfl
  obtain ⟨rest, d, point, y, hrun, hcontrol, -, hy, -, hsent, hreplay⟩ :=
    run_meterRun.simulates (by decide +kernel) rfl hx rfl hchildless
      (fun _ => List.mem_cons_self) hsends
      (fun es s effects _ _ => ⟨fun fx _ => hsilent _ _ _ _, fun l hl => nomatch hl⟩)
      (show 3 ≤ 3 by decide)
  have hfold : meter.replay meter.initial [.named "TICK", .named "NONE", .named "HALT"]
      = .ok (⟨.leaf "off", ⟨[("last", .string "TICK")]⟩, none, [⟨"beep", (), none⟩], true, false⟩,
        [(⟨"hum", (), none⟩, .empty, .init),
          (⟨"note", (), none⟩, ⟨[("last", .string "TICK")]⟩, .named "TICK"),
          (⟨"beep", (), none⟩, ⟨[("last", .string "TICK")]⟩, .named "HALT")]) := rfl
  obtain ⟨hsnapshot, hexecuted⟩ := Prod.mk.inj (Except.ok.inj (hreplay.symm.trans hfold))
  exact ⟨rest, d, y, hrun, hcontrol, hy, hsent, by rw [hsnapshot], by rw [hsnapshot], hexecuted⟩

end Configuration

end Statechart
