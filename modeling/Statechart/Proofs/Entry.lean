import Statechart.Proofs.Attempts

/-!
# Entering a state

When an instance is started, or moves to another value, its old children are stopped first.
Then the invocations of the state are resolved, each once and in order: each gives a child, which
is stored before it starts, or a report of failure.  When the value stays, no child is started or
stopped (`Configuration.Run.enters`).
-/

namespace Statechart

variable {κ π σ : Type}

namespace Configuration

variable {H : Host κ π σ} {cs before inner : List (Configuration κ π σ)}
  {a b c d : Configuration κ π σ} {i : Nat} {x y : Instance κ}

/-! ### The entry of a state -/

/-- How far an instance has come with the requests `qs` in the steps `cs`, when `ps` is left of its
work: those that it has attempted and those that are ahead are all, in order.  Either its children
are still to be stopped, and it has attempted nothing; or its children are the `old` ones, and then
those of the attempts that succeeded. -/
structure Entry (H : Host κ π σ) (i : Nat) (old : List (String × Nat)) (qs : List (Request κ))
    (cs : List (Configuration κ π σ)) (x : Instance κ) (ps : List (Phase κ)) : Prop where
  requests : (attempts H i cs).map Attempt.request ++ ahead x ps = qs
  waits : .stopChildren ∈ ps → attempts H i cs = [] ∧ old = []
  children : .stopChildren ∉ ps →
    x.children.entries = old ++ (attempts H i cs).filterMap Attempt.stored?

variable {t : Attempt κ} {old : List (String × Nat)} {qs : List (Request κ)} {ps : List (Phase κ)}

/-- The child of a request that is ahead is not yet stored. -/
theorem Entry.fresh (h : Entry H i old qs cs x ps)
    (hids : (old.map Prod.fst ++ qs.map fun q => q.invocation.id).Nodup)
    (hstopped : .stopChildren ∉ ps) {q : Request κ} (hq : q ∈ ahead x ps) :
  x.children.contains q.invocation.id = false
  := by
  rw [← Bool.not_eq_true, OrderedMap.contains_iff, OrderedMap.keys, h.children hstopped,
    List.map_append, List.mem_append]
  obtain ⟨-, hqs, hold⟩ := List.nodup_append.mp hids
  rintro (hmem | hmem)
  · have hq' : q ∈ qs := h.requests ▸ List.mem_append_right _ hq
    exact hold _ hmem _ (List.mem_map_of_mem hq') rfl
  · obtain ⟨e, he, hid⟩ := List.mem_map.mp hmem
    obtain ⟨t, ht, hstored⟩ := List.mem_filterMap.mp he
    obtain ⟨rfl, -⟩ := Attempt.stored?_eq_some hstored
    rw [← h.requests, List.map_append, List.nodup_append] at hqs
    exact hqs.2.2 _ (List.mem_map_of_mem (List.mem_map_of_mem ht)) _ (List.mem_map_of_mem hq) hid

/-- An instance at work goes on with the entry of its state. -/
theorem Run.entry_next (h : Run H cs c) (hstep : Evolves H c d) {p : Phase κ}
    (hx : c.engine.get? i = some x) (hw : workOf i c.stack = some (p :: ps))
    (hxrunning : x.isRunning = true) (hy : d.engine.get? i = some y)
    (hrunning : y.isRunning = true) (hentry : Entry H i old qs inner x (p :: ps))
    (hids : (old.map Prod.fst ++ qs.map fun q => q.invocation.id).Nodup) :
  y.snapshot = x.snapshot ∧ y.machine = x.machine
    ∧ ∃ ps', workOf i d.stack = some ps' ∧ Entry H i old qs (inner ++ [c]) y ps'
  := by
  obtain ⟨mid, hgoes⟩ := h.goes hstep
  have hmachine := (hgoes.turn hx (hgoes.releases.get?_of_get? hy)).machine_eq.1
  have hsettled (state : String) (context : Context) (vs : List (Invocation κ))
      (hp : p = .invoke state context vs) : .stopChildren ∉ p :: ps := by
    subst hp
    exact (h.tidy hx).settled_of_invoke hw
  cases hattempt : attempt? H i c with
  | none =>
    obtain ⟨hsnapshot, qs', hw', hahead, hcases⟩ :=
      h.ahead_eq hstep hx hw hxrunning hy hrunning hattempt fun state context v more hp =>
        hentry.fresh hids (hsettled _ _ _ hp) (q := ⟨state, context, v⟩) (by
          rw [hp, ahead_cons]
          exact List.mem_append_left _ List.mem_cons_self)
    refine ⟨hsnapshot, hmachine, qs', hw', ?_⟩
    have hattempts : attempts H i (inner ++ [c]) = attempts H i inner := by
      rw [attempts_concat, hattempt, Option.toList_none, List.append_nil]
    constructor
    · rw [hattempts, Instance.ahead_congr hmachine hsnapshot, hahead, hentry.requests]
    · intro hmem
      rw [hattempts]
      obtain ⟨-, hiff⟩ | ⟨rfl, -, -⟩ := hcases
      · exact hentry.waits (hiff.mp hmem)
      · exact hentry.waits List.mem_cons_self
    · intro hnot
      rw [hattempts]
      obtain ⟨hchildren, hiff⟩ | ⟨rfl, -, hchildren⟩ := hcases
      · rw [hchildren, hentry.children fun hmem => hnot (hiff.mpr hmem)]
      · obtain ⟨hnone, rfl⟩ := hentry.waits List.mem_cons_self
        rw [hchildren, hnone]
        rfl
  | some t =>
    obtain ⟨_, _, _, _, _, _, -, hstack, -⟩ := exists_of_attempt? hattempt
    obtain ⟨x', more, rest, hsettles, hwork, hw'⟩ :=
      settles_of_attempt? (hstep.step?_of_stack hstack) hattempt
    obtain rfl := Option.some.inj (hx.symm.trans hsettles.there)
    obtain ⟨rfl, rfl⟩ := List.cons.inj (Option.some.inj (hw.symm.trans hwork))
    obtain ⟨hsnapshot, -⟩ := hsettles.snapshot hy
    have hnot := hsettled _ _ _ rfl
    refine ⟨hsnapshot, hmachine, _, hw', ?_, ?_, fun _ => ?_⟩
    · rw [attempts_concat, hattempt, Instance.ahead_congr hmachine hsnapshot, ← hentry.requests]
      simp [ahead_cons, Phase.requests]
    · intro hmem
      simp at hmem hnot
      exact absurd hmem hnot
    · rw [attempts_concat, hattempt, hsettles.children hy, hentry.children hnot,
        List.filterMap_append, List.append_assoc]
      cases hstored : t.stored? <;> simp [hstored]

end Configuration

/-! ### The start of an instance -/

/-- An instance whose start is still in its mail: it comes first, and only once, the instance has
no children, and nothing is left of its work. -/
structure Instance.Awaits (x : Instance κ) (w : Option (List (Phase κ))) : Prop where
  first : ∃ rest, x.mailbox = .start :: rest ∧ .start ∉ rest
  children : x.children = .empty
  rests : ∀ p ps, w ≠ some (p :: ps)

/-- An instance with nothing left of its work keeps its children. -/
theorem Turn.children_of_rested {i : Nat} {r r' : Engine κ} {x y : Instance κ}
    {w w' : Option (List (Phase κ))} (h : Turn i r r' x w y w')
    (hrests : ∀ p ps, w ≠ some (p :: ps)) (hy : y.isRunning = true) :
  y.children = x.children
  := by
  cases h with
  | stopChildren | spawn => exact absurd rfl (hrests _ _)
  | halt => cases hy
  | _ => rfl

namespace Configuration

variable {H : Host κ π σ} {cs before inner : List (Configuration κ π σ)}
  {a b c d : Configuration κ π σ} {i : Nat} {x y : Instance κ} {t : Attempt κ} {e : Envelope}

/-- The start is posted to an instance that was never started. -/
theorem status_of_postedTo_start (hposted : (signal H c).postedTo i = some .start)
    (hx : c.engine.get? i = some x) :
  x.status = .notStarted
  := by
  obtain ⟨sender, hposted⟩ := posted_of_postedTo hposted
  have hsignals := signals H c
  generalize signal H c = s at hposted hsignals
  cases hsignals with
  | start _ hz hnot | startAt _ hz hnot | startWith _ hz hnot =>
    cases hposted
    obtain rfl := Option.some.inj (hx.symm.trans hz)
    exact hnot
  | invoke =>
    cases hposted
    exact absurd (Engine.lt_next_of_get? hx) (Nat.lt_irrefl _)
  | _ => cases hposted

/-- Nothing is left of the work of an instance that takes nothing, if nothing was left before. -/
theorem Run.rests_after (h : Run H cs c) (hstep : Evolves H c d) (hx : c.engine.get? i = some x)
    (hy : d.engine.get? i = some y) (htaken : (signal H c).takenBy i = none)
    (hrests : ∀ p ps, workOf i c.stack ≠ some (p :: ps)) (p : Phase κ) (ps : List (Phase κ)) :
  workOf i d.stack ≠ some (p :: ps)
  := by
  intro hw'
  obtain ⟨mid, hgoes⟩ := h.goes hstep
  have hturn := hgoes.turn hx (hgoes.releases.get?_of_get? hy)
  cases hw : workOf i c.stack with
  | none =>
    rw [hw, hw'] at hturn
    cases hturn with
    | keep hcases => obtain hcases | ⟨-, hcases⟩ | ⟨-, hcases⟩ := hcases <;> cases hcases
    | drop _ hcases => cases hcases
    | halt hcases => obtain hcases | ⟨_, _, hcases, -⟩ := hcases <;> cases hcases
  | some qs =>
    cases qs with
    | cons q qs => exact hrests q qs hw
    | nil => exact h.not_begins hstep hx htaken hw p ps hw'

/-- An instance that runs, and has its start in its mail, has yet to handle it. -/
theorem Run.awaits (h : Run H cs c) (hx : c.engine.get? i = some x) (hrunning : x.isRunning = true)
    (hstart : .start ∈ x.mailbox) :
  x.Awaits (workOf i c.stack)
  := by
  induction h generalizing x with
  | start memory => simp [idle] at hx
  | @next cs c d hrun hstep ih =>
    obtain ⟨mid, hgoes⟩ := hrun.goes hstep
    have hmid := hgoes.releases.get?_of_get? hx
    obtain ⟨z, hz⟩ | ⟨-, harrives⟩ := hgoes.arrives hmid
    case inr =>
      generalize workOf i d.stack = w at harrives
      cases harrives with
      | created => cases hrunning
      | spawned => exact ⟨⟨[], rfl, List.not_mem_nil⟩, rfl, by simp⟩
    have hturn := hgoes.turn hz hmid
    have hmail := hrun.mailbox_eq hstep hz hx (Instance.status_ne_stopped hrunning)
    by_cases hnot : z.status = .notStarted
    · -- This is the step that posts the start.
      have hempty := (hrun.started.mail i z hz hnot).1
      have htaken : (signal H c).takenBy i = none := by
        by_contra htaken
        obtain ⟨e, htaken⟩ := Option.ne_none_iff_exists'.mp htaken
        exact not_begun (.inr ⟨z, hz, hnot⟩) (hrun.begun_of_takenBy hstep htaken)
      have hposted := hgoes.move.posted_of_started hz hnot hmid hrunning
      have hrests : ∀ p ps, workOf i c.stack ≠ some (p :: ps) := by
        simp [hrun.workOf_of_notStarted hz hnot]
      have hchildren := (hrun.empty_of_notStarted hz hnot).1
      refine ⟨⟨[], ?_, List.not_mem_nil⟩,
        (hturn.children_of_rested hrests hrunning).trans hchildren,
        hrun.rests_after hstep hz hx htaken hrests⟩
      rw [htaken, hempty] at hmail
      simpa [Signal.postedTo, hposted] using hmail.symm
    · have hzruns := hturn.isRunning hrunning hnot
      have hposted : .start ∉ ((signal H c).postedTo i).toList := by
        intro hposted
        exact hnot (status_of_postedTo_start (Option.mem_toList.mp hposted) hz)
      have hold : .start ∈ z.mailbox := by
        have hmem : .start ∈ z.mailbox ++ ((signal H c).postedTo i).toList := by
          rw [hmail]
          exact List.mem_append_right _ hstart
        exact (List.mem_append.mp hmem).resolve_right hposted
      obtain ⟨⟨rest, hrest, honce⟩, hchildren, hrests⟩ := ih hz hzruns hold
      rw [hrest] at hmail
      cases htaken : (signal H c).takenBy i with
      | some e =>
        -- Whatever is left was not the start.
        rw [htaken, Option.toList_some, List.cons_append, List.singleton_append] at hmail
        rw [← (List.cons.inj hmail).2, List.mem_append] at hstart
        exact absurd hstart (not_or.mpr ⟨honce, hposted⟩)
      | none =>
        rw [htaken, Option.toList_none, List.nil_append] at hmail
        refine ⟨⟨rest ++ ((signal H c).postedTo i).toList, hmail.symm, ?_⟩,
          (hturn.children_of_rested hrests hrunning).trans hchildren,
          hrun.rests_after hstep hz hx htaken hrests⟩
        rw [List.mem_append, not_or]
        exact ⟨honce, hposted⟩

/-! ### The entry in a step -/

/-- An instance that takes an envelope enters a state: it is started, or it comes to another
value. -/
def Entering (e : Envelope) (x y : Instance κ) : Prop :=
  e = .start ∨ (x.snapshot.value == y.snapshot.value) = false

/-- The requests of an instance that has taken an envelope, and the children that it keeps: when it
enters a state, these are the requests of the state and none, and otherwise it is the other way
round. -/
inductive Dues (e : Envelope) (x y : Instance κ) : List (String × Nat) → List (Request κ) → Prop
    where
  | entering : Entering e x y → Dues e x y [] y.requests
  | staying : ¬Entering e x y → Dues e x y x.children.entries []

theorem Dues.congr {z : Instance κ} {old : List (String × Nat)} {qs : List (Request κ)}
    (h : Dues e x y old qs) (hmachine : z.machine = y.machine)
    (hsnapshot : z.snapshot = y.snapshot) :
  Dues e x z old qs
  := by
  cases h with
  | entering h =>
    rw [← Instance.requests_congr hmachine hsnapshot]
    refine .entering ?_
    rwa [Entering, hsnapshot]
  | staying h =>
    refine .staying ?_
    rwa [Entering, hsnapshot]

/-- An instance that takes an envelope has its dues before it. -/
theorem Run.entry_of_taken (h : Run H cs a) (hstep : Evolves H a d)
    (hx : a.engine.get? i = some x) (htaken : (signal H a).takenBy i = some e)
    (hy : d.engine.get? i = some y) (hrunning : y.isRunning = true) :
  ∃ old qs ps, Dues e x y old qs ∧ workOf i d.stack = some ps ∧ Entry H i old qs [] y ps
  := by
  obtain ⟨mid, hgoes⟩ := h.goes hstep
  have hturn := hgoes.turn hx (hgoes.releases.get?_of_get? hy)
  obtain ⟨reply, o, below, -, hstack⟩ := exists_of_takenBy htaken
  have hw : workOf i a.stack = some [] := by rw [hstack, workOf_working_self]
  have hrests : ∀ p ps, workOf i a.stack ≠ some (p :: ps) := by
    rw [hw]
    exact fun _ _ heq => List.cons_ne_nil _ _ (Option.some.inj heq).symm
  have hruns := h.isRunning_of_workOf hx (by simp [hw])
    (hturn.status_ne_stopped (Instance.status_ne_stopped hrunning))
  have hchildren := hturn.children_of_rested hrests hrunning
  have htaken' := taken_of_takenBy htaken
  -- An envelope that leads to nothing is not the start, and leaves the value.
  have hnothing (hne : e ≠ .start) (hsnapshot : y.snapshot = x.snapshot)
      (hw' : workOf i d.stack = some []) : ∃ old qs ps, Dues e x y old qs
        ∧ workOf i d.stack = some ps ∧ Entry H i old qs [] y ps := by
    refine ⟨_, _, [], .staying ?_, hw', rfl, fun hmem => absurd hmem List.not_mem_nil, fun _ => ?_⟩
    · rw [Entering, hsnapshot, (h.valid.1 i x hx).beq_self]
      exact not_or.mpr ⟨hne, Bool.noConfusion⟩
    · rw [hchildren]
      exact (List.append_nil _).symm
  have hstart : x.resolution .start = .begin := by simp [Instance.resolution, hruns]
  obtain ⟨hignore, hbegin, hattempt⟩ := hgoes.of_taken h.valid.1 htaken' hx hy
  cases hres : x.resolution e with
  | ignore =>
    obtain ⟨hsnapshot, hw'⟩ := hignore hres
    refine hnothing ?_ hsnapshot hw'
    rintro rfl
    cases hstart.symm.trans hres
  | begin =>
    obtain ⟨hsnapshot, hw'⟩ := hbegin hres
    obtain rfl := Instance.eq_start_of_resolution hres
    obtain ⟨x', more, _, _, hx', hmail, -⟩ := step?_of_taken htaken'
    obtain rfl := Option.some.inj (hx.symm.trans hx')
    have hawaits := h.awaits hx hruns (hmail ▸ List.mem_cons_self)
    refine ⟨_, _, _, .entering (.inl rfl), hw', ?_, by simp [Instance.startPhases], fun _ => ?_⟩
    · exact ahead_startPhases y x
    · rw [hchildren, hawaits.children]
      rfl
  | attempt event rearm found =>
    have hne : e ≠ .start := by
      rintro rfl
      cases hstart.symm.trans hres
    obtain ⟨next, hfound, -⟩ := (h.valid.1 i x hx).finds_resolution hres
    cases next with
    | none =>
      obtain ⟨hsnapshot, hw'⟩ :=
        of_taken_nothing htaken' (hstep.step?_of_stack hstack) hx hres hfound hy
      exact hnothing hne hsnapshot hw'
    | some s =>
      obtain ⟨rfl, hw'⟩ := hattempt event rearm found s hres hfound
      cases hvalue : x.snapshot.value == y.snapshot.value with
      | true =>
        refine ⟨_, _, _, .staying ?_, hw', ?_, ?_, fun _ => ?_⟩
        · rw [Entering, hvalue]
          exact not_or.mpr ⟨hne, Bool.noConfusion⟩
        · rw [ahead_transitionPhases, hvalue]
          rfl
        · rw [stopChildren_mem_transitionPhases, hvalue]
          exact Bool.noConfusion
        · rw [hchildren]
          exact (List.append_nil _).symm
      | false =>
        refine ⟨_, _, _, .entering (.inr hvalue), hw', ?_, fun _ => ⟨rfl, rfl⟩, fun hnot => ?_⟩
        · rw [ahead_transitionPhases, hvalue]
          rfl
        · exact absurd (stopChildren_mem_transitionPhases.mpr hvalue) hnot

/-- The dues of an instance have different identifiers. -/
theorem Dues.distinct {old : List (String × Nat)} {qs : List (Request κ)} (h : Dues e x y old qs)
    (hchildren : x.children.Distinct) (hy : y.Valid) :
  (old.map Prod.fst ++ qs.map fun q => q.invocation.id).Nodup
  := by
  cases h with
  | entering => exact hy.distinct_requests
  | staying =>
    rw [List.map_nil, List.append_nil]
    exact hchildren

/-- How far an instance has come, while it is at work on an envelope. -/
theorem Run.entry (h : Run H (before ++ a :: inner) c) (hx : a.engine.get? i = some x)
    (htaken : (signal H a).takenBy i = some e) (hworking : ∀ b ∈ inner, IsWorking i b)
    (hy : c.engine.get? i = some y) (hrunning : y.isRunning = true) :
  ∃ old qs ps, Dues e x y old qs ∧ workOf i c.stack = some ps ∧ Entry H i old qs inner y ps
  := by
  have hsince := h.after (p := fun inner c => c.engine.Begun i
    ∧ ((∀ b ∈ inner, IsWorking i b) → ∀ y, c.engine.get? i = some y → y.isRunning = true →
      ∃ old qs ps, Dues e x y old qs ∧ workOf i c.stack = some ps ∧ Entry H i old qs inner y ps))
    ?_ ?_
  · exact hsince.2 hworking y hy hrunning
  · intro d hrun hstep
    obtain ⟨mid, hgoes⟩ := hrun.goes hstep
    refine ⟨hgoes.begun (hrun.begun_of_takenBy hstep htaken), fun _ y hy hrunning => ?_⟩
    exact hrun.entry_of_taken hstep hx htaken hy hrunning
  · rintro inner c d hrun hstep ⟨hbegun, ih⟩
    obtain ⟨mid, hgoes⟩ := hrun.goes hstep
    refine ⟨hgoes.begun hbegun, fun hworking y hy hrunning => ?_⟩
    obtain ⟨hpassed, hlast⟩ := List.forall_mem_append.mp hworking
    obtain ⟨z, hz, hzrunning, -⟩ := hgoes.runs hbegun hy hrunning
    obtain ⟨old, qs, ps, hdues, hw, hentry⟩ := ih hpassed z hz hzrunning
    obtain ⟨q, rest, hq⟩ := hlast c (List.mem_singleton_self c)
    obtain rfl := Option.some.inj (hw.symm.trans hq)
    have hdistinct := (hrun.of_append.distinct_children hx)
    obtain ⟨hsnapshot, hmachine, ps', hw', hentry'⟩ := hrun.entry_next hstep hz hw hzrunning hy
      hrunning hentry (hdues.distinct hdistinct (hrun.valid.1 i z hz))
    exact ⟨old, qs, ps', hdues.congr hmachine hsnapshot, hw', hentry'⟩

end Configuration

/-! ### Mail and children -/

/-- Nothing is posted when an envelope is taken. -/
theorem Move.posted_of_taken {s : Signal κ} {r r' : Engine κ} {st st' : List (Frame κ π)}
    (hmove : Move s r st r' st') {i : Nat} {e : Envelope} (htaken : s.taken = some (i, e)) :
  s.posted = none
  := by
  cases hmove with
  | ignore | stumble | begin | commit => rfl
  | _ => cases htaken

namespace Configuration

variable {H : Host κ π σ} {cs before inner : List (Configuration κ π σ)}
  {a b c d : Configuration κ π σ} {i j : Nat} {x y : Instance κ} {t : Attempt κ} {e : Envelope}

/-- An instance at work takes nothing. -/
theorem IsWorking.takenBy_eq_none (h : IsWorking i c) :
  (signal H c).takenBy i = none
  := by
  by_contra htaken
  obtain ⟨e, htaken⟩ := Option.ne_none_iff_exists'.mp htaken
  obtain ⟨reply, o, below, -, hstack⟩ := exists_of_takenBy htaken
  obtain ⟨p, ps, hw⟩ := h
  rw [hstack, workOf_working_self] at hw
  cases hw

/-- While an instance is at work on an envelope, its mail grows by what is posted to it. -/
theorem Run.mailbox_of_working (h : Run H (before ++ a :: inner) c)
    (hx : a.engine.get? i = some x) (htaken : (signal H a).takenBy i = some e)
    (hworking : ∀ b ∈ inner, IsWorking i b) (hy : c.engine.get? i = some y)
    (hrunning : y.isRunning = true) :
  y.mailbox = x.mailbox.tail ++ posts H i inner
  := by
  have hafter := h.after (p := fun inner c => c.engine.Begun i
    ∧ ((∀ b ∈ inner, IsWorking i b) → ∀ y, c.engine.get? i = some y → y.isRunning = true →
      y.mailbox = x.mailbox.tail ++ posts H i inner)) ?_ ?_
  · exact hafter.2 hworking y hy hrunning
  · intro d hrun hstep
    obtain ⟨mid, hgoes⟩ := hrun.goes hstep
    refine ⟨hgoes.begun (hrun.begun_of_takenBy hstep htaken), fun _ y hy hrunning => ?_⟩
    have hmail := hrun.mailbox_eq hstep hx hy (Instance.status_ne_stopped hrunning)
    rw [Signal.postedTo, hgoes.move.posted_of_taken (taken_of_takenBy htaken), htaken] at hmail
    rw [show x.mailbox = e :: y.mailbox by simpa using hmail]
    exact (List.append_nil _).symm
  · rintro inner c d hrun hstep ⟨hbegun, ih⟩
    obtain ⟨mid, hgoes⟩ := hrun.goes hstep
    refine ⟨hgoes.begun hbegun, fun hworking y hy hrunning => ?_⟩
    obtain ⟨hpassed, hlast⟩ := List.forall_mem_append.mp hworking
    obtain ⟨z, hz, hzrunning, -⟩ := hgoes.runs hbegun hy hrunning
    have hnone := (hlast c (List.mem_singleton_self c)).takenBy_eq_none (H := H)
    rw [hrun.mailbox_next hstep hz hy (Instance.status_ne_stopped hrunning) hnone,
      ih hpassed z hz hzrunning, posts, posts, filterMap_concat, List.append_assoc]

theorem Invoked.mono {cs' : List (Configuration κ π σ)} (h : Invoked cs i j) (hsub : cs ⊆ cs') :
  Invoked cs' i j
  := by
  obtain ⟨d, hd, hj⟩ := h
  exact ⟨d, hsub hd, hj⟩

/-- A child that has come since a configuration comes from an attempt. -/
theorem Run.invoked_since (h : Run H (before ++ a :: inner) b)
    (hj : Invoked (before ++ a :: inner ++ [b]) i j) :
  Invoked (before ++ [a]) i j
    ∨ ∃ id, (id, j) ∈ (attempts H i (a :: inner)).filterMap Attempt.stored?
  := by
  refine h.since (p := fun passed c => Invoked (before ++ passed ++ [c]) i j →
    Invoked (before ++ [a]) i j
      ∨ ∃ id, (id, j) ∈ (attempts H i passed).filterMap Attempt.stored?) ?_ ?_ hj
  · rw [List.append_nil]
    exact .inl
  · rintro passed c d hrun hstep ih hj
    have hlast : Invoked (before ++ passed ++ [c]) i j → Invoked (before ++ [a]) i j
        ∨ ∃ id, (id, j) ∈ (attempts H i (passed ++ [c])).filterMap Attempt.stored? := by
      intro hj
      refine (ih hj).imp_right fun ⟨id, hid⟩ => ⟨id, ?_⟩
      rw [attempts_concat, List.filterMap_append]
      exact List.mem_append_left _ hid
    rw [← List.append_assoc] at hj
    obtain ⟨b, hb, hthere⟩ := hj
    obtain hb | hb := List.mem_append.mp hb
    · exact hlast ⟨b, hb, hthere⟩
    · obtain hold | ⟨t, id, ht, hstored⟩ := hrun.invoked_next hstep ⟨b, hb, hthere⟩
      · exact hlast (hold.mono (List.subset_append_right _ _))
      · refine .inr ⟨id, ?_⟩
        rw [attempts_concat, List.filterMap_append, ht]
        exact List.mem_append_right _ (by simp [hstored])

/-- When an instance makes an attempt, in its work on an envelope, all children that it had before
are stopped. -/
theorem Run.ceased_of_attempt? (h : Run H (before ++ a :: inner) c)
    (hx : a.engine.get? i = some x) (htaken : (signal H a).takenBy i = some e)
    (hworking : ∀ b ∈ inner, IsWorking i b) (hattempt : attempt? H i c = some t)
    (hj : Invoked (before ++ [a]) i j) :
  Ceased (before ++ a :: inner) c j
  := by
  obtain ⟨reply, o, more, rest, below, z, hcontrol, hstack, hz, hrunning, -⟩ :=
    exists_of_attempt? hattempt
  obtain ⟨old, qs, ps, hdues, hw, hentry⟩ := h.entry hx htaken hworking hz hrunning
  rw [hstack, workOf_working_self] at hw
  obtain rfl := Option.some.inj hw
  have hchildren := hentry.children ((h.tidy hz).settled_of_invoke (by
    rw [hstack, workOf_working_self]))
  refine h.ceased (h.stoppedIn_of_invoked (hj.mono (by simp)) (.inr ⟨z, hz, fun hmem => ?_⟩))
  cases hdues with
  | staying =>
    have hrequests := hentry.requests
    simp [ahead_cons, Phase.requests] at hrequests
  | entering =>
    -- What is stored has come from an attempt, with a later number.
    rw [OrderedMap.values, hchildren, List.nil_append] at hmem
    obtain ⟨⟨id, k⟩, hk, rfl⟩ := List.mem_map.mp hmem
    obtain ⟨t', ht', hstored⟩ := List.mem_filterMap.mp hk
    obtain ⟨heq, -⟩ := Attempt.stored?_eq_some hstored
    obtain ⟨b, hb, hattempt'⟩ := List.mem_filterMap.mp ht'
    obtain ⟨_, _, _, _, _, _, -, -, -, -, -, hchild, -⟩ := exists_of_attempt? hattempt'
    have hlt : k < a.engine.instances.next := by
      obtain ⟨d, hd, y, _, hy, -⟩ := hj
      have hlt := Engine.lt_next_of_get? hy
      obtain hd | hd := List.mem_append.mp hd
      · exact Nat.lt_of_lt_of_le hlt (h.of_append.later hd).1
      · obtain rfl := List.mem_singleton.mp hd
        exact hlt
    have hle : a.engine.instances.next ≤ b.engine.instances.next := by
      obtain ⟨pre, post, rfl⟩ := List.append_of_mem hb
      rw [← List.cons_append, ← List.append_assoc] at h
      exact (h.of_append.later (by simp)).1
    rw [(Prod.mk.inj heq).2, hchild] at hlt
    exact absurd hlt (Nat.not_lt.mpr hle)

/-- While an instance is at work on an envelope, it keeps its snapshot. -/
theorem Run.snapshot_of_working (h : Run H (before ++ a :: inner) b)
    (hworking : ∀ c ∈ a :: inner, IsWorking i c) (hx : a.engine.get? i = some x)
    (hbegun : x.isRunning = true) (hy : b.engine.get? i = some y) (hrunning : y.isRunning = true) :
  y.snapshot = x.snapshot
  := by
  have hsince := h.since (p := fun passed b => b.engine.Begun i ∧ ((∀ c ∈ passed, IsWorking i c) →
    ∀ y, b.engine.get? i = some y → y.isRunning = true → y.snapshot = x.snapshot))
    ⟨Engine.begun_of_isRunning hx hbegun, ?_⟩ ?_
  · exact hsince.2 hworking y hy hrunning
  · intro _ y hy _
    obtain rfl := Option.some.inj (hx.symm.trans hy)
    rfl
  · rintro passed c d hrun hstep ⟨hbegun, ih⟩
    obtain ⟨mid, hgoes⟩ := hrun.goes hstep
    refine ⟨hgoes.begun hbegun, fun hworking y hy hrunning => ?_⟩
    obtain ⟨hpassed, hlast⟩ := List.forall_mem_append.mp hworking
    obtain ⟨z, hz, hzrunning, hturn⟩ := hgoes.runs hbegun hy hrunning
    obtain ⟨q, rest, hq⟩ := hlast c (List.mem_singleton_self c)
    rw [hq] at hturn
    exact (hturn.timers_of_working hzrunning hrunning).1.trans (ih hpassed z hz hzrunning)

/-! ### Entering a state -/

/-- The instance `y` has entered its state in the steps `inner` after `a`, up to the end of its
work.  Its requests have been attempted in order, and its children are those of the attempts that
succeeded.  Whenever it makes an attempt, it has the value and the context of the end, and all
children that it had at `a` or before are stopped. -/
structure Entered (H : Host κ π σ) (i : Nat) (before : List (Configuration κ π σ))
    (a : Configuration κ π σ) (inner : List (Configuration κ π σ)) (y : Instance κ) : Prop where
  requests : (attempts H i inner).map Attempt.request = y.requests
  children : y.children.entries = (attempts H i inner).filterMap Attempt.stored?
  settled : ∀ pre c post t, inner = pre ++ c :: post → attempt? H i c = some t →
    (∃ z d, Evolves H c d ∧ t.Settles H i z c d ∧ z.snapshot = y.snapshot)
      ∧ ∀ j, Invoked (before ++ [a]) i j → Ceased (before ++ a :: pre) c j

/-- An instance that has taken an envelope, and goes on running, has entered its state at the end of
its work on it, if it was started or has come to another value.  Otherwise it has attempted nothing
and has the children that it had.  In both cases the reports of failure that it was sent meanwhile
are those of the attempts that failed, the new children are those of the attempts that succeeded,
and what is stored with it runs if the host stops no child. -/
theorem Run.enters (h : Run H (before ++ a :: inner) b) (hx : a.engine.get? i = some x)
    (htaken : (signal H a).takenBy i = some e) (hworking : ∀ c ∈ inner, IsWorking i c)
    (hdone : workOf i b.stack = some []) (hy : b.engine.get? i = some y)
    (hrunning : y.isRunning = true) :
  (Entering e x y → Entered H i before a inner y)
    ∧ (¬Entering e x y → attempts H i inner = [] ∧ y.children = x.children)
    ∧ (y.mailbox = x.mailbox.tail ++ posts H i inner
      ∧ (posts H i inner).filter Envelope.isFailure
        = (attempts H i inner).filterMap Attempt.failure?)
    ∧ (∀ j, Invoked (before ++ a :: inner ++ [b]) i j → Invoked (before ++ [a]) i j
      ∨ ∃ id, (id, j) ∈ (attempts H i inner).filterMap Attempt.stored?)
    ∧ (SparesChildren H (before ++ a :: inner) → ∀ child ∈ y.children.values,
      ∃ z, b.engine.get? child = some z ∧ z.status = .running)
  := by
  obtain ⟨old, qs, ps, hdues, hw, hentry⟩ := h.entry hx htaken hworking hy hrunning
  obtain rfl := Option.some.inj (hdone.symm.trans hw)
  have hrequests := hentry.requests
  have hchildren := hentry.children List.not_mem_nil
  rw [show ahead y [] = [] from rfl, List.append_nil] at hrequests
  refine ⟨fun hentering => ?_, fun hnot => ?_, ⟨?_, filter_posts H i inner⟩, ?_, ?_⟩
  · cases hdues with
    | staying hnot => exact absurd hentering hnot
    | entering =>
      refine ⟨hrequests, hchildren, ?_⟩
      rintro pre c post t rfl hattempt
      obtain ⟨hpre, hpost⟩ := List.forall_mem_append.mp hworking
      rw [← List.cons_append, ← List.append_assoc] at h
      obtain ⟨z, d, hstep, hsettles⟩ := h.settles hattempt
      refine ⟨⟨z, d, hstep, hsettles, ?_⟩, fun j hj => ?_⟩
      · exact (h.snapshot_of_working hpost hsettles.there hsettles.running hy hrunning).symm
      · exact h.of_append.ceased_of_attempt? hx htaken hpre hattempt hj
  · cases hdues with
    | entering hentering => exact absurd hentering hnot
    | staying =>
      have hnone := List.map_eq_nil_iff.mp hrequests
      rw [hnone, List.filterMap_nil, List.append_nil] at hchildren
      exact ⟨hnone, congrArg OrderedMap.mk hchildren⟩
  · exact h.mailbox_of_working hx htaken hworking hy hrunning
  · intro j hj
    obtain hold | ⟨id, hid⟩ := h.invoked_since hj
    · exact .inl hold
    · rw [attempts, List.filterMap_cons, attempt?_of_taken htaken] at hid
      exact .inr ⟨id, hid⟩
  · exact fun hspares child hchild => h.running_of_child hspares hy hchild

/-- The steps in which the guardian handles its first event, after it has taken it. -/
def guardianEntry : List (Configuration Unit (Script Unit) Unit) :=
  (trail guardianHost 25 (guardianRun 13).2).1

/-- The guardian enters its second state: the first child starts and runs, and for the second one a
failure is reported. -/
theorem guardian_enters :
  ∃ y, (guardianRun 38).2.engine.get? 0 = some y
    ∧ Entered guardianHost 0 (guardianRun 12).1 (guardianRun 12).2 guardianEntry y
    ∧ y.children.entries = [("kid", 1)]
    ∧ ((posts guardianHost 0 guardianEntry).filter Envelope.isFailure).map Envelope.words
      = [["bad", "s", noService]]
    ∧ ∃ z, (guardianRun 38).2.engine.get? 1 = some z ∧ z.status = .running
  := by
  have hsplit : (guardianRun 38).1
      = (guardianRun 12).1 ++ (guardianRun 12).2 :: guardianEntry :=
    (played_split 12 25 (by decide +kernel)).1
  have hrun : Run guardianHost (guardianRun 38).1 (guardianRun 38).2 :=
    run_guardianRun (by decide +kernel)
  have hspares : SparesChildren guardianHost (guardianRun 38).1 := by decide +kernel
  rw [hsplit] at hrun hspares
  have htaken : ((signal guardianHost (guardianRun 12).2).takenBy 0).isSome = true := by
    decide +kernel
  obtain ⟨e, htaken⟩ := Option.isSome_iff_exists.mp htaken
  have hbefore : ((guardianRun 12).2.engine.get? 0).map (fun x => x.snapshot.value.leaf?)
      = some (some "o") := by decide +kernel
  have hafter : ((guardianRun 38).2.engine.get? 0).map
      (fun y => (y.isRunning, y.snapshot.value.leaf?, y.children.entries))
      = some (true, some "s", [("kid", 1)]) := by decide +kernel
  obtain ⟨x, hx, hold⟩ := Option.map_eq_some_iff.mp hbefore
  obtain ⟨y, hy, heq⟩ := Option.map_eq_some_iff.mp hafter
  simp only [Prod.mk.injEq] at heq
  obtain ⟨hrunning, hnew, hchildren⟩ := heq
  have hentering : Entering e x y := by
    right
    by_contra hsame
    have hleaf := StateValue.leaf?_eq_of_beq (Bool.not_eq_false _ ▸ hsame)
    rw [hold, hnew] at hleaf
    exact absurd hleaf (by decide)
  obtain ⟨henters, -, -, -, hruns⟩ := hrun.enters hx htaken (by decide +kernel)
    (workOf_eq_nil (by decide +kernel)) hy hrunning
  refine ⟨y, hy, henters hentering, hchildren, by decide +kernel, hruns hspares 1 ?_⟩
  rw [OrderedMap.values, hchildren]
  exact List.mem_cons_self

end Configuration

end Statechart
