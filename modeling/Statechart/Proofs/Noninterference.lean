import Statechart.Proofs.Invocations
import Statechart.Proofs.Sight
import Statechart.Proofs.Simulation

/-!
# Noninterference

Roots on one clock do not interfere.  Whatever else is started, sent to and stopped between the
calls on a root, the root and what descends from it take the same steps at the same times as
without it (`Configuration.Run.noninterference`).
-/

namespace Statechart

variable {κ π σ : Type}

/-- A call on an instance with one of the first `n` numbers, or on the clock. -/
def Call.Within (n : Nat) : Call κ → Prop
  | .start i => i < n
  | .send i _ => i < n
  | .stop i => i < n
  | .advance _ => True
  | _ => False

/-- Whether a call leaves all instances but one alone. -/
def Call.isFor (i : Nat) : Call κ → Bool
  | .start j => j = i
  | .send j _ => j = i
  | .stop j => j = i
  | _ => true

namespace Configuration

variable {H : Host κ π σ} {cs as : List (Configuration κ π σ)} {c c' : Configuration κ π σ}
  {i n : Nat} {x : Instance κ}

/-- Of calls on the first instances, those for one of them are picked out. -/
theorem picked_filter {calls : List (Call κ)} (h : ∀ call ∈ calls, call.Within n) :
  Picked (.ofRoot ⟨i, i, 0⟩ true) n calls (calls.filter (Call.isFor i))
  := by
  induction calls with
  | nil => exact .nil
  | cons call calls ih =>
    have hrest := ih fun call hcall => h call (List.mem_cons_of_mem _ hcall)
    have hwithin := h call List.mem_cons_self
    have hroot : (⟨i, i, 0⟩ : Tie) ∈ (Pairing.ofRoot ⟨i, i, 0⟩ true).ties := List.mem_cons_self
    rw [List.filter_cons]
    cases call with
    | start j =>
      by_cases hj : j = i
      · subst hj
        simpa [Call.isFor] using Picked.both (.start hroot) hrest
      · simpa [Call.isFor, hj] using Picked.skip .start hwithin hj hrest
    | send j event =>
      by_cases hj : j = i
      · subst hj
        simpa [Call.isFor] using Picked.both (.send event hroot) hrest
      · simpa [Call.isFor, hj] using Picked.skip (.send event) hwithin hj hrest
    | stop j =>
      by_cases hj : j = i
      · subst hj
        simpa [Call.isFor] using Picked.both (.stop hroot) hrest
      · simpa [Call.isFor, hj] using Picked.skip .stop hwithin hj hrest
    | advance ms => exact .both (.advance ms) hrest
    | _ => exact hwithin.elim

/-- Before anything is started an instance is its own counterpart. -/
theorem Run.alike_of_fresh (h : Run H cs c) (hfresh : c.engine.Fresh)
    (hx : c.engine.get? i = some x) :
  Engine.Alike (.ofRoot ⟨i, i, 0⟩ true) c.engine c.engine
  := by
  have hempty : ∀ j y, c.engine.get? j = some y → y.children = .empty ∧ y.timers = [] :=
    fun j y hy => h.empty_of_notStarted hy (hfresh.notStarted j y hy)
  have hapart : c.engine.Apart := fun j y hy =>
    ⟨h.parent_of_notStarted hy (hfresh.notStarted j y hy), (hempty j y hy).1⟩
  have hself : x.Alike (.ofRoot ⟨i, i, 0⟩ true) 0 x := by
    obtain ⟨hchildren, htimers⟩ := hempty i x hx
    constructor
    case actions => exact .inl rfl
    case listeners => exact fun _ => rfl
    case parent =>
      rw [(hapart i x hx).1]
      exact .none
    case timers =>
      rw [htimers]
      exact .nil
    case generation => exact (Int.add_zero _).symm
    case children =>
      rw [hchildren]
      exact .nil
    case doneReported => exact .inr rfl
    case mailbox =>
      rw [(h.started.mail i x hx (hfresh.notStarted i x hx)).1]
      exact .nil
    all_goals rfl
  have haccurate := hfresh.blank.accurate h.tasked.ordered
  refine Engine.alike_ofRoot (T := []) hx hx hself ?_ hapart ?_ fun j y hy _ => (hempty j y hy).2
  · constructor
    case left | right => exact haccurate
    case awake | awake' => exact hfresh.awake
    case pair | matched => simp
    case other =>
      intro id u cb hu
      rw [hfresh.timers id] at hu
      cases hu
    case queue =>
      rw [hfresh.queue]
      exact .nil
  · intro j y hy _
    rw [(hempty j y hy).2]
    exact List.forall_mem_nil _

/-- What a root and its descendants do is the same without the calls on others. -/
theorem Run.noninterference (h : Run H cs c) (hidle : c.IsIdle) (hcalm : H.Calm)
    (hpure : H.Pure) {point : π} (hpoint : H.Ends point) (hfresh : c.engine.Fresh)
    (hx : c.engine.get? i = some x) (hheld : H.Holds i) {calls : List (Call κ)}
    (hcalls : ∀ call ∈ calls, call.Within c.engine.instances.next)
    (hperforms : Performs H point c calls as c') :
  ∃ bs d', Performs H point c (calls.filter (Call.isFor i)) bs d'
    ∧ as.filterMap (sight i) = bs.filterMap (sight i)
    ∧ c'.engine.outline i = d'.engine.outline i
    ∧ (c'.IsIdle → d'.IsIdle ∧ c'.engine.timing.now = d'.engine.timing.now)
  := by
  have halike := h.alike_of_fresh hfresh hx
  have horphans : Orphans c.engine.instances.next c :=
    ⟨Nat.le_refl _, fun j y _ hy => h.parent_of_notStarted hy (hfresh.notStarted j y hy)⟩
  obtain ⟨P, _, _, bs, d', hgrows, hperforms', hmatched⟩ := hperforms.matched
    (picked_filter hcalls) hcalm hpoint hheld hheld (.refl _) horphans (.inl hpure) (.inl hpure) h h
    halike fun _ => ⟨halike, rfl, hidle, hidle⟩
  have hseen := hmatched.seen
  have houtline := hmatched.engine.outline_eq
  rw [hgrows.root, hgrows.heeds] at hseen
  rw [hgrows.root] at houtline
  exact ⟨bs, d', hperforms', by simpa [seen, Pairing.ofRoot] using hseen, houtline, fun hidle' =>
    ⟨(hmatched.meets hidle').right, (hmatched.meets hidle').now⟩⟩

/-! ### Two roots on one clock -/

/-- The host of two roots; children are made from `relay`. -/
def neighbourHost : Host Unit (Script Unit) Unit := scripted (fun _ => []) (fun _ => .ok relay) 2

/-- The run in which the roots are made, both with the same pool. -/
def neighbours : List (Configuration Unit (Script Unit) Unit)
    × Configuration Unit (Script Unit) Unit :=
  playedBy neighbourHost guardian [.create relay 0] 6

/-- The first root invokes a child with a delayed transition after fifty milliseconds; the
second one has one after five, and is stopped after that. -/
def neighbourCalls : Script Unit :=
  [.start 0, .start 1, .send 0 (.named "GO"), .send 1 (.named "GO"), .advance 5, .stop 1,
    .advance 45]

/-- The run of both roots. -/
def neighbourRun : List (Configuration Unit (Script Unit) Unit)
    × Configuration Unit (Script Unit) Unit :=
  performed neighbourHost [] 60 neighbours.2 neighbourCalls

theorem run_neighbours :
  Run neighbourHost neighbours.1 neighbours.2
  := by
  have hpool : Run neighbourHost [idle .empty ()] (idle Engine.empty.addPool ()) :=
    .next (.start ()) (.addPool ⟨rfl, .done, rfl⟩)
  have hbegun := hpool.next (.enter ()
    (fun _ s => (.call (.create guardian 0) [.create relay 0], s)) ⟨rfl, .done, rfl⟩)
  apply hbegun.trail 6
  have hmachines : machines neighbourHost (trail neighbourHost 6
      ((idle Engine.empty.addPool ()).enter neighbourHost
        fun _ s => (.call (.create guardian 0) [.create relay 0], s))).1 = [guardian, relay] :=
    rfl
  intro m hm
  obtain rfl | hm := List.mem_cons.mp (hmachines ▸ hm)
  · exact isCompiled_guardian
  · obtain rfl := List.mem_singleton.mp hm
    exact isCompiled_relay

/-- Effects and listeners of the neighbours ask the engine for nothing. -/
theorem calm_neighbourHost :
  neighbourHost.Calm
  where
  execute _ _ _ _ _ _ := rfl
  notify _ _ _ _ := rfl

/-- The machines that are made for the neighbours depend on the arguments alone. -/
theorem pure_neighbourHost :
  neighbourHost.Pure
  where
  build _ _ _ _ _ := rfl
  built _ _ _ _ m h := by
    obtain rfl : relay = m := Except.ok.inj h
    exact isCompiled_relay

/-- The neighbours have just been made, and nothing waits on the clock. -/
theorem fresh_neighbours :
  neighbours.2.engine.Fresh
  where
  notStarted
    | 0, x, hx => by obtain rfl := Option.some.inj hx; rfl
    | 1, x, hx => by obtain rfl := Option.some.inj hx; rfl
    | i + 2, x, hx => nomatch hx
  timers id := rfl
  queue := rfl
  awake
    | 0 => rfl
    | pool + 1 => rfl

/-- The second root takes a delayed transition and is stopped before the child of the first one
takes its own, which it does at the same time as without the second root. -/
theorem neighbours_apart :
  ∃ bs d', Performs neighbourHost [] neighbours.2 (neighbourCalls.filter (Call.isFor 0)) bs d'
    ∧ neighbourRun.1.filterMap (sight 0) = bs.filterMap (sight 0)
    ∧ neighbourRun.2.engine.outline 0 = d'.engine.outline 0
    ∧ (neighbourRun.2.IsIdle → d'.IsIdle
      ∧ neighbourRun.2.engine.timing.now = d'.engine.timing.now)
    ∧ neighbourRun.2.IsIdle
    ∧ 5 ∈ (neighbourRun.1.filterMap (sight 1)).map Sight.time
    ∧ (["kid"], 50) ∈ (neighbourRun.1.filterMap (sight 0)).map fun s => (s.path, s.time)
  := by
  have hperforms : Performs neighbourHost [] neighbours.2 neighbourCalls neighbourRun.1
      neighbourRun.2 := performs_performed (by decide +kernel)
  have hcalls : ∀ call ∈ neighbourCalls, call.Within neighbours.2.engine.instances.next := by
    have hnext : neighbours.2.engine.instances.next = 2 := rfl
    simp [hnext, neighbourCalls, Call.Within]
  obtain ⟨bs, d', hperforms', hseen, houtline, hidle⟩ := run_neighbours.noninterference
    (by decide +kernel) calm_neighbourHost pure_neighbourHost (fun _ _ _ => rfl) fresh_neighbours
    (i := 0) rfl (fun _ => List.mem_range.mpr (by decide)) hcalls hperforms
  exact ⟨bs, d', hperforms', hseen, houtline, hidle, by decide +kernel, by decide +kernel,
    by decide +kernel⟩

end Configuration

end Statechart
