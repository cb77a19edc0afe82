import Statechart.Proofs.Run

/-!
# Scripted hosts

A host whose code makes calls from a list, one after another, whatever the replies.  It
holds on to every instance that it makes itself.
-/

namespace Statechart

variable {κ : Type}

/-- What is left of a script. -/
abbrev Script (κ : Type) : Type := List (Call κ)

/-- The first call of a script. -/
def Script.next : Script κ → Next κ (Script κ)
  | [] => .done
  | call :: rest => .call call rest

/-- The host that plays the script of its code, makes children by `build`, and holds on
to the instances that are numbered below `held`. -/
def scripted (script : κ → Script κ) (build : κ → Except InvokeError (Machine κ))
    (held : Nat) : Host κ (Script κ) Unit where
  execute code _ _ _ _ m := ((script code).next, m)
  notify code _ _ m := ((script code).next, m)
  invoke code _ m := ((script code).next, m)
  resume rest _ _ m := (Script.next rest, m)
  build code _ _ m := (build code, m)
  observe _ m := m
  held _ := List.range held

namespace Configuration

variable {π σ : Type} {H : Host κ π σ}

/-- The configurations that are passed in at most `n` steps, and the one after them. -/
def trail (H : Host κ π σ) : Nat → Configuration κ π σ →
    List (Configuration κ π σ) × Configuration κ π σ
  | 0, c => ([], c)
  | n + 1, c =>
    match step? H c with
    | none => ([], c)
    | some d => (c :: (trail H n d).1, (trail H n d).2)

/-- The machines that are handed over on the way. -/
def machines (H : Host κ π σ) (cs : List (Configuration κ π σ)) : List (Machine κ) :=
  cs.filterMap fun c => (signal H c).handed

/-- A run goes on by steps in which compiled machines are handed over. -/
theorem Run.trail {cs : List (Configuration κ π σ)} {c : Configuration κ π σ}
    (h : Run H cs c) (n : Nat)
    (handed : ∀ m ∈ machines H (trail H n c).1, m.IsCompiled) :
  Run H (cs ++ (trail H n c).1) (trail H n c).2
  := by
  induction n generalizing cs c with
  | zero => simpa [Configuration.trail] using h
  | succ n ih =>
    rw [Configuration.trail] at handed ⊢
    cases hstep : step? H c with
    | none => simpa [hstep] using h
    | some d =>
      simp only [hstep] at handed ⊢
      rw [← List.singleton_append, ← List.append_assoc]
      apply ih
      · apply h.next
        apply Evolves.step _ hstep
        intro m hm
        exact handed m (List.mem_filterMap.mpr ⟨c, List.mem_cons_self, hm⟩)
      · intro m hm
        obtain ⟨b, hb, hbm⟩ := List.mem_filterMap.mp hm
        exact handed m (List.mem_filterMap.mpr ⟨b, List.mem_cons_of_mem _ hb, hbm⟩)

/-- Steps and more steps. -/
theorem trail_add (H : Host κ π σ) (m n : Nat) (c : Configuration κ π σ) :
  trail H (m + n) c
    = ((trail H m c).1 ++ (trail H n (trail H m c).2).1, (trail H n (trail H m c).2).2)
  := by
  induction m generalizing c with
  | zero => simp [trail]
  | succ m ih =>
    rw [Nat.succ_add, trail, trail]
    cases hstep : step? H c with
    | none =>
      cases n with
      | zero => rfl
      | succ n => simp [trail, hstep]
    | some d => simp [ih]

/-- The configurations that are passed after `k` steps and one step more, in `n` further
steps. -/
theorem trail_split {c : Configuration κ π σ} (k n : Nat)
    (h : (step? H (trail H k c).2).isSome = true) :
  trail H (k + (1 + n)) c
    = ((trail H k c).1 ++ (trail H k c).2 :: (trail H n (trail H (k + 1) c).2).1,
      (trail H n (trail H (k + 1) c).2).2)
  := by
  obtain ⟨d, hd⟩ := Option.isSome_iff_exists.mp h
  rw [trail_add, trail_add, trail_add]
  simp [trail, hd]

/-- Whether a call is made that hands over a machine. -/
def hands (c : Configuration κ π σ) : Bool :=
  match c.control with
  | .host (.call (.create _ _) _) => true
  | .host (.call (.interpret _ _) _) => true
  | _ => false

theorem exists_build_of_resolveChild {c : Configuration κ π σ} {x : Instance κ}
    {v : Invocation κ} {context : Context} {m : Machine κ}
    (h : (resolveChild H c x v context).1 = .ok m) :
  ∃ code context memory, (H.build code context .init memory).1 = .ok m
  := by
  rw [resolveChild] at h
  split at h
  · exact ⟨_, _, _, h⟩
  · split at h
    · cases h
    · exact ⟨_, _, _, h⟩

/-- A machine that is handed over without such a call was made for an invocation. -/
theorem exists_build {c : Configuration κ π σ} (hc : c.hands = false) {m : Machine κ}
    (hm : (signal H c).handed = some m) :
  ∃ code context memory, (H.build code context .init memory).1 = .ok m
  := by
  have hsignals := signals H c
  generalize signal H c = s at hm hsignals
  cases hsignals with
  | create hcontrol | interpret hcontrol => simp [hands, hcontrol] at hc
  | invoke _ _ _ _ _ hmachine =>
    obtain rfl := Option.some.inj hm
    exact exists_build_of_resolveChild hmachine
  | _ => cases hm

/-- The run in which calls are made one after another by a host, up to `n` steps. -/
def calledBy (H : Host κ (Script κ) Unit) (calls : Script κ) (n : Nat) :
    List (Configuration κ (Script κ) Unit) × Configuration κ (Script κ) Unit :=
  let begun := (idle .empty ()).enter H fun _ s => (calls.next, s)
  (idle .empty () :: (trail H n begun).1, (trail H n begun).2)

/-- To make calls one after another is a run if no machine is handed over. -/
theorem run_calledBy {H : Host κ (Script κ) Unit} {calls : Script κ} {n : Nat}
    (hnone : (machines H (calledBy H calls n).1.tail).isEmpty = true) :
  Run H (calledBy H calls n).1 (calledBy H calls n).2
  := by
  have hbegun : Run H [idle .empty ()] ((idle .empty ()).enter H fun _ s => (calls.next, s)) :=
    .next (.start ()) (.enter () _ ⟨rfl, .done, rfl⟩)
  refine hbegun.trail n fun m hm => ?_
  rw [List.isEmpty_iff] at hnone
  exact absurd hm (hnone ▸ List.not_mem_nil)

/-- To make calls one after another is a run through the configuration after `k` steps. -/
theorem run_calledBy_since {H : Host κ (Script κ) Unit} {calls : Script κ} {k n : Nat}
    (hnext : (step? H (calledBy H calls k).2).isSome = true)
    (hnone : (machines H (calledBy H calls (k + (1 + n))).1.tail).isEmpty = true) :
  Run H ((calledBy H calls k).1 ++ (calledBy H calls k).2
      :: (trail H n (calledBy H calls (k + 1)).2).1)
    (trail H n (calledBy H calls (k + 1)).2).2
  := by
  have hrun := run_calledBy hnone
  simp only [calledBy] at hrun hnext ⊢
  rwa [trail_split k n hnext] at hrun

/-- The run in which a pool and an instance of a machine are made and calls are made one
after another by a host, up to `n` steps. -/
def playedBy (H : Host κ (Script κ) Unit) (m : Machine κ) (calls : Script κ) (n : Nat) :
    List (Configuration κ (Script κ) Unit) × Configuration κ (Script κ) Unit :=
  let begun := (idle Engine.empty.addPool ()).enter H fun _ s => (.call (.create m 0) calls, s)
  (idle .empty () :: idle Engine.empty.addPool () :: (trail H n begun).1, (trail H n begun).2)

/-- To make calls one after another is a run if only compiled machines are handed over. -/
theorem run_playedBy {H : Host κ (Script κ) Unit} {m : Machine κ} {calls : Script κ} {n : Nat}
    (hm : m.IsCompiled)
    (hbuild : ∀ code context memory m', (H.build code context .init memory).1 = .ok m' →
      m'.IsCompiled)
    (hcalls : ((playedBy H m calls n).1.drop 3).all (fun c => !c.hands) = true) :
  Run H (playedBy H m calls n).1 (playedBy H m calls n).2
  := by
  have hpool : Run H [idle .empty ()] (idle Engine.empty.addPool ()) :=
    .next (.start ()) (.addPool ⟨rfl, .done, rfl⟩)
  have hbegun := hpool.next
    (.enter () (fun _ s => (.call (.create m 0) calls, s)) ⟨rfl, .done, rfl⟩)
  apply hbegun.trail n
  intro m' hm'
  obtain ⟨c, hc, hhanded⟩ := List.mem_filterMap.mp hm'
  cases n with
  | zero => cases hc
  | succ n =>
    simp only [playedBy, trail, List.drop_succ_cons] at hc hcalls
    split at hc
    · cases hc
    · next d hstep =>
      have hbegin : step? H ((idle Engine.empty.addPool ()).enter H
          fun _ s => (.call (.create m 0) calls, s)) = some d := hstep
      simp only [hbegin, List.drop_succ_cons, List.drop_zero] at hcalls
      obtain rfl | hc := List.mem_cons.mp hc
      · obtain rfl := Option.some.inj hhanded
        exact hm
      · have hnot := List.all_eq_true.mp hcalls c hc
        obtain ⟨code, context, memory, hok⟩ := exists_build (by simpa using hnot) hhanded
        exact hbuild code context memory m' hok

/-- The configurations that are passed after `k` steps and one step more, in `n` further
steps. -/
theorem playedBy_split {H : Host κ (Script κ) Unit} {m : Machine κ} {calls : Script κ} (k n : Nat)
    (h : (step? H (playedBy H m calls k).2).isSome = true) :
  (playedBy H m calls (k + (1 + n))).1
      = (playedBy H m calls k).1 ++ (playedBy H m calls k).2
          :: (trail H n (playedBy H m calls (k + 1)).2).1
    ∧ (playedBy H m calls (k + (1 + n))).2 = (trail H n (playedBy H m calls (k + 1)).2).2
  := by
  simp only [playedBy] at h ⊢
  rw [trail_split k n h]
  exact ⟨rfl, rfl⟩

/-- The configurations that are passed after the first `k` steps and one step more, in `n`
further steps. -/
def playedSince (H : Host κ (Script κ) Unit) (m : Machine κ) (calls : Script κ) (k n : Nat) :
    List (Configuration κ (Script κ) Unit) :=
  (trail H n (playedBy H m calls (k + 1)).2).1

/-- To make calls one after another is a run through the configuration after `k` steps. -/
theorem run_playedSince {H : Host κ (Script κ) Unit} {m : Machine κ} {calls : Script κ}
    {k n j : Nat} (hj : k + (1 + n) = j) (hm : m.IsCompiled)
    (hbuild : ∀ code context memory m', (H.build code context .init memory).1 = .ok m' →
      m'.IsCompiled)
    (hnext : (step? H (playedBy H m calls k).2).isSome = true)
    (hcalls : ((playedBy H m calls j).1.drop 3).all (fun c => !c.hands) = true) :
  Run H ((playedBy H m calls k).1 ++ (playedBy H m calls k).2 :: playedSince H m calls k n)
    (playedBy H m calls j).2
  := by
  subst hj
  rw [playedSince, ← (playedBy_split k n hnext).1]
  exact run_playedBy hm hbuild hcalls

/-- The run of a scripted host in which a pool and an instance of a machine are made and calls
are made one after another, up to `n` steps. -/
def played (script : κ → Script κ) (build : κ → Except InvokeError (Machine κ)) (held : Nat)
    (m : Machine κ) (calls : Script κ) (n : Nat) :
    List (Configuration κ (Script κ) Unit) × Configuration κ (Script κ) Unit :=
  playedBy (scripted script build held) m calls n

section

variable {script : κ → Script κ} {build : κ → Except InvokeError (Machine κ)} {held : Nat}
  {m : Machine κ} {calls : Script κ}

/-- To make calls one after another is a run if only compiled machines are handed over. -/
theorem run_played {n : Nat} (hm : m.IsCompiled)
    (hbuild : ∀ code m', build code = .ok m' → m'.IsCompiled)
    (hcalls : ((played script build held m calls n).1.drop 3).all (fun c => !c.hands) = true) :
  Run (scripted script build held) (played script build held m calls n).1
    (played script build held m calls n).2
  := run_playedBy hm (fun code _ _ m' hok => hbuild code m' hok) hcalls

/-- The configurations that are passed after `k` steps and one step more, in `n` further
steps. -/
theorem played_split (k n : Nat)
    (h : (step? (scripted script build held) (played script build held m calls k).2).isSome
      = true) :
  (played script build held m calls (k + (1 + n))).1
      = (played script build held m calls k).1 ++ (played script build held m calls k).2
          :: (trail (scripted script build held) n
              (played script build held m calls (k + 1)).2).1
    ∧ (played script build held m calls (k + (1 + n))).2
      = (trail (scripted script build held) n (played script build held m calls (k + 1)).2).2
  := playedBy_split k n h

end

end Configuration

/-! ### An example -/

/-- Two states; the key of the delay `1_5` of the first is that of the delay `5` of the
second. -/
def relayDescriptor : MachineDescriptor Unit where
  id := some "relay"
  initial := some "a"
  kind := .atomic
  context := .empty
  metadata := none
  states := ⟨[
    ("a", { StateDescriptor.empty with
      on := ⟨[("GO", [.ofTarget "a_1"])]⟩
      after := ⟨[("1_5", [.ofTarget "late"])]⟩ }),
    ("a_1", { StateDescriptor.empty with
      on := ⟨[("BACK", [.ofTarget "a"])]⟩
      after := ⟨[("5", [.ofTarget "done"])]⟩ }),
    ("done", .empty),
    ("late", .empty)]⟩

/-- The delay `1_5` is fifty milliseconds. -/
def relayBundle : Bundle Unit := Bundle.empty.withDelay "1_5" ⟨"1_5", fun _ _ _ => 50⟩

/-- The machine of `relayDescriptor`. -/
def relay : Machine Unit where
  id := some "relay"
  metadata := none
  context := .empty
  topology := .flat
    { owner := "relay"
      region := none
      initial := "a"
      nodes := ⟨[
        ("a", ⟨"a", .atomic, ⟨[("GO", [⟨some "a_1", [], none⟩])]⟩, [], [],
          [⟨"1_5", .ruled ⟨"1_5", fun _ _ _ => 50⟩, [⟨some "late", [], none⟩]⟩], [], none⟩),
        ("a_1", ⟨"a_1", .atomic, ⟨[("BACK", [⟨some "a", [], none⟩])]⟩, [], [],
          [⟨"5", .fixed 5, [⟨some "done", [], none⟩]⟩], [], none⟩),
        ("done", ⟨"done", .atomic, .empty, [], [], [], [], none⟩),
        ("late", ⟨"late", .atomic, .empty, [], [], [], [], none⟩)]⟩ }
  initial := ⟨.leaf "a", .empty, none, [], false, false⟩
  services := .empty

theorem keyed_relayDescriptor :
  relayDescriptor.Keyed
  := MachineDescriptor.keyed_of_shallow (by decide) (by decide)

theorem compile_relayDescriptor :
  (Machine.compile relayDescriptor relayBundle).value = .ok relay
  := rfl

theorem isCompiled_relay :
  relay.IsCompiled
  := ⟨relayDescriptor, relayBundle, keyed_relayDescriptor, compile_relayDescriptor⟩

end Statechart
