import Statechart.Proofs.Delays
import Statechart.Proofs.Impulse

/-!
# Interpreters of registries

A registry finds the interpreter of a machine under the identifier of the machine, and keeps it
until the identifier is forgotten.  So it hands out an interpreter that runs the machine for which
the identifier was interpreted first since then (`Configuration.Run.interprets`).
-/

namespace Statechart

variable {κ π σ : Type}

namespace Engine

variable {r r' r'' : Engine κ} {registry i : Nat} {id : String} {first : Option (Machine κ)}

/-- The instance that a registry has under an identifier. -/
def interpreter? (r : Engine κ) (registry : Nat) (id : String) : Option Nat :=
  (r.registries.get? registry).bind fun reg => reg.instances.get? id

theorem mem_registered (h : r.interpreter? registry id = some i) :
  i ∈ r.registered
  := by
  obtain ⟨reg, hreg, hi⟩ := Option.bind_eq_some_iff.mp h
  refine List.mem_flatMap.mpr ⟨registry, ?_, ?_⟩
  · exact List.mem_filter.mpr
      ⟨List.mem_range.mpr (Table.lt_next_of_get? hreg), by rw [hreg]; rfl⟩
  · rw [hreg]
    exact OrderedMap.mem_values_of_get? hi

/-! ### What registries keep -/

/-- Registries are left alone, and the instances in them stay with their machines. -/
structure Houses (r r' : Engine κ) : Prop where
  registries : r'.registries = r.registries
  instances : ∀ {i x}, i ∈ r.registered → r.get? i = some x →
    ∃ y, r'.get? i = some y ∧ y.machine = x.machine

namespace Houses

/-- The same instances are registered. -/
theorem registered_eq (h : r.Houses r') :
  r'.registered = r.registered
  := by
  rw [registered, h.registries, registered]

/-- What is kept on two stretches is kept on both together. -/
theorem trans (h : r.Houses r') (h' : r'.Houses r'') :
  r.Houses r''
  where
  registries := h'.registries.trans h.registries
  instances hi hx := by
    obtain ⟨y, hy, hmachine⟩ := h.instances hi hx
    obtain ⟨z, hz, hmachine'⟩ := h'.instances (h.registered_eq ▸ hi) hy
    exact ⟨z, hz, hmachine'.trans hmachine⟩

/-- Where instances stay, those of registries do. -/
theorem of_get? (hregistries : r'.registries = r.registries)
    (h : ∀ i x, r.get? i = some x → r'.get? i = some x) :
  r.Houses r'
  := ⟨hregistries, fun _ hx => ⟨_, h _ _ hx, rfl⟩⟩

/-- A change that keeps the machine of an instance keeps what registries have. -/
theorem modify (r : Engine κ) (i : Nat) {f : Instance κ → Instance κ}
    (hf : ∀ x, r.get? i = some x → (f x).machine = x.machine) :
  r.Houses (r.modify i f)
  where
  registries := rfl
  instances {j x} _ hx := by
    rw [get?_modify, hx]
    split
    · next hj => exact ⟨f x, rfl, hf x (hj ▸ hx)⟩
    · exact ⟨x, rfl, rfl⟩

end Houses

/-- A registry has an instance of the machine `first` under an identifier, or none if there is no
such machine. -/
structure Coherent (registry : Nat) (id : String) (r : Engine κ) (first : Option (Machine κ)) :
    Prop where
  absent : r.interpreter? registry id = none → first = none
  there : ∀ {i}, r.interpreter? registry id = some i →
    ∃ y, r.get? i = some y ∧ first = some y.machine

namespace Coherent

/-- The entry stays, and its instance stays with its machine. -/
theorem mono (h : Coherent registry id r first)
    (hsame : r'.interpreter? registry id = r.interpreter? registry id)
    (hthere : ∀ {i x}, i ∈ r.registered → r.get? i = some x →
      ∃ y, r'.get? i = some y ∧ y.machine = x.machine) :
  Coherent registry id r' first
  where
  absent hnone := h.absent (hsame ▸ hnone)
  there hi := by
    rw [hsame] at hi
    obtain ⟨x, hx, hfirst⟩ := h.there hi
    obtain ⟨y, hy, hmachine⟩ := hthere (mem_registered hi) hx
    exact ⟨y, hy, hmachine ▸ hfirst⟩

/-- What is kept for registries keeps them coherent. -/
theorem houses (h : Coherent registry id r first) (hhouses : r.Houses r') :
  Coherent registry id r' first
  := by
  refine h.mono ?_ hhouses.instances
  rw [interpreter?, hhouses.registries, interpreter?]

end Coherent

/-! ### What is done with registries -/

/-- What is looked up in a registry after one was changed. -/
theorem interpreter?_modifyRegistry (r : Engine κ) (j : Nat) (f : Registry κ → Registry κ)
    (registry : Nat) (id : String) :
  (r.modifyRegistry j f).interpreter? registry id
    = (r.registries.get? registry).bind fun reg =>
      (if j = registry then f reg else reg).instances.get? id
  := by
  rw [interpreter?, modifyRegistry, Table.get?_modify]
  split
  · rw [Option.bind_map]
    rfl
  · rfl

/-- Nothing is found under what was cleared. -/
theorem interpreter?_clear (r : Engine κ) (j : Nat) (which : Option String) (registry : Nat)
    (id : String) :
  (r.clear j which).interpreter? registry id
    = if j = registry ∧ (which = none ∨ which = some id) then none
      else r.interpreter? registry id
  := by
  refine (interpreter?_modifyRegistry r j _ registry id).trans ?_
  rw [interpreter?]
  cases r.registries.get? registry with
  | none => simp
  | some reg =>
    by_cases hj : j = registry
    · cases which with
      | none => simp [hj]
      | some id' => simp [hj, OrderedMap.get?_erase]
    · simp [hj]

/-- A machine that is registered has no instance yet. -/
theorem interpreter?_register (r : Engine κ) (j : Nat) (d : MachineDescriptor κ) (b : Bundle κ)
    (registry : Nat) (id : String) :
  (r.register j d b).value.2.interpreter? registry id = r.interpreter? registry id
  := by
  rw [Engine.register]
  split
  · rfl
  · split
    · rfl
    · rw [Evaluated.value_bind]
      split
      · rfl
      · refine (interpreter?_modifyRegistry r j _ registry id).trans ?_
        rw [interpreter?]
        congr 1
        funext reg
        split <;> rfl

/-- An instance that is put under an identifier is found there. -/
theorem interpreter?_insert (r : Engine κ) {j : Nat} (hthere : (r.registries.get? j).isSome = true)
    (id' : String) (i registry : Nat) (id : String) :
  (r.modifyRegistry j fun reg =>
      { reg with instances := reg.instances.insert id' i }).interpreter? registry id
    = if j = registry ∧ id' = id then some i else r.interpreter? registry id
  := by
  rw [interpreter?_modifyRegistry, interpreter?]
  by_cases hj : j = registry
  · subst hj
    obtain ⟨reg, hreg⟩ := Option.isSome_iff_exists.mp hthere
    simp [hreg, OrderedMap.get?_insert]
  · simp [hj]

/-- A registry finds the instance of a machine under its identifier, or makes one. -/
theorem interpret_cases (r : Engine κ) (j : Nat) (m : Machine κ) :
  ((m.id = none ∨ r.registries.get? j = none)
      ∧ r.interpret j m = (.error .missingMachineId, r))
    ∨ ∃ id, m.id = some id ∧ (r.registries.get? j).isSome = true
      ∧ ((∃ i, r.interpreter? j id = some i ∧ r.interpret j m = (.ok i, r))
        ∨ r.interpreter? j id = none ∧ ∃ r' x, r.interpret j m = (.ok r.instances.next, r')
          ∧ Adds r r' x ∧ x.machine = m
          ∧ ∀ registry id', r'.interpreter? registry id'
            = if j = registry ∧ id = id' then some r.instances.next
              else r.interpreter? registry id')
  := by
  rw [interpret.eq_def]
  cases hid : m.id with
  | none => exact .inl ⟨.inl rfl, rfl⟩
  | some id =>
    cases hreg : r.registries.get? j with
    | none => exact .inl ⟨.inr rfl, rfl⟩
    | some reg =>
      refine .inr ⟨id, rfl, rfl, ?_⟩
      have hentry : r.interpreter? j id = reg.instances.get? id := by
        rw [interpreter?, hreg, Option.bind_some]
      rw [hentry]
      simp only
      cases reg.instances.get? id with
      | some i => exact .inl ⟨i, rfl, rfl⟩
      | none =>
        refine .inr ⟨rfl, _, .new m m.services reg.pool none, rfl, adds_create rfl rfl, rfl, ?_⟩
        intro registry id'
        have hthere : ((r.create m reg.pool).registries.get? j).isSome = true := by
          rw [show (r.create m reg.pool).registries = r.registries from rfl, hreg]
          rfl
        exact interpreter?_insert _ hthere id _ registry id'

/-- The instance that is handed out is the one in the registry. -/
theorem exists_interpret {m : Machine κ} (hid : m.id = some id)
    (hthere : (r.registries.get? registry).isSome = true) :
  ∃ i, (r.interpret registry m).1 = .ok i
    ∧ (r.interpret registry m).2.interpreter? registry id = some i
  := by
  obtain ⟨hnone | hnone, -⟩ | ⟨id', hid', -, ⟨i, hi, heq⟩ | ⟨-, r', x, heq, -, -, hentry⟩⟩ :=
    r.interpret_cases registry m
  · rw [hid] at hnone
    cases hnone
  · rw [hnone] at hthere
    cases hthere
  · obtain rfl := Option.some.inj (hid.symm.trans hid')
    exact ⟨i, by rw [heq], by rw [heq, hi]⟩
  · obtain rfl := Option.some.inj (hid.symm.trans hid')
    exact ⟨_, by rw [heq], by rw [heq, hentry, if_pos ⟨rfl, rfl⟩]⟩

namespace Coherent

/-- The first machine that is interpreted is remembered. -/
theorem interpret (h : Coherent registry id r first) (j : Nat) (m : Machine κ) :
  Coherent registry id (r.interpret j m).2
    (first.or (if j = registry ∧ m.id = some id ∧ (r.registries.get? registry).isSome
      then some m else none))
  := by
  obtain ⟨hnone, heq⟩ | ⟨id', hid', hreg, hcases⟩ := r.interpret_cases j m
  · rw [heq, if_neg, Option.or_none]
    · exact h
    · rintro ⟨rfl, hid, hreg⟩
      obtain hnone | hnone := hnone
      · rw [hid] at hnone
        cases hnone
      · rw [hnone] at hreg
        cases hreg
  · by_cases hthis : j = registry ∧ id' = id
    · obtain ⟨rfl, rfl⟩ := hthis
      rw [if_pos ⟨rfl, hid', hreg⟩]
      obtain ⟨i, hi, heq⟩ | ⟨habsent, r', x, heq, hadds, rfl, hentry⟩ := hcases
      · -- Something was interpreted before.
        obtain ⟨y, hy, rfl⟩ := h.there hi
        rw [heq]
        exact h
      · rw [heq, h.absent habsent, Option.none_or]
        have hself := hentry j id'
        rw [if_pos ⟨rfl, rfl⟩] at hself
        refine ⟨fun hnone => ?_, fun hi => ⟨x, ?_, rfl⟩⟩
        · rw [hself] at hnone
          cases hnone
        · obtain rfl := Option.some.inj (hself.symm.trans hi)
          exact (hadds.get? _).trans (if_pos rfl)
    · rw [if_neg fun hall => hthis ⟨hall.1, Option.some.inj (hid'.symm.trans hall.2.1)⟩,
        Option.or_none]
      obtain ⟨i, -, heq⟩ | ⟨-, r', x, heq, hadds, -, hentry⟩ := hcases
      · rw [heq]
        exact h
      · rw [heq]
        refine h.mono ((hentry registry id).trans (if_neg hthis)) fun {i y} _ hy => ?_
        exact ⟨y, hadds.get?_of_get? hy, rfl⟩

/-- What is forgotten is not remembered. -/
theorem clear (h : Coherent registry id r first) (j : Nat) (which : Option String) :
  Coherent registry id (r.clear j which)
    (if j = registry ∧ (which = none ∨ which = some id) then none else first)
  := by
  have hentry := interpreter?_clear r j which registry id
  split
  · next hthis =>
    rw [if_pos hthis] at hentry
    refine ⟨fun _ => rfl, fun hi => ?_⟩
    rw [hentry] at hi
    cases hi
  · next hother =>
    rw [if_neg hother] at hentry
    exact h.mono hentry fun _ hx => ⟨_, hx, rfl⟩

/-- To compile a machine leaves instances alone. -/
theorem register (h : Coherent registry id r first) (j : Nat) (d : MachineDescriptor κ)
    (b : Bundle κ) :
  Coherent registry id (r.register j d b).value.2 first
  := by
  refine h.mono (interpreter?_register r j d b registry id) fun _ hx => ⟨_, ?_, rfl⟩
  rw [get?, instances_register]
  exact hx

end Coherent

end Engine

/-- Any other call leaves registries alone. -/
theorem Call.houses_impulse (r : Engine κ) {call : Call κ}
    (hregister : ∀ registry d b, call ≠ .register registry d b)
    (hinterpret : ∀ registry m, call ≠ .interpret registry m)
    (hclear : ∀ registry which, call ≠ .clear registry which) :
  r.Houses (call.impulse r)
  := by
  rw [impulse.eq_def]
  split
  · exact .of_get? rfl fun _ _ hx => hx
  · split
    · split
      · exact .modify r _ fun _ _ => rfl
      · exact .of_get? rfl fun _ _ hx => hx
    · exact .modify r _ fun _ _ => rfl
    · exact absurd rfl (hregister _ _ _)
    · exact absurd rfl (hinterpret _ _)
    · exact absurd rfl (hclear _ _)
    · exact .of_get? rfl fun _ _ hx => hx

namespace Configuration

variable {H : Host κ π σ} {cs : List (Configuration κ π σ)} {c d : Configuration κ π σ}
  {registry : Nat} {id : String} {first : Option (Machine κ)}

/-- Registries change by calls of the host only. -/
theorem covers_houses :
  Covers (π := π) fun (r : Engine κ) _ r' _ => r.Houses r'
  where
  refl _ _ := .of_get? rfl fun _ _ hx => hx
  trans h h' := h.trans h'
  push _ _ _ := .of_get? rfl fun _ _ hx => hx
  pop _ _ _ := .of_get? rfl fun _ _ hx => hx
  add {x} r _ _ := by
    have hadds : Engine.Adds r { r with instances := r.instances.add x } x :=
      Engine.adds_create rfl rfl
    exact .of_get? rfl fun i y hy => hadds.get?_of_get? hy
  modify f _ hx hf := .modify _ _ fun y hy => by
    obtain rfl := Option.some.inj (hx.symm.trans hy)
    exact hf.machine
  stop r _ i := by
    have hhalts := Engine.halts_stop r i
    refine ⟨hhalts.registries, fun {j x} _ hx => ?_⟩
    obtain hsame | ⟨x', hx', -, hhalted, -⟩ := hhalts.instances j
    · exact ⟨x, hsame.trans hx, rfl⟩
    · obtain rfl := Option.some.inj (hx.symm.trans hx')
      exact ⟨x.halted, hhalted, rfl⟩
  release r _ held := by
    have hreleases := Engine.releases_release_append r held
    refine ⟨hreleases.registries, fun {i x} hi hx => ⟨x, ?_, rfl⟩⟩
    exact (hreleases.get?_of_mem (List.mem_append_right held hi)).trans hx
  rearm {r _ _ _} _ hx harmed := by
    have hclock (t : Timing (Callback κ)) : r.Houses { r with timing := t } :=
      .of_get? rfl fun _ _ hx => hx
    obtain ⟨active, ds, -, rfl⟩ := Engine.armTimers_eq_ok hx harmed
    exact (hclock _).trans (.modify _ _ fun _ _ => rfl)

/-! ### What is interpreted -/

/-- The machine that the host lets a registry interpret under an identifier in the next step. -/
def interprets? (registry : Nat) (id : String) (c : Configuration κ π σ) : Option (Machine κ) :=
  match c.control with
  | .host (.call (.interpret j m) _) =>
    if j = registry ∧ m.id = some id ∧ (c.engine.registries.get? registry).isSome
    then some m else none
  | _ => none

/-- Whether the host lets a registry forget an identifier in the next step. -/
def forgets (registry : Nat) (id : String) (c : Configuration κ π σ) : Bool :=
  match c.control with
  | .host (.call (.clear j which) _) => j = registry ∧ (which = none ∨ which = some id)
  | _ => false

/-- The machine that a registry was first let interpret under an identifier since it was let
forget it last. -/
def firstInterpreted (registry : Nat) (id : String) (cs : List (Configuration κ π σ)) :
    Option (Machine κ) :=
  cs.foldl (fun first c =>
    if forgets registry id c then none else first.or (interprets? registry id c)) none

/-- What a registry is to remember after a step. -/
theorem firstInterpreted_concat (registry : Nat) (id : String) (cs : List (Configuration κ π σ))
    (c : Configuration κ π σ) :
  firstInterpreted registry id (cs ++ [c])
    = if forgets registry id c then none
      else (firstInterpreted registry id cs).or (interprets? registry id c)
  := List.foldl_concat ..

/-- What comes first in a step leaves what is to be remembered. -/
theorem coherent_impulse (h : Engine.Coherent registry id c.engine first) :
  Engine.Coherent registry id c.impulse.1
    (if forgets registry id c then none else first.or (interprets? registry id c))
  := by
  rw [impulse.eq_def, forgets, interprets?]
  have hsame (t : Timing (Callback κ)) :
      Engine.Coherent registry id { c.engine with timing := t } (first.or none) := by
    rw [Option.or_none]
    exact h.houses (.of_get? rfl fun _ _ hx => hx)
  cases hcontrol : c.control with
  | back reply =>
    cases hst : c.stack with
    | nil => exact hsame c.engine.timing
    | cons f below => cases f <;> exact hsame _
  | host next =>
    cases next with
    | done => exact hsame c.engine.timing
    | call call point =>
      cases call with
      | interpret j m => exact h.interpret j m
      | clear j which =>
        simp only [decide_eq_true_eq, Option.or_none]
        exact h.clear j which
      | register j d b =>
        simp only [Option.or_none]
        exact h.register j d b
      | _ =>
        simp only [Option.or_none]
        exact h.houses (Call.houses_impulse _ (fun _ _ _ h => nomatch h) (fun _ _ h => nomatch h)
          (fun _ _ h => nomatch h))

/-! ### Runs -/

/-- However a run goes on, after its impulse instances in registries stay. -/
theorem Evolves.coherent (hstep : Evolves H c d)
    (h : Engine.Coherent registry id c.impulse.1 first) :
  Engine.Coherent registry id d.engine first
  := by
  cases hstep with
  | step _ hstep => exact h.houses (covers_houses.step hstep)
  | enter memory code hidle =>
    rw [impulse_of_isIdle hidle] at h
    exact h.houses (covers_houses.release (π := π) _ [] _)
  | addPool hidle =>
    rw [impulse_of_isIdle hidle] at h
    exact h.houses (.of_get? rfl fun _ _ hx => hx)
  | addRegistry pool hidle =>
    rw [impulse_of_isIdle hidle] at h
    refine h.mono ?_ fun _ hx => ⟨_, hx, rfl⟩
    simp only [Engine.interpreter?, idle, Engine.addRegistry, Table.get?_add]
    split
    · next hnew =>
      rw [hnew, Table.get?_eq_none_of_le _ (Nat.le_refl _)]
      rfl
    · rfl

/-- Throughout a run the registries remember what was interpreted first. -/
theorem Run.coherent (h : Run H cs c) (registry : Nat) (id : String) :
  Engine.Coherent registry id c.engine (firstInterpreted registry id cs)
  := by
  induction h with
  | start memory => exact ⟨fun _ => rfl, nofun⟩
  | @next cs c d hrun hstep ih =>
    rw [firstInterpreted_concat]
    exact hstep.coherent (coherent_impulse ih)

/-- What a registry hands out when it is let interpret a machine with an identifier: an instance
that runs the machine that it was first let interpret under this identifier, by this call or since
it was let forget the identifier last.  So it runs the machine itself if and only if no other
machine was interpreted first. -/
theorem Run.interprets (h : Run H cs c) {m : Machine κ} {point : π}
    (hcontrol : c.control = .host (.call (.interpret registry m) point)) (hid : m.id = some id)
    (hthere : (c.engine.registries.get? registry).isSome = true) :
  ∃ d i y, step? H c = some d ∧ d.control = .back (.owner (.ok i)) ∧ d.engine.get? i = some y
    ∧ y.machine = (firstInterpreted registry id cs).getD m
    ∧ (y.machine = m ↔ ∀ m', firstInterpreted registry id cs = some m' → m' = m)
  := by
  have hcoherent := (h.coherent registry id).interpret registry m
  rw [if_pos ⟨rfl, hid, hthere⟩] at hcoherent
  have hstep : step? H c = some (((c.withStack (.waiting point :: c.stack)).withEngine
      (c.engine.interpret registry m).2).back (.owner (c.engine.interpret registry m).1)) := by
    rw [step?, hcontrol]
    rfl
  obtain ⟨i, hi, hentry⟩ := c.engine.exists_interpret hid hthere
  obtain ⟨y, hy, hfirst⟩ := hcoherent.there hentry
  rw [hi] at hstep
  have hmachine : y.machine = (firstInterpreted registry id cs).getD m := by
    cases hremembered : firstInterpreted registry id cs with
    | none =>
      rw [hremembered, Option.none_or] at hfirst
      exact (Option.some.inj hfirst).symm
    | some m' =>
      rw [hremembered, Option.some_or] at hfirst
      exact (Option.some.inj hfirst).symm
  refine ⟨_, i, y, hstep, rfl, hy, hmachine, ?_⟩
  rw [hmachine]
  cases firstInterpreted registry id cs with
  | none =>
    refine iff_of_true rfl fun m' hnone => ?_
    cases hnone
  | some m' => exact ⟨fun hsame _ heq => Option.some.inj heq ▸ hsame, fun hall => hall m' rfl⟩

/-- A machine with the identifier of the relay and one state. -/
def rivalDescriptor : MachineDescriptor Unit :=
  { relayDescriptor with states := ⟨[("a", .empty)]⟩ }

/-- The machine of `rivalDescriptor`. -/
def rival : Machine Unit :=
  { relay with
    topology := .flat
      { owner := "relay"
        region := none
        initial := "a"
        nodes := ⟨[("a", ⟨"a", .atomic, .empty, [], [], [], [], none⟩)]⟩ } }

theorem isCompiled_rival :
  rival.IsCompiled
  := ⟨rivalDescriptor, .empty, MachineDescriptor.keyed_of_shallow (by decide) (by decide), rfl⟩

/-- The first `n` steps after a registry is made: calls are made one after another. -/
def registryRun (calls : Script Unit) (n : Nat) :
    List (Configuration Unit (Script Unit) Unit) × Configuration Unit (Script Unit) Unit :=
  let ready := idle (Engine.empty.addPool.addRegistry 0) ()
  let begun := ready.enter relayHost fun _ s => (calls.next, s)
  ([idle .empty (), idle Engine.empty.addPool (), ready] ++ (trail relayHost n begun).1,
    (trail relayHost n begun).2)

/-- To interpret the relay and its rival is a run. -/
theorem run_registryRun {calls : Script Unit} {n : Nat}
    (hcalls : ∀ m ∈ machines relayHost (registryRun calls n).1, m = relay ∨ m = rival) :
  Run relayHost (registryRun calls n).1 (registryRun calls n).2
  := by
  have hpool : Run relayHost [idle .empty ()] (idle Engine.empty.addPool ()) :=
    .next (.start ()) (.addPool ⟨rfl, .done, rfl⟩)
  have hready := hpool.next (.addRegistry 0 ⟨rfl, .done, rfl⟩)
  have hbegun := hready.next (.enter () (fun _ s => (calls.next, s)) ⟨rfl, .done, rfl⟩)
  apply hbegun.trail n
  intro m hm
  obtain ⟨c, hc, hhanded⟩ := List.mem_filterMap.mp hm
  obtain rfl | rfl := hcalls m (List.mem_filterMap.mpr ⟨c, List.mem_append_right _ hc, hhanded⟩)
  · exact isCompiled_relay
  · exact isCompiled_rival

/-- The relay is interpreted, and its rival after the relay was forgotten. -/
def renewed : Script Unit :=
  [.register 0 relayDescriptor relayBundle, .interpret 0 relay, .clear 0 none,
    .register 0 rivalDescriptor .empty, .interpret 0 rival]

/-- The instance that is handed out for the rival runs the rival. -/
theorem registry_interprets :
  ∃ d i y, step? relayHost (registryRun renewed 8).2 = some d
    ∧ d.control = .back (.owner (.ok i)) ∧ d.engine.get? i = some y ∧ y.machine = rival
  := by
  have hrun : Run relayHost (registryRun renewed 8).1 (registryRun renewed 8).2 := by
    apply run_registryRun
    rw [show machines relayHost (registryRun renewed 8).1 = [relay] from rfl]
    simp
  have hfirst : firstInterpreted 0 "relay" (registryRun renewed 8).1 = none := rfl
  have hcontrol : (registryRun renewed 8).2.control = .host (.call (.interpret 0 rival) []) := rfl
  obtain ⟨d, i, y, hstep, hcontrol, hy, -, hsame⟩ := hrun.interprets hcontrol rfl rfl
  refine ⟨d, i, y, hstep, hcontrol, hy, hsame.mpr ?_⟩
  rw [hfirst]
  exact nofun

/-- The relay is interpreted after it was forgotten, and then its rival. -/
def mixed : Script Unit :=
  [.register 0 relayDescriptor relayBundle, .clear 0 none,
    .register 0 rivalDescriptor .empty, .interpret 0 relay, .interpret 0 rival]

/-- The instance that is handed out for the rival does not run the rival. -/
theorem registry_misinterprets :
  ∃ cs c point d i y, Run relayHost cs c
    ∧ c.control = .host (.call (.interpret 0 rival) point)
    ∧ step? relayHost c = some d ∧ d.control = .back (.owner (.ok i))
    ∧ d.engine.get? i = some y ∧ y.machine ≠ rival
  := by
  have hrun : Run relayHost (registryRun mixed 8).1 (registryRun mixed 8).2 := by
    apply run_registryRun
    rw [show machines relayHost (registryRun mixed 8).1 = [relay] from rfl]
    simp
  refine ⟨_, _, [], _, 0, _, hrun, rfl, rfl, rfl, rfl, fun hsame => ?_⟩
  have hstates : relay.flat?.map (fun chart => chart.nodes.keys)
      = rival.flat?.map (fun chart => chart.nodes.keys) :=
    congrArg (fun m => m.flat?.map fun chart => chart.nodes.keys) hsame
  exact absurd hstates (by decide)

end Configuration

end Statechart
