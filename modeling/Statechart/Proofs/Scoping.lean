import Statechart.Proofs.Attempts
import Statechart.Proofs.Override

/-!
# Scopes of services

The services of a machine are declared by calls on a bundle, the latest of which counts.  An
instance looks a service up among those of its own machine, then among those of the machine that
invoked it, and so on outwards, although its registry is made once, when it is spawned
(`Configuration.Run.services_get?`).  The main statement, `Configuration.Run.scoped`, says what
comes of an invocation of a service accordingly.
-/

namespace Statechart

variable {κ π σ : Type}

/-! ### Declarations -/

/-- The calls that declare the services of a bundle: none, or calls before and one more.  A
bundle that is merged into it has calls of its own. -/
inductive Declarations (κ : Type) where
  | none
  | service (before : Declarations κ) (name : String) (code : κ)
  | services (before : Declarations κ) (registry : Services κ)
  | merge (before later : Declarations κ)

/-- The code that is declared for a name: the latest declaration counts, and a registry takes the
place of all that was declared before. -/
def Declarations.code? : Declarations κ → String → Option κ
  | none, _ => .none
  | service before key code, name => if key = name then some code else before.code? name
  | services _ registry, name => registry.get? name
  | merge before later, name => (later.code? name).or (before.code? name)

/-- A bundle is made by calls of which those that declare services are given. -/
inductive Bundle.Made : Bundle κ → Declarations κ → Prop where
  | empty : Made .empty .none
  | service {b : Bundle κ} {ds : Declarations κ} (name : String) (code : κ) :
    b.Made ds → Made (b.withService name code) (ds.service name code)
  | services {b : Bundle κ} {ds : Declarations κ} {registry : Services κ} :
    registry.Distinct → b.Made ds → Made (b.withServices registry) (ds.services registry)
  | merge {b c : Bundle κ} {ds es : Declarations κ} :
    b.Made ds → c.Made es → Made (b.merge c) (ds.merge es)
  | effect {b : Bundle κ} {ds : Declarations κ} (name : String) (code : κ) :
    b.Made ds → Made (b.withEffect name code) ds
  | assign {b : Bundle κ} {ds : Declarations κ} (name : String) (change : Assign) :
    b.Made ds → Made (b.withAssign name change) ds
  | guard {b : Bundle κ} {ds : Declarations κ} (name : String) (guard : Guard) :
    b.Made ds → Made (b.withGuard name guard) ds
  | delay {b : Bundle κ} {ds : Declarations κ} (name : String) (delay : Rule Nat) :
    b.Made ds → Made (b.withDelay name delay) ds

/-- The registry of the first services over that of the others. -/
theorem Services.get?_withFallback {s : Services κ} (h : s.Distinct) (fallback : Services κ)
    (name : String) :
  (s.withFallback fallback).get? name = (s.get? name).or (fallback.get? name)
  := h.get?_merge fallback name

/-- A bundle has the services that were declared, each once. -/
theorem Bundle.Made.services_eq {b : Bundle κ} {ds : Declarations κ} (h : b.Made ds) :
  b.services.Distinct ∧ ∀ name, b.services.get? name = ds.code? name
  := by
  induction h with
  | empty => exact ⟨OrderedMap.distinct_empty, fun _ => rfl⟩
  | service key code _ ih =>
    obtain ⟨hdistinct, hget⟩ := ih
    refine ⟨hdistinct.insert key code, ?_⟩
    intro name
    rw [withService, OrderedMap.get?_insert, Declarations.code?, hget]
  | services hregistry => exact ⟨hregistry, fun _ => rfl⟩
  | merge _ _ ihb ihc =>
    obtain ⟨hb, hgetb⟩ := ihb
    obtain ⟨hc, hgetc⟩ := ihc
    refine ⟨hb.insertAll _, ?_⟩
    intro name
    rw [Bundle.merge, Services.get?_withFallback hc, Declarations.code?, hgetb, hgetc]
  | effect _ _ _ ih | assign _ _ _ ih | guard _ _ _ ih | delay _ _ _ ih => exact ih

/-- A machine is compiled with a bundle for which these services are declared. -/
def Machine.Declares (m : Machine κ) (ds : Declarations κ) : Prop :=
  ∃ (d : MachineDescriptor κ) (b : Bundle κ), b.Made ds ∧ (Machine.compile d b).value = .ok m

/-- A machine has the services that were declared for it. -/
theorem Machine.Declares.services_eq {m : Machine κ} {ds : Declarations κ}
    (h : m.Declares ds) :
  m.services.Distinct ∧ ∀ name, m.services.get? name = ds.code? name
  := by
  obtain ⟨d, b, hmade, hm⟩ := h
  obtain ⟨-, topology, initial, -, -, rfl⟩ := exists_of_compile hm
  exact hmade.services_eq

/-! ### What an instance is made with -/

/-- What does not change about an instance: its machine, its parent and its services. -/
def Instance.origin (x : Instance κ) : Machine κ × Option ParentLink × Services κ :=
  (x.machine, x.parent, x.services)

/-- No step changes machine, services and parent of an instance. -/
theorem Turn.origin_eq {i : Nat} {r r' : Engine κ} {x y : Instance κ}
    {w w' : Option (List (Phase κ))} (h : Turn i r r' x w y w') :
  y.origin = x.origin
  := by
  cases h with
  | _ => rfl

namespace Configuration

variable {H : Host κ π σ} {cs ds : List (Configuration κ π σ)} {a c d : Configuration κ π σ}
  {i : Nat} {x y : Instance κ} {scope : List (Declarations κ)}

/-- Machine, services and parent of an instance never change. -/
theorem Run.origin_eq (h : Run H cs c) (ha : a ∈ cs) (hx : a.engine.get? i = some x)
    (hy : c.engine.get? i = some y) :
  y.origin = x.origin
  := by
  induction h generalizing y with
  | start memory => cases ha
  | @next cs c d hrun hstep ih =>
    obtain ⟨mid, hgoes⟩ := hrun.goes hstep
    have hlt : i < c.engine.instances.next := by
      have hlt := Engine.lt_next_of_get? hx
      obtain ha | ha := List.mem_append.mp ha
      · exact hlt.trans_le (hrun.later ha).1
      · rwa [← List.mem_singleton.mp ha]
    obtain ⟨z, hz, hmid⟩ := hgoes.was_there hlt hy
    have hlast := (hgoes.turn hz hmid).origin_eq
    obtain ha | ha := List.mem_append.mp ha
    · exact hlast.trans (ih ha hz)
    · obtain rfl := List.mem_singleton.mp ha
      obtain rfl := Option.some.inj (hx.symm.trans hz)
      exact hlast

/-- At some time the instance `i` is there, and it is `x`. -/
def Recorded (cs : List (Configuration κ π σ)) (i : Nat) (x : Instance κ) : Prop :=
  ∃ c ∈ cs, c.engine.get? i = some x

/-- What was recorded stays on record. -/
theorem Recorded.mono (h : Recorded cs i x) (hds : cs ⊆ ds) :
  Recorded ds i x
  := by
  obtain ⟨c, hc, hx⟩ := h
  exact ⟨c, hds hc, hx⟩

/-- On record is what was so before and what is there at last. -/
theorem recorded_concat_iff :
  Recorded (cs ++ [c]) i x ↔ Recorded cs i x ∨ c.engine.get? i = some x
  := by
  simp [Recorded, or_and_right, exists_or]

/-- Whenever an instance is there it has the same machine, the same parent and the same
services. -/
theorem Run.origin_unique (h : Run H cs c) (hx : Recorded (cs ++ [c]) i x)
    (hy : Recorded (cs ++ [c]) i y) :
  y.origin = x.origin
  := by
  induction h with
  | start memory =>
    obtain ⟨b, hb, hx⟩ := hx
    obtain rfl := List.mem_singleton.mp hb
    simp [idle] at hx
  | @next cs c d hrun hstep ih =>
    have hlater : ∀ {z w}, Recorded (cs ++ [c]) i z → d.engine.get? i = some w →
        w.origin = z.origin := by
      rintro z w ⟨b, hb, hz⟩ hw
      exact (hrun.next hstep).origin_eq hb hz hw
    obtain hx | hx := recorded_concat_iff.mp hx <;> obtain hy | hy := recorded_concat_iff.mp hy
    · exact ih hx hy
    · exact hlater hx hy
    · exact (hlater hy hx).symm
    · rw [Option.some.inj (hx.symm.trans hy)]

/-! ### Scopes -/

/-- An instance that was invoked was made with the services of its machine over those that its
parent had then. -/
theorem Run.services_next (h : Run H cs c) (hstep : Evolves H c d)
    (hnone : c.engine.get? i = none) (hy : d.engine.get? i = some y) {link : ParentLink}
    (hparent : y.parent = some link) :
  ∃ x, c.engine.get? link.parent = some x
    ∧ y.services = y.machine.services.withFallback x.services
  := by
  have hinvoked : Invoked [d] link.parent i :=
    ⟨d, List.mem_singleton_self d, y, link, hy, hparent, rfl⟩
  obtain ⟨b, hb, z, -, hz, -⟩ | ⟨t, id, hattempt, hstored⟩ := h.invoked_next hstep hinvoked
  · obtain rfl := List.mem_singleton.mp hb
    rw [hnone] at hz
    cases hz
  · obtain ⟨_, _, _, _, _, _, -, hstack, -⟩ := exists_of_attempt? hattempt
    obtain ⟨x, -, -, ⟨hx, -, -, -, hleads⟩, -⟩ :=
      settles_of_attempt? (hstep.step?_of_stack hstack) hattempt
    cases hleads with
    | failed => cases hstored
    | stored hspawns =>
      obtain ⟨-, rfl⟩ := Prod.mk.inj (Option.some.inj hstored)
      rw [hspawns.get?, if_pos rfl] at hy
      obtain rfl := Option.some.inj hy
      exact ⟨x, hx, rfl⟩

/-- An instance is a root with the services of its machine, or it has a parent, over whose
services it has those of its machine. -/
theorem Run.services_cases (h : Run H cs c) (hx : Recorded (cs ++ [c]) i x) :
  (x.parent = none ∧ x.services = x.machine.services)
    ∨ ∃ link p, x.parent = some link ∧ Recorded (cs ++ [c]) link.parent p
        ∧ x.services = x.machine.services.withFallback p.services
  := by
  induction h generalizing x with
  | start memory =>
    obtain ⟨b, hb, hx⟩ := hx
    obtain rfl := List.mem_singleton.mp hb
    simp [idle] at hx
  | @next cs c d hrun hstep ih =>
    -- It is enough to look at the time before if the instance was there.
    have hold : ∀ {z}, Recorded (cs ++ [c]) i z → z.origin = x.origin →
        (x.parent = none ∧ x.services = x.machine.services)
          ∨ ∃ link p, x.parent = some link ∧ Recorded (cs ++ [c] ++ [d]) link.parent p
              ∧ x.services = x.machine.services.withFallback p.services := by
      intro z hz horigin
      simp only [Instance.origin, Prod.mk.injEq] at horigin
      obtain ⟨hmachine, hparent, hservices⟩ := horigin
      rw [← hmachine, ← hparent, ← hservices]
      obtain hroot | ⟨link, p, hlink, hp, heq⟩ := ih hz
      · exact .inl hroot
      · exact .inr ⟨link, p, hlink, hp.mono (List.subset_append_left _ _), heq⟩
    obtain hx | hx := recorded_concat_iff.mp hx
    · exact hold hx rfl
    · cases hc : c.engine.get? i with
      | some z =>
        have hz : Recorded (cs ++ [c]) i z := recorded_concat_iff.mpr (.inr hc)
        have hmem : c ∈ cs ++ [c] := List.mem_append_right _ (List.mem_singleton_self c)
        exact hold hz ((hrun.next hstep).origin_eq hmem hc hx).symm
      | none =>
        cases hparent : x.parent with
        | none => exact .inl ⟨rfl, (hrun.next hstep).services_eq hx hparent⟩
        | some link =>
          obtain ⟨p, hp, hservices⟩ := hrun.services_next hstep hc hx hparent
          refine .inr ⟨link, p, rfl, ?_, hservices⟩
          exact recorded_concat_iff.mpr (.inl (recorded_concat_iff.mpr (.inr hp)))

/-- The declarations for an instance, for its parent, and so on up to a root. -/
inductive Scope (cs : List (Configuration κ π σ)) : Nat → List (Declarations κ) → Prop where
  | root {i : Nat} {x : Instance κ} {ds : Declarations κ} :
    Recorded cs i x → x.parent = none → x.machine.Declares ds → Scope cs i [ds]
  | child {i : Nat} {x : Instance κ} {link : ParentLink} {ds : Declarations κ}
    {scope : List (Declarations κ)} :
    Recorded cs i x → x.parent = some link → x.machine.Declares ds →
      Scope cs link.parent scope → Scope cs i (ds :: scope)

/-- A scope stays one as the run goes on. -/
theorem Scope.mono (h : Scope cs i scope) (hds : cs ⊆ ds) :
  Scope ds i scope
  := by
  induction h with
  | root hx hparent hdeclares => exact .root (hx.mono hds) hparent hdeclares
  | child hx hparent hdeclares _ ih => exact .child (hx.mono hds) hparent hdeclares ih

/-- A service is that of the innermost machine for which it is declared. -/
theorem Run.services_get? (h : Run H cs c) (hscope : Scope (cs ++ [c]) i scope)
    (hx : Recorded (cs ++ [c]) i x) (name : String) :
  x.services.get? name = scope.findSome? fun ds => ds.code? name
  := by
  induction hscope generalizing x with
  | @root i y ds hy hparent hdeclares =>
    obtain ⟨-, hdeclared⟩ := hdeclares.services_eq
    have hservices : x.services = y.services := congrArg (·.2.2) (h.origin_unique hy hx)
    obtain ⟨-, hroot⟩ | ⟨link, p, hlink, -⟩ := h.services_cases hy
    · rw [hservices, hroot, hdeclared, List.findSome?_singleton]
    · rw [hparent] at hlink
      cases hlink
  | @child i y link ds scope hy hparent hdeclares hscope ih =>
    obtain ⟨hdistinct, hdeclared⟩ := hdeclares.services_eq
    have hservices : x.services = y.services := congrArg (·.2.2) (h.origin_unique hy hx)
    obtain ⟨hroot, -⟩ | ⟨link', p, hlink, hp, hlayered⟩ := h.services_cases hy
    · rw [hparent] at hroot
      cases hroot
    · obtain rfl := Option.some.inj (hparent.symm.trans hlink)
      rw [hservices, hlayered, Services.get?_withFallback hdistinct, hdeclared, ih hp,
        List.findSome?_cons]
      cases ds.code? name <;> rfl

/-- An instance has a scope if the machines are declared. -/
theorem Run.exists_scope (h : Run H cs c)
    (hdeclared : ∀ i x, Recorded (cs ++ [c]) i x → ∃ ds, x.machine.Declares ds)
    (hx : Recorded (cs ++ [c]) i x) :
  ∃ scope, Scope (cs ++ [c]) i scope
  := by
  induction h generalizing i x with
  | start memory =>
    obtain ⟨b, hb, hx⟩ := hx
    obtain rfl := List.mem_singleton.mp hb
    simp [idle] at hx
  | @next cs c d hrun hstep ih =>
    have hsubset : cs ++ [c] ⊆ cs ++ [c] ++ [d] := List.subset_append_left _ _
    have hold : ∀ {j z}, Recorded (cs ++ [c]) j z →
        ∃ scope, Scope (cs ++ [c] ++ [d]) j scope := by
      intro j z hz
      obtain ⟨scope, hscope⟩ := ih (fun j z hz => hdeclared j z (hz.mono hsubset)) hz
      exact ⟨scope, hscope.mono hsubset⟩
    obtain hx' | hx' := recorded_concat_iff.mp hx
    · exact hold hx'
    · cases hc : c.engine.get? i with
      | some z => exact hold (recorded_concat_iff.mpr (.inr hc))
      | none =>
        obtain ⟨ds, hds⟩ := hdeclared i x hx
        cases hparent : x.parent with
        | none => exact ⟨[ds], .root hx hparent hds⟩
        | some link =>
          obtain ⟨p, hp, -⟩ := hrun.services_next hstep hc hx' hparent
          obtain ⟨scope, hscope⟩ := hold (recorded_concat_iff.mpr (.inr hp))
          exact ⟨ds :: scope, .child hx hparent hds hscope⟩

end Configuration

/-! ### Invocations of services -/

/-- The context that a service is given: the data of the invocation, or an empty context. -/
def Request.supply (q : Request κ) : Evaluated Context :=
  match q.invocation.data with
  | none => pure .empty
  | some data => data.resolve q.context .init

/-- The machine of a request for a service is made by the code that is registered, if there is
one, and otherwise the service is unknown and the host is not asked. -/
theorem Request.Answers.of_service {H : Host κ π σ} {services : Services κ} {q : Request κ}
    {memory : σ} {answer : Except InvokeError (Machine κ) × σ}
    (h : q.Answers H services memory answer) {name : String}
    (hsource : q.invocation.source = .service name) :
  answer = match services.get? name with
    | some code => H.build code q.supply.value .init (H.observe q.supply.evaluations memory)
    | none => (.error (.unknownService name), memory)
  := by
  cases h with
  | factory hfactory =>
    rw [hfactory] at hsource
    cases hsource
  | unknown hservice hcode =>
    obtain rfl := ChildSource.service.inj (hservice.symm.trans hsource)
    rw [hcode]
  | empty hservice hcode hdata | literal hservice hcode hdata | derived hservice hcode hdata =>
    obtain rfl := ChildSource.service.inj (hservice.symm.trans hsource)
    rw [hcode, supply, hdata]
    rfl

namespace Configuration

variable {H : Host κ π σ} {cs : List (Configuration κ π σ)} {c : Configuration κ π σ}
  {i : Nat} {t : Attempt κ} {scope : List (Declarations κ)}

/-- An attempt to start a child is a step. -/
theorem exists_step?_of_attempt? (h : attempt? H i c = some t) :
  ∃ d, step? H c = some d
  := by
  obtain ⟨reply, o, more, rest, below, x, hcontrol, hstack, hx, -⟩ := exists_of_attempt? h
  simp only [step?, hcontrol, hstack, hx]
  exact ⟨_, rfl⟩

/-- What comes of an invocation of a service, in the step in which it is resolved.  The code is
that which is declared for the innermost machine, going outwards, that declares the name at all;
the invocation has the answer of this code to the data.  If no machine of the scope declares the
name, then the service is unknown and no code is asked; and it is unknown in no other case, unless
the code that is found gives this answer itself. -/
theorem Run.scoped (h : Run H cs c) (hscope : Scope (cs ++ [c]) i scope)
    (hattempt : attempt? H i c = some t) {name : String}
    (hsource : t.request.invocation.source = .service name) :
  ∃ x d, step? H c = some d ∧ t.Settles H i x c d
    ∧ (∀ inner ds outer code, scope = inner ++ ds :: outer →
        (∀ es ∈ inner, es.code? name = none) → ds.code? name = some code →
          (t.result, d.memory) = H.build code t.request.supply.value .init
            (H.observe t.request.supply.evaluations c.memory))
    ∧ ((∀ ds ∈ scope, ds.code? name = none) →
        t.result = .error (.unknownService name) ∧ d.memory = c.memory)
    ∧ (t.result = .error (.unknownService name) ↔
        (∀ ds ∈ scope, ds.code? name = none)
          ∨ ∃ code, (scope.findSome? fun ds => ds.code? name) = some code
              ∧ (H.build code t.request.supply.value .init
                (H.observe t.request.supply.evaluations c.memory)).1
                = .error (.unknownService name))
  := by
  obtain ⟨d, hstep⟩ := exists_step?_of_attempt? hattempt
  obtain ⟨x, -, -, hsettles, -⟩ := settles_of_attempt? hstep hattempt
  have hx : Recorded (cs ++ [c]) i x := recorded_concat_iff.mpr (.inr hsettles.there)
  have hanswer := hsettles.answers.of_service hsource
  rw [h.services_get? hscope hx] at hanswer
  refine ⟨x, d, hstep, hsettles, ?_, ?_, ?_⟩
  · rintro inner ds outer code rfl hinner hcode
    rw [List.findSome?_append, List.findSome?_eq_none_iff.mpr hinner, Option.none_or,
      List.findSome?_cons, hcode] at hanswer
    exact hanswer
  · intro hnone
    rw [List.findSome?_eq_none_iff.mpr hnone] at hanswer
    exact Prod.mk.inj hanswer
  · rw [← List.findSome?_eq_none_iff]
    cases hfound : scope.findSome? fun ds => ds.code? name with
    | none =>
      rw [hfound] at hanswer
      simp [(Prod.mk.inj hanswer).1]
    | some code =>
      rw [hfound] at hanswer
      have hresult : t.result = (H.build code _ _ _).1 := congrArg Prod.fst hanswer
      simp [hresult]

end Configuration

/-! ### An example -/

/-- A machine that has one state, in which services are invoked. -/
def employer (id state : String) (invoke : List (InvokeDescriptor String)) :
    MachineDescriptor String where
  id := some id
  initial := some state
  kind := .atomic
  context := .empty
  metadata := none
  states := ⟨[(state, { StateDescriptor.empty with invoke := invoke })]⟩

/-- The machine of an employer. -/
def employed (id state : String) (invoke : List (Invocation String)) (services : Services String) :
    Machine String where
  id := some id
  metadata := none
  context := .empty
  topology := .flat
    { owner := id
      region := none
      initial := state
      nodes := ⟨[(state, ⟨state, .atomic, .empty, [], [], [], invoke, none⟩)]⟩ }
  initial := ⟨.leaf state, .empty, none, [], false, false⟩
  services := services

/-- An office that invokes a clerk, who takes one of its services, `post`, to invoke a courier. -/
def office : Machine String :=
  employed "office" "open" [⟨"clerk", .service "counter", none, none, none⟩]
    ⟨[("errand", "far"), ("counter", "clerk"), ("post", "courier")]⟩

/-- The clerk has an errand too. -/
def clerk : Machine String :=
  employed "clerk" "busy" [⟨"courier", .service "post", none, none, none⟩] ⟨[("errand", "near")]⟩

/-- The courier has no services. -/
def courier : Machine String :=
  employed "courier" "out"
    [⟨"run", .service "errand", none, none, none⟩, ⟨"search", .service "lost", none, none, none⟩]
    .empty

/-- The services of the office are declared twice, but for the errand. -/
def officeDeclarations : Declarations String :=
  ((Declarations.none.service "errand" "far").service "counter" "closed").merge
    ((Declarations.none.services ⟨[("counter", "clerk"), ("post", "closed")]⟩).service
      "post" "courier")

def clerkDeclarations : Declarations String := Declarations.none.service "errand" "near"

/-- The office declares its services. -/
theorem office_declares :
  office.Declares officeDeclarations
  := by
  refine ⟨employer "office" "open" [.ofService "clerk" "counter"], _,
    .merge (.service _ _ (.service _ _ .empty)) (.service _ _ (.services ?_ .empty)), rfl⟩
  simp [OrderedMap.Distinct, OrderedMap.keys]

theorem clerk_declares :
  clerk.Declares clerkDeclarations
  := ⟨employer "clerk" "busy" [.ofService "courier" "post"], _, .service _ _ .empty, rfl⟩

theorem courier_declares :
  courier.Declares .none
  := ⟨employer "courier" "out" [.ofService "run" "errand", .ofService "search" "lost"], _, .empty,
    rfl⟩

/-- An employer has one state and so repeats no key. -/
theorem keyed_employer (id state : String) (invoke : List (InvokeDescriptor String)) :
  (employer id state invoke).Keyed
  := by
  apply MachineDescriptor.keyed_of_shallow <;>
    simp [employer, OrderedMap.keys, StateDescriptor.empty, OrderedMap.empty]

namespace Configuration

/-- The code of the services: it makes a clerk or a courier, or fails with its own name. -/
def officeCode (code : String) : Except InvokeError (Machine String) :=
  if code = "clerk" then .ok clerk
  else if code = "courier" then .ok courier
  else .error (.failed code)

def officeHost : Host String (Script String) Unit := scripted (fun _ => []) officeCode 1

/-- The first `n` steps after the office is made: it is started. -/
def officeRun (n : Nat) : List (Configuration String (Script String) Unit)
    × Configuration String (Script String) Unit :=
  played (fun _ => []) officeCode 1 office [.start 0] n

/-- The scope of the courier: its own services, those of the clerk and those of the office. -/
def courierScope : List (Declarations String) := [.none, clerkDeclarations, officeDeclarations]

theorem run_officeRun {n : Nat}
    (hcalls : ((officeRun n).1.drop 3).all (fun c => !c.hands) = true) :
  Run officeHost (officeRun n).1 (officeRun n).2
  := by
  refine run_played ?_ ?_ hcalls
  · exact ⟨employer "office" "open" [.ofService "clerk" "counter"],
      Bundle.empty.withServices office.services, keyed_employer _ _ _, rfl⟩
  · intro code m hm
    rw [officeCode] at hm
    split at hm
    · obtain rfl := Except.ok.inj hm
      exact ⟨employer "clerk" "busy" [.ofService "courier" "post"],
        Bundle.empty.withServices clerk.services, keyed_employer _ _ _, rfl⟩
    · split at hm
      · obtain rfl := Except.ok.inj hm
        exact ⟨employer "courier" "out" [.ofService "run" "errand", .ofService "search" "lost"],
          .empty, keyed_employer _ _ _, rfl⟩
      · cases hm

/-- While the courier is at work, its scope is as said. -/
theorem scope_courier {cs : List (Configuration String (Script String) Unit)}
    (h : (officeRun 14).2 ∈ cs) :
  Scope cs 2 courierScope
  := by
  have hoffice : Recorded cs 0 _ := ⟨_, h, rfl⟩
  have hclerk : Recorded cs 1 _ := ⟨_, h, rfl⟩
  have hcourier : Recorded cs 2 _ := ⟨_, h, rfl⟩
  exact .child hcourier rfl courier_declares
    (.child hclerk rfl clerk_declares (.root hoffice rfl office_declares))

/-- The courier runs the errand of the clerk and not that of the office, and then it asks for a
service that nobody has. -/
theorem courier_scoped :
  Run officeHost (officeRun 15).1 (officeRun 15).2
    ∧ Scope ((officeRun 15).1 ++ [(officeRun 15).2]) 2 courierScope
    ∧ (∃ t, attempt? officeHost 2 (officeRun 14).2 = some t
        ∧ t.request.invocation.source = .service "errand" ∧ t.result = .error (.failed "near"))
    ∧ ∃ t, attempt? officeHost 2 (officeRun 15).2 = some t
        ∧ t.request.invocation.source = .service "lost"
        ∧ t.result = .error (.unknownService "lost")
  := by
  have hrun : Run officeHost (officeRun 14).1 (officeRun 14).2 := run_officeRun (by decide +kernel)
  have hrun' : Run officeHost (officeRun 15).1 (officeRun 15).2 :=
    run_officeRun (by decide +kernel)
  have hscope : Scope ((officeRun 14).1 ++ [(officeRun 14).2]) 2 courierScope :=
    scope_courier (List.mem_append_right _ List.mem_cons_self)
  have hscope' : Scope ((officeRun 15).1 ++ [(officeRun 15).2]) 2 courierScope := by
    have hpassed : (officeRun 15).1 = (officeRun 14).1 ++ [(officeRun 14).2] := rfl
    rw [hpassed]
    exact scope_courier (List.mem_append_left _ (List.mem_append_right _ List.mem_cons_self))
  refine ⟨hrun', hscope', ⟨_, rfl, rfl, ?_⟩, _, rfl, rfl, ?_⟩
  · obtain ⟨x, d, -, -, hcode, -⟩ := Run.scoped hrun hscope (t := _) rfl rfl
    have hanswer := hcode [.none] clerkDeclarations [officeDeclarations] "near" rfl
      (by simp [Declarations.code?]) rfl
    exact congrArg Prod.fst hanswer
  · obtain ⟨x, d, -, -, -, hnone, -⟩ := Run.scoped hrun' hscope' (t := _) rfl rfl
    exact (hnone (by decide)).1

end Configuration

end Statechart
