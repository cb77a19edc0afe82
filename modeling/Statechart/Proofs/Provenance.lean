import Statechart.Proofs.Declaration
import Statechart.Proofs.WellFormed

/-!
# Where descriptors come from

A plain descriptor has actions and guards that are names, its services have names, no key is
repeated and no list of candidates is empty: just such descriptors can both be declared by calls and
be spelled by a value.  Whether one is made by calls or read from a value it leads to the same
machines, and to the same errors (`MachineDescriptor.builds_alike`), unless some metadata are null:
a call sets them, and a value has none of them.
-/

namespace Statechart

variable {κ α β : Type}

/-! ### Plain descriptors -/

/-- An action is a name. -/
def Action.IsName (a : Action κ) : Prop := ∃ name, a = .named name

/-- A guard is a name. -/
def GuardRef.IsName (g : GuardRef) : Prop := ∃ name, g = .named name

/-- The actions and the guard of a transition are names. -/
structure TransitionDescriptor.Plain (t : TransitionDescriptor κ) : Prop where
  actions : ∀ a ∈ t.actions, a.IsName
  guard : ∀ g ∈ t.guard, g.IsName

/-- A reaction is the kind of an event or a plain transition. -/
def Reaction.Plain (r : Reaction (TransitionDescriptor κ)) : Prop :=
  ∀ t, r = .transition t → t.Plain

/-- A service with a name is invoked, and its data are given. -/
structure InvokeDescriptor.Plain (i : InvokeDescriptor κ) : Prop where
  source : ∃ name, i.source = .service name
  data : ∀ x ∈ i.data, ∃ context, x = .literal context ∧ Json.Distinct (.object context)
  onDone : ∀ r ∈ i.onDone, r.Plain
  onError : ∀ r ∈ i.onError, r.Plain

/-- There are candidates for each event or delay, and all of them are plain. -/
structure OrderedMap.PlainCandidates (m : OrderedMap (List (TransitionDescriptor κ))) : Prop where
  distinct : m.Distinct
  nonempty : ∀ e ∈ m.entries, e.2 ≠ []
  plain : ∀ e ∈ m.entries, ∀ t ∈ e.2, t.Plain

/-- What is in a state is plain, and so are the states within. -/
inductive StateDescriptor.Plain : StateDescriptor κ → Prop where
  | parts {n : StateDescriptor κ} (kind : n.kind ≠ .parallel) (on : n.on.PlainCandidates)
      (entry : ∀ a ∈ n.entry, a.IsName) (exit : ∀ a ∈ n.exit, a.IsName)
      (after : n.after.PlainCandidates) (invoke : ∀ i ∈ n.invoke, i.Plain)
      (metadata : ∀ v ∈ n.metadata, Json.Distinct v) (unrepeated : n.states.Distinct)
      (states : ∀ e ∈ n.states.entries, Plain e.2) : Plain n

/-- A machine has an identifier, and what is in it is plain. -/
structure MachineDescriptor.Plain (d : MachineDescriptor κ) : Prop where
  id : ∃ id, d.id = some id
  kind : d.kind ≠ .final
  context : Json.Distinct (.object d.context)
  metadata : ∀ v ∈ d.metadata, Json.Distinct v
  unrepeated : d.states.Distinct
  states : ∀ e ∈ d.states.entries, e.2.Plain

/-! ### Something spells a plain descriptor -/

/-- Choices made for each member give one list. -/
theorem exists_forall₂ {R : α → β → Prop} {xs : List β} (h : ∀ x ∈ xs, ∃ y, R y x) :
  ∃ ys, List.Forall₂ R ys xs
  := by
  induction xs with
  | nil => exact ⟨[], .nil⟩
  | cons x rest ih =>
    obtain ⟨⟨y, hy⟩, hrest⟩ := List.forall_mem_cons.mp h
    obtain ⟨ys, hys⟩ := ih hrest
    exact ⟨y :: ys, .cons hy hys⟩

/-- Choices made for each entry give entries under the same keys. -/
theorem exists_forall₂_keys {R : α → β → Prop} {m : OrderedMap β}
    (h : ∀ e ∈ m.entries, ∃ y, R y e.2) :
  ∃ es : List (String × α), List.Forall₂ (fun e' e => e'.1 = e.1 ∧ R e'.2 e.2) es m.entries
  := by
  refine exists_forall₂ fun e he => ?_
  obtain ⟨y, hy⟩ := h e he
  exact ⟨(e.1, y), rfl, hy⟩

/-- Entries that correspond have the same keys. -/
theorem keys_of_forall₂ {R : α → β → Prop} {es : List (String × α)} {fs : List (String × β)}
    (h : List.Forall₂ (fun e f => e.1 = f.1 ∧ R e.2 f.2) es fs) :
  es.map Prod.fst = fs.map Prod.fst
  := by
  induction h with
  | nil => rfl
  | cons hhead _ ih => rw [List.map_cons, List.map_cons, hhead.1, ih]

namespace Json

variable {R : Json → α → Prop}

/-- What may be missing is spelled if it is there. -/
theorem exists_optionOf {o : Option α} (h : ∀ x ∈ o, ∃ j, R j x) :
  ∃ j, OptionOf R j o
  := by
  cases o with
  | none => exact ⟨.null, rfl⟩
  | some x => exact h x rfl

/-- A list whose members can be spelled can be spelled. -/
theorem exists_listOf {xs : List α} (h : ∀ x ∈ xs, ∃ j, R j x) :
  ∃ j, ListOf R j xs
  := by
  obtain ⟨items, hitems⟩ := exists_forall₂ h
  exact ⟨.array items, .list hitems⟩

/-- A map without repeated keys can be spelled if its values can. -/
theorem exists_mapOf {m : OrderedMap α} (distinct : m.Distinct)
    (h : ∀ e ∈ m.entries, ∃ j, R j e.2) :
  ∃ j, MapOf R j m
  := by
  obtain ⟨fields, hfields⟩ := exists_forall₂_keys h
  exact ⟨.object ⟨fields⟩, distinct, ⟨fields⟩, rfl, hfields⟩

end Json

/-- An action that is a name is spelled by this name. -/
theorem Action.IsName.exists_spelled {a : Action κ} (h : a.IsName) :
  ∃ j, a.Spelled j
  := by
  obtain ⟨name, rfl⟩ := h
  exact ⟨.string name, name, rfl, rfl⟩

/-- A guard that is a name is spelled by this name. -/
theorem GuardRef.IsName.exists_spelled {g : GuardRef} (h : g.IsName) :
  ∃ j, g.Spelled j
  := by
  obtain ⟨name, rfl⟩ := h
  exact ⟨.string name, name, rfl, rfl⟩

/-- An object spells a plain transition. -/
theorem TransitionDescriptor.Plain.exists_spelled {t : TransitionDescriptor κ} (h : t.Plain) :
  ∃ fields, t.Spelled (.object fields)
  := by
  obtain ⟨target, htarget⟩ := Json.exists_optionOf (R := Json.IsString) (o := t.target)
    fun s _ => ⟨.string s, rfl⟩
  obtain ⟨actions, hactions⟩ := Json.exists_listOf fun a ha => (h.actions a ha).exists_spelled
  obtain ⟨guard, hguard⟩ := Json.exists_optionOf fun g hg => (h.guard g hg).exists_spelled
  exact ⟨⟨[("target", target), ("actions", actions), ("cond", guard)]⟩,
    .object (by simp [OrderedMap.Distinct, OrderedMap.keys]) htarget hactions hguard⟩

/-- A reaction is spelled as an event or as its transition. -/
theorem Reaction.Plain.exists_spelled {r : Reaction (TransitionDescriptor κ)} (h : r.Plain) :
  ∃ j, r.Spelled j
  := by
  cases r with
  | event kind => exact ⟨.string kind, .event kind⟩
  | transition t =>
    obtain ⟨fields, hfields⟩ := (h t rfl).exists_spelled
    exact ⟨.object fields, .transition hfields⟩

/-- An object spells a plain invocation. -/
theorem InvokeDescriptor.Plain.exists_spelled {i : InvokeDescriptor κ} (h : i.Plain) :
  ∃ j, i.Spelled j
  := by
  obtain ⟨name, hname⟩ := h.source
  have hliteral : ∀ x ∈ i.data, ∃ j, ChildData.Spelled j x := by
    intro x hx
    obtain ⟨context, rfl, hdistinct⟩ := h.data x hx
    exact ⟨.object context, context, rfl, hdistinct, rfl⟩
  obtain ⟨data, hdata⟩ := Json.exists_optionOf hliteral
  obtain ⟨done, hdone⟩ := Json.exists_optionOf fun r hr => (h.onDone r hr).exists_spelled
  obtain ⟨error, herror⟩ := Json.exists_optionOf fun r hr => (h.onError r hr).exists_spelled
  exact ⟨.object ⟨[("id", .string i.id), ("src", .string name), ("data", data), ("onDone", done),
    ("onError", error)]⟩, .object (by simp [OrderedMap.Distinct, OrderedMap.keys]) rfl
      ⟨name, rfl, hname⟩ hdata hdone herror⟩

theorem OrderedMap.PlainCandidates.exists_spelled
    {m : OrderedMap (List (TransitionDescriptor κ))} (h : m.PlainCandidates) :
  ∃ j, Json.MapOf (Json.ListOf TransitionDescriptor.Spelled) j m
  := by
  refine Json.exists_mapOf h.distinct fun e he => Json.exists_listOf fun t ht => ?_
  obtain ⟨fields, hfields⟩ := (h.plain e he t ht).exists_spelled
  exact ⟨.object fields, hfields⟩

/-- If there is something for each value of a map then there is a map with the same keys that has
it. -/
theorem OrderedMap.Distinct.exists_at_keys {R : β → α → Prop} {m : OrderedMap α}
    (distinct : m.Distinct) (h : ∀ e ∈ m.entries, ∃ y, R y e.2) :
  ∃ n : OrderedMap β, n.keys = m.keys
    ∧ ∀ e ∈ n.entries, ∀ f ∈ m.entries, e.1 = f.1 → R e.2 f.2
  := by
  obtain ⟨es, hes⟩ := exists_forall₂_keys h
  exact ⟨⟨es⟩, keys_of_forall₂ hes, distinct.of_forall₂ hes⟩

/-- Something spells a plain state. -/
theorem StateDescriptor.Plain.exists_spelled {n : StateDescriptor κ} (h : n.Plain) :
  ∃ j, n.Spelled j
  := by
  induction h with
  | @parts n kind on entry exit after invoke metadata unrepeated _ ih =>
    obtain ⟨on, hon⟩ := on.exists_spelled
    obtain ⟨entry, hentry⟩ := Json.exists_listOf fun a ha => (entry a ha).exists_spelled
    obtain ⟨exit, hexit⟩ := Json.exists_listOf fun a ha => (exit a ha).exists_spelled
    obtain ⟨after, hafter⟩ := after.exists_spelled
    obtain ⟨invoke, hinvoke⟩ := Json.exists_listOf fun i hi => (invoke i hi).exists_spelled
    obtain ⟨metadata, hmetadata⟩ := Json.exists_optionOf (R := Meta.Spelled) fun v hv =>
      ⟨v, rfl, metadata v hv⟩
    obtain ⟨initial, hinitial⟩ := Json.exists_optionOf (R := Json.IsString) (o := n.initial)
      fun s _ => ⟨.string s, rfl⟩
    obtain ⟨inner, hkeys, hinner⟩ := unrepeated.exists_at_keys ih
    exact ⟨.object ⟨[("type", .string n.kind.name), ("on", on), ("entry", entry), ("exit", exit),
      ("after", after), ("invoke", invoke), ("meta", metadata), ("initial", initial),
      ("states", .object inner)]⟩, .object (by simp [OrderedMap.Distinct, OrderedMap.keys])
        (.inl rfl) hon hentry hexit hafter hinvoke hmetadata hinitial rfl hkeys unrepeated hinner⟩

/-- Something spells a plain machine. -/
theorem MachineDescriptor.Plain.exists_spelled {d : MachineDescriptor κ} (h : d.Plain) :
  ∃ j, d.Spelled j
  := by
  obtain ⟨id, hid⟩ := Json.exists_optionOf (R := Json.IsString) (o := d.id)
    fun s _ => ⟨.string s, rfl⟩
  obtain ⟨initial, hinitial⟩ := Json.exists_optionOf (R := Json.IsString) (o := d.initial)
    fun s _ => ⟨.string s, rfl⟩
  obtain ⟨metadata, hmetadata⟩ := Json.exists_optionOf (R := Meta.Spelled) fun v hv =>
    ⟨v, rfl, h.metadata v hv⟩
  obtain ⟨inner, hkeys, hinner⟩ := h.unrepeated.exists_at_keys
    fun e he => (h.states e he).exists_spelled
  exact ⟨.object ⟨[("id", id), ("initial", initial), ("type", .string d.kind.name),
    ("context", .object d.context), ("meta", metadata), ("states", .object inner)]⟩,
      .object (by simp [OrderedMap.Distinct, OrderedMap.keys]) hid hinitial (.inl rfl)
        ⟨rfl, h.context⟩ hmetadata rfl hkeys h.unrepeated hinner⟩

/-! ### Calls declare a plain descriptor -/

/-- A declaration of a transition. -/
def TransitionDescriptor.declaration (t : TransitionDescriptor κ) : TransitionDeclaration κ :=
  .calls (t.target.toList.map .toward ++ t.actions.map .act ++ t.guard.toList.map .guarded)

/-- Every transition is declared by the calls that set its parts. -/
theorem TransitionDescriptor.declares_declaration (t : TransitionDescriptor κ) :
  t.declaration.Declares t
  := by
  refine .calls ?_ ?_ ?_ <;>
  simp [TransitionCall.target?, TransitionCall.action?, TransitionCall.guard?, Function.comp_def]

/-- A declaration of a reaction. -/
def Reaction.declaration : Reaction (TransitionDescriptor κ) → Reaction (TransitionDeclaration κ)
  | event kind => .event kind
  | transition t => .transition t.declaration

/-- Every reaction is declared, as an event or as its transition. -/
theorem Reaction.declares_declaration (r : Reaction (TransitionDescriptor κ)) :
  Declares r.declaration r
  := by
  cases r with
  | event kind => exact .event kind
  | transition t => exact .transition t.declares_declaration

/-- A declaration of an invocation. -/
def InvokeDescriptor.declaration (i : InvokeDescriptor κ) : InvokeDeclaration κ where
  id := i.id
  source := i.source
  calls := i.data.toList.map .withData ++ i.onDone.toList.map (fun r => .whenDone r.declaration)
    ++ i.onError.toList.map fun r => .whenFailed r.declaration

theorem forall₂_map_self {R : β → α → Prop} {f : α → β} (h : ∀ x, R (f x) x) (xs : List α) :
  List.Forall₂ R (xs.map f) xs
  := List.forall₂_map_left_iff.mpr (List.forall₂_same.mpr fun x _ => h x)

/-- Every invocation is declared by the calls that set its parts. -/
theorem InvokeDescriptor.declares_declaration (i : InvokeDescriptor κ) :
  i.declaration.Declares i
  where
  id := rfl
  source := rfl
  data := by simp [declaration, InvokeCall.data?, Function.comp_def]
  onDone := by
    have hdone : i.declaration.calls.filterMap InvokeCall.done?
        = i.onDone.toList.map Reaction.declaration := by
      simp [declaration, InvokeCall.done?, Function.comp_def]
    rw [hdone]
    exact forall₂_map_self Reaction.declares_declaration _
  onError := by
    have hfailed : i.declaration.calls.filterMap InvokeCall.failed?
        = i.onError.toList.map Reaction.declaration := by
      simp [declaration, InvokeCall.failed?, Function.comp_def]
    rw [hfailed]
    exact forall₂_map_self Reaction.declares_declaration _

/-- Of a run of equal keys the first one counts. -/
theorem eraseDups_append_of_forall_eq {k : String} {ks rest : List String} (hne : ks ≠ [])
    (hk : ∀ x ∈ ks, x = k) (hrest : k ∉ rest) :
  (ks ++ rest).eraseDups = k :: rest.eraseDups
  := by
  cases ks with
  | nil => exact absurd rfl hne
  | cons x ks =>
    obtain ⟨rfl, hks⟩ := List.forall_mem_cons.mp hk
    have hfilter : (ks ++ rest).filter (fun y => !y == x) = rest := by
      rw [List.filter_append, List.filter_eq_nil_iff.mpr, List.filter_eq_self.mpr, List.nil_append]
      · intro y hy
        have hyx : y ≠ x := fun heq => hrest (heq ▸ hy)
        simp [hyx]
      · intro y hy
        simp [hks y hy]
    rw [List.cons_append, List.eraseDups_cons, hfilter]

namespace OrderedMap

/-- The values at each key, one after another. -/
def spread (f : α → β) (es : List (String × List α)) : List (String × β) :=
  es.flatMap fun e => e.2.map fun x => (e.1, f x)

variable {f : α → β} {es : List (String × List α)}

theorem fst_mem_of_mem_spread {x : String × β} (h : x ∈ spread f es) :
  x.1 ∈ es.map Prod.fst
  := by
  obtain ⟨e, he, hx⟩ := List.mem_flatMap.mp h
  obtain ⟨y, -, rfl⟩ := List.mem_map.mp hx
  exact List.mem_map_of_mem he

/-- Calls made for each member of each list mention the keys in their order. -/
theorem eraseDups_spread (distinct : (es.map Prod.fst).Nodup) (nonempty : ∀ e ∈ es, e.2 ≠ []) :
  ((spread f es).map Prod.fst).eraseDups = es.map Prod.fst
  := by
  induction es with
  | nil => rfl
  | cons e rest ih =>
    obtain ⟨hfresh, hrest⟩ := List.nodup_cons.mp distinct
    obtain ⟨hne, hothers⟩ := List.forall_mem_cons.mp nonempty
    rw [spread, List.flatMap_cons, List.map_append, List.map_map, List.map_cons,
      ← ih hrest hothers]
    apply eraseDups_append_of_forall_eq
    · simpa using hne
    · simp
    · intro hmem
      obtain ⟨x, hx, hkey⟩ := List.mem_map.mp hmem
      exact hfresh (hkey ▸ fst_mem_of_mem_spread hx)

/-- The calls made under a key are those for its list. -/
theorem filter_spread (distinct : (es.map Prod.fst).Nodup) {e : String × List α} (he : e ∈ es) :
  ((spread f es).filter fun x => x.1 = e.1).map Prod.snd = e.2.map f
  := by
  induction es with
  | nil => cases he
  | cons e' rest ih =>
    obtain ⟨hfresh, hrest⟩ := List.nodup_cons.mp distinct
    rw [spread, List.flatMap_cons, ← spread, List.filter_append, List.map_append]
    obtain rfl | he := List.mem_cons.mp he
    · have hnone : (spread f rest).filter (fun x => x.1 = e.1) = [] := by
        rw [List.filter_eq_nil_iff]
        intro x hx hkey
        exact hfresh (of_decide_eq_true hkey ▸ fst_mem_of_mem_spread hx)
      have hall : (e.2.map fun x => (e.1, f x)).filter (fun x => x.1 = e.1)
          = e.2.map fun x => (e.1, f x) := by
        rw [List.filter_eq_self, List.forall_mem_map]
        exact fun _ _ => decide_eq_true rfl
      rw [hnone, hall, List.map_nil, List.append_nil, List.map_map]
      rfl
    · have hother : e'.1 ≠ e.1 := fun hkey => hfresh (hkey ▸ List.mem_map_of_mem he)
      rw [ih hrest he]
      simp [hother]

/-- The values at each key of a map, one after another, list it. -/
theorem Distinct.listedBy {R : β → α → Prop} {m : OrderedMap (List α)} (distinct : m.Distinct)
    (nonempty : ∀ e ∈ m.entries, e.2 ≠ []) (h : ∀ x, R (f x) x) :
  m.ListedBy R (spread f m.entries)
  where
  keys := eraseDups_spread distinct nonempty
  values e he := by
    rw [filter_spread distinct he]
    exact forall₂_map_self h _

end OrderedMap

namespace StateDescriptor

/-- Calls that declare a state, given those that declare the states within. -/
def calls (n : StateDescriptor κ) (inner : OrderedMap (Bool × List (StateCall κ))) :
    List (StateCall κ) :=
  (OrderedMap.spread TransitionDescriptor.declaration n.on.entries).map
      (fun e => .onEvent e.1 e.2)
    ++ n.entry.map .onEntry ++ n.exit.map .onExit
    ++ (OrderedMap.spread TransitionDescriptor.declaration n.after.entries).map
      (fun e => .afterDelay e.1 e.2)
    ++ n.invoke.map (fun i => .invoking i.declaration)
    ++ n.metadata.toList.map .withMetadata ++ n.initial.toList.map .startingAt
    ++ inner.entries.map fun s => .state s.1 s.2.1 s.2.2

/-- A state is declared by the calls for its fields, once the states in it are. -/
theorem declared_calls {n : StateDescriptor κ} {inner : OrderedMap (Bool × List (StateCall κ))}
    (kind : n.kind ≠ .parallel) (on : n.on.PlainCandidates) (after : n.after.PlainCandidates)
    (keys : inner.keys = n.states.keys) (unrepeated : n.states.Distinct)
    (states : ∀ s ∈ inner.entries, ∀ m ∈ n.states.entries, s.1 = m.1 →
      m.2.Declared s.2.1 s.2.2) :
  n.Declared (n.kind = .final) (n.calls inner)
  := by
  have hon := on.distinct.listedBy on.nonempty TransitionDescriptor.declares_declaration
  have hafter := after.distinct.listedBy after.nonempty TransitionDescriptor.declares_declaration
  have hinvoke : (n.calls inner).filterMap StateCall.invocation?
      = n.invoke.map InvokeDescriptor.declaration := by
    simp [calls, StateCall.invocation?, Function.comp_def]
  have hstates : (n.calls inner).filterMap StateCall.state? = inner.entries := by
    simp [calls, StateCall.state?, Function.comp_def]
  refine .calls ?_ ?_ ?_ ?_ ?_ ?_ ?_ ?_ (hstates ▸ keys) unrepeated (hstates ▸ states)
  · cases hkind : n.kind with
    | parallel => exact absurd hkind kind
    | _ => rfl
  · simpa [calls, StateCall.event?, Function.comp_def] using hon
  · simp [calls, StateCall.entry?, Function.comp_def]
  · simp [calls, StateCall.exit?, Function.comp_def]
  · simpa [calls, StateCall.delay?, Function.comp_def] using hafter
  · rw [hinvoke]
    exact forall₂_map_self InvokeDescriptor.declares_declaration _
  · simp [calls, StateCall.metadata?, Function.comp_def]
  · simp [calls, StateCall.initial?, Function.comp_def]

/-- Calls declare a plain state. -/
theorem Plain.exists_declared {n : StateDescriptor κ} (h : n.Plain) :
  ∃ declaration : Bool × List (StateCall κ), n.Declared declaration.1 declaration.2
  := by
  induction h with
  | parts kind on _ _ after _ _ unrepeated _ ih =>
    obtain ⟨inner, keys, hinner⟩ := unrepeated.exists_at_keys ih
    exact ⟨(_, _), declared_calls kind on after keys unrepeated hinner⟩

end StateDescriptor

namespace MachineDescriptor

/-- Calls that declare a machine apart from its context, given those that declare its states. -/
def laterCalls (d : MachineDescriptor κ) (inner : OrderedMap (Bool × List (StateCall κ))) :
    List (MachineCall κ) :=
  d.initial.toList.map .startingAt ++ (if d.kind = .parallel then [.parallel] else [])
    ++ d.metadata.toList.map .withMetadata
    ++ inner.entries.map fun s => .state s.1 s.2.1 s.2.2

variable {d : MachineDescriptor κ} {inner : OrderedMap (Bool × List (StateCall κ))}

/-- After the first call the context is left alone. -/
theorem entries_of_mem_laterCalls {call : MachineCall κ} (h : call ∈ d.laterCalls inner) :
  call.entries = [] ∧ ∀ context, call ≠ .inContext context
  := by
  simp only [laterCalls, List.mem_append, List.mem_map, List.mem_ite_nil_right,
    List.mem_singleton] at h
  obtain ((⟨_, _, rfl⟩ | ⟨-, rfl⟩) | ⟨_, _, rfl⟩) | ⟨_, _, rfl⟩ := h <;> simp [MachineCall.entries]

/-- The calls mark the machine as parallel when it is. -/
theorem any_isParallel_laterCalls :
  (d.laterCalls inner).any MachineCall.isParallel = decide (d.kind = .parallel)
  := by
  by_cases hkind : d.kind = .parallel <;> simp [laterCalls, hkind, MachineCall.isParallel]

/-- A machine is declared by the calls for its fields, once its states are. -/
theorem declared_laterCalls {id : String} (hid : d.id = some id) (kind : d.kind ≠ .final)
    (keysOnce : d.context.Distinct) (keys : inner.keys = d.states.keys)
    (unrepeated : d.states.Distinct)
    (states : ∀ s ∈ inner.entries, ∀ n ∈ d.states.entries, s.1 = n.1 →
      n.2.Declared s.2.1 s.2.2) :
  d.Declared id (.inContext d.context :: d.laterCalls inner)
  := by
  have hstates : (d.laterCalls inner).filterMap MachineCall.state? = inner.entries := by
    simp [laterCalls, MachineCall.state?, Function.comp_def]
  refine ⟨hid, ?_, ?_, ?_, keysOnce, ?_, ?_, hstates ▸ keys, unrepeated, hstates ▸ states⟩
  · rw [List.filterMap_cons_none rfl]
    simp [laterCalls, MachineCall.initial?, Function.comp_def]
  · rw [List.any_cons, any_isParallel_laterCalls]
    cases hkind : d.kind with
    | final => exact absurd hkind kind
    | _ => rfl
  · have hlater : (d.laterCalls inner).flatMap MachineCall.entries = [] :=
      List.flatMap_eq_nil_iff.mpr fun call hcall => (entries_of_mem_laterCalls hcall).1
    rw [List.flatMap_cons, hlater, List.append_nil]
    rfl
  · intro before context after hcalls
    cases before with
    | nil => rfl
    | cons call before =>
      obtain ⟨-, hlater⟩ := List.cons.inj hcalls
      have hmem : .inContext context ∈ d.laterCalls inner := by simp [hlater]
      exact absurd rfl ((entries_of_mem_laterCalls hmem).2 context)
  · rw [List.filterMap_cons_none rfl]
    simp [laterCalls, MachineCall.metadata?, Function.comp_def]

/-- Calls declare a plain machine. -/
theorem Plain.exists_declared (h : d.Plain) :
  ∃ id calls, d.Declared id calls
  := by
  obtain ⟨id, hid⟩ := h.id
  obtain ⟨inner, keys, hinner⟩ := h.unrepeated.exists_at_keys
    fun e he => (h.states e he).exists_declared
  have keysOnce : d.context.Distinct := by
    cases h.context with
    | object distinct _ => exact distinct
  exact ⟨id, _, declared_laterCalls hid h.kind keysOnce keys h.unrepeated hinner⟩

end MachineDescriptor

/-! ### Nothing else is declared and spelled -/

theorem Json.ListOf.forall_mem {P : α → Prop} {R : Json → α → Prop} {j : Json} {xs : List α}
    (h : Json.ListOf R j xs) (hR : ∀ j x, R j x → P x) :
  ∀ x ∈ xs, P x
  := by
  intro x hx
  cases h with
  | list each =>
    obtain ⟨j, -, hj⟩ := exists_of_forall₂_mem each hx
    exact hR j x hj
  | item only =>
    obtain rfl := List.mem_singleton.mp hx
    exact hR _ _ only

namespace OrderedMap

variable {P : α → Prop} {fields : OrderedMap Json} {name : String} {R : Json → α → Prop}

/-- A field that is spelled has its default, or is written in the fields. -/
theorem Spells.default_or {default x : α} (h : fields.Spells name R default x) :
  x = default ∨ ∃ j, R j x
  := by
  rw [Spells] at h
  split at h
  · next j _ => exact .inr ⟨j, h⟩
  · exact .inl h

/-- What holds of every spelled item holds of the items of a field. -/
theorem Spells.forall_mem_list {xs : List α} (h : fields.Spells name (Json.ListOf R) [] xs)
    (hR : ∀ j x, R j x → P x) :
  ∀ x ∈ xs, P x
  := by
  obtain rfl | ⟨j, hj⟩ := h.default_or
  · exact List.forall_mem_nil _
  · exact hj.forall_mem hR

theorem Spells.forall_mem_option {o : Option α}
    (h : fields.Spells name (Json.OptionOf R) none o) (hR : ∀ j x, R j x → P x) :
  ∀ x ∈ o, P x
  := by
  rintro x rfl
  obtain hnone | ⟨j, hj⟩ := h.default_or
  · cases hnone
  · exact hR j x hj

theorem Spells.forall_mem_map {m : OrderedMap (List α)}
    (h : fields.Spells name (Json.MapOf (Json.ListOf R)) .empty m) (hR : ∀ j x, R j x → P x) :
  ∀ e ∈ m.entries, ∀ x ∈ e.2, P x
  := by
  intro e he
  obtain rfl | ⟨j, -, entries, -, hentries⟩ := h.default_or
  · cases he
  · obtain ⟨e', -, -, he'⟩ := exists_of_forall₂_mem hentries he
    exact he'.forall_mem hR

/-- Where keys are the same there is an entry for each entry. -/
theorem exists_at_key {es : List (String × β)} {m : OrderedMap α} (keys : es.map Prod.fst = m.keys)
    {e : String × α} (he : e ∈ m.entries) :
  ∃ x ∈ es, x.1 = e.1
  := by
  have hkey : e.1 ∈ m.keys := List.mem_map_of_mem he
  rw [← keys] at hkey
  exact List.mem_map.mp hkey

/-- Declarations that are gathered by keys leave no key twice. -/
theorem ListedBy.distinct {S : β → α → Prop} {m : OrderedMap (List α)} {es : List (String × β)}
    (h : m.ListedBy S es) :
  m.Distinct
  := by
  rw [Distinct, ← h.keys, ← keys_ofList]
  exact distinct_ofList es

/-- Declarations that are gathered by keys leave no empty list. -/
theorem ListedBy.nonempty {S : β → α → Prop} {m : OrderedMap (List α)} {es : List (String × β)}
    (h : m.ListedBy S es) :
  ∀ e ∈ m.entries, e.2 ≠ []
  := by
  intro e he hempty
  have hkey : e.1 ∈ es.map Prod.fst := by
    have hmem : e.1 ∈ m.keys := List.mem_map_of_mem he
    rw [← h.keys] at hmem
    exact List.mem_eraseDups.mp hmem
  obtain ⟨x, hx, hsame⟩ := List.mem_map.mp hkey
  have hvalues := h.values e he
  rw [hempty, List.forall₂_nil_right_iff, List.map_eq_nil_iff, List.filter_eq_nil_iff] at hvalues
  exact hvalues x hx (decide_eq_true hsame)

end OrderedMap

/-- A transition that is spelled names its guard and its actions. -/
theorem TransitionDescriptor.Spelled.plain {j : Json} {t : TransitionDescriptor κ}
    (h : t.Spelled j) :
  t.Plain
  := by
  cases h with
  | target key => exact ⟨List.forall_mem_nil _, by simp [ofTarget]⟩
  | object _ _ actions guard =>
    exact ⟨actions.forall_mem_list fun _ _ ⟨name, _, hname⟩ => ⟨name, hname⟩,
      guard.forall_mem_option fun _ _ ⟨name, _, hname⟩ => ⟨name, hname⟩⟩

/-- A reaction that is spelled has names only. -/
theorem Reaction.Spelled.plain {j : Json} {r : Reaction (TransitionDescriptor κ)}
    (h : r.Spelled j) :
  r.Plain
  := by
  rintro t rfl
  cases h with
  | transition spelled => exact spelled.plain

/-- An invocation that is spelled names its service and gives its data. -/
theorem InvokeDescriptor.Spelled.plain {j : Json} {i : InvokeDescriptor κ} (h : i.Spelled j) :
  i.Plain
  := by
  cases h with
  | object _ _ source data onDone onError =>
    obtain ⟨name, -, hname⟩ := source
    refine ⟨⟨name, hname⟩, data.forall_mem_option ?_,
      onDone.forall_mem_option fun _ _ => Reaction.Spelled.plain,
      onError.forall_mem_option fun _ _ => Reaction.Spelled.plain⟩
    rintro _ _ ⟨context, rfl, hdistinct, rfl⟩
    exact ⟨context, rfl, hdistinct⟩

/-- A state that calls declare and a value spells is plain. -/
theorem StateDescriptor.Spelled.plain {j : Json} {n : StateDescriptor κ} (spelled : n.Spelled j)
    {final : Bool} {calls : List (StateCall κ)} (declared : n.Declared final calls) :
  n.Plain
  := by
  induction spelled generalizing final calls with
  | @object fields inner n _ _ on entry exit after invoke metadata _ _ keys unrepeated _ ih =>
    cases declared with
    | calls kind on' _ _ after' _ _ _ keys' _ states' =>
      refine .parts ?_ ⟨on'.distinct, on'.nonempty, ?_⟩ ?_ ?_ ⟨after'.distinct, after'.nonempty, ?_⟩
        ?_ ?_ unrepeated ?_
      · rw [kind]
        cases final <;> simp
      · exact on.forall_mem_map fun _ _ => TransitionDescriptor.Spelled.plain
      · exact entry.forall_mem_list fun _ _ ⟨name, _, hname⟩ => ⟨name, hname⟩
      · exact exit.forall_mem_list fun _ _ ⟨name, _, hname⟩ => ⟨name, hname⟩
      · exact after.forall_mem_map fun _ _ => TransitionDescriptor.Spelled.plain
      · exact invoke.forall_mem_list fun _ _ => InvokeDescriptor.Spelled.plain
      · exact metadata.forall_mem_option fun _ _ ⟨hsame, hdistinct⟩ => hsame ▸ hdistinct
      · intro m hm
        obtain ⟨e, he, hej⟩ := OrderedMap.exists_at_key keys hm
        obtain ⟨s, hs, hsm⟩ := OrderedMap.exists_at_key keys' hm
        exact ih e he m hm hej (states' s hs m hm hsm)

/-- A machine that calls declare and a value spells is plain. -/
theorem MachineDescriptor.Spelled.plain {j : Json} {d : MachineDescriptor κ} (spelled : d.Spelled j)
    {id : String} {calls : List (MachineCall κ)} (declared : d.Declared id calls) :
  d.Plain
  := by
  cases spelled with
  | @object fields inner d _ _ _ _ context metadata _ keys unrepeated states =>
    refine ⟨⟨id, declared.id⟩, ?_, ?_, ?_, unrepeated, ?_⟩
    · rw [declared.kind]
      split <;> simp
    · obtain hempty | ⟨j, rfl, hdistinct⟩ := context.default_or
      · rw [hempty]
        exact .object .nil (List.forall_mem_nil _)
      · exact hdistinct
    · exact metadata.forall_mem_option fun _ _ ⟨hsame, hdistinct⟩ => hsame ▸ hdistinct
    · intro m hm
      obtain ⟨e, he, hej⟩ := OrderedMap.exists_at_key keys hm
      obtain ⟨s, hs, hsm⟩ := OrderedMap.exists_at_key declared.keys hm
      exact (states e he m hm hej).plain (declared.states s hs m hm hsm)

/-! ### Metadata that are null -/

/-- No metadata in a state or in the states within are null. -/
inductive StateDescriptor.NoNulls : StateDescriptor κ → Prop where
  | parts {n : StateDescriptor κ} (metadata : n.metadata ≠ some .null)
      (states : ∀ e ∈ n.states.entries, NoNulls e.2) : NoNulls n

/-- No metadata in a machine are null. -/
structure MachineDescriptor.NoNulls (d : MachineDescriptor κ) : Prop where
  metadata : d.metadata ≠ some .null
  states : ∀ e ∈ d.states.entries, e.2.NoNulls

/-- Dropping null metadata changes nothing just when there is none. -/
theorem presentMeta_eq_self_iff {o : Option Meta} :
  presentMeta o = o ↔ o ≠ some .null
  := by
  cases o with
  | none => simp [presentMeta]
  | some v => cases v <;> simp [presentMeta, Option.filter, Json.isNull]

/-- A map over values changes nothing just when it changes no value. -/
theorem OrderedMap.map_eq_self_iff {f : α → α} {m : OrderedMap α} :
  m.map f = m ↔ ∀ e ∈ m.entries, f e.2 = e.2
  := by
  obtain ⟨es⟩ := m
  rw [OrderedMap.map, OrderedMap.mk.injEq]
  conv_lhs => rhs; rw [← List.map_id es]
  rw [List.map_inj_left]
  simp [Prod.ext_iff]

/-- A state is as it was just if no metadata in it were null. -/
theorem StateDescriptor.Plain.withoutNulls_eq_self_iff {n : StateDescriptor κ} (h : n.Plain) :
  n.withoutNulls = n ↔ n.NoNulls
  := by
  induction h with
  | @parts n _ _ _ _ _ _ _ _ _ ih =>
    rw [withoutNulls_eq]
    constructor
    · intro heq
      refine .parts (presentMeta_eq_self_iff.mp (congrArg metadata heq)) fun e he => ?_
      exact (ih e he).mp (OrderedMap.map_eq_self_iff.mp (congrArg StateDescriptor.states heq) e he)
    · rintro ⟨hmetadata, hstates⟩
      have hmap : n.states.map withoutNulls = n.states :=
        OrderedMap.map_eq_self_iff.mpr fun e he => (ih e he).mpr (hstates e he)
      rw [presentMeta_eq_self_iff.mpr hmetadata, hmap]
      cases n
      rfl

/-- A machine is as it was just if no metadata in it were null. -/
theorem MachineDescriptor.Plain.withoutNulls_eq_self_iff {d : MachineDescriptor κ} (h : d.Plain) :
  d.withoutNulls = d ↔ d.NoNulls
  := by
  obtain ⟨did, dinitial, dkind, dcontext, dmetadata, dstates⟩ := d
  simp only [withoutNulls, MachineDescriptor.mk.injEq, true_and, presentMeta_eq_self_iff,
    OrderedMap.map_eq_self_iff]
  constructor
  · rintro ⟨hmetadata, hstates⟩
    exact ⟨hmetadata, fun e he => (h.states e he).withoutNulls_eq_self_iff.mp (hstates e he)⟩
  · rintro ⟨hmetadata, hstates⟩
    exact ⟨hmetadata, fun e he => (h.states e he).withoutNulls_eq_self_iff.mpr (hstates e he)⟩

/-! ### Issues do not depend on metadata -/

section

variable {b : Bundle κ} {siblings siblings' : OrderedMap (StateDescriptor κ)}

theorem OrderedMap.contains_congr {m : OrderedMap α} {n : OrderedMap β} (h : m.keys = n.keys) :
  m.contains = n.contains
  := by
  funext k
  rw [Bool.eq_iff_iff, contains_iff, contains_iff, h]

/-- The issues of a transition depend on the names of the states it may lead to. -/
theorem TransitionDescriptor.issues_congr (h : siblings'.keys = siblings.keys) :
  issues b siblings' = issues b siblings
  := by
  funext state event t
  rw [issues, issues, OrderedMap.contains_congr h]

/-- The issues of an invocation depend on the names of the states beside it. -/
theorem InvokeDescriptor.issues_congr (h : siblings'.keys = siblings.keys) :
  issues b siblings' = issues b siblings
  := by
  have hreaction : Reaction.issues b siblings' = Reaction.issues b siblings := by
    funext state label r
    cases r with
    | event kind => rfl
    | transition t => rw [Reaction.issues, Reaction.issues, TransitionDescriptor.issues_congr h]
  funext state i
  rw [issues, issues, hreaction]

theorem invokeIssues_congr (h : siblings'.keys = siblings.keys) (state : String)
    (seen : List String) (is : List (InvokeDescriptor κ)) :
  invokeIssues b siblings' state seen is = invokeIssues b siblings state seen is
  := by
  induction is generalizing seen with
  | nil => rfl
  | cons i rest ih => rw [invokeIssues, invokeIssues, InvokeDescriptor.issues_congr h, ih]

theorem OrderedMap.keys_map (f : α → β) (m : OrderedMap α) :
  (m.map f).keys = m.keys
  := by
  rw [keys, OrderedMap.map, List.map_map]
  rfl

/-- There are the same issues about a state without metadata that are null, among such states. -/
theorem StateDescriptor.issues_withoutNulls (n : StateDescriptor κ) (inRegion : Bool)
    (key : String) :
  n.withoutNulls.issues b (siblings.map withoutNulls) inRegion key
    = n.issues b siblings inRegion key
  := by
  have h := OrderedMap.keys_map withoutNulls siblings
  have hdelay : delayIssues b (siblings.map withoutNulls) = delayIssues b siblings := by
    funext state delay candidates
    rw [delayIssues, delayIssues, TransitionDescriptor.issues_congr h]
  rw [withoutNulls_eq, issues, issues, TransitionDescriptor.issues_congr h, hdelay,
    invokeIssues_congr h]
  simp [OrderedMap.isEmpty, OrderedMap.map]

/-- Metadata is no part of what is wrong with a chart. -/
theorem chartIssues_withoutNulls (inRegion : Bool) (initial : String) :
  chartIssues b inRegion initial (siblings.map StateDescriptor.withoutNulls)
    = chartIssues b inRegion initial siblings
  := by
  have hentries : (siblings.map StateDescriptor.withoutNulls).entries.flatMap
        (fun e => e.2.issues b (siblings.map StateDescriptor.withoutNulls) inRegion e.1)
      = siblings.entries.flatMap fun e => e.2.issues b siblings inRegion e.1 := by
    refine (List.flatMap_map _ _ _).trans ?_
    simp only [StateDescriptor.issues_withoutNulls]
  rw [chartIssues, chartIssues, hentries,
    OrderedMap.contains_congr (OrderedMap.keys_map StateDescriptor.withoutNulls siblings)]

/-- Metadata is no part of what is wrong with a region. -/
theorem regionIssues_withoutNulls (key : String) (n : StateDescriptor κ) :
  regionIssues b key n.withoutNulls = regionIssues b key n
  := by
  rw [StateDescriptor.withoutNulls_eq, regionIssues, regionIssues]
  cases n.initial with
  | none => rfl
  | some initial => simp only [chartIssues_withoutNulls, StateDescriptor.hasHandlers]

/-- There are the same issues about a machine without metadata that are null. -/
theorem MachineDescriptor.issues_withoutNulls (d : MachineDescriptor κ) :
  d.withoutNulls.issues b = d.issues b
  := by
  have hregions : (d.states.map StateDescriptor.withoutNulls).entries.flatMap
        (fun e => regionIssues b e.1 e.2)
      = d.states.entries.flatMap fun e => regionIssues b e.1 e.2 := by
    refine (List.flatMap_map _ _ _).trans ?_
    simp only [regionIssues_withoutNulls]
  rw [issues, issues, withoutNulls, hregions]
  cases d.initial with
  | none => rfl
  | some initial =>
    simp only [chartIssues_withoutNulls]
    rfl

end

/-- Why no machine is compiled: there is none to start with, or there are issues. -/
def MachineDescriptor.buildError? (d : MachineDescriptor κ) (b : Bundle κ) : Option BuildError :=
  if d.LacksInitial then some (.missingInitialState (Machine.nameOf d.id))
  else if d.issues b ≠ [] then some (.invalidDefinition (Machine.nameOf d.id) (d.issues b))
  else none

/-- Compilation fails with just this error, if any. -/
theorem Machine.compile_eq_error_iff {d : MachineDescriptor κ} {b : Bundle κ} {e : BuildError} :
  (Machine.compile d b).value = .error e ↔ d.buildError? b = some e
  := by
  rw [MachineDescriptor.buildError?]
  split_ifs with hlacks hissues
  · simp [compile, MachineDescriptor.topology, hlacks.1, hlacks.2]
  · obtain ⟨topology, htopology⟩ := MachineDescriptor.exists_topology (b := b) hlacks
    simp [compile, htopology, hissues]
  · obtain ⟨topology, htopology⟩ := MachineDescriptor.exists_topology (b := b) hlacks
    have clean : d.issues b = [] := not_not.mp hissues
    obtain ⟨s, hs⟩ := MachineDescriptor.exists_initial clean htopology
    simp [compile, htopology, clean, hs]

/-- The errors of a machine are those of the machine without metadata that are null. -/
theorem MachineDescriptor.buildError?_withoutNulls (d : MachineDescriptor κ) (b : Bundle κ) :
  d.withoutNulls.buildError? b = d.buildError? b
  := by
  rw [buildError?, buildError?, issues_withoutNulls]
  rfl

/-! ### The main statement -/

namespace MachineDescriptor

/-- The plain machines are those that calls declare and a value spells.  Whichever calls and values
these are, with every bundle both lead to the same errors, if any.  The descriptor that is made is
the one that is read just if no metadata are null, and then both lead to the same machine. -/
theorem builds_alike (d : MachineDescriptor κ) :
  (d.Plain ↔ (∃ id calls, d.Declared id calls) ∧ ∃ j, d.Spelled j)
    ∧ ∀ {id : String} {calls : List (MachineCall κ)} {j : Json},
        d.Declared id calls → d.Spelled j →
          ∃ read : MachineDescriptor κ, ofJson j = .ok read
            ∧ (∀ b e, (Machine.compile (MachineCall.make id calls) b).value = .error e
                ↔ (Machine.compile read b).value = .error e)
            ∧ (MachineCall.make id calls = read ↔ d.NoNulls)
            ∧ (d.NoNulls → ∀ b,
                Machine.compile (MachineCall.make id calls) b = Machine.compile read b)
  := by
  constructor
  · constructor
    · intro plain
      exact ⟨plain.exists_declared, plain.exists_spelled⟩
    · rintro ⟨⟨id, calls, declared⟩, j, spelled⟩
      exact spelled.plain declared
  · intro id calls j declared spelled
    have hsame : d = d.withoutNulls ↔ d.NoNulls :=
      eq_comm.trans (spelled.plain declared).withoutNulls_eq_self_iff
    refine ⟨d.withoutNulls, spelled.read, ?_⟩
    rw [declared.make_eq]
    refine ⟨?_, hsame, ?_⟩
    · intro b e
      rw [Machine.compile_eq_error_iff, Machine.compile_eq_error_iff, buildError?_withoutNulls]
    · intro hnulls b
      rw [← hsame.mpr hnulls]

/-- A desk that is busy after a while, or when it is called and ready. -/
def desk : MachineDescriptor String where
  id := some "desk"
  initial := some "idle"
  kind := .atomic
  context := .empty
  metadata := none
  states := ⟨[
    ("idle", { StateDescriptor.empty with
      on := ⟨[("CALL", [⟨some "busy", [], some (.named "ready")⟩, ⟨none, [.named "ring"], none⟩])]⟩
      after := ⟨[("500", [.ofTarget "busy"])]⟩ }),
    ("busy", { StateDescriptor.empty with
      kind := .final
      entry := [.named "ring"]
      metadata := some (.string "last") })]⟩

/-- Calls that declare the desk, those for one event apart. -/
def deskCalls : List (MachineCall String) :=
  [.state "idle" false
    [.onEvent "CALL" (.calls [.guarded (.named "ready"), .toward "busy"]),
      .afterMillis 500 (.target "busy"),
      .onEvent "CALL" (.calls [.act (.named "ring")])],
    .startingAt "idle",
    .state "busy" true [.withMetadata (.string "last"), .onEntry (.named "ring")]]

/-- A value that spells the desk, in shorthand. -/
def deskJson : Json :=
  .object ⟨[("id", .string "desk"),
    ("states", .object ⟨[
      ("idle", .object ⟨[("after", .object ⟨[("500", .string "busy")]⟩),
        ("on", .object ⟨[("CALL", .array [
          .object ⟨[("cond", .string "ready"), ("target", .string "busy")]⟩,
          .object ⟨[("actions", .string "ring")]⟩])]⟩)]⟩),
      ("busy", .object ⟨[("meta", .string "last"), ("entry", .array [.string "ring"]),
        ("type", .string "final")]⟩)]⟩),
    ("initial", .string "idle")]⟩

theorem declared_desk :
  desk.Declared "desk" deskCalls
  := by
  have hdistinct : desk.states.Distinct := by simp [desk, OrderedMap.Distinct, OrderedMap.keys]
  refine ⟨rfl, rfl, rfl, rfl, .nil, ?_, rfl, rfl, hdistinct, ?_⟩
  · intro before context after h
    have hmem : MachineCall.inContext context ∈ deskCalls := by simp [h]
    simp [deskCalls] at hmem
  · refine hdistinct.of_forall₂
      (R := fun (s : Bool × List (StateCall String)) n => n.Declared s.1 s.2) ?_
    refine .cons ⟨rfl, .calls rfl ⟨rfl, ?_⟩ rfl rfl ⟨rfl, ?_⟩ .nil rfl rfl rfl .nil
        (List.forall_mem_nil _)⟩
      (.cons ⟨rfl, .calls rfl ⟨rfl, List.forall_mem_nil _⟩ rfl rfl ⟨rfl, List.forall_mem_nil _⟩ .nil
        rfl rfl rfl .nil (List.forall_mem_nil _)⟩ .nil)
    · exact List.forall_mem_singleton.mpr
        (.cons (.calls rfl rfl rfl) (.cons (.calls rfl rfl rfl) .nil))
    · exact List.forall_mem_singleton.mpr (.cons (.target "busy") .nil)

theorem spelled_desk :
  desk.Spelled deskJson
  := by
  have hdistinct : desk.states.Distinct := by simp [desk, OrderedMap.Distinct, OrderedMap.keys]
  refine .object (by simp [OrderedMap.Distinct, OrderedMap.keys]) rfl rfl rfl rfl rfl rfl rfl
    hdistinct ?_
  refine hdistinct.of_forall₂ (R := fun j n => n.Spelled j) ?_
  refine .cons ⟨rfl, .object (by simp [OrderedMap.Distinct, OrderedMap.keys])
      rfl ?_ rfl rfl ?_ rfl rfl rfl rfl rfl .nil (List.forall_mem_nil _)⟩
    (.cons ⟨rfl, .object (by simp [OrderedMap.Distinct, OrderedMap.keys])
      (.inl rfl) rfl ?_ rfl rfl rfl ?_ rfl rfl rfl .nil (List.forall_mem_nil _)⟩ .nil)
  · refine ⟨List.nodup_singleton _, _, rfl, .cons ⟨rfl, .list (.cons ?_ (.cons ?_ .nil))⟩ .nil⟩
    · exact .object (by simp [OrderedMap.Distinct, OrderedMap.keys]) rfl rfl ⟨"ready", rfl, rfl⟩
    · exact .object (List.nodup_singleton _) rfl (.item ⟨"ring", rfl, rfl⟩) rfl
  · exact ⟨List.nodup_singleton _, _, rfl, .cons ⟨rfl, .item (.target "busy")⟩ .nil⟩
  · exact .list (.cons ⟨"ring", rfl, rfl⟩ .nil)
  · exact ⟨rfl, .string "last"⟩

theorem noNulls_desk :
  desk.NoNulls
  := by
  refine ⟨by simp [desk], ?_⟩
  simp only [desk, List.forall_mem_cons]
  exact ⟨.parts (by simp [StateDescriptor.empty]) (List.forall_mem_nil _),
    .parts (by simp) (List.forall_mem_nil _), List.forall_mem_nil _⟩

theorem desk_builds_alike :
  desk.Plain ∧ desk.NoNulls ∧ desk.Declared "desk" deskCalls ∧ desk.Spelled deskJson
    ∧ ∃ read : MachineDescriptor String, ofJson deskJson = .ok read
      ∧ ∀ b, Machine.compile (MachineCall.make "desk" deskCalls) b = Machine.compile read b
  := by
  obtain ⟨hplain, halike⟩ := builds_alike desk
  obtain ⟨read, hread, -, -, hsame⟩ := halike declared_desk spelled_desk
  exact ⟨hplain.mpr ⟨⟨"desk", deskCalls, declared_desk⟩, deskJson, spelled_desk⟩, noNulls_desk,
    declared_desk, spelled_desk, read, hread, hsame noNulls_desk⟩

/-- A bell whose only state has metadata that are null. -/
def bell : MachineDescriptor String where
  id := some "bell"
  initial := some "idle"
  kind := .atomic
  context := .empty
  metadata := none
  states := ⟨[("idle", { StateDescriptor.empty with
    entry := [.named "note"]
    metadata := some .null })]⟩

def bellCalls : List (MachineCall String) :=
  [.startingAt "idle", .state "idle" false [.withMetadata .null, .onEntry (.named "note")]]

def bellJson : Json :=
  .object ⟨[("id", .string "bell"), ("initial", .string "idle"),
    ("states", .object ⟨[("idle", .object ⟨[("meta", .null), ("entry", .string "note")]⟩)]⟩)]⟩

theorem declared_bell :
  bell.Declared "bell" bellCalls
  := by
  have hdistinct : bell.states.Distinct := List.nodup_singleton _
  refine ⟨rfl, rfl, rfl, rfl, .nil, ?_, rfl, rfl, hdistinct, ?_⟩
  · intro before context after h
    have hmem : MachineCall.inContext context ∈ bellCalls := by simp [h]
    simp [bellCalls] at hmem
  · refine hdistinct.of_forall₂
      (R := fun (s : Bool × List (StateCall String)) n => n.Declared s.1 s.2) ?_
    exact .cons ⟨rfl, .calls rfl ⟨rfl, List.forall_mem_nil _⟩ rfl rfl ⟨rfl, List.forall_mem_nil _⟩
      .nil rfl rfl rfl .nil (List.forall_mem_nil _)⟩ .nil

theorem spelled_bell :
  bell.Spelled bellJson
  := by
  have hdistinct : bell.states.Distinct := List.nodup_singleton _
  refine .object (by simp [OrderedMap.Distinct, OrderedMap.keys]) rfl rfl rfl rfl rfl rfl rfl
    hdistinct ?_
  refine hdistinct.of_forall₂ (R := fun j n => n.Spelled j) ?_
  refine .cons ⟨rfl, ?_⟩ .nil
  exact .object (by simp [OrderedMap.Distinct, OrderedMap.keys]) rfl rfl
    (.item ⟨"note", rfl, rfl⟩) rfl rfl rfl ⟨rfl, .null⟩ rfl rfl rfl .nil
    (List.forall_mem_nil _)

/-- The bell has the metadata if it is made by calls, and none if it is read, also where its entry
action is carried out. -/
theorem bell_builds_apart :
  bell.Plain ∧ bell.Declared "bell" bellCalls ∧ bell.Spelled bellJson
    ∧ ∃ read : MachineDescriptor String, ofJson bellJson = .ok read
      ∧ ∃ b made found,
        (Machine.compile (MachineCall.make "bell" bellCalls) b).value = .ok made
          ∧ (Machine.compile read b).value = .ok found
          ∧ made.initial.metadata = some .null ∧ found.initial.metadata = none
          ∧ made.initial.actions = [⟨"note", "note", some .null⟩]
          ∧ found.initial.actions = [⟨"note", "note", none⟩]
  := ⟨spelled_bell.plain declared_bell, declared_bell, spelled_bell, bell.withoutNulls, rfl,
    Bundle.empty.withEffect "note" "note", _, _, rfl, rfl, rfl, rfl, rfl, rfl⟩

end MachineDescriptor

end Statechart
