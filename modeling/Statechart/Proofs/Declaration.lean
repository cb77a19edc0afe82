import Statechart.Descriptor.Builder
import Statechart.Proofs.Spelling

/-!
# What calls declare

Calls that extend a descriptor step by step, as data, and the descriptors that they declare: each
part has its calls in order, whatever calls stand between them.  Such calls make the descriptor
that they declare (`MachineDescriptor.Declared.make_eq`).
-/

namespace Statechart

variable {κ α β : Type}

theorem map_eq_of_forall₂ {f : α → β} {R : α → β → Prop} (hf : ∀ x y, R x y → f x = y)
    {xs : List α} {ys : List β} (h : List.Forall₂ R xs ys) :
  xs.map f = ys
  := by
  have hsame : List.Forall₂ Eq (xs.map f) ys := List.forall₂_map_left_iff.mpr (h.imp hf)
  rwa [List.forall₂_eq_eq_eq] at hsame

theorem getLast?_toList (o : Option α) :
  o.toList.getLast? = o
  := by
  cases o <;> rfl

/-! ### Lists at keys -/

namespace OrderedMap

/-- Appends values to the lists at their keys, one after another. -/
def appendAll (m : OrderedMap (List α)) (es : List (String × α)) : OrderedMap (List α) :=
  es.foldl (fun acc e => acc.append e.1 e.2) m

/-- Entries list a map: its keys are in the order of their first entries, and at each key there
is what its entries say, in order. -/
structure ListedBy (R : α → β → Prop) (m : OrderedMap (List β)) (es : List (String × α)) :
    Prop where
  keys : (es.map Prod.fst).eraseDups = m.keys
  values : ∀ e ∈ m.entries, List.Forall₂ R ((es.filter fun x => x.1 = e.1).map Prod.snd) e.2

/-- Maps with the same keys in the same order and the same values are the same. -/
theorem eq_of_keys {m n : OrderedMap α} (keys : m.keys = n.keys)
    (h : ∀ e ∈ m.entries, ∀ f ∈ n.entries, e.1 = f.1 → e.2 = f.2) :
  m = n
  := by
  have hsame := forall₂_entries keys h
  have hfun : (fun e f : String × α => e.1 = f.1 ∧ e.2 = f.2) = Eq := by
    funext e f
    exact propext Prod.ext_iff.symm
  rw [hfun, List.forall₂_eq_eq_eq] at hsame
  exact congrArg OrderedMap.mk hsame

/-- Lists are gathered under the keys in the order in which these first come. -/
theorem keys_appendAll {m : OrderedMap (List α)} {n : OrderedMap α} (h : m.keys = n.keys)
    (es : List (String × α)) :
  (m.appendAll es).keys = (n.insertAll es).keys
  := by
  induction es generalizing m n with
  | nil => exact h
  | cons e rest ih =>
    refine ih (m := m.append e.1 e.2) (n := n.insert e.1 e.2) ?_
    rw [OrderedMap.append, keys_insert, keys_insert, h]

/-- Under a key, the items that were given with it come behind those that were there. -/
theorem getD_get?_appendAll (m : OrderedMap (List α)) (es : List (String × α)) (k : String) :
  ((m.appendAll es).get? k).getD []
    = (m.get? k).getD [] ++ (es.filter fun x => x.1 = k).map Prod.snd
  := by
  induction es generalizing m with
  | nil => simp [appendAll]
  | cons e rest ih =>
    have hrest : m.appendAll (e :: rest) = (m.append e.1 e.2).appendAll rest := rfl
    rw [hrest, ih, OrderedMap.append, get?_insert]
    by_cases h : e.1 = k
    · subst h
      simp
    · simp [h]

/-- A map made of entries has their keys in the order in which these first come. -/
theorem keys_ofList (es : List (String × α)) :
  (ofList es).keys = (es.map Prod.fst).eraseDups
  := by
  have hall : (es.map Prod.fst).filter (fun k => k ∉ (empty : OrderedMap α).keys)
      = es.map Prod.fst := List.filter_eq_self.mpr fun k _ => decide_eq_true List.not_mem_nil
  rw [ofList, keys_insertAll, hall]
  rfl

/-- Appending entries one after another makes the map that they list. -/
theorem ListedBy.appendAll_eq {R : α → β → Prop} {m : OrderedMap (List β)}
    {es : List (String × α)} (h : m.ListedBy R es) {f : α → β} (hf : ∀ x y, R x y → f x = y) :
  empty.appendAll (es.map fun e => (e.1, f e.2)) = m
  := by
  have hkeys : (empty.appendAll (es.map fun e => (e.1, f e.2))).keys = m.keys := by
    rw [keys_appendAll (n := empty) rfl, ← ofList, keys_ofList, List.map_map, ← h.keys]
    rfl
  have hdistinct : (empty.appendAll (es.map fun e => (e.1, f e.2))).Distinct := by
    rw [Distinct, hkeys, ← h.keys, ← keys_ofList]
    exact distinct_ofList es
  refine eq_of_keys hkeys ?_
  rintro ⟨k, xs⟩ hxs ⟨_, ys⟩ hys rfl
  have hlist := getD_get?_appendAll empty (es.map fun e => (e.1, f e.2)) k
  have hfound : (empty.appendAll (es.map fun e => (e.1, f e.2))).get? k = some xs :=
    find?_eq_some_of_mem hdistinct hxs
  rw [hfound, get?_empty, List.filter_map, List.map_map] at hlist
  have hvalues := map_eq_of_forall₂ hf (h.values _ hys)
  rw [List.map_map] at hvalues
  exact hlist.trans hvalues

end OrderedMap

/-! ### Transitions -/

/-- A call that extends a transition. -/
inductive TransitionCall (κ : Type) where
  | toward (target : String)
  | act (action : Action κ)
  | guarded (guard : GuardRef)

/-- A transition that is given by the key of its target, or declared by calls. -/
inductive TransitionDeclaration (κ : Type) where
  | target (key : String)
  | calls (calls : List (TransitionCall κ))

namespace TransitionCall

/-- Makes a call. -/
def apply (t : TransitionDescriptor κ) : TransitionCall κ → TransitionDescriptor κ
  | toward target => t.toward target
  | act action => t.act action
  | guarded guard => t.guarded guard

/-- The target that a call sets. -/
def target? : TransitionCall κ → Option String
  | toward target => some target
  | _ => none

/-- The action that a call appends. -/
def action? : TransitionCall κ → Option (Action κ)
  | act action => some action
  | _ => none

/-- The guard that a call sets. -/
def guard? : TransitionCall κ → Option GuardRef
  | guarded guard => some guard
  | _ => none

/-- Of repeated calls on a transition the last one counts, but actions add up. -/
theorem foldl_apply (calls : List (TransitionCall κ)) (t : TransitionDescriptor κ) :
  calls.foldl apply t =
    { target := (calls.filterMap target?).getLast?.or t.target
      actions := t.actions ++ calls.filterMap action?
      guard := (calls.filterMap guard?).getLast?.or t.guard }
  := by
  induction calls generalizing t with
  | nil => simp
  | cons call rest ih =>
    rw [List.foldl_cons, ih]
    cases call <;>
    simp [apply, TransitionDescriptor.toward, TransitionDescriptor.act,
      TransitionDescriptor.guarded, target?, action?, guard?, List.filterMap_cons,
      List.getLast?_cons, Option.or_some]

end TransitionCall

namespace TransitionDeclaration

/-- The transition that is made. -/
def make : TransitionDeclaration κ → TransitionDescriptor κ
  | .target key => .ofTarget key
  | .calls cs => cs.foldl TransitionCall.apply .targetless

/-- A declaration says what is in a transition. -/
inductive Declares : TransitionDeclaration κ → TransitionDescriptor κ → Prop where
  | target (key : String) : Declares (.target key) (.ofTarget key)
  | calls {calls : List (TransitionCall κ)} {t : TransitionDescriptor κ}
      (target : calls.filterMap TransitionCall.target? = t.target.toList)
      (actions : calls.filterMap TransitionCall.action? = t.actions)
      (guard : calls.filterMap TransitionCall.guard? = t.guard.toList) :
    Declares (.calls calls) t

/-- A transition that is declared is made. -/
theorem Declares.make_eq {t : TransitionDeclaration κ} {d : TransitionDescriptor κ}
    (h : t.Declares d) :
  t.make = d
  := by
  cases h with
  | target key => rfl
  | @calls calls d target actions guard =>
    rw [make, TransitionCall.foldl_apply, target, actions, guard]
    simp [TransitionDescriptor.targetless, getLast?_toList]

end TransitionDeclaration

/-! ### Invocations -/

namespace Reaction

/-- The reaction that is made. -/
def make : Reaction (TransitionDeclaration κ) → Reaction (TransitionDescriptor κ)
  | event kind => .event kind
  | transition t => .transition t.make

/-- A declaration says what a reaction is. -/
inductive Declares :
    Reaction (TransitionDeclaration κ) → Reaction (TransitionDescriptor κ) → Prop where
  | event (kind : String) : Declares (.event kind) (.event kind)
  | transition {t : TransitionDeclaration κ} {d : TransitionDescriptor κ}
      (declared : t.Declares d) :
    Declares (.transition t) (.transition d)

/-- A reaction that is declared is made. -/
theorem Declares.make_eq {r : Reaction (TransitionDeclaration κ)}
    {d : Reaction (TransitionDescriptor κ)} (h : r.Declares d) :
  r.make = d
  := by
  cases h with
  | event kind => rfl
  | transition declared => rw [make, declared.make_eq]

end Reaction

/-- A call that extends an invocation. -/
inductive InvokeCall (κ : Type) where
  | withData (data : ChildData)
  | whenDone (r : Reaction (TransitionDeclaration κ))
  | whenFailed (r : Reaction (TransitionDeclaration κ))

/-- An invocation that is declared by calls. -/
structure InvokeDeclaration (κ : Type) where
  id : String
  source : ChildSource κ
  calls : List (InvokeCall κ)

namespace InvokeCall

/-- Makes a call. -/
def apply (i : InvokeDescriptor κ) : InvokeCall κ → InvokeDescriptor κ
  | withData data => i.withData data
  | whenDone r => i.whenDone r.make
  | whenFailed r => i.whenFailed r.make

/-- The data that a call sets. -/
def data? : InvokeCall κ → Option ChildData
  | withData data => some data
  | _ => none

/-- The reaction to completion that a call sets. -/
def done? : InvokeCall κ → Option (Reaction (TransitionDeclaration κ))
  | whenDone r => some r
  | _ => none

/-- The reaction to failure that a call sets. -/
def failed? : InvokeCall κ → Option (Reaction (TransitionDeclaration κ))
  | whenFailed r => some r
  | _ => none

/-- Of repeated calls on an invocation the last one counts. -/
theorem foldl_apply (calls : List (InvokeCall κ)) (i : InvokeDescriptor κ) :
  calls.foldl apply i =
    { id := i.id
      source := i.source
      data := (calls.filterMap data?).getLast?.or i.data
      onDone := ((calls.filterMap done?).map Reaction.make).getLast?.or i.onDone
      onError := ((calls.filterMap failed?).map Reaction.make).getLast?.or i.onError }
  := by
  induction calls generalizing i with
  | nil => simp
  | cons call rest ih =>
    rw [List.foldl_cons, ih]
    cases call <;>
    simp [apply, InvokeDescriptor.withData, InvokeDescriptor.whenDone, InvokeDescriptor.whenFailed,
      data?, done?, failed?, List.filterMap_cons, List.getLast?_cons, Option.or_some]

end InvokeCall

namespace InvokeDeclaration

/-- The invocation that is made. -/
def make (d : InvokeDeclaration κ) : InvokeDescriptor κ :=
  let start : InvokeDescriptor κ := match d.source with
    | .service name => .ofService d.id name
    | .factory code => .ofFactory d.id code
  d.calls.foldl InvokeCall.apply start

/-- A declaration says what is in an invocation. -/
structure Declares (d : InvokeDeclaration κ) (i : InvokeDescriptor κ) : Prop where
  id : d.id = i.id
  source : d.source = i.source
  data : d.calls.filterMap InvokeCall.data? = i.data.toList
  onDone : List.Forall₂ Reaction.Declares (d.calls.filterMap InvokeCall.done?) i.onDone.toList
  onError : List.Forall₂ Reaction.Declares (d.calls.filterMap InvokeCall.failed?) i.onError.toList

/-- An invocation that is declared is made. -/
theorem Declares.make_eq {d : InvokeDeclaration κ} {i : InvokeDescriptor κ} (h : d.Declares i) :
  d.make = i
  := by
  have hstart : (match d.source with
      | .service name => InvokeDescriptor.ofService d.id name
      | .factory code => InvokeDescriptor.ofFactory d.id code)
        = ⟨i.id, i.source, none, none, none⟩ := by
    rw [← h.id, ← h.source]
    cases d.source <;> rfl
  rw [make, hstart, InvokeCall.foldl_apply, h.data,
    map_eq_of_forall₂ (fun _ _ => Reaction.Declares.make_eq) h.onDone,
    map_eq_of_forall₂ (fun _ _ => Reaction.Declares.make_eq) h.onError]
  simp [getLast?_toList]

end InvokeDeclaration

/-! ### States -/

/-- A call that extends a state.  A state within is declared by calls on an atomic or on a final
state. -/
inductive StateCall (κ : Type) where
  | onEvent (event : String) (t : TransitionDeclaration κ)
  | onEntry (action : Action κ)
  | onExit (action : Action κ)
  | afterDelay (delay : String) (t : TransitionDeclaration κ)
  | afterMillis (ms : Nat) (t : TransitionDeclaration κ)
  | invoking (i : InvokeDeclaration κ)
  | withMetadata (metadata : Meta)
  | startingAt (key : String)
  | state (key : String) (final : Bool) (calls : List (StateCall κ))

namespace StateCall

mutual

/-- Makes a call. -/
def apply (n : StateDescriptor κ) : StateCall κ → StateDescriptor κ
  | onEvent event t => n.onEvent event t.make
  | onEntry action => n.onEntry action
  | onExit action => n.onExit action
  | afterDelay delay t => n.afterDelay delay t.make
  | afterMillis ms t => n.afterMillis ms t.make
  | invoking i => n.invoking i.make
  | withMetadata metadata => n.withMetadata metadata
  | startingAt key => n.startingAt key
  | state key final calls => n.state key (applyAll (if final then .finalState else .empty) calls)

/-- Makes calls one after another. -/
def applyAll (n : StateDescriptor κ) : List (StateCall κ) → StateDescriptor κ
  | [] => n
  | call :: rest => applyAll (apply n call) rest

end

/-- The transition on an event that a call appends. -/
def event? : StateCall κ → Option (String × TransitionDeclaration κ)
  | onEvent event t => some (event, t)
  | _ => none

/-- The entry action that a call appends. -/
def entry? : StateCall κ → Option (Action κ)
  | onEntry action => some action
  | _ => none

/-- The exit action that a call appends. -/
def exit? : StateCall κ → Option (Action κ)
  | onExit action => some action
  | _ => none

/-- The delay that a call gives or names, and the transition that it appends. -/
def delay? : StateCall κ → Option (String × TransitionDeclaration κ)
  | afterDelay delay t => some (delay, t)
  | afterMillis ms t => some (toString ms, t)
  | _ => none

/-- The invocation that a call appends. -/
def invocation? : StateCall κ → Option (InvokeDeclaration κ)
  | invoking i => some i
  | _ => none

/-- The metadata that a call sets. -/
def metadata? : StateCall κ → Option Meta
  | withMetadata metadata => some metadata
  | _ => none

/-- The initial state that a call sets. -/
def initial? : StateCall κ → Option String
  | startingAt key => some key
  | _ => none

/-- The state within that a call declares: its key, whether it is final, and its calls. -/
def state? : StateCall κ → Option (String × Bool × List (StateCall κ))
  | state key final calls => some (key, final, calls)
  | _ => none

/-- The state that is made by calls on an atomic or on a final state. -/
def make (final : Bool) (calls : List (StateCall κ)) : StateDescriptor κ :=
  applyAll (if final then .finalState else .empty) calls

/-- Calls on a state add to its lists, and of those that set a field the last one counts. -/
theorem applyAll_eq (calls : List (StateCall κ)) (n : StateDescriptor κ) :
  applyAll n calls =
    { kind := n.kind
      on := n.on.appendAll ((calls.filterMap event?).map fun e => (e.1, e.2.make))
      entry := n.entry ++ calls.filterMap entry?
      exit := n.exit ++ calls.filterMap exit?
      after := n.after.appendAll ((calls.filterMap delay?).map fun e => (e.1, e.2.make))
      invoke := n.invoke ++ (calls.filterMap invocation?).map InvokeDeclaration.make
      metadata := (calls.filterMap metadata?).getLast?.or n.metadata
      initial := (calls.filterMap initial?).getLast?.or n.initial
      states := n.states.insertAll ((calls.filterMap state?).map fun s => (s.1, make s.2.1 s.2.2)) }
  := by
  induction calls generalizing n with
  | nil =>
    obtain ⟨⟩ := n
    simp [applyAll, OrderedMap.appendAll, OrderedMap.insertAll]
  | cons call rest ih =>
    rw [applyAll, ih]
    cases call <;>
    simp [apply, make, StateDescriptor.onEvent, StateDescriptor.onEntry, StateDescriptor.onExit,
      StateDescriptor.afterDelay, StateDescriptor.afterMillis, StateDescriptor.invoking,
      StateDescriptor.withMetadata, StateDescriptor.startingAt, StateDescriptor.state,
      event?, entry?, exit?, delay?, invocation?, metadata?, initial?, state?,
      OrderedMap.appendAll, OrderedMap.insertAll, List.filterMap_cons, List.getLast?_cons,
      Option.or_some]

end StateCall

/-- Calls on an atomic or on a final state declare what is in a state, and in the states within. -/
inductive StateDescriptor.Declared : Bool → List (StateCall κ) → StateDescriptor κ → Prop where
  | calls {final : Bool} {calls : List (StateCall κ)} {n : StateDescriptor κ}
      (kind : n.kind = if final then .final else .atomic)
      (on : n.on.ListedBy TransitionDeclaration.Declares (calls.filterMap StateCall.event?))
      (entry : calls.filterMap StateCall.entry? = n.entry)
      (exit : calls.filterMap StateCall.exit? = n.exit)
      (after : n.after.ListedBy TransitionDeclaration.Declares (calls.filterMap StateCall.delay?))
      (invoke : List.Forall₂ InvokeDeclaration.Declares (calls.filterMap StateCall.invocation?)
        n.invoke)
      (metadata : calls.filterMap StateCall.metadata? = n.metadata.toList)
      (initial : calls.filterMap StateCall.initial? = n.initial.toList)
      (keys : (calls.filterMap StateCall.state?).map Prod.fst = n.states.keys)
      (unrepeated : n.states.Distinct)
      (states : ∀ s ∈ calls.filterMap StateCall.state?, ∀ m ∈ n.states.entries, s.1 = m.1 →
        Declared s.2.1 s.2.2 m.2) :
    Declared final calls n

/-- States that are declared one after another are those that are made. -/
theorem StateCall.ofList_make {ss : List (String × Bool × List (StateCall κ))}
    {states : OrderedMap (StateDescriptor κ)} (keys : ss.map Prod.fst = states.keys)
    (distinct : states.Distinct)
    (h : ∀ s ∈ ss, ∀ m ∈ states.entries, s.1 = m.1 → make s.2.1 s.2.2 = m.2) :
  OrderedMap.ofList (ss.map fun s => (s.1, make s.2.1 s.2.2)) = states
  := by
  have hkeys : ss.map Prod.fst = (ss.map fun s => (s.1, make s.2.1 s.2.2)).map Prod.fst := by
    rw [List.map_map]
    rfl
  have hnodup : ((ss.map fun s => (s.1, make s.2.1 s.2.2)).map Prod.fst).Nodup := by
    rw [← hkeys, keys]
    exact distinct
  have hentries := OrderedMap.entries_ofList hnodup
  refine OrderedMap.eq_of_keys ?_ ?_
  · rw [OrderedMap.keys, hentries, ← hkeys, keys]
  · rw [hentries]
    intro e he m hm hkey
    obtain ⟨s, hs, rfl⟩ := List.mem_map.mp he
    exact h s hs m hm hkey

/-- Calls make the state that they declare. -/
theorem StateDescriptor.Declared.make_eq {final : Bool} {calls : List (StateCall κ)}
    {n : StateDescriptor κ} (h : Declared final calls n) :
  StateCall.make final calls = n
  := by
  induction h with
  | @calls final calls n kind on entry exit after invoke metadata initial keys unrepeated _ ih =>
    have hstates := StateCall.ofList_make keys unrepeated ih
    have hon := on.appendAll_eq fun _ _ => TransitionDeclaration.Declares.make_eq
    have hafter := after.appendAll_eq fun _ _ => TransitionDeclaration.Declares.make_eq
    have hinvoke := map_eq_of_forall₂ (fun _ _ => InvokeDeclaration.Declares.make_eq) invoke
    have hstart : (if final then finalState else empty)
        = (⟨n.kind, .empty, [], [], .empty, [], none, none, .empty⟩ : StateDescriptor κ) := by
      rw [kind]
      cases final <;> rfl
    rw [StateCall.make, hstart, StateCall.applyAll_eq, entry, exit, metadata, initial, hinvoke]
    simp only [hon, hafter, hstates, ← OrderedMap.ofList.eq_def, getLast?_toList, Option.or_none,
      List.nil_append]
    cases n
    rfl

/-! ### Machines -/

/-- A call that extends a machine. -/
inductive MachineCall (κ : Type) where
  | startingAt (key : String)
  | parallel
  | inContext (context : Context)
  | set (key : String) (value : Json)
  | withMetadata (metadata : Meta)
  | state (key : String) (final : Bool) (calls : List (StateCall κ))

namespace MachineCall

/-- Makes a call. -/
def apply (d : MachineDescriptor κ) : MachineCall κ → MachineDescriptor κ
  | startingAt key => d.startingAt key
  | parallel => d.parallel
  | inContext context => d.inContext context
  | set key value => d.set key value
  | withMetadata metadata => d.withMetadata metadata
  | state key final calls => d.state key (StateCall.make final calls)

/-- The initial state that a call sets. -/
def initial? : MachineCall κ → Option String
  | startingAt key => some key
  | _ => none

/-- Whether a call makes the machine parallel. -/
def isParallel : MachineCall κ → Bool
  | parallel => true
  | _ => false

/-- The entries of the context that a call gives. -/
def entries : MachineCall κ → List (String × Json)
  | inContext context => context.entries
  | set key value => [(key, value)]
  | _ => []

/-- The metadata that a call sets. -/
def metadata? : MachineCall κ → Option Meta
  | withMetadata metadata => some metadata
  | _ => none

/-- The state that a call declares: its key, whether it is final, and its calls. -/
def state? : MachineCall κ → Option (String × Bool × List (StateCall κ))
  | state key final calls => some (key, final, calls)
  | _ => none

/-- The context after a call. -/
def contextAfter (context : Context) : MachineCall κ → Context
  | inContext context' => context'
  | set key value => context.insert key value
  | _ => context

/-- The machine that is made by calls on the one with an identifier. -/
def make (id : String) (calls : List (MachineCall κ)) : MachineDescriptor κ :=
  calls.foldl apply (.named id)

/-- Calls on a machine add states, and of those that set a field the last one counts. -/
theorem foldl_apply (calls : List (MachineCall κ)) (d : MachineDescriptor κ) :
  calls.foldl apply d =
    { id := d.id
      initial := (calls.filterMap initial?).getLast?.or d.initial
      kind := if calls.any isParallel then .parallel else d.kind
      context := calls.foldl contextAfter d.context
      metadata := (calls.filterMap metadata?).getLast?.or d.metadata
      states := d.states.insertAll
        ((calls.filterMap state?).map fun s => (s.1, StateCall.make s.2.1 s.2.2)) }
  := by
  induction calls generalizing d with
  | nil => simp [OrderedMap.insertAll]
  | cons call rest ih =>
    rw [List.foldl_cons, ih]
    cases call <;>
    simp [apply, MachineDescriptor.startingAt, MachineDescriptor.parallel,
      MachineDescriptor.inContext, MachineDescriptor.set, MachineDescriptor.withMetadata,
      MachineDescriptor.state, initial?, isParallel, contextAfter, metadata?, state?,
      OrderedMap.insertAll, List.filterMap_cons, List.getLast?_cons, Option.or_some]

/-- Calls give the entries of a context in order, if a whole context is not given after any of
them. -/
theorem entries_foldl_contextAfter {calls : List (MachineCall κ)} {context : Context}
    (hfirst : ∀ before context' after, calls = before ++ .inContext context' :: after →
      context.entries ++ before.flatMap entries = [])
    (distinct : ((context.entries ++ calls.flatMap entries).map Prod.fst).Nodup) :
  (calls.foldl contextAfter context).entries = context.entries ++ calls.flatMap entries
  := by
  induction calls generalizing context with
  | nil => simp
  | cons call rest ih =>
    have hnext : (contextAfter context call).entries = context.entries ++ entries call := by
      cases call with
      | inContext context' =>
        have hempty := hfirst [] context' rest rfl
        rw [List.flatMap_nil, List.append_nil] at hempty
        rw [hempty]
        rfl
      | set key value =>
        apply OrderedMap.put_eq_append
        intro hmem
        rw [List.flatMap_cons, List.map_append, List.map_append] at distinct
        exact (List.nodup_append.mp distinct).2.2 key hmem key (by simp [entries]) rfl
      | _ => exact (List.append_nil _).symm
    rw [List.foldl_cons, ih, hnext, List.flatMap_cons, List.append_assoc]
    · rintro before context' after rfl
      rw [hnext, List.append_assoc]
      exact hfirst (call :: before) context' after rfl
    · rw [hnext, List.append_assoc]
      exact distinct

end MachineCall

/-- Calls on a machine with an identifier declare what is in it, and in its states.  A whole
context is given before single keys are. -/
structure MachineDescriptor.Declared (d : MachineDescriptor κ) (id : String)
    (calls : List (MachineCall κ)) : Prop where
  id : d.id = some id
  initial : calls.filterMap MachineCall.initial? = d.initial.toList
  kind : d.kind = if calls.any MachineCall.isParallel then .parallel else .atomic
  context : calls.flatMap MachineCall.entries = d.context.entries
  keysOnce : d.context.Distinct
  first : ∀ before context after, calls = before ++ .inContext context :: after →
    before.flatMap MachineCall.entries = []
  metadata : calls.filterMap MachineCall.metadata? = d.metadata.toList
  keys : (calls.filterMap MachineCall.state?).map Prod.fst = d.states.keys
  unrepeated : d.states.Distinct
  states : ∀ s ∈ calls.filterMap MachineCall.state?, ∀ n ∈ d.states.entries, s.1 = n.1 →
    n.2.Declared s.2.1 s.2.2

/-- Calls make the machine that they declare. -/
theorem MachineDescriptor.Declared.make_eq {d : MachineDescriptor κ} {id : String}
    {calls : List (MachineCall κ)} (h : d.Declared id calls) :
  MachineCall.make id calls = d
  := by
  have hstates := StateCall.ofList_make h.keys h.unrepeated
    fun s hs n hn hkey => (h.states s hs n hn hkey).make_eq
  have hcontext : calls.foldl MachineCall.contextAfter OrderedMap.empty = d.context := by
    have hentries : (calls.foldl MachineCall.contextAfter OrderedMap.empty).entries
        = calls.flatMap MachineCall.entries :=
      MachineCall.entries_foldl_contextAfter h.first (h.context ▸ h.keysOnce)
    exact congrArg OrderedMap.mk (hentries.trans h.context)
  rw [MachineCall.make, MachineCall.foldl_apply, h.initial, h.metadata]
  simp only [named, empty, hcontext, hstates, ← OrderedMap.ofList.eq_def, getLast?_toList,
    Option.or_none, ← h.id, ← h.kind]

end Statechart
