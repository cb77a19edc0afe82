import Mathlib.Data.List.Forall2
import Mathlib.Tactic.SplitIfs
import Statechart.Descriptor.Wire

/-!
# Shorthand in written descriptors

A transition may be written as the key of its target, and a single item in place of the list of
it.  `Json.longMachine` writes both out, in every state at every depth.  What is read from a
machine is not changed by it: neither whether it can be read, nor what it is
(`MachineDescriptor.ofJson_longMachine`).
-/

namespace Statechart

variable {κ : Type}

/-! ### Writing shorthand out -/

namespace Json

/-- Whether a value is an object. -/
def isObject : Json → Bool
  | .object _ => true
  | _ => false

/-- Changes the values of an object by their keys. -/
def mapFields (f : String → Json → Json) : Json → Json
  | .object ⟨fields⟩ => .object ⟨fields.map fun e => (e.1, f e.1 e.2)⟩
  | j => j

/-- Changes the items of a list, or makes a list of a single item that is changed. -/
def itemsWith (f : Json → Json) : Json → Json
  | .array items => .array (items.map f)
  | j => .array [f j]

/-- A transition, written as an object, with a list of actions. -/
def longTransition : Json → Json
  | .string target => .object ⟨[("target", .string target)]⟩
  | j => j.mapFields fun key value => if key = "actions" then value.itemsWith id else value

/-- The lists of transitions for each event or delay. -/
def longHandlers : Json → Json := mapFields fun _ => itemsWith longTransition

/-- A reaction: the kind of an event is left as it is. -/
def longReaction : Json → Json
  | .string kind => .string kind
  | j => longTransition j

/-- An invocation that is written as an object. -/
def longInvocation : Json → Json :=
  mapFields fun key value =>
    if key = "onDone" ∨ key = "onError" then longReaction value else value

/-- A list of invocations.  A list with an item that is no object is left as it is: it may be a
single invocation that is written as the list of its fields. -/
def longInvocations : Json → Json
  | .array items => if items.all isObject then .array (items.map longInvocation) else .array items
  | j => .array [longInvocation j]

/-- A field of a state that has no states in it. -/
def longField (key : String) (value : Json) : Json :=
  if key = "on" ∨ key = "after" then longHandlers value
  else if key = "entry" ∨ key = "exit" then value.itemsWith id
  else if key = "invoke" then longInvocations value
  else value

mutual

/-- A state that is written as an object, with all states in it. -/
def longState : Json → Json
  | .object ⟨fields⟩ => .object ⟨longStateFields fields⟩
  | j => j

/-- The fields of a state. -/
def longStateFields : List (String × Json) → List (String × Json)
  | [] => []
  | (key, value) :: rest =>
    (key, if key = "states" then longStates value else longField key value)
      :: longStateFields rest

/-- The states in a state or machine. -/
def longStates : Json → Json
  | .object ⟨states⟩ => .object ⟨longStateEntries states⟩
  | j => j

/-- States by their keys. -/
def longStateEntries : List (String × Json) → List (String × Json)
  | [] => []
  | (key, state) :: rest => (key, longState state) :: longStateEntries rest

end

/-- A machine that is written as an object. -/
def longMachine : Json → Json :=
  mapFields fun key value => if key = "states" then longStates value else value

theorem longStateFields_eq (fields : List (String × Json)) :
  longStateFields fields = fields.map fun e =>
    (e.1, if e.1 = "states" then longStates e.2 else longField e.1 e.2)
  := by
  induction fields with
  | nil => rw [longStateFields, List.map_nil]
  | cons e rest ih => rw [longStateFields, ih, List.map_cons]

theorem longStateEntries_eq (states : List (String × Json)) :
  longStateEntries states = states.map fun e => (e.1, longState e.2)
  := by
  induction states with
  | nil => rw [longStateEntries, List.map_nil]
  | cons e rest ih => rw [longStateEntries, ih, List.map_cons]

theorem longState_eq (j : Json) :
  longState j = j.mapFields fun key value =>
    if key = "states" then longStates value else longField key value
  := by
  cases j with
  | object fields => rw [longState, longStateFields_eq, mapFields]
  | _ => rw [longState, mapFields] <;> simp

theorem longStates_eq (j : Json) :
  longStates j = j.mapFields fun _ => longState
  := by
  cases j with
  | object states => rw [longStates, longStateEntries_eq, mapFields]
  | _ => rw [longStates, mapFields] <;> simp

end Json

/-! ### Sources of values -/

namespace Source

mutual

/-- Nothing is wrong in a finished value. -/
theorem readFault?_ofJson : (j : Json) → (ofJson j).readFault? = none
  | .null | .bool _ | .number _ | .string _ => by simp [ofJson, readFault?]
  | .array items => by simp [ofJson, readFault?, readItems?_ofItems items, Ending.fault?]
  | .object ⟨fields⟩ => by simp [ofJson, readFault?, readEntries?_ofFields fields, Ending.fault?]

theorem readItems?_ofItems : (items : List Json) → readItems? (ofItems items) = none
  | [] => by simp [ofItems, readItems?]
  | item :: rest => by
    simp [ofItems, readItems?, readFault?_ofJson item, readItems?_ofItems rest]

theorem readEntries?_ofFields :
    (fields : List (String × Json)) → readEntries? (ofFields fields) = none
  | [] => by simp [ofFields, readEntries?]
  | (_, value) :: rest => by
    simp [ofFields, readEntries?, readFault?_ofJson value, readEntries?_ofFields rest]

end

/-! ### What is read from values -/

section

variable {α ρ : Type}

/-- From a finished value one of the alternatives of a union is read, or none. -/
theorem asUnion_ofJson (union : String) (alternatives : List (Source → Decoded α)) (j : Json) :
  (ofJson j).asUnion union alternatives
    = match alternatives.findSome? fun decode => (decode (ofJson j)).toOption with
      | some value => .ok value
      | none => .error (.data (.noAlternative union))
  := by
  rw [asUnion, readFault?_ofJson]
  rfl

/-- Whether the same is read from two values of a field: they are the same, or the decoder of
the field does not tell them apart. -/
def Fields.Alike (fields : Fields ρ) (name : String) (s' s : Source) : Prop :=
  s' = s ∨ ∃ decode, fields.find? name = some decode ∧ ∀ record, decode s' record = decode s record

/-- A field is read as before if its value is alike, and the fields after it are read as
before. -/
theorem readFields_cons_congr {fields : Fields ρ} {name : String} {s s' : Source}
    {rest rest' : List (String × Source)} (h : fields.Alike name s' s)
    (hrest : ∀ seen record,
      readFields fields rest' seen record = readFields fields rest seen record)
    (seen : List String) (record : ρ) :
  readFields fields ((name, s') :: rest') seen record
    = readFields fields ((name, s) :: rest) seen record
  := by
  rw [readFields, readFields]
  obtain rfl | ⟨decode, hfind, hdecode⟩ := h
  · simp only [hrest]
  · simp only [hfind, hdecode, hrest]

/-- Fields are read as before from values that are alike. -/
theorem readFields_map {fields : Fields ρ} {f : String → Json → Json}
    {entries : List (String × Json)}
    (h : ∀ e ∈ entries, fields.Alike e.1 (ofJson (f e.1 e.2)) (ofJson e.2)) (seen : List String)
    (record : ρ) :
  readFields fields (ofFields (entries.map fun e => (e.1, f e.1 e.2))) seen record
    = readFields fields (ofFields entries) seen record
  := by
  induction entries generalizing seen record with
  | nil => rfl
  | cons e rest ih =>
    obtain ⟨he, hrest⟩ := List.forall_mem_cons.mp h
    rw [List.map_cons, ofFields, ofFields]
    exact readFields_cons_congr he (ih hrest) seen record

/-- A record is read as before from an object whose fields are changed to values that are
alike. -/
theorem asRecord_mapFields {fields : Fields ρ} (f : String → Json → Json) {j : Json}
    (h : ∀ entries, j = .object ⟨entries⟩ →
      ∀ e ∈ entries, fields.Alike e.1 (ofJson (f e.1 e.2)) (ofJson e.2))
    (expected : String) (positional : Bool) (required : List String) (default : ρ) :
  (ofJson (j.mapFields f)).asRecord expected positional required fields default
    = (ofJson j).asRecord expected positional required fields default
  := by
  cases j with
  | object m =>
    obtain ⟨entries⟩ := m
    simp only [Json.mapFields, ofJson, asRecord, readFields_map (h entries rfl)]
  | _ => rfl

/-- Entries are read as before from values that are read as before. -/
theorem decodeEntries_map {decode : Source → Decoded α} {f : String → Json → Json}
    {entries : List (String × Json)}
    (h : ∀ e ∈ entries, decode (ofJson (f e.1 e.2)) = decode (ofJson e.2)) (acc : OrderedMap α) :
  decodeEntries decode (ofFields (entries.map fun e => (e.1, f e.1 e.2))) acc
    = decodeEntries decode (ofFields entries) acc
  := by
  induction entries generalizing acc with
  | nil => rfl
  | cons e rest ih =>
    obtain ⟨he, hrest⟩ := List.forall_mem_cons.mp h
    rw [List.map_cons, ofFields, ofFields, decodeEntries, decodeEntries, he]
    simp only [ih hrest]

/-- A map is read as before from an object whose values are read as before. -/
theorem asMap_mapFields {decode : Source → Decoded α} {f : String → Json → Json} {j : Json}
    (h : ∀ entries, j = .object ⟨entries⟩ →
      ∀ e ∈ entries, decode (ofJson (f e.1 e.2)) = decode (ofJson e.2)) :
  (ofJson (j.mapFields f)).asMap decode = (ofJson j).asMap decode
  := by
  cases j with
  | object m =>
    obtain ⟨entries⟩ := m
    simp only [Json.mapFields, ofJson, asMap, decodeEntries_map (h entries rfl)]
  | _ => rfl

theorem decodeItems_ofItems_map {decode : Source → Decoded α} {f : Json → Json}
    (h : ∀ j, decode (ofJson (f j)) = decode (ofJson j)) (items : List Json) :
  decodeItems decode (ofItems (items.map f)) = decodeItems decode (ofItems items)
  := by
  induction items with
  | nil => rfl
  | cons item rest ih => rw [List.map_cons, ofItems, ofItems, decodeItems, decodeItems, h, ih]

end

end Source

/-! ### Lists and single items -/

namespace ItemOrList

open Source

variable {α : Type} {item : Source → Decoded α} {f : Json → Json}

/-- What is read from a list that is no item. -/
theorem decodeList_array {items : List Json}
    (hitem : (item (ofJson (.array items))).toOption = none) :
  decodeList item (ofJson (.array items))
    = match (decodeItems item (ofItems items)).toOption with
      | some values => .ok values
      | none => .error (.data (.noAlternative "OneOrMany"))
  := by
  have hlist : (ofJson (.array items)).asList item = decodeItems item (ofItems items) := by
    rw [ofJson, asList]
    cases decodeItems item (ofItems items) <;> rfl
  have hnone : ∀ g : α → ItemOrList α,
      (do let value ← item (ofJson (.array items)); return g value : Decoded _).toOption
        = none := by
    intro g
    cases h : item (ofJson (.array items)) with
    | error => rfl
    | ok => simp [h, Except.toOption] at hitem
  rw [decodeList, decode, asUnion_ofJson]
  simp only [List.findSome?_cons, List.findSome?_nil, hlist, hnone]
  cases decodeItems item (ofItems items) <;> rfl

/-- What is read from a single item. -/
theorem decodeList_single {j : Json} (hj : ∀ items, j ≠ .array items) :
  decodeList item (ofJson j)
    = match (item (ofJson j)).toOption with
      | some value => .ok [value]
      | none => .error (.data (.noAlternative "OneOrMany"))
  := by
  have hlist : ((ofJson j).asList item).toOption = none := by
    cases j with
    | array items => exact absurd rfl (hj items)
    | _ => rfl
  have hnone : (do let values ← (ofJson j).asList item; return ItemOrList.list values :
      Decoded _).toOption = none := by
    cases h : (ofJson j).asList item with
    | error => rfl
    | ok => simp [h, Except.toOption] at hlist
  rw [decodeList, decode, asUnion_ofJson]
  simp only [List.findSome?_cons, List.findSome?_nil, hnone]
  cases item (ofJson j) <;> rfl

/-- The same is read from a list whose items are changed. -/
theorem decodeList_map (h : ∀ j, item (ofJson (f j)) = item (ofJson j)) {items : List Json}
    (hbefore : (item (ofJson (.array items))).toOption = none)
    (hafter : (item (ofJson (.array (items.map f)))).toOption = none) :
  decodeList item (ofJson (.array (items.map f))) = decodeList item (ofJson (.array items))
  := by
  rw [decodeList_array hbefore, decodeList_array hafter, decodeItems_ofItems_map h]

/-- The same is read from the list of a single item that is changed. -/
theorem decodeList_singleton (h : ∀ j, item (ofJson (f j)) = item (ofJson j)) {j : Json}
    (hj : ∀ items, j ≠ .array items)
    (hafter : (item (ofJson (.array [f j]))).toOption = none) :
  decodeList item (ofJson (.array [f j])) = decodeList item (ofJson j)
  := by
  rw [decodeList_array hafter, decodeList_single hj, ofItems, ofItems, decodeItems, h]
  cases item (ofJson j) <;> rfl

/-- The same is read from a list made of what was no list, where no list is an item. -/
theorem decodeList_itemsWith (h : ∀ j, item (ofJson (f j)) = item (ofJson j))
    (hlists : ∀ items, (item (ofJson (.array items))).toOption = none) (j : Json) :
  decodeList item (ofJson (j.itemsWith f)) = decodeList item (ofJson j)
  := by
  cases j with
  | array items => exact decodeList_map h (hlists items) (hlists _)
  | _ => exact decodeList_singleton h (by simp) (hlists _)

end ItemOrList

/-! ### Transitions and invocations -/

open Source

theorem Action.decode_array (items : List Json) :
  (Action.decode (κ := κ) (ofJson (.array items))).toOption = none
  := rfl

namespace TransitionDescriptor

theorem decode_array (items : List Json) :
  (decode (κ := κ) (ofJson (.array items))).toOption = none
  := by
  rw [decode, asUnion_ofJson]
  rfl

/-- A single action is read like the list of it. -/
theorem alike_actions (name : String) (value : Json) :
  (fields (κ := κ)).Alike name
    (ofJson (if name = "actions" then value.itemsWith id else value)) (ofJson value)
  := by
  by_cases h : name = "actions"
  · subst h
    refine .inr ⟨_, rfl, fun t => ?_⟩
    rw [if_pos rfl, ItemOrList.decodeList_itemsWith (f := id) (fun _ => rfl) Action.decode_array]
  · exact .inl (congrArg ofJson (if_neg h))

/-- A transition is read from its longhand. -/
theorem decode_longTransition (j : Json) :
  decode (κ := κ) (ofJson j.longTransition) = decode (ofJson j)
  := by
  have hrecord := asRecord_mapFields (j := j)
    (fun key value => if key = "actions" then value.itemsWith id else value)
    (fun _ _ e _ => alike_actions (κ := κ) e.1 e.2) "a transition" false [] targetless
  cases j with
  | string target => rfl
  | object m =>
    rw [decode, decode, asUnion_ofJson, asUnion_ofJson]
    simp only [List.findSome?_cons, Json.longTransition, hrecord]
    rfl
  | _ => rfl

end TransitionDescriptor

namespace Reaction

/-- A reaction is read from its longhand. -/
theorem decode_longReaction (j : Json) :
  decode (κ := κ) (ofJson j.longReaction) = decode (ofJson j)
  := by
  cases j with
  | string kind => rfl
  | object m =>
    rw [decode, decode, asUnion_ofJson, asUnion_ofJson, Json.longReaction]
    · simp only [List.findSome?_cons, TransitionDescriptor.decode_longTransition]
      rfl
    · simp
  | _ => rfl

theorem asOption_decode_longReaction (j : Json) :
  (ofJson j.longReaction).asOption (decode (κ := κ)) = (ofJson j).asOption decode
  := by
  have h := decode_longReaction (κ := κ) j
  cases j with
  | object m => exact congrArg (·.map some) h
  | _ => rfl

end Reaction

namespace InvokeDescriptor

/-- A reaction in an invocation is read like its longhand. -/
theorem alike_reactions (name : String) (value : Json) :
  (fields (κ := κ)).Alike name
    (ofJson (if name = "onDone" ∨ name = "onError" then value.longReaction else value))
    (ofJson value)
  := by
  by_cases h : name = "onDone" ∨ name = "onError"
  · rw [if_pos h]
    obtain rfl | rfl := h <;>
    exact .inr ⟨_, rfl, fun i => by rw [Reaction.asOption_decode_longReaction]⟩
  · exact .inl (congrArg ofJson (if_neg h))

/-- An invocation is read from its longhand. -/
theorem decode_longInvocation (j : Json) :
  decode (κ := κ) (ofJson j.longInvocation) = decode (ofJson j)
  := asRecord_mapFields _ (fun _ _ e _ => alike_reactions e.1 e.2) _ _ _ _

/-- One value makes no invocation: an identifier and a service are needed. -/
theorem decode_singleton (j : Json) :
  (decode (κ := κ) (ofJson (.array [j]))).toOption = none
  := by
  cases j <;> rfl

/-- Objects do not make an invocation: its identifier is a string. -/
theorem decode_objects {items : List Json} (h : items.all Json.isObject) :
  (decode (κ := κ) (ofJson (.array items))).toOption = none
  := by
  match items with
  | [] => rfl
  | .object m :: rest => rfl

theorem all_isObject_map {items : List Json} (h : items.all Json.isObject) :
  (items.map Json.longInvocation).all Json.isObject
  := by
  rw [List.all_map]
  refine List.all_eq_true.mpr fun j hj => ?_
  have hobject := List.all_eq_true.mp h j hj
  cases j with
  | object m => rfl
  | _ => exact hobject

/-- Invocations are read from their longhand. -/
theorem decodeList_longInvocations (j : Json) :
  ItemOrList.decodeList (decode (κ := κ)) (ofJson j.longInvocations)
    = ItemOrList.decodeList decode (ofJson j)
  := by
  cases j with
  | array items =>
    rw [Json.longInvocations]
    split
    · rename_i h
      exact ItemOrList.decodeList_map decode_longInvocation (decode_objects h)
        (decode_objects (all_isObject_map h))
    · rfl
  | _ =>
    exact ItemOrList.decodeList_singleton decode_longInvocation (by simp) (decode_singleton _)

end InvokeDescriptor

/-! ### States -/

namespace Source

section

variable {α ρ : Type}

theorem depth_pos (s : Source) :
  0 < s.depth
  := by
  cases s <;> simp [depth]

theorem depth_le_depthItems {items : List Source} {item : Source} (h : item ∈ items) :
  item.depth ≤ depthItems items
  := by
  induction items with
  | nil => cases h
  | cons first rest ih =>
    rw [depthItems]
    rcases List.mem_cons.mp h with rfl | h
    · exact Nat.le_max_left _ _
    · exact Nat.le_trans (ih h) (Nat.le_max_right _ _)

theorem depth_le_depthEntries {entries : List (String × Source)} {e : String × Source}
    (h : e ∈ entries) :
  e.2.depth ≤ depthEntries entries
  := by
  induction entries with
  | nil => cases h
  | cons first rest ih =>
    rw [depthEntries]
    rcases List.mem_cons.mp h with rfl | h
    · exact Nat.le_max_left _ _
    · exact Nat.le_trans (ih h) (Nat.le_max_right _ _)

/-- Whether two tables of fields read the same from values less than `depth` deep. -/
def Fields.AgreeBelow (depth : Nat) (fields fields' : Fields ρ) : Prop :=
  List.Forall₂ (fun e e' => e.1 = e'.1 ∧ ∀ s : Source, s.depth < depth → e.2 s = e'.2 s)
    fields fields'

namespace Fields.AgreeBelow

variable {depth : Nat} {fields fields' : Fields ρ}

/-- A field is decoded the same by both tables. -/
theorem find? (h : AgreeBelow depth fields fields') (name : String) :
  Option.Rel (fun decode decode' => ∀ s : Source, s.depth < depth → decode s = decode' s)
    (fields.find? name) (fields'.find? name)
  := by
  induction h with
  | nil => exact .none
  | @cons e e' rest rest' he _ ih =>
    obtain ⟨key, decode⟩ := e
    obtain ⟨key', decode'⟩ := e'
    obtain ⟨rfl, hdecode⟩ := he
    rw [Fields.find?, Fields.find?, OrderedMap.find?, OrderedMap.find?]
    split
    · exact .some hdecode
    · exact ih

theorem readFields_eq (h : AgreeBelow depth fields fields') {entries : List (String × Source)}
    (hdepth : ∀ e ∈ entries, e.2.depth < depth) (seen : List String) (record : ρ) :
  readFields fields entries seen record = readFields fields' entries seen record
  := by
  induction entries generalizing seen record with
  | nil => rfl
  | cons e rest ih =>
    obtain ⟨he, hrest⟩ := List.forall_mem_cons.mp hdepth
    obtain ⟨name, value⟩ := e
    rw [readFields, readFields]
    have hfind := h.find? name
    revert hfind
    cases fields.find? name <;> cases fields'.find? name <;> intro hfind <;>
      cases hfind
    · simp only [ih hrest]
    · rename_i hdecode
      simp only [hdecode _ he, ih hrest]

theorem readPositions_eq (h : AgreeBelow depth fields fields') {items : List Source}
    (hdepth : ∀ item ∈ items, item.depth < depth) (seen : List String) (record : ρ) :
  readPositions fields items seen record = readPositions fields' items seen record
  := by
  induction h generalizing items seen record with
  | nil => rfl
  | @cons e e' rest rest' he _ ih =>
    obtain ⟨key, decode⟩ := e
    obtain ⟨key', decode'⟩ := e'
    obtain ⟨rfl, hdecode⟩ : key = key' ∧ ∀ s : Source, s.depth < depth → decode s = decode' s := he
    cases items with
    | nil => rfl
    | cons item items =>
      obtain ⟨hitem, hitems⟩ := List.forall_mem_cons.mp hdepth
      rw [readPositions, readPositions, hdecode item hitem]
      simp only [ih hitems]

/-- The same record is read with both tables. -/
theorem asRecord_eq {s : Source} (h : AgreeBelow s.depth fields fields')
    (expected : String) (positional : Bool) (required : List String) (default : ρ) :
  s.asRecord expected positional required fields default
    = s.asRecord expected positional required fields' default
  := by
  cases s with
  | map entries ending =>
    have hdepth : ∀ e ∈ entries, e.2.depth < (map entries ending).depth := fun e he =>
      Nat.lt_succ_of_le (depth_le_depthEntries he)
    simp only [asRecord, h.readFields_eq hdepth]
  | list items ending =>
    have hdepth : ∀ item ∈ items, item.depth < (list items ending).depth := fun item hitem =>
      Nat.lt_succ_of_le (depth_le_depthItems hitem)
    simp only [asRecord, h.readPositions_eq hdepth, List.Forall₂.length_eq h]
  | _ => rfl

end Fields.AgreeBelow

/-- A map is read the same by decoders that agree on what is in it. -/
theorem asMap_congr {decode decode' : Source → Decoded α} {s : Source}
    (h : ∀ v : Source, v.depth < s.depth → decode v = decode' v) :
  s.asMap decode = s.asMap decode'
  := by
  cases s with
  | map entries ending =>
    have hread : ∀ acc, decodeEntries decode entries acc = decodeEntries decode' entries acc := by
      replace h : ∀ e ∈ entries, decode e.2 = decode' e.2 := fun e he =>
        h e.2 (Nat.lt_succ_of_le (depth_le_depthEntries he))
      induction entries with
      | nil => exact fun _ => rfl
      | cons e rest ih =>
        obtain ⟨he, hrest⟩ := List.forall_mem_cons.mp h
        intro acc
        rw [decodeEntries, decodeEntries, he]
        simp only [ih hrest]
    simp only [asMap, hread]
  | _ => rfl

end

end Source

namespace StateDescriptor

/-- The fields of a state are read the same by decoders that agree on the states in it. -/
theorem fields_agreeBelow {inner inner' : Source → Decoded (StateDescriptor κ)} {depth : Nat}
    (h : ∀ v : Source, v.depth < depth → inner v = inner' v) :
  (fields inner).AgreeBelow depth (fields inner')
  := by
  have hstates : ∀ s : Source, s.depth < depth → s.asMap inner = s.asMap inner' := fun s hs =>
    asMap_congr fun v hv => h v (Nat.lt_trans hv hs)
  unfold fields
  repeat
    refine .cons ⟨rfl, fun s hs => ?_⟩ ?_
    first | rfl | simp only [hstates s hs]
  exact .nil

/-- What is read from a state does not depend on the bound on its depth. -/
theorem decodeWithin_eq {n m : Nat} {s : Source} (hn : s.depth ≤ n) (hm : s.depth ≤ m) :
  decodeWithin (κ := κ) n s = decodeWithin m s
  := by
  induction n generalizing m s with
  | zero => exact absurd s.depth_pos (Nat.not_lt.mpr hn)
  | succ n ih =>
    obtain ⟨m, rfl⟩ : ∃ k, m = k + 1 :=
      Nat.exists_eq_succ_of_ne_zero (Nat.ne_of_gt (Nat.lt_of_lt_of_le s.depth_pos hm))
    rw [decodeWithin, decodeWithin]
    refine (fields_agreeBelow fun v hv => ?_).asRecord_eq _ _ _ _
    exact ih (by omega) (by omega)

/-- A state is read as a record in which the states are read. -/
theorem decode_eq (s : Source) :
  decode (κ := κ) s = s.asRecord "struct StateNodeConfig" true [] (fields decode) empty
  := by
  obtain ⟨n, hn⟩ : ∃ k, s.depth = k + 1 :=
    Nat.exists_eq_succ_of_ne_zero (Nat.ne_of_gt s.depth_pos)
  rw [decode, hn, decodeWithin]
  refine (fields_agreeBelow fun v hv => ?_).asRecord_eq _ _ _ _
  exact decodeWithin_eq (by omega) (Nat.le_refl _)

/-- Handlers are read from their longhand. -/
theorem asMap_longHandlers (j : Json) :
  (ofJson j.longHandlers).asMap (ItemOrList.decodeList (TransitionDescriptor.decode (κ := κ)))
    = (ofJson j).asMap (ItemOrList.decodeList TransitionDescriptor.decode)
  := asMap_mapFields fun _ _ e _ => ItemOrList.decodeList_itemsWith
    TransitionDescriptor.decode_longTransition TransitionDescriptor.decode_array e.2

/-- A field of a state is read like its longhand. -/
theorem alike_longField (inner : Source → Decoded (StateDescriptor κ)) (name : String)
    (value : Json) :
  (fields inner).Alike name (ofJson (Json.longField name value)) (ofJson value)
  := by
  have hactions := ItemOrList.decodeList_itemsWith (f := id) (fun _ => rfl)
    (Action.decode_array (κ := κ)) value
  unfold Json.longField
  split_ifs with hon hentry hinvoke
  · obtain rfl | rfl := hon <;>
    exact .inr ⟨_, rfl, fun n => by rw [asMap_longHandlers]⟩
  · obtain rfl | rfl := hentry <;>
    exact .inr ⟨_, rfl, fun n => by rw [hactions]⟩
  · subst hinvoke
    exact .inr ⟨_, rfl, fun n => by rw [InvokeDescriptor.decodeList_longInvocations]⟩
  · exact .inl rfl

mutual

/-- A state is read from its longhand. -/
theorem decode_longState : (j : Json) → decode (κ := κ) (ofJson j.longState) = decode (ofJson j)
  | .object ⟨fields⟩ => by
    rw [decode_eq, decode_eq, Json.longState_eq]
    refine asRecord_mapFields _ (fun entries h e he => ?_) _ _ _ _
    obtain rfl : fields = entries := by simpa using h
    by_cases hkey : e.1 = "states"
    · rw [if_pos hkey, hkey]
      exact .inr ⟨_, rfl, fun n => by rw [asMap_longStates_of_mem fields e he]⟩
    · rw [if_neg hkey]
      exact alike_longField decode e.1 e.2
  | .null | .bool _ | .number _ | .string _ | .array _ => by simp [Json.longState]

/-- States are read from their longhand. -/
theorem asMap_longStates : (j : Json) →
    (ofJson j.longStates).asMap (decode (κ := κ)) = (ofJson j).asMap decode
  | .object ⟨states⟩ => by
    rw [Json.longStates_eq]
    refine asMap_mapFields fun entries h e he => ?_
    obtain rfl : states = entries := by simpa using h
    exact decode_longState_of_mem states e he
  | .null | .bool _ | .number _ | .string _ | .array _ => by simp [Json.longStates]

theorem asMap_longStates_of_mem : (fields : List (String × Json)) → ∀ e ∈ fields,
    (ofJson e.2.longStates).asMap (decode (κ := κ)) = (ofJson e.2).asMap decode
  | [] => by simp
  | (_, value) :: rest =>
    List.forall_mem_cons.mpr ⟨asMap_longStates value, asMap_longStates_of_mem rest⟩

theorem decode_longState_of_mem : (states : List (String × Json)) → ∀ e ∈ states,
    decode (κ := κ) (ofJson e.2.longState) = decode (ofJson e.2)
  | [] => by simp
  | (_, state) :: rest =>
    List.forall_mem_cons.mpr ⟨decode_longState state, decode_longState_of_mem rest⟩

end

end StateDescriptor

/-! ### Machines -/

namespace MachineDescriptor

/-- Shorthand is only sugar: what is read from a machine, or why none can be read, is the same
when the shorthand in it is written out. -/
theorem ofJson_longMachine (j : Json) :
  ofJson (κ := κ) j.longMachine = ofJson j
  := by
  rw [ofJson, ofJson, Json.longMachine, decode, decode]
  refine asRecord_mapFields _ (fun _ _ e _ => ?_) _ _ _ _
  by_cases hkey : e.1 = "states"
  · rw [if_pos hkey, hkey]
    exact .inr ⟨_, rfl, fun m => by rw [StateDescriptor.asMap_longStates]⟩
  · exact .inl (congrArg Source.ofJson (if_neg hkey))

example :
  Json.longMachine (.object ⟨[("states", .object ⟨[("idle", .object
      ⟨[("entry", .string "log"), ("on", .object ⟨[("GO", .string "busy")]⟩),
        ("invoke", .object ⟨[("id", .string "job"), ("onDone", .string "DONE")]⟩)]⟩)]⟩)]⟩)
    = .object ⟨[("states", .object ⟨[("idle", .object
      ⟨[("entry", .array [.string "log"]),
        ("on", .object ⟨[("GO", .array [.object ⟨[("target", .string "busy")]⟩])]⟩),
        ("invoke", .array [.object ⟨[("id", .string "job"), ("onDone", .string "DONE")]⟩])]⟩)]⟩)]⟩
  := by rfl

end MachineDescriptor

end Statechart
