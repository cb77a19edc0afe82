import Statechart.Proofs.Longhand

/-!
# What written descriptors say

A value spells a descriptor if every field of an object that is there spells a part of it and the
parts without a field are defaults.  The order of the fields does not matter, and neither do
fields with other names; a single item stands for the list of it, and the key of a target for the
transition to it.  From a value the descriptor that it spells is read, except that a state or
machine whose metadata is null is read as one without metadata (`MachineDescriptor.Spelled.read`).
-/

namespace Statechart

variable {κ α ρ : Type}

/-! ### Values without repeated keys -/

/-- No object in a value has a key twice. -/
inductive Json.Distinct : Json → Prop where
  | null : Distinct .null
  | bool (b : Bool) : Distinct (.bool b)
  | number (n : Number) : Distinct (.number n)
  | string (s : String) : Distinct (.string s)
  | array {items : List Json} (each : ∀ j ∈ items, Distinct j) : Distinct (.array items)
  | object {fields : OrderedMap Json} (keys : fields.Distinct)
      (each : ∀ e ∈ fields.entries, Distinct e.2) : Distinct (.object fields)

namespace Source

mutual

/-- A finished value is passed over without a fault. -/
theorem skipFault?_ofJson : (j : Json) → (ofJson j).skipFault? = none
  | .null | .bool _ | .number _ | .string _ => by simp [ofJson, skipFault?]
  | .array items => by simp [ofJson, skipFault?, skipItems?_ofItems items, Ending.fault?]
  | .object ⟨fields⟩ => by simp [ofJson, skipFault?, skipEntries?_ofFields fields, Ending.fault?]

theorem skipItems?_ofItems : (items : List Json) → skipItems? (ofItems items) = none
  | [] => by simp [ofItems, skipItems?]
  | item :: rest => by
    simp [ofItems, skipItems?, skipFault?_ofJson item, skipItems?_ofItems rest]

theorem skipEntries?_ofFields :
    (fields : List (String × Json)) → skipEntries? (ofFields fields) = none
  | [] => by simp [ofFields, skipEntries?]
  | (_, value) :: rest => by
    simp [ofFields, skipEntries?, skipFault?_ofJson value, skipEntries?_ofFields rest]

end

/-- Items that come back each come back together. -/
theorem toItems_ofItems {items : List Json} (h : ∀ j ∈ items, (ofJson j).toJson = .ok j) :
  toItems (ofItems items) = .ok items
  := by
  induction items with
  | nil => rfl
  | cons item rest ih =>
    obtain ⟨hitem, hrest⟩ := List.forall_mem_cons.mp h
    rw [ofItems, toItems, hitem, ih hrest]
    rfl

/-- Fields that come back each come back together, behind those that were read. -/
theorem toFields_ofFields {es : List (String × Json)}
    (h : ∀ e ∈ es, (ofJson e.2).toJson = .ok e.2) (acc : OrderedMap Json) :
  toFields (ofFields es) acc = .ok (acc.insertAll es)
  := by
  induction es generalizing acc with
  | nil => rfl
  | cons e rest ih =>
    obtain ⟨he, hrest⟩ := List.forall_mem_cons.mp h
    rw [ofFields, toFields, he]
    exact ih hrest _

/-- A value without repeated keys is read as it is. -/
theorem toJson_ofJson {j : Json} (h : j.Distinct) :
  (ofJson j).toJson = .ok j
  := by
  induction h with
  | null | bool | number | string => rfl
  | array _ ih =>
    rw [ofJson, toJson, toItems_ofItems ih]
    rfl
  | @object fields keys _ ih =>
    have hsame : OrderedMap.empty.insertAll fields.entries = fields :=
      congrArg OrderedMap.mk (OrderedMap.entries_ofList keys)
    rw [ofJson.eq_def, toJson, toFields_ofFields ih, hsame]
    rfl

/-- A value whose objects repeat no key comes back. -/
theorem asJson_ofJson {j : Json} (h : j.Distinct) :
  (ofJson j).asJson = .ok j
  := by
  rw [asJson, toJson_ofJson h]

end Source

/-! ### Lists, maps and fields -/

namespace Json

/-- A value is this string. -/
def IsString (j : Json) (s : String) : Prop := j = .string s

/-- A value is null where there is nothing, and otherwise spells what there is. -/
def OptionOf (R : Json → α → Prop) (j : Json) : Option α → Prop
  | none => j = .null
  | some x => R j x

/-- A value is a list that spells each item, or spells the only one. -/
inductive ListOf (R : Json → α → Prop) : Json → List α → Prop where
  | list {items : List Json} {xs : List α} (each : List.Forall₂ R items xs) :
    ListOf R (.array items) xs
  | item {j : Json} {x : α} (only : R j x) : ListOf R j [x]

/-- A value is an object that has the same keys in the same order and spells the value of each. -/
structure MapOf (R : Json → α → Prop) (j : Json) (m : OrderedMap α) : Prop where
  distinct : m.Distinct
  entries : ∃ fields : OrderedMap Json, j = .object fields
    ∧ List.Forall₂ (fun e x => e.1 = x.1 ∧ R e.2 x.2) fields.entries m.entries

end Json

/-- Where there is a field it spells a part, and otherwise the part is the default. -/
def OrderedMap.Spells (fields : OrderedMap Json) (name : String) (R : Json → α → Prop)
    (default x : α) : Prop :=
  match fields.get? name with
  | some j => R j x
  | none => x = default

namespace OrderedMap.Spells

variable {fields : OrderedMap Json} {name : String} {R : Json → α → Prop} {default x : α}

/-- A field that is written spells its value. -/
theorem of_get? (h : fields.Spells name R default x) {j : Json}
    (hj : fields.get? name = some j) :
  R j x
  := by
  rw [Spells, hj] at h
  exact h

/-- A part has its default unless its field is read. -/
theorem ite_eq (h : fields.Spells name R default x) {seen : List String}
    (hseen : name ∈ fields.keys → name ∈ seen) :
  (if name ∈ seen then x else default) = x
  := by
  split
  · rfl
  · next hnot =>
    have hnone : fields.get? name = none := by
      rw [get?_eq_none_iff]
      exact fun hmem => hnot (hseen hmem)
    rw [Spells, hnone] at h
    exact h.symm

/-- What spells one reading of a field spells another one, if it does so item by item. -/
theorem imp {β : Type} {R' : Json → β → Prop} {default' y : β}
    (h : fields.Spells name R default x) (hdefault : x = default → y = default')
    (himp : ∀ j, R j x → R' j y) :
  fields.Spells name R' default' y
  := by
  rw [Spells] at h ⊢
  cases hj : fields.get? name with
  | none =>
    rw [hj] at h
    exact hdefault h
  | some j =>
    rw [hj] at h
    exact himp j h

end OrderedMap.Spells

namespace Source

open Json

variable {R : Json → α → Prop} {decode : Source → Decoded α} {j : Json}

/-- A string is read. -/
theorem asString_ofJson {s : String} (h : j.IsString s) :
  (ofJson j).asString = .ok s
  := by
  rw [h]
  rfl

/-- What may be missing is read if it is there, and null is none. -/
theorem asOption_ofJson {o : Option α} (h : OptionOf R j o)
    (hread : ∀ x, R j x → j ≠ .null ∧ decode (ofJson j) = .ok x) :
  (ofJson j).asOption decode = .ok o
  := by
  cases o with
  | none =>
    obtain rfl := h
    rfl
  | some x =>
    obtain ⟨hnull, hx⟩ := hread x h
    cases j with
    | null => exact absurd rfl hnull
    | _ => exact congrArg (·.map some) hx

/-- A string that may be missing is read. -/
theorem asOption_asString {o : Option String} (h : OptionOf IsString j o) :
  (ofJson j).asOption asString = .ok o
  := by
  refine asOption_ofJson h fun s hs => ⟨?_, asString_ofJson hs⟩
  rintro rfl
  cases hs

/-- Items that are each read are read together. -/
theorem decodeItems_ofItems {items : List Json} {xs : List α}
    (h : List.Forall₂ (fun j x => decode (ofJson j) = .ok x) items xs) :
  decodeItems decode (ofItems items) = .ok xs
  := by
  induction h with
  | nil => rfl
  | cons hitem _ ih =>
    rw [ofItems, decodeItems, hitem, ih]
    rfl

/-- Of a list of items or a single item, which is no list, the items are read. -/
theorem decodeList_ofJson {xs : List α} (h : ListOf R j xs)
    (hread : ∀ j x, R j x → (∀ items, j ≠ .array items) ∧ decode (ofJson j) = .ok x) :
  ItemOrList.decodeList decode (ofJson j) = .ok xs
  := by
  cases h with
  | @list items xs each =>
    have hitems : decodeItems decode (ofItems items) = .ok xs :=
      decodeItems_ofItems (each.imp fun j x hx => (hread j x hx).2)
    rw [ItemOrList.decodeList, ItemOrList.decode, asUnion_ofJson]
    simp only [List.findSome?_cons, ofJson, asList, hitems]
    rfl
  | item only =>
    obtain ⟨hlist, hitem⟩ := hread _ _ only
    rw [ItemOrList.decodeList_single hlist, hitem]
    rfl

/-- Entries that are each read are read together, behind those that were read. -/
theorem decodeEntries_ofFields {es : List (String × Json)} {xs : List (String × α)}
    (h : List.Forall₂ (fun e x => e.1 = x.1 ∧ decode (ofJson e.2) = .ok x.2) es xs)
    (acc : OrderedMap α) :
  decodeEntries decode (ofFields es) acc = .ok (acc.insertAll xs)
  := by
  induction h generalizing acc with
  | nil => rfl
  | @cons e x es xs hentry _ ih =>
    rw [ofFields, decodeEntries, hentry.2, hentry.1]
    exact ih _

/-- Of an object a map is read that has no key twice. -/
theorem asMap_ofJson {m : OrderedMap α} (h : MapOf R j m)
    (hread : ∀ j x, R j x → decode (ofJson j) = .ok x) :
  (ofJson j).asMap decode = .ok m
  := by
  obtain ⟨distinct, ⟨fields⟩, rfl, hentries⟩ := h
  have hsame : OrderedMap.empty.insertAll m.entries = m :=
    congrArg OrderedMap.mk (OrderedMap.entries_ofList distinct)
  rw [ofJson, asMap, decodeEntries_ofFields (hentries.imp fun e x h => ⟨h.1, hread _ _ h.2⟩), hsame]
  rfl

/-! ### Records -/

variable {F : Fields ρ} (mix : List String → ρ)

/-- If each field takes the record in which some fields are set to the one in which it is set,
too, then they are all read one after another, in any order. -/
theorem readFields_ofFields {es : List (String × Json)} (distinct : (es.map Prod.fst).Nodup)
    (hread : ∀ e ∈ es, ∀ decode, F.find? e.1 = some decode →
      ∀ seen, decode (ofJson e.2) (mix seen) = .ok (mix (e.1 :: seen)))
    (seen : List String) (hseen : ∀ e ∈ es, e.1 ∉ seen) :
  ∃ seen', (∀ name, (F.find? name).isSome → name ∈ seen ∨ name ∈ es.map Prod.fst → name ∈ seen')
    ∧ readFields F (ofFields es) seen (mix seen) = .ok (mix seen', seen')
  := by
  induction es generalizing seen with
  | nil =>
    refine ⟨seen, ?_, rfl⟩
    intro name _ hname
    exact hname.resolve_right List.not_mem_nil
  | cons e rest ih =>
    obtain ⟨name, value⟩ := e
    obtain ⟨he, hrest⟩ := List.forall_mem_cons.mp hread
    obtain ⟨hfresh, hothers⟩ := List.forall_mem_cons.mp hseen
    obtain ⟨hname, distinct⟩ := List.nodup_cons.mp distinct
    rw [ofFields]
    cases hfind : F.find? name with
    | none =>
      obtain ⟨seen', hmem, hok⟩ := ih distinct hrest seen hothers
      refine ⟨seen', ?_, ?_⟩
      · intro other hother hin
        apply hmem other hother
        refine hin.imp_right fun hcons => (List.mem_cons.mp hcons).resolve_left ?_
        rintro rfl
        rw [hfind] at hother
        cases hother
      · simp only [readFields, hfind, skipFault?_ofJson]
        exact hok
    | some decode =>
      have hnext : ∀ e ∈ rest, e.1 ∉ name :: seen := by
        intro e' he' hin
        obtain rfl | hin := List.mem_cons.mp hin
        · exact hname (List.mem_map.mpr ⟨e', he', rfl⟩)
        · exact hothers e' he' hin
      obtain ⟨seen', hmem, hok⟩ := ih distinct hrest (name :: seen) hnext
      refine ⟨seen', ?_, ?_⟩
      · intro other hother hin
        apply hmem other hother
        simp only [List.map_cons, List.mem_cons] at hin ⊢
        tauto
      · have hcontains : seen.contains name = false := by simpa using hfresh
        simp only [readFields, hfind, hcontains, he decode hfind seen]
        exact hok

/-- From an object a record is read, if it is the one in which the fields that are there are
set. -/
theorem asRecord_ofJson {fields : OrderedMap Json} (distinct : fields.Distinct)
    (hread : ∀ f ∈ F, ∀ v, fields.get? f.1 = some v →
      ∀ seen, f.2 (ofJson v) (mix seen) = .ok (mix (f.1 :: seen)))
    {record : ρ}
    (hrecord : ∀ seen, (∀ f ∈ F, f.1 ∈ fields.keys → f.1 ∈ seen) → mix seen = record)
    {required : List String}
    (hrequired : ∀ name ∈ required, name ∈ fields.keys ∧ (F.find? name).isSome)
    (expected : String) (positional : Bool) :
  (ofJson (.object fields)).asRecord expected positional required F (mix []) = .ok record
  := by
  obtain ⟨es⟩ := fields
  obtain ⟨seen, hseen, hok⟩ := readFields_ofFields (F := F) mix distinct
    (fun e he decode hfind => hread (e.1, decode) (OrderedMap.mem_of_find? hfind) e.2
      (OrderedMap.find?_eq_some_of_mem distinct he))
    [] (fun e _ => List.not_mem_nil)
  have hfound : required.find? (fun name => !seen.contains name) = none := by
    rw [List.find?_eq_none]
    intro name hname
    obtain ⟨hkey, hfield⟩ := hrequired name hname
    simpa using hseen name hfield (.inr hkey)
  have hsame : mix seen = record := by
    apply hrecord
    intro f hf hkey
    refine hseen f.1 ?_ (.inr hkey)
    rw [Option.isSome_iff_ne_none, Fields.find?, ne_eq, OrderedMap.find?_eq_none_iff]
    exact fun hnot => hnot (List.mem_map_of_mem hf)
  rw [ofJson, asRecord]
  simp only [hok, Ending.fault?, check, bind, Except.bind, hfound, hsame]

end Source

/-! ### Transitions -/

open Source

/-- A value is the name of an action. -/
def Action.Spelled (j : Json) (a : Action κ) : Prop := ∃ name, j = .string name ∧ a = .named name

/-- A value is the name of a guard. -/
def GuardRef.Spelled (j : Json) (g : GuardRef) : Prop := ∃ name, j = .string name ∧ g = .named name

/-- A spelled action is read, and no list spells one. -/
theorem Action.Spelled.read {j : Json} {a : Action κ} (h : a.Spelled j) :
  (∀ items, j ≠ .array items) ∧ decode (ofJson j) = .ok a
  := by
  obtain ⟨name, rfl, rfl⟩ := h
  exact ⟨nofun, rfl⟩

/-- A spelled guard is read, and is not null. -/
theorem GuardRef.Spelled.read {j : Json} {g : GuardRef} (h : g.Spelled j) :
  j ≠ .null ∧ decode (ofJson j) = .ok g
  := by
  obtain ⟨name, rfl, rfl⟩ := h
  exact ⟨nofun, rfl⟩

namespace TransitionDescriptor

/-- A value spells a transition: it is the key of its target, or an object. -/
inductive Spelled : Json → TransitionDescriptor κ → Prop where
  | target (key : String) : Spelled (.string key) (.ofTarget key)
  | object {fields : OrderedMap Json} {t : TransitionDescriptor κ} (distinct : fields.Distinct)
      (target : fields.Spells "target" (Json.OptionOf Json.IsString) none t.target)
      (actions : fields.Spells "actions" (Json.ListOf Action.Spelled) [] t.actions)
      (guard : fields.Spells "cond" (Json.OptionOf GuardRef.Spelled) none t.guard) :
    Spelled (.object fields) t

/-- The parts of a transition whose fields have been seen, and defaults for the others. -/
def only (t : TransitionDescriptor κ) (seen : List String) : TransitionDescriptor κ where
  target := if "target" ∈ seen then t.target else none
  actions := if "actions" ∈ seen then t.actions else []
  guard := if "cond" ∈ seen then t.guard else none

/-- A transition is read from what spells it. -/
theorem Spelled.read {j : Json} {t : TransitionDescriptor κ} (h : t.Spelled j) :
  (∀ items, j ≠ .array items) ∧ decode (ofJson j) = .ok t
  := by
  cases h with
  | target key => exact ⟨nofun, rfl⟩
  | @object fields t distinct target actions guard =>
    refine ⟨nofun, ?_⟩
    have hrecord : (ofJson (.object fields)).asRecord "a transition" false []
        TransitionDescriptor.fields targetless = .ok t := by
      refine asRecord_ofJson t.only distinct ?_ ?_ (by simp) _ _
      · simp only [TransitionDescriptor.fields, List.forall_mem_cons]
        refine ⟨?_, ?_, ?_, by simp⟩
        · intro v hv seen
          rw [asOption_asString (target.of_get? hv)]
          simp [only]
        · intro v hv seen
          rw [decodeList_ofJson (actions.of_get? hv) fun _ _ => Action.Spelled.read]
          simp [only]
        · intro v hv seen
          rw [asOption_ofJson (guard.of_get? hv) fun _ => GuardRef.Spelled.read]
          simp [only]
      · simp only [TransitionDescriptor.fields, List.forall_mem_cons]
        rintro seen ⟨htarget, hactions, hguard, -⟩
        simp only [only, target.ite_eq htarget, actions.ite_eq hactions, guard.ite_eq hguard]
    rw [decode, asUnion_ofJson]
    simp only [List.findSome?_cons, hrecord]
    rfl

end TransitionDescriptor

/-! ### Invocations -/

/-- A value spells a reaction: it is the kind of an event, or an object that spells a
transition. -/
inductive Reaction.Spelled : Json → Reaction (TransitionDescriptor κ) → Prop where
  | event (kind : String) : Spelled (.string kind) (.event kind)
  | transition {fields : OrderedMap Json} {t : TransitionDescriptor κ}
      (spelled : t.Spelled (.object fields)) : Spelled (.object fields) (.transition t)

/-- A value spells data for a service: it is the context. -/
def ChildData.Spelled (j : Json) (d : ChildData) : Prop :=
  ∃ context, j = .object context ∧ j.Distinct ∧ d = .literal context

/-- A spelled reaction is read, and is not null. -/
theorem Reaction.Spelled.read {j : Json} {r : Reaction (TransitionDescriptor κ)}
    (h : r.Spelled j) :
  j ≠ .null ∧ decode (ofJson j) = .ok r
  := by
  cases h with
  | event kind => exact ⟨nofun, rfl⟩
  | @transition fields t spelled =>
    refine ⟨nofun, ?_⟩
    rw [decode, asUnion_ofJson]
    simp only [List.findSome?_cons, spelled.read.2]
    rfl

/-- A context without repeated keys is read as it is. -/
theorem Source.asMap_asJson {context : Context} (h : Json.Distinct (.object context)) :
  (ofJson (.object context)).asMap asJson = .ok context
  := by
  cases h with
  | object keys each =>
    refine asMap_ofJson (R := fun j v => j = v ∧ j.Distinct) ⟨keys, context, rfl, ?_⟩ ?_
    · rw [List.forall₂_same]
      exact fun e he => ⟨rfl, rfl, each e he⟩
    · rintro j _ ⟨rfl, hj⟩
      exact asJson_ofJson hj

/-- The context is read from what spells the data for a service, if there are any. -/
theorem ChildData.exists_read {j : Json} {o : Option ChildData}
    (h : Json.OptionOf ChildData.Spelled j o) :
  ∃ context, (ofJson j).asOption (asMap asJson) = .ok context ∧ o = context.map .literal
  := by
  cases o with
  | none =>
    obtain rfl := h
    exact ⟨none, rfl, rfl⟩
  | some d =>
    obtain ⟨context, rfl, hdistinct, rfl⟩ := h
    exact ⟨some context, congrArg (·.map some) (asMap_asJson hdistinct), rfl⟩

namespace InvokeDescriptor

/-- A value spells the invocation of a service: it is an object with an identifier and the name of
the service. -/
inductive Spelled : Json → InvokeDescriptor κ → Prop where
  | object {fields : OrderedMap Json} {i : InvokeDescriptor κ} (distinct : fields.Distinct)
      (id : fields.get? "id" = some (.string i.id))
      (source : ∃ name, fields.get? "src" = some (.string name) ∧ i.source = .service name)
      (data : fields.Spells "data" (Json.OptionOf ChildData.Spelled) none i.data)
      (onDone : fields.Spells "onDone" (Json.OptionOf Reaction.Spelled) none i.onDone)
      (onError : fields.Spells "onError" (Json.OptionOf Reaction.Spelled) none i.onError) :
    Spelled (.object fields) i

/-- The parts of an invocation whose fields have been seen, and defaults for the others. -/
def only (i : InvokeDescriptor κ) (seen : List String) : InvokeDescriptor κ where
  id := if "id" ∈ seen then i.id else ""
  source := if "src" ∈ seen then i.source else .service ""
  data := if "data" ∈ seen then i.data else none
  onDone := if "onDone" ∈ seen then i.onDone else none
  onError := if "onError" ∈ seen then i.onError else none

/-- An invocation is read from what spells it. -/
theorem Spelled.read {j : Json} {i : InvokeDescriptor κ} (h : i.Spelled j) :
  (∀ items, j ≠ .array items) ∧ decode (ofJson j) = .ok i
  := by
  cases h with
  | @object fields i distinct id source data onDone onError =>
    obtain ⟨name, hsource, hservice⟩ := source
    have hid : "id" ∈ fields.keys := List.mem_map_of_mem (OrderedMap.mem_entries_of_get? id)
    have hsrc : "src" ∈ fields.keys := List.mem_map_of_mem (OrderedMap.mem_entries_of_get? hsource)
    refine ⟨nofun, ?_⟩
    refine asRecord_ofJson i.only distinct ?_ ?_
      (List.forall_mem_cons.mpr ⟨⟨hid, rfl⟩, List.forall_mem_cons.mpr ⟨⟨hsrc, rfl⟩, by simp⟩⟩) _ _
    · simp only [InvokeDescriptor.fields, List.forall_mem_cons]
      refine ⟨?_, ?_, ?_, ?_, ?_, by simp⟩
      · intro v hv seen
        obtain rfl := Option.some.inj (id.symm.trans hv)
        simp [ofJson, asString, only]
      · intro v hv seen
        obtain rfl := Option.some.inj (hsource.symm.trans hv)
        simp [ofJson, asString, only, hservice]
      · intro v hv seen
        obtain ⟨context, hread, hdata⟩ := ChildData.exists_read (data.of_get? hv)
        rw [hread]
        simp [only, hdata]
      · intro v hv seen
        rw [asOption_ofJson (onDone.of_get? hv) fun _ => Reaction.Spelled.read]
        simp [only]
      · intro v hv seen
        rw [asOption_ofJson (onError.of_get? hv) fun _ => Reaction.Spelled.read]
        simp [only]
    · simp only [InvokeDescriptor.fields, List.forall_mem_cons]
      rintro seen ⟨hid', hsrc', hdata, hdone, herror, -⟩
      simp only [only, if_pos (hid' hid), if_pos (hsrc' hsrc), data.ite_eq hdata,
        onDone.ite_eq hdone, onError.ite_eq herror]

end InvokeDescriptor

/-! ### States -/

/-- A value spells a kind: it is its name, or a map from the name to null. -/
def Kind.Spelled (j : Json) (k : Kind) : Prop :=
  j = .string k.name ∨ j = .object ⟨[(k.name, .null)]⟩

/-- A value spells metadata: it is the metadata. -/
def Meta.Spelled (j : Json) (v : Meta) : Prop := j = v ∧ j.Distinct

/-- A spelled kind is read. -/
theorem Kind.Spelled.read {j : Json} {k : Kind} (h : k.Spelled j) :
  decode (ofJson j) = .ok k
  := by
  obtain rfl | rfl := h <;> cases k <;> rfl

/-- The metadata that are not null. -/
def presentMeta (metadata : Option Meta) : Option Meta := metadata.filter fun v => !v.isNull

/-- Whether something is read from a value. -/
def Source.Reads (decode : Source → Decoded α) (j : Json) (x : α) : Prop :=
  decode (ofJson j) = .ok x

/-- Metadata that are null are read as none. -/
theorem Source.reads_presentMeta {j : Json} {o : Option Meta}
    (h : Json.OptionOf Meta.Spelled j o) :
  Reads (asOption asJson) j (presentMeta o)
  := by
  cases o with
  | none =>
    obtain rfl := h
    rfl
  | some v =>
    obtain ⟨rfl, hdistinct⟩ := h
    have hread := asJson_ofJson hdistinct
    cases j with
    | null => rfl
    | _ => exact congrArg (·.map some) hread

namespace StateDescriptor

/-- A value spells a state: it is an object, in which an object spells the states within. -/
inductive Spelled : Json → StateDescriptor κ → Prop where
  | object {fields inner : OrderedMap Json} {n : StateDescriptor κ} (distinct : fields.Distinct)
      (kind : fields.Spells "type" Kind.Spelled .atomic n.kind)
      (on : fields.Spells "on" (Json.MapOf (Json.ListOf TransitionDescriptor.Spelled)) .empty n.on)
      (entry : fields.Spells "entry" (Json.ListOf Action.Spelled) [] n.entry)
      (exit : fields.Spells "exit" (Json.ListOf Action.Spelled) [] n.exit)
      (after : fields.Spells "after" (Json.MapOf (Json.ListOf TransitionDescriptor.Spelled))
        .empty n.after)
      (invoke : fields.Spells "invoke" (Json.ListOf InvokeDescriptor.Spelled) [] n.invoke)
      (metadata : fields.Spells "meta" (Json.OptionOf Meta.Spelled) none n.metadata)
      (initial : fields.Spells "initial" (Json.OptionOf Json.IsString) none n.initial)
      (within : (fields.get? "states").getD (.object .empty) = .object inner)
      (keys : inner.keys = n.states.keys) (unrepeated : n.states.Distinct)
      (states : ∀ e ∈ inner.entries, ∀ m ∈ n.states.entries, e.1 = m.1 → Spelled e.2 m.2) :
    Spelled (.object fields) n

mutual

/-- The state without metadata that are null, at every depth. -/
def withoutNulls : StateDescriptor κ → StateDescriptor κ
  | ⟨kind, on, entry, exit, after, invoke, metadata, initial, ⟨states⟩⟩ =>
    ⟨kind, on, entry, exit, after, invoke, presentMeta metadata, initial,
      ⟨entriesWithoutNulls states⟩⟩

/-- States without metadata that are null. -/
def entriesWithoutNulls :
    List (String × StateDescriptor κ) → List (String × StateDescriptor κ)
  | [] => []
  | (key, n) :: rest => (key, withoutNulls n) :: entriesWithoutNulls rest

end

/-- Null metadata is dropped state by state. -/
theorem entriesWithoutNulls_eq (states : List (String × StateDescriptor κ)) :
  entriesWithoutNulls states = states.map fun e => (e.1, e.2.withoutNulls)
  := by
  induction states with
  | nil => rw [entriesWithoutNulls, List.map_nil]
  | cons e rest ih => rw [entriesWithoutNulls, ih, List.map_cons]

/-- Null metadata is dropped in a state and in those below it. -/
theorem withoutNulls_eq (n : StateDescriptor κ) :
  n.withoutNulls
    = { n with metadata := presentMeta n.metadata, states := n.states.map withoutNulls }
  := by
  obtain ⟨kind, on, entry, exit, after, invoke, metadata, initial, ⟨states⟩⟩ := n
  rw [withoutNulls, entriesWithoutNulls_eq]
  rfl

/-- The parts of a state whose fields have been seen, and defaults for the others. -/
def only (n : StateDescriptor κ) (seen : List String) : StateDescriptor κ where
  kind := if "type" ∈ seen then n.kind else .atomic
  on := if "on" ∈ seen then n.on else .empty
  entry := if "entry" ∈ seen then n.entry else []
  exit := if "exit" ∈ seen then n.exit else []
  after := if "after" ∈ seen then n.after else .empty
  invoke := if "invoke" ∈ seen then n.invoke else []
  metadata := if "meta" ∈ seen then n.metadata else none
  initial := if "initial" ∈ seen then n.initial else none
  states := if "states" ∈ seen then n.states else .empty

end StateDescriptor

/-- Lists of transitions are read from what spells them, for each key. -/
theorem TransitionDescriptor.asMap_ofJson {j : Json}
    {m : OrderedMap (List (TransitionDescriptor κ))}
    (h : Json.MapOf (Json.ListOf Spelled) j m) :
  (ofJson j).asMap (ItemOrList.decodeList decode) = .ok m
  := Source.asMap_ofJson h fun _ _ hlist => decodeList_ofJson hlist fun _ _ => Spelled.read

theorem exists_of_forall₂_mem {β : Type} {S : β → α → Prop} {ys : List β} {xs : List α}
    (h : List.Forall₂ S ys xs) {x : α} (hx : x ∈ xs) :
  ∃ y ∈ ys, S y x
  := by
  induction h with
  | nil => cases hx
  | @cons y x' ys xs hhead _ ih =>
    obtain rfl | hx := List.mem_cons.mp hx
    · exact ⟨y, List.mem_cons_self, hhead⟩
    · obtain ⟨y', hy', hR⟩ := ih hx
      exact ⟨y', List.mem_cons_of_mem _ hy', hR⟩

/-- Entries under the same keys in the same order correspond. -/
theorem OrderedMap.forall₂_entries {β : Type} {R : α → β → Prop} {m : OrderedMap α}
    {n : OrderedMap β} (keys : m.keys = n.keys)
    (h : ∀ e ∈ m.entries, ∀ f ∈ n.entries, e.1 = f.1 → R e.2 f.2) :
  List.Forall₂ (fun e f => e.1 = f.1 ∧ R e.2 f.2) m.entries n.entries
  := by
  obtain ⟨es⟩ := m
  obtain ⟨fs⟩ := n
  replace keys : es.map Prod.fst = fs.map Prod.fst := keys
  replace h : ∀ e ∈ es, ∀ f ∈ fs, e.1 = f.1 → R e.2 f.2 := h
  induction es generalizing fs with
  | nil =>
    obtain rfl := List.map_eq_nil_iff.mp keys.symm
    exact .nil
  | cons e es ih =>
    obtain ⟨f, fs, rfl⟩ : ∃ f fs', fs = f :: fs' := by
      cases fs with
      | nil => cases keys
      | cons f fs => exact ⟨f, fs, rfl⟩
    obtain ⟨hkey, keys⟩ := List.cons.inj keys
    refine .cons ⟨hkey, h e (by simp) f (by simp) hkey⟩ (ih fs keys ?_)
    exact fun e he f hf => h e (by simp [he]) f (by simp [hf])

/-- What stands at the same place stands at the same key. -/
theorem OrderedMap.Distinct.of_forall₂ {β : Type} {R : α → β → Prop} {es : List (String × α)}
    {m : OrderedMap β} (distinct : m.Distinct)
    (h : List.Forall₂ (fun e f => e.1 = f.1 ∧ R e.2 f.2) es m.entries) :
  ∀ e ∈ es, ∀ f ∈ m.entries, e.1 = f.1 → R e.2 f.2
  := by
  intro e he f hf hkey
  obtain ⟨f', hf', hkey', hR⟩ := exists_of_forall₂_mem
    (S := fun (f : String × β) e => e.1 = f.1 ∧ R e.2 f.2) (List.Forall₂.flip h) he
  have hsame : f'.2 = f.2 := by
    have hfound := find?_eq_some_of_mem distinct (k := f.1) hf
    rw [← hkey, hkey', find?_eq_some_of_mem distinct hf'] at hfound
    exact Option.some.inj hfound
  exact hsame ▸ hR

namespace StateDescriptor

/-- States are read from the object that spells them, if each of them is. -/
theorem spells_states {fields inner : OrderedMap Json} {states : OrderedMap (StateDescriptor κ)}
    (within : (fields.get? "states").getD (.object .empty) = .object inner)
    (keys : inner.keys = states.keys) (distinct : states.Distinct)
    (h : ∀ e ∈ inner.entries, ∀ m ∈ states.entries, e.1 = m.1 →
      Reads decode e.2 m.2.withoutNulls) :
  fields.Spells "states" (Reads (asMap decode)) .empty (states.map withoutNulls)
  := by
  have hentries : List.Forall₂ (fun e m => e.1 = m.1 ∧ Reads decode e.2 m.2)
      inner.entries (states.map withoutNulls).entries := by
    rw [OrderedMap.map, List.forall₂_map_right_iff]
    exact OrderedMap.forall₂_entries (R := fun j m => Reads decode j m.withoutNulls) keys h
  have hdistinct : (states.map (withoutNulls (κ := κ))).Distinct := by
    rw [OrderedMap.Distinct, OrderedMap.keys, OrderedMap.map, List.map_map]
    exact distinct
  have hread : Reads (asMap decode) (.object inner) (states.map withoutNulls) :=
    asMap_ofJson ⟨hdistinct, inner, rfl, hentries⟩ fun _ _ hread => hread
  rw [OrderedMap.Spells]
  cases hj : fields.get? "states" with
  | none =>
    rw [hj] at within
    cases within
    rw [OrderedMap.map, List.map_eq_nil_iff.mp keys.symm]
    rfl
  | some j =>
    rw [hj] at within
    obtain rfl : j = .object inner := within
    exact hread

/-- A state is read from what spells it, without metadata that are null. -/
theorem Spelled.read {j : Json} {n : StateDescriptor κ} (h : n.Spelled j) :
  Reads decode j n.withoutNulls
  := by
  induction h with
  | @object fields inner n distinct kind on entry exit after invoke metadata initial within keys
      unrepeated _ ih =>
    have hmetadata : fields.Spells "meta" (Reads (asOption asJson)) none (presentMeta n.metadata) :=
      metadata.imp (congrArg presentMeta) fun _ => reads_presentMeta
    have hstates := spells_states within keys unrepeated ih
    rw [Reads, decode_eq, withoutNulls_eq]
    refine asRecord_ofJson
      (only { n with metadata := presentMeta n.metadata, states := n.states.map withoutNulls })
      distinct ?_ ?_ (by simp) _ _
    · simp only [StateDescriptor.fields, List.forall_mem_cons]
      refine ⟨?_, ?_, ?_, ?_, ?_, ?_, ?_, ?_, ?_, by simp⟩ <;> intro v hv seen
      · rw [(kind.of_get? hv).read]
        simp [only]
      · rw [TransitionDescriptor.asMap_ofJson (on.of_get? hv)]
        simp [only]
      · rw [decodeList_ofJson (entry.of_get? hv) fun _ _ => Action.Spelled.read]
        simp [only]
      · rw [decodeList_ofJson (exit.of_get? hv) fun _ _ => Action.Spelled.read]
        simp [only]
      · rw [TransitionDescriptor.asMap_ofJson (after.of_get? hv)]
        simp [only]
      · rw [decodeList_ofJson (invoke.of_get? hv) fun _ _ => InvokeDescriptor.Spelled.read]
        simp [only]
      · rw [hmetadata.of_get? hv]
        simp [only]
      · rw [asOption_asString (initial.of_get? hv)]
        simp [only]
      · rw [hstates.of_get? hv]
        simp [only]
    · simp only [StateDescriptor.fields, List.forall_mem_cons]
      rintro seen ⟨hkind, hon, hentry, hexit, hafter, hinvoke, hmeta, hinitial, hwithin, -⟩
      simp only [only, kind.ite_eq hkind, on.ite_eq hon, entry.ite_eq hentry, exit.ite_eq hexit,
        after.ite_eq hafter, invoke.ite_eq hinvoke, hmetadata.ite_eq hmeta,
        initial.ite_eq hinitial, hstates.ite_eq hwithin]

end StateDescriptor

/-! ### Machines -/

/-- A value spells a context: it is the object with the same entries. -/
def Context.Spelled (j : Json) (context : Context) : Prop := j = .object context ∧ j.Distinct

namespace MachineDescriptor

/-- A value spells a machine: it is an object, in which an object spells the states. -/
inductive Spelled : Json → MachineDescriptor κ → Prop where
  | object {fields inner : OrderedMap Json} {d : MachineDescriptor κ} (distinct : fields.Distinct)
      (id : fields.Spells "id" (Json.OptionOf Json.IsString) none d.id)
      (initial : fields.Spells "initial" (Json.OptionOf Json.IsString) none d.initial)
      (kind : fields.Spells "type" Kind.Spelled .atomic d.kind)
      (context : fields.Spells "context" Context.Spelled .empty d.context)
      (metadata : fields.Spells "meta" (Json.OptionOf Meta.Spelled) none d.metadata)
      (within : (fields.get? "states").getD (.object .empty) = .object inner)
      (keys : inner.keys = d.states.keys) (unrepeated : d.states.Distinct)
      (states : ∀ e ∈ inner.entries, ∀ n ∈ d.states.entries, e.1 = n.1 → n.2.Spelled e.2) :
    Spelled (.object fields) d

/-- The machine without metadata that are null, its own or of a state. -/
def withoutNulls (d : MachineDescriptor κ) : MachineDescriptor κ :=
  { d with
    metadata := presentMeta d.metadata
    states := d.states.map StateDescriptor.withoutNulls }

/-- The parts of a machine whose fields have been seen, and defaults for the others. -/
def only (d : MachineDescriptor κ) (seen : List String) : MachineDescriptor κ where
  id := if "id" ∈ seen then d.id else none
  initial := if "initial" ∈ seen then d.initial else none
  kind := if "type" ∈ seen then d.kind else .atomic
  context := if "context" ∈ seen then d.context else .empty
  metadata := if "meta" ∈ seen then d.metadata else none
  states := if "states" ∈ seen then d.states else .empty

/-- A machine is read from what spells it, without metadata that are null. -/
theorem Spelled.read {j : Json} {d : MachineDescriptor κ} (h : d.Spelled j) :
  ofJson j = .ok d.withoutNulls
  := by
  cases h with
  | @object fields inner d distinct id initial kind context metadata within keys unrepeated
      states =>
    have hmetadata : fields.Spells "meta" (Reads (asOption asJson)) none (presentMeta d.metadata) :=
      metadata.imp (congrArg presentMeta) fun _ => reads_presentMeta
    have hstates := StateDescriptor.spells_states within keys unrepeated
      fun e he n hn hkey => (states e he n hn hkey).read
    rw [MachineDescriptor.ofJson, decode]
    refine asRecord_ofJson (only d.withoutNulls) distinct ?_ ?_ (by simp) _ _
    · simp only [MachineDescriptor.fields, List.forall_mem_cons]
      refine ⟨?_, ?_, ?_, ?_, ?_, ?_, by simp⟩ <;> intro v hv seen
      · rw [asOption_asString (id.of_get? hv)]
        simp [only, withoutNulls]
      · rw [asOption_asString (initial.of_get? hv)]
        simp [only, withoutNulls]
      · rw [(kind.of_get? hv).read]
        simp [only, withoutNulls]
      · obtain ⟨rfl, hcontext⟩ := context.of_get? hv
        rw [asMap_asJson hcontext]
        simp [only, withoutNulls]
      · rw [hmetadata.of_get? hv]
        simp [only, withoutNulls]
      · rw [hstates.of_get? hv]
        simp [only, withoutNulls]
    · simp only [MachineDescriptor.fields, List.forall_mem_cons]
      rintro seen ⟨hid, hinitial, hkind, hcontext, hmeta, hwithin, -⟩
      simp only [only, withoutNulls, id.ite_eq hid, initial.ite_eq hinitial, kind.ite_eq hkind,
        context.ite_eq hcontext, hmetadata.ite_eq hmeta, hstates.ite_eq hwithin]

end MachineDescriptor

end Statechart
