import Statechart.Event
import Statechart.Proofs.Arrays
import Statechart.Proofs.Legibility
import Statechart.Proofs.Spelling

/-!
# Events that come back

The payload of an event is written beside its kind, in the same object.  An event is read from its
written form again if no payload field has the name of the field for the kind, and is lost
otherwise: a text in which that name is repeated is refused, and no event that is read has a
payload field of that name (`Event.reread_iff`).
-/

namespace Statechart

/-! ### Equal values -/

/-- Numbers are never unlike themselves. -/
theorem Number.beq_self (n : Number) :
  n.beq n = true
  := by
  cases n <;> simp [beq, Binary64.beq]

namespace Json

theorem sameItems_self {items : List Json} (h : ∀ j ∈ items, (j == j) = true) :
  sameItems items items = true
  := by
  induction items with
  | nil => rfl
  | cons item rest ih =>
    obtain ⟨hitem, hrest⟩ := List.forall_mem_cons.mp h
    rw [sameItems, Bool.and_eq_true]
    exact ⟨hitem, ih hrest⟩

/-- Fields are the same if each of them is found, in any order. -/
theorem sameFields_iff {as : List (String × Json)} {bs : OrderedMap Json} :
  sameFields as bs = true ↔ ∀ e ∈ as, ∃ b, bs.get? e.1 = some b ∧ (e.2 == b) = true
  := by
  induction as with
  | nil => simp [sameFields]
  | cons e as ih =>
    obtain ⟨k, a⟩ := e
    rw [sameFields, Bool.and_eq_true, ih, List.forall_mem_cons]
    cases bs.get? k with
    | none => simp
    | some b => simp [BEq.beq]

/-- Objects are equal if they are of one size and each field of the first is found in the
second. -/
theorem beq_object_iff {as bs : OrderedMap Json} :
  (object as == object bs) = true
    ↔ as.size = bs.size ∧ ∀ e ∈ as.entries, ∃ b, bs.get? e.1 = some b ∧ (e.2 == b) = true
  := by
  obtain ⟨as⟩ := as
  change same _ _ = true ↔ _
  rw [same, Bool.and_eq_true, beq_iff_eq, sameFields_iff]
  rfl

/-- A value without repeated keys equals itself. -/
theorem Distinct.beq_self {j : Json} (h : j.Distinct) :
  (j == j) = true
  := by
  induction h with
  | null => rfl
  | bool b => exact beq_self_eq_true b
  | number n => exact n.beq_self
  | string s => exact beq_self_eq_true s
  | array _ ih => exact sameItems_self ih
  | @object fields keys _ ih =>
    refine beq_object_iff.mpr ⟨rfl, fun e he => ?_⟩
    exact ⟨e.2, OrderedMap.find?_eq_some_of_mem keys he, ih e he⟩

end Json

/-! ### Maps made by insertions -/

namespace OrderedMap

variable {α : Type} {es : List (String × α)}

theorem mem_keys_ofList {k : String} :
  k ∈ (ofList es).keys ↔ k ∈ es.map Prod.fst
  := by
  rw [← Decidable.not_iff_not, ← get?_eq_none_iff, get?_ofList, find?_eq_none_iff,
    List.map_reverse, List.mem_reverse]

/-- Each entry was inserted. -/
theorem mem_of_mem_ofList {e : String × α} (h : e ∈ (ofList es).entries) :
  e ∈ es
  := by
  have hget : (ofList es).get? e.1 = some e.2 := find?_eq_some_of_mem (distinct_ofList es) h
  rw [get?_ofList] at hget
  exact List.mem_reverse.mp (mem_of_find? hget)

end OrderedMap

namespace Event

open Source

/-! ### Events that are made -/

/-- The event of a kind with payload fields that are set one after another. -/
def withFields (kind : String) (fields : List (String × Json)) : Event :=
  fields.foldl (fun e f => e.add f.1 f.2) (named kind)

/-- Fields that are added to an event are inserted into its payload. -/
theorem foldl_add (e : Event) (fields : List (String × Json)) :
  fields.foldl (fun e f => e.add f.1 f.2) e = { e with payload := e.payload.insertAll fields }
  := by
  induction fields generalizing e with
  | nil => rfl
  | cons f rest ih =>
    rw [List.foldl_cons, ih]
    rfl

/-- An event with fields has the payload made of these. -/
theorem withFields_eq (kind : String) (fields : List (String × Json)) :
  withFields kind fields = ⟨kind, .ofList fields⟩
  := foldl_add (named kind) fields

/-! ### Events that are read -/

/-- The written form as a finished value, in which the last value of a repeated key counts. -/
def toValue (e : Event) : Json := .ofFields (("type", .string e.kind) :: e.payload.entries)

variable {ending : Ending}

/-- Once the kind has been read, fields are read as payload up to one with its name. -/
theorem readEntries_written (h : ending.fault? = none) (kind : String)
    {fields : List (String × Json)} (distinct : ∀ f ∈ fields, f.2.Distinct)
    (payload : OrderedMap Json) :
  readEntries (writtenFields ending fields) (some kind) payload
    = if "type" ∈ fields.map Prod.fst then .error (.data (.repeatedField "type"))
      else .ok (some kind, payload.insertAll fields)
  := by
  induction fields generalizing payload with
  | nil => rfl
  | cons f rest ih =>
    obtain ⟨key, value⟩ := f
    obtain ⟨hvalue, hrest⟩ := List.forall_mem_cons.mp distinct
    rw [writtenFields, readEntries]
    split
    · next hkey => rw [if_pos (by simp [hkey])]
    · next hkey =>
      have hread : (written ending value).asJson = .ok value := by
        rw [asJson, toJson_written h, toJson_ofJson hvalue]
      have hmem : "type" ∈ ((key, value) :: rest).map Prod.fst ↔ "type" ∈ rest.map Prod.fst := by
        simp [Ne.symm hkey]
      simp only [hread, hmem]
      exact ih hrest (payload.insert key value)

/-- An event is read from its written form, unless the name of the field for its kind is
repeated. -/
theorem decode_written (h : ending.fault? = none) {e : Event} (keys : e.payload.Distinct)
    (distinct : ∀ f ∈ e.payload.entries, f.2.Distinct) :
  decode (written ending e.toJson)
    = if "type" ∈ e.payload.keys then .error (.data (.repeatedField "type")) else .ok e
  := by
  obtain ⟨kind, ⟨fields⟩⟩ := e
  have hsame : OrderedMap.empty.insertAll fields = ⟨fields⟩ :=
    congrArg OrderedMap.mk (OrderedMap.entries_ofList keys)
  have hkind : readEntries (("type", .string kind) :: writtenFields ending fields) none .empty
      = readEntries (writtenFields ending fields) (some kind) .empty := rfl
  rw [toJson, written, writtenFields, written, decode, hkind, readEntries_written h kind distinct,
    hsame, OrderedMap.keys]
  split
  · rfl
  · simp only [h]
    rfl

/-- No payload field that is read has the name of the field for the kind. -/
theorem notMem_of_readEntries {entries : List (String × Source)} {kind kind' : Option String}
    {payload payload' : OrderedMap Json} (h : "type" ∉ payload.keys)
    (hread : readEntries entries kind payload = .ok (kind', payload')) :
  "type" ∉ payload'.keys
  := by
  induction entries generalizing kind payload with
  | nil =>
    cases hread
    exact h
  | cons entry rest ih =>
    obtain ⟨key, source⟩ := entry
    unfold readEntries at hread
    split at hread
    · cases kind with
      | some k => cases hread
      | none =>
        obtain ⟨k, -, hrest⟩ := Decoded.bind_eq_ok_iff.mp hread
        exact ih h hrest
    · next hkey =>
      obtain ⟨value, -, hrest⟩ := Decoded.bind_eq_ok_iff.mp hread
      refine ih ?_ hrest
      rw [← OrderedMap.get?_eq_none_iff] at h ⊢
      rw [OrderedMap.get?_insert_of_ne _ hkey, h]

/-- An event that was read has no payload under the key of its type. -/
theorem notMem_of_decode {s : Source} {e : Event} (h : decode s = .ok e) :
  "type" ∉ e.payload.keys
  := by
  cases s with
  | map entries ending =>
    obtain ⟨⟨kind, payload⟩, hread, hrest⟩ := Decoded.bind_eq_ok_iff.mp h
    obtain ⟨-, -, hkind⟩ := Decoded.bind_eq_ok_iff.mp hrest
    cases kind with
    | none => cases hkind
    | some kind =>
      cases hkind
      exact notMem_of_readEntries (by simp [OrderedMap.keys, OrderedMap.empty]) hread
  | _ => cases h

/-- An event has no payload field that equal events do not have. -/
theorem mem_keys_of_beq {e e' : Event} (h : (e == e') = true) {k : String}
    (hk : k ∈ e.payload.keys) :
  k ∈ e'.payload.keys
  := by
  obtain ⟨-, hpayload⟩ := Bool.and_eq_true_iff.mp h
  obtain ⟨-, hfields⟩ := Json.beq_object_iff.mp hpayload
  obtain ⟨entry, hentry, rfl⟩ := List.mem_map.mp hk
  obtain ⟨v, hv, -⟩ := hfields entry hentry
  exact List.mem_map.mpr ⟨_, OrderedMap.mem_entries_of_get? hv, rfl⟩

/-- An event equals itself. -/
theorem beq_self {e : Event} (keys : e.payload.Distinct)
    (distinct : ∀ f ∈ e.payload.entries, f.2.Distinct) :
  (e == e) = true
  := by
  have hpayload := (Json.Distinct.object keys distinct).beq_self
  exact Bool.and_eq_true_iff.mpr ⟨beq_self_eq_true e.kind, hpayload⟩

/-! ### Events that come back -/

/-- The written event is read back unless its payload repeats the key of its type, which is
refused. -/
theorem ofText_compact {e : Event} (keys : e.payload.Distinct)
    (distinct : ∀ f ∈ e.payload.entries, f.2.Distinct)
    (legible : ∀ f ∈ e.payload.entries, Legible 1 f.2) :
  ofText e.toJson.compact
    = if "type" ∈ e.payload.keys then .error (.data (.repeatedField "type")) else .ok e
  := by
  have hlegible : Legible 0 e.toJson :=
    .object (by decide) (List.forall_mem_cons.mpr ⟨.string 1 e.kind, legible⟩)
  have hread := decode_written (e := e) (show Ending.closed.fault? = none from rfl) keys distinct
  rw [ofText, Source.ofText_compact hlegible]
  simp only [hread]
  split <;> rfl

/-- Without such a key in the payload a written event is the type followed by the payload. -/
theorem toValue_eq {e : Event} (keys : e.payload.Distinct) (h : "type" ∉ e.payload.keys) :
  e.toValue = e.toJson
  := by
  have hkeys : ((("type", Json.string e.kind) :: e.payload.entries).map Prod.fst).Nodup :=
    List.nodup_cons.mpr ⟨h, keys⟩
  exact congrArg Json.object (congrArg OrderedMap.mk (OrderedMap.entries_ofList hkeys))

/-- An event that is made of a kind and fields, with values that can be read from text, is read
from its text and from its written form as a value again just if no field is called `type`; from
the text it is read as it was, with the fields in the same order, or it is refused. -/
theorem reread_iff (kind : String) (fields : List (String × Json))
    (distinct : ∀ f ∈ fields, f.2.Distinct) (legible : ∀ f ∈ fields, Legible 1 f.2) :
  let e := withFields kind fields
  ((∃ e', ofText e.toJson.compact = .ok e' ∧ (e == e') = true) ↔ "type" ∉ fields.map Prod.fst)
  ∧ ((∃ e', ofJson e.toValue = .ok e' ∧ (e == e') = true) ↔ "type" ∉ fields.map Prod.fst)
  ∧ ofText e.toJson.compact
    = if "type" ∈ fields.map Prod.fst then .error (.data (.repeatedField "type")) else .ok e
  := by
  intro e
  have he : e = ⟨kind, .ofList fields⟩ := withFields_eq kind fields
  have keys : e.payload.Distinct := he ▸ OrderedMap.distinct_ofList fields
  have hdistinct : ∀ f ∈ e.payload.entries, f.2.Distinct := by
    rw [he]
    exact fun f hf => distinct f (OrderedMap.mem_of_mem_ofList hf)
  have hlegible : ∀ f ∈ e.payload.entries, Legible 1 f.2 := by
    rw [he]
    exact fun f hf => legible f (OrderedMap.mem_of_mem_ofList hf)
  have hmem : "type" ∈ e.payload.keys ↔ "type" ∈ fields.map Prod.fst := by
    rw [he]
    exact OrderedMap.mem_keys_ofList
  have htext := ofText_compact keys hdistinct hlegible
  have hself := beq_self keys hdistinct
  simp only [← hmem]
  refine ⟨⟨?_, ?_⟩, ⟨?_, ?_⟩, htext⟩
  · rintro ⟨e', hread, -⟩ htype
    rw [htext, if_pos htype] at hread
    cases hread
  · intro htype
    exact ⟨e, by rw [htext, if_neg htype], hself⟩
  · rintro ⟨e', hread, hsame⟩ htype
    exact notMem_of_decode hread (mem_keys_of_beq hsame htype)
  · intro htype
    refine ⟨e, ?_, hself⟩
    rw [toValue_eq keys htype, ofJson, ← written_whole, decode_written rfl keys hdistinct,
      if_neg htype]

/-- A field that is set twice and one that holds other fields come back. -/
theorem select_reread :
  let fields : List (String × Json) :=
    [("item", .null), ("item", .array [.int 3, .object ⟨[("type", .string "x")]⟩])]
  ∃ e', ofText (withFields "SELECT" fields).toJson.compact = .ok e'
    ∧ (withFields "SELECT" fields == e') = true
  := by
  intro fields
  have hthree : (Number.int 3).Legible := Number.legible_int (by decide) (by decide)
  refine (reread_iff "SELECT" fields ?_ ?_).1.mpr (by decide)
  · simp only [fields, List.forall_mem_cons]
    refine ⟨.null, .array ?_, by simp⟩
    simp only [List.forall_mem_cons]
    refine ⟨.number _, .object (OrderedMap.distinct_ofList [("type", .string "x")]) ?_, by simp⟩
    simp only [List.forall_mem_cons]
    exact ⟨.string _, by simp⟩
  · simp only [fields, List.forall_mem_cons]
    refine ⟨.null 1, .array (by decide) ?_, by simp⟩
    simp only [List.forall_mem_cons]
    refine ⟨.number 2 hthree, .object (by decide) ?_, by simp⟩
    simp only [List.forall_mem_cons]
    exact ⟨.string 3 _, by simp⟩

/-- A field of the name of the field for the kind makes the text unreadable. -/
theorem tagged_not_reread :
  ¬∃ e', ofText (withFields "E" [("type", .string "x")]).toJson.compact = .ok e'
    ∧ (withFields "E" [("type", .string "x")] == e') = true
  := by
  rintro ⟨e', hread, -⟩
  rw [ofText_compact (OrderedMap.distinct_ofList [_])
    (List.forall_mem_singleton.mpr (.string "x"))
    (List.forall_mem_singleton.mpr (.string 1 "x")), if_pos (by decide)] at hread
  cases hread

end Event

end Statechart
