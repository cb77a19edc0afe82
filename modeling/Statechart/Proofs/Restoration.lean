import Statechart.History
import Statechart.Proofs.Calendar
import Statechart.Proofs.Recording

/-!
# Histories that are restored

A value is written as a string or as an object, and told from the other kind of value only by
trying to read it.  A value in which no region has a key twice is read again as it was written,
with its regions in the same order, and so is a history of such values
(`History.restored`).
-/

namespace Statechart

open Source

/-! ### Values -/

namespace StateValue

/-- No value within a value has two regions with the same key. -/
inductive Distinct : StateValue → Prop where
  | leaf (key : String) : Distinct (.leaf key)
  | regions {parts : OrderedMap StateValue} (keys : parts.Distinct)
      (each : ∀ e ∈ parts.entries, Distinct e.2) : Distinct (.regions parts)

mutual

/-- How deeply regions are nested in a value. -/
def depth : StateValue → Nat
  | .leaf _ => 0
  | .regions ⟨parts⟩ => depthOfParts parts + 1

/-- How deeply regions are nested in the values of regions. -/
def depthOfParts : List (String × StateValue) → Nat
  | [] => 0
  | (_, v) :: rest => max (depth v) (depthOfParts rest)

end

/-- A value without repeated keys equals itself. -/
theorem Distinct.beq_self {v : StateValue} (h : v.Distinct) :
  (v == v) = true
  := by
  induction h with
  | leaf key => exact leaf_beq_leaf.mpr rfl
  | @regions parts keys _ ih =>
    obtain ⟨entries⟩ := parts
    change same _ _ = true
    rw [same, Bool.and_eq_true, sameParts_iff]
    refine ⟨beq_self_eq_true entries.length, fun e he => ?_⟩
    exact ⟨e.2, OrderedMap.find?_eq_some_of_mem keys he, ih e he⟩

variable {ending : Ending}

/-- Regions that are each read back are read back together, in their order. -/
theorem partsOfSource?_written {parts : List (String × StateValue)}
    (h : ∀ e ∈ parts, ofSource? (written ending e.2.toJson) = some e.2)
    (acc : OrderedMap StateValue) :
  partsOfSource? (writtenFields ending (partsToJson parts)) acc = some (acc.insertAll parts)
  := by
  induction parts generalizing acc with
  | nil => rfl
  | cons e rest ih =>
    obtain ⟨he, hrest⟩ := List.forall_mem_cons.mp h
    rw [partsToJson, writtenFields, partsOfSource?, he]
    exact ih hrest _

/-- A value is read as what it was, whichever kind of value it is. -/
theorem ofSource?_written {v : StateValue} (h : v.Distinct) :
  ofSource? (written ending v.toJson) = some v
  := by
  induction h with
  | leaf key => rfl
  | @regions parts keys _ ih =>
    obtain ⟨entries⟩ := parts
    have hsame : OrderedMap.empty.insertAll entries = ⟨entries⟩ :=
      congrArg OrderedMap.mk (OrderedMap.entries_ofList keys)
    rw [toJson, written, ofSource?, partsOfSource?_written ih, hsame]
    rfl

/-- A state value is read back from what was written of it. -/
theorem decode_written (hending : ending.fault? = none) {v : StateValue} (h : v.Distinct) :
  decode (written ending v.toJson) = .ok v
  := by
  rw [decode, readFault?_written hending, ofSource?_written h]
  rfl

mutual

/-- The regions of a value may be nested as deeply as lists and maps may. -/
theorem legible_toJson : (v : StateValue) → ∀ {around : Nat}, around + v.depth ≤ maxDepth →
    Legible around v.toJson
  | .leaf key, around, _ => .string around key
  | .regions ⟨parts⟩, around, h => by
    rw [depth] at h
    exact .object (by omega) (legible_partsToJson parts (by omega))

/-- The values of regions are legible within the depth that is left. -/
theorem legible_partsToJson : (parts : List (String × StateValue)) → ∀ {around : Nat},
    around + depthOfParts parts ≤ maxDepth → ∀ e ∈ partsToJson parts, Legible around e.2
  | [], _, _ => nofun
  | (k, v) :: rest, around, h => by
    rw [depthOfParts] at h
    rw [partsToJson]
    exact List.forall_mem_cons.mpr
      ⟨legible_toJson v (by omega), legible_partsToJson rest (by omega)⟩

end

end StateValue

/-! ### Records -/

namespace Source

variable {ρ : Type} {F : Fields ρ} {entries rest : List (String × Source)} {record record' : ρ}

/-- A field that has not been seen is read, and then the others. -/
theorem readFields_cons {name : String} {seen : List String} {value : Source}
    {decode : Source → ρ → Decoded ρ}
    (hfind : F.find? name = some decode) (hnew : seen.contains name = false)
    (hread : decode value record = .ok record') :
  readFields F ((name, value) :: rest) seen record = readFields F rest (name :: seen) record'
  := by
  simp only [readFields, hfind, hnew, hread]
  rfl

/-- A record is read from a map if the fields are, and those that are required are among them. -/
theorem asRecord_map {ending : Ending} (hending : ending.fault? = none) (seen : List String)
    (hread : readFields F entries [] record = .ok (record', seen)) {required : List String}
    (hrequired : required.find? (fun name => !seen.contains name) = none) (expected : String)
    (positional : Bool) :
  (map entries ending).asRecord expected positional required F record = .ok record'
  := by
  rw [asRecord, hread]
  simp only [bind, Except.bind, check, hending, hrequired]

end Source

namespace Change

/-- A record of values without repeated keys, at a point in time that is in the calendar. -/
structure Proper (r : Change) : Prop where
  source : r.source.Distinct
  target : r.target.Distinct
  time : r.time.InCalendar

/-- A proper record equals itself. -/
theorem Proper.beq_self {r : Change} (h : r.Proper) :
  (r == r) = true
  := by
  change same r r = true
  simp [same, h.source.beq_self, h.target.beq_self]

/-- A time of the calendar is read back. -/
theorem decodeTime_text {t : Timestamp} (h : t.InCalendar) :
  decodeTime (.string t.text) = .ok t
  := by
  simp only [decodeTime, asString, bind, Except.bind, Timestamp.ofText_text h]

/-- A change is read back from what was written of it. -/
theorem decode_written {ending : Ending} (hending : ending.fault? = none) {r : Change}
    (h : r.Proper) :
  decode (written ending r.toJson) = .ok r
  := by
  have hread : readFields fields (writtenFields ending
      [("from", r.source.toJson), ("to", r.target.toJson), ("event", .string r.event),
        ("timestamp", .string r.time.text)]) [] ⟨default, default, "", ⟨0⟩⟩
      = .ok (r, ["timestamp", "event", "to", "from"]) := by
    simp only [writtenFields]
    rw [readFields_cons rfl rfl (by rw [StateValue.decode_written hending h.source]; rfl),
      readFields_cons rfl rfl (by rw [StateValue.decode_written hending h.target]; rfl),
      readFields_cons rfl rfl (by rw [written]; rfl),
      readFields_cons rfl rfl (by rw [written, decodeTime_text h.time]; rfl)]
    rfl
  exact asRecord_map hending _ hread rfl _ _

theorem legible_toJson {r : Change} {around : Nat}
    (hsource : around + 1 + r.source.depth ≤ maxDepth)
    (htarget : around + 1 + r.target.depth ≤ maxDepth) :
  Legible around r.toJson
  := by
  refine .object (by omega) ?_
  simp only [List.forall_mem_cons]
  exact ⟨StateValue.legible_toJson _ hsource, StateValue.legible_toJson _ htarget, .string _ _,
    .string _ _, by simp⟩

end Change

/-! ### Histories -/

namespace History

/-- The history of changes that are recorded one after another. -/
def ofRecords (records : List Change) : History := records.foldl record empty

/-- Changes are recorded behind those that are there. -/
theorem foldl_record (h : History) (records : List Change) :
  records.foldl record h = ⟨h.records ++ records⟩
  := by
  induction records generalizing h with
  | nil => rw [List.foldl_nil, List.append_nil]
  | cons r rest ih =>
    rw [List.foldl_cons, ih, record, List.append_assoc]
    rfl

/-- A history made of changes has just these. -/
theorem ofRecords_eq (records : List Change) :
  ofRecords records = ⟨records⟩
  := foldl_record empty records

/-- A history of proper records equals itself. -/
theorem beq_self {records : List Change} (h : ∀ r ∈ records, r.Proper) :
  ((⟨records⟩ : History) == ⟨records⟩) = true
  := by
  change (records == records) = true
  induction records with
  | nil => rfl
  | cons r rest ih =>
    obtain ⟨hr, hrest⟩ := List.forall_mem_cons.mp h
    rw [List.cons_beq_cons, Bool.and_eq_true]
    exact ⟨hr.beq_self, ih hrest⟩

/-- Changes are read back in their order. -/
theorem decodeItems_written {ending : Ending} (hending : ending.fault? = none)
    {records : List Change} (h : ∀ r ∈ records, r.Proper) :
  decodeItems Change.decode (writtenItems ending (records.map Change.toJson)) = .ok records
  := by
  induction records with
  | nil => rfl
  | cons r rest ih =>
    obtain ⟨hr, hrest⟩ := List.forall_mem_cons.mp h
    rw [List.map_cons, writtenItems, decodeItems, Change.decode_written hending hr, ih hrest]
    rfl

/-- A history is read back from what was written of it. -/
theorem decode_written {ending : Ending} (hending : ending.fault? = none)
    {records : List Change} (h : ∀ r ∈ records, r.Proper) :
  decode (written ending (toJson ⟨records⟩)) = .ok ⟨records⟩
  := by
  have hrecords : (Source.list (writtenItems ending (records.map Change.toJson)) ending).asList
      Change.decode = .ok records := by
    rw [asList, decodeItems_written hending h, hending]
    rfl
  refine asRecord_map hending ["transitions"] ?_ rfl _ _
  simp only [writtenFields]
  rw [readFields_cons rfl rfl (by rw [written, hrecords]; rfl)]
  rfl

theorem legible_toJson {records : List Change}
    (h : ∀ r ∈ records, r.source.depth + 3 ≤ maxDepth ∧ r.target.depth + 3 ≤ maxDepth) :
  Legible 0 (toJson ⟨records⟩)
  := by
  refine .object (by decide) (List.forall_mem_singleton.mpr (.array (by decide) ?_))
  intro j hj
  obtain ⟨r, hr, rfl⟩ := List.mem_map.mp hj
  obtain ⟨hsource, htarget⟩ := h r hr
  exact Change.legible_toJson (by omega) (by omega)

/-- A history comes back as another one: they are equal, have the same path and the same duration,
and are written alike, with regions in the same order. -/
structure ComesBackAs (h h' : History) : Prop where
  equal : (h == h') = true
  path : h'.path = h.path
  duration : h'.duration? = h.duration?
  encoding : h'.toJson = h.toJson

/-- A history of proper changes comes back as itself. -/
theorem comesBackAs_self {records : List Change} (h : ∀ r ∈ records, r.Proper) :
  ComesBackAs ⟨records⟩ ⟨records⟩
  := ⟨beq_self h, rfl, rfl, rfl⟩

/-- A history of proper records comes back from its written form, and from its text if no value
in it is nested more deeply than can be read within a record. -/
theorem restored (records : List Change) (proper : ∀ r ∈ records, r.Proper) :
  (∃ h', decode (.ofJson (ofRecords records).toJson) = .ok h' ∧ ComesBackAs (ofRecords records) h')
  ∧ ((∀ r ∈ records, r.source.depth + 3 ≤ maxDepth ∧ r.target.depth + 3 ≤ maxDepth) →
      ∃ h', ofText (ofRecords records).toJson.compact = .ok h'
        ∧ ComesBackAs (ofRecords records) h')
  := by
  rw [ofRecords_eq]
  refine ⟨⟨⟨records⟩, ?_, comesBackAs_self proper⟩, fun hdepth => ?_⟩
  · rw [← written_whole, decode_written rfl proper]
  · refine ⟨⟨records⟩, ?_, comesBackAs_self proper⟩
    have hread := decode_written (show Ending.closed.fault? = none from rfl) proper
    rw [ofText, Source.ofText_compact (legible_toJson hdepth)]
    simp only [hread]
    rfl

/-- A value with a region within a region, and one that has none. -/
def twoRegions : StateValue :=
  .regions ⟨[("ui", .regions ⟨[("panel", .leaf "open")]⟩), ("data", .regions .empty)]⟩

/-- The same value with its regions in another order. -/
def twoRegionsSwapped : StateValue :=
  .regions ⟨[("data", .regions .empty), ("ui", .regions ⟨[("panel", .leaf "open")]⟩)]⟩

/-- A change from a leaf to regions, and one that only swaps them. -/
def swap : List Change :=
  [⟨.leaf "off", twoRegions, "ON", .ofMillis 0⟩,
    ⟨twoRegions, twoRegionsSwapped, "SWAP", .ofMillis 250⟩]

/-- Regions within regions come back, and their order does. -/
theorem swap_restored :
  (∀ r ∈ swap, r.Proper)
  ∧ ∃ h', ofText (ofRecords swap).toJson.compact = .ok h' ∧ ComesBackAs (ofRecords swap) h'
  := by
  have hui : StateValue.Distinct (.regions ⟨[("panel", .leaf "open")]⟩) :=
    .regions (OrderedMap.distinct_ofList [("panel", StateValue.leaf "open")])
      (List.forall_mem_singleton.mpr (.leaf "open"))
  have hdata : StateValue.Distinct (.regions .empty) := .regions OrderedMap.distinct_empty nofun
  have hregions : twoRegions.Distinct :=
    .regions (by simp [OrderedMap.Distinct, OrderedMap.keys]) (by simp [hui, hdata])
  have hswapped : twoRegionsSwapped.Distinct :=
    .regions (by simp [OrderedMap.Distinct, OrderedMap.keys]) (by simp [hui, hdata])
  have hproper : ∀ r ∈ swap, r.Proper := by
    simp only [swap, List.forall_mem_cons]
    exact ⟨⟨.leaf "off", hregions, by decide, by decide⟩,
      ⟨hregions, hswapped, by decide, by decide⟩, by simp⟩
  exact ⟨hproper, (restored swap hproper).2 (by decide +kernel)⟩

end History

end Statechart
