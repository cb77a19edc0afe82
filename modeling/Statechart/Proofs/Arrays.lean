import Statechart.Proofs.Longhand

/-!
# Arrays

A list of items may be written as an array of them, or as a single item.  From an array of
transitions or actions its items are read one by one, or nothing is read at all.  So it is with
invocations, unless the array is the list of the fields of one: then that invocation is read
(`ItemOrList.decode_arrays`).
-/

namespace Statechart

variable {κ α β ρ : Type}

/-- What follows is decoded from what was decoded before. -/
theorem Decoded.bind_eq_ok_iff {x : Decoded α} {f : α → Decoded β} {b : β} :
  x >>= f = .ok b ↔ ∃ a, x = .ok a ∧ f a = .ok b
  := by
  cases x <;> simp [bind, Except.bind]

theorem Decoded.exists_bind_pure_iff {x : Decoded α} {f : α → β} :
  (∃ b, (do let a ← x; return f a : Decoded β) = .ok b) ↔ ∃ a, x = .ok a
  := by
  cases x <;> simp [bind, Except.bind, pure, Except.pure]

/-! ### Items and entries one by one -/

namespace Source

variable {decode : Source → Decoded α}

/-- Items are read if each of them is. -/
theorem decodeItems_eq_ok_iff {items : List Source} {values : List α} :
  decodeItems decode items = .ok values
    ↔ List.Forall₂ (fun s value => decode s = .ok value) items values
  := by
  induction items generalizing values with
  | nil =>
    rw [decodeItems, List.forall₂_nil_left_iff, Except.ok.injEq]
    exact eq_comm
  | cons item rest ih =>
    simp only [decodeItems, Decoded.bind_eq_ok_iff, List.forall₂_cons_left_iff, ih]
    constructor
    · rintro ⟨value, hitem, others, hrest, ⟨⟩⟩
      exact ⟨value, others, hitem, hrest, rfl⟩
    · rintro ⟨value, others, hitem, hrest, rfl⟩
      exact ⟨value, hitem, others, hrest, rfl⟩

/-- The values of a map that is read are those of its entries, inserted in order. -/
theorem decodeEntries_eq_ok {entries : List (String × Source)} {acc m : OrderedMap α}
    (h : decodeEntries decode entries acc = .ok m) :
  ∃ es, List.Forall₂ (fun e x => e.1 = x.1 ∧ decode e.2 = .ok x.2) entries es
    ∧ m = acc.insertAll es
  := by
  induction entries generalizing acc with
  | nil => exact ⟨[], .nil, (Except.ok.inj h).symm⟩
  | cons e rest ih =>
    obtain ⟨key, s⟩ := e
    obtain ⟨value, hs, hrest⟩ := Decoded.bind_eq_ok_iff.mp h
    obtain ⟨es, hes, rfl⟩ := ih hrest
    exact ⟨(key, value) :: es, .cons ⟨rfl, hs⟩ hes, rfl⟩

theorem exists_find?_of_forall₂ {entries : List (String × Source)} {es : List (String × α)}
    (h : List.Forall₂ (fun e x => e.1 = x.1 ∧ decode e.2 = .ok x.2) entries es) {key : String}
    {s : Source} (hs : OrderedMap.find? key entries = some s) :
  ∃ value, OrderedMap.find? key es = some value ∧ decode s = .ok value
  := by
  induction h with
  | nil => cases hs
  | @cons e x entries es hx _ ih =>
    obtain ⟨name, s'⟩ := e
    obtain ⟨name', value⟩ := x
    obtain ⟨rfl, hvalue⟩ := hx
    by_cases hkey : name = key
    · rw [OrderedMap.find?, if_pos hkey] at hs ⊢
      obtain rfl := Option.some.inj hs
      exact ⟨value, rfl, hvalue⟩
    · rw [OrderedMap.find?, if_neg hkey] at hs ⊢
      exact ih hs

/-- Under a key of a map that is read there is what is read of its last entry. -/
theorem exists_get?_of_asMap {entries : List (String × Source)} {ending : Ending}
    {m : OrderedMap α} (h : (map entries ending).asMap decode = .ok m) {key : String} {s : Source}
    (hs : OrderedMap.find? key entries.reverse = some s) :
  ∃ value, m.get? key = some value ∧ decode s = .ok value
  := by
  obtain ⟨read, hread, hclosed⟩ := Decoded.bind_eq_ok_iff.mp h
  obtain ⟨-, -, ⟨⟩⟩ := Decoded.bind_eq_ok_iff.mp hclosed
  obtain ⟨es, hes, rfl⟩ := decodeEntries_eq_ok hread
  obtain ⟨value, hfind, hvalue⟩ := exists_find?_of_forall₂ (List.forall₂_reverse_iff.mpr hes) hs
  refine ⟨value, ?_, hvalue⟩
  rw [OrderedMap.get?_insertAll, hfind, Option.some_or]

end Source

/-! ### Arrays as lists -/

namespace ItemOrList

variable {item : Source → Decoded α}

/-- An array is read as a list: what is read are its items one by one, in order, or nothing. -/
inductive ReadsAsList (item : Source → Decoded α) (items : List Source) :
    Decoded (ItemOrList α) → Prop where
  | list {values : List α}
      (each : List.Forall₂ (fun s value => item s = .ok value) items values) :
    ReadsAsList item items (.ok (.list values))
  | fail (e : DecodeError) : ReadsAsList item items (.error e)

/-- What is read from an array: the items, and only where they cannot be read a single item. -/
theorem decode_list (item : Source → Decoded α) (items : List Source) (ending : Ending) :
  decode item (.list items ending)
    = match (Source.list items ending).readFault? with
      | some fault => .error (.broken fault)
      | none =>
        match Source.decodeItems item items, item (.list items ending) with
        | .ok values, _ => .ok (.list values)
        | _, .ok value => .ok (.item value)
        | _, _ => .error (.data (.noAlternative "OneOrMany"))
  := by
  rw [decode, Source.asUnion]
  cases hfault : (Source.list items ending).readFault? with
  | some fault => rfl
  | none =>
    have hending : ending.fault? = none := by
      rw [Source.readFault?, Option.or_eq_none_iff] at hfault
      exact hfault.2
    simp only [List.findSome?_cons, List.findSome?_nil, Source.asList, hending]
    cases Source.decodeItems item items <;> cases item (.list items ending) <;> rfl

/-- An array is read as a list exactly if it is not read as a single item. -/
theorem readsAsList_iff {items : List Source} {ending : Ending} :
  ReadsAsList item items (decode item (.list items ending))
    ↔ ¬ ((Source.list items ending).readFault? = none
      ∧ (∃ e, Source.decodeItems item items = .error e)
      ∧ ∃ value, item (.list items ending) = .ok value)
  := by
  rw [decode_list]
  cases hfault : (Source.list items ending).readFault? with
  | some fault => simpa using ReadsAsList.fail _
  | none =>
    cases hitems : Source.decodeItems item items with
    | ok values => simpa using ReadsAsList.list (Source.decodeItems_eq_ok_iff.mp hitems)
    | error e =>
      cases hitem : item (.list items ending) with
      | ok value =>
        simp only [Except.error.injEq, exists_eq', Except.ok.injEq, and_self, not_true_eq_false,
          iff_false]
        rintro ⟨⟩
      | error e' => simpa using ReadsAsList.fail _

/-- Where no array is an item every array is read as a list. -/
theorem readsAsList_of_toOption_eq_none {items : List Source} {ending : Ending}
    (h : (item (.list items ending)).toOption = none) :
  ReadsAsList item items (decode item (.list items ending))
  := by
  rw [readsAsList_iff]
  rintro ⟨-, -, value, hvalue⟩
  rw [hvalue] at h
  cases h

/-- What is read as a list is the list of what is read of the items. -/
theorem ReadsAsList.forall₂ {items : List Source} {read : Decoded (ItemOrList α)}
    (h : ReadsAsList item items read) {values : List α} (hvalues : toList <$> read = .ok values) :
  List.Forall₂ (fun s value => item s = .ok value) items values
  := by
  cases h with
  | list each =>
    obtain rfl := Except.ok.inj hvalues
    exact each
  | fail e => cases hvalues

end ItemOrList

/-! ### Values of sources -/

namespace Source

mutual

/-- A source in which there is no fault has a value. -/
theorem exists_toJson : (s : Source) → s.readFault? = none → ∃ j, s.toJson = .ok j
  | .null, _ => ⟨.null, rfl⟩
  | .bool b, _ => ⟨.bool b, rfl⟩
  | .number n, _ => ⟨.number n, rfl⟩
  | .string s, _ => ⟨.string s, rfl⟩
  | .list items ending, h => by
    obtain ⟨hitems, hending⟩ := Option.or_eq_none_iff.mp h
    obtain ⟨values, hvalues⟩ := exists_toItems items hitems
    exact ⟨.array values, by rw [toJson, hvalues, hending]; rfl⟩
  | .map entries ending, h => by
    obtain ⟨hentries, hending⟩ := Option.or_eq_none_iff.mp h
    obtain ⟨fields, hfields⟩ := exists_toFields entries hentries .empty
    exact ⟨.object fields, by rw [toJson, hfields, hending]; rfl⟩

theorem exists_toItems : (items : List Source) → readItems? items = none →
    ∃ values, toItems items = .ok values
  | [], _ => ⟨[], rfl⟩
  | item :: rest, h => by
    obtain ⟨hitem, hrest⟩ := Option.or_eq_none_iff.mp h
    obtain ⟨value, hvalue⟩ := exists_toJson item hitem
    obtain ⟨values, hvalues⟩ := exists_toItems rest hrest
    exact ⟨value :: values, by rw [toItems, hvalue, hvalues]; rfl⟩

theorem exists_toFields : (entries : List (String × Source)) → readEntries? entries = none →
    ∀ acc, ∃ fields, toFields entries acc = .ok fields
  | [], _, acc => ⟨acc, rfl⟩
  | (key, s) :: rest, h, acc => by
    obtain ⟨hs, hrest⟩ := Option.or_eq_none_iff.mp h
    obtain ⟨value, hvalue⟩ := exists_toJson s hs
    obtain ⟨fields, hfields⟩ := exists_toFields rest hrest (acc.insert key value)
    exact ⟨fields, by rw [toFields, hvalue]; exact hfields⟩

end

theorem exists_decodeEntries_asJson {entries : List (String × Source)}
    (h : readEntries? entries = none) (acc : OrderedMap Json) :
  ∃ m, decodeEntries asJson entries acc = .ok m
  := by
  induction entries generalizing acc with
  | nil => exact ⟨acc, rfl⟩
  | cons e rest ih =>
    obtain ⟨key, s⟩ := e
    obtain ⟨hs, hrest⟩ := Option.or_eq_none_iff.mp h
    obtain ⟨value, hvalue⟩ := exists_toJson s hs
    obtain ⟨m, hm⟩ := ih hrest (acc.insert key value)
    refine ⟨m, Decoded.bind_eq_ok_iff.mpr ⟨value, ?_, hm⟩⟩
    rw [asJson, hvalue]

/-- A map in which there is no fault is read as one of values. -/
theorem exists_asMap_asJson_iff {s : Source} (h : s.readFault? = none) :
  (∃ m, s.asMap asJson = .ok m) ↔ ∃ entries ending, s = .map entries ending
  := by
  cases s with
  | map entries ending =>
    obtain ⟨hentries, hending⟩ := Option.or_eq_none_iff.mp h
    obtain ⟨m, hm⟩ := exists_decodeEntries_asJson hentries .empty
    simp [asMap, hm, hending, check, bind, Except.bind, pure, Except.pure]
  | _ => simp [asMap]

theorem exists_asString_iff {s : Source} :
  (∃ text, s.asString = .ok text) ↔ ∃ text, s = .string text
  := by
  cases s <;> simp [asString]

theorem exists_asOption_iff {decode : Source → Decoded α} {s : Source} :
  (∃ o, s.asOption decode = .ok o) ↔ s = .null ∨ ∃ value, decode s = .ok value
  := by
  cases s with
  | null => simp [asOption]
  | _ =>
    simp only [asOption, reduceCtorEq, false_or]
    cases decode _ <;> simp [Except.map]

theorem readFault?_of_mem {items : List Source} (h : readItems? items = none) {s : Source}
    (hs : s ∈ items) :
  s.readFault? = none
  := by
  induction items with
  | nil => cases hs
  | cons item rest ih =>
    obtain ⟨hitem, hrest⟩ := Option.or_eq_none_iff.mp h
    obtain rfl | hs := List.mem_cons.mp hs
    · exact hitem
    · exact ih hrest hs

/-! ### Records as lists -/

variable {F : Fields ρ}

/-- Whether a field can be read does not depend on the record that it is read into. -/
def Fields.Steady (F : Fields ρ) : Prop :=
  ∀ f ∈ F, ∀ s r r', (∃ record, f.2 s r = .ok record) → ∃ record, f.2 s r' = .ok record

/-- Items are read as fields if each of them can be read as the field in its place. -/
theorem exists_readPositions_iff (hF : F.Steady) {items : List Source} (seen : List String)
    (default record : ρ) :
  (∃ read, readPositions F items seen record = .ok read)
    ↔ ∀ (i : Nat) f s, F[i]? = some f → items[i]? = some s → ∃ r, f.2 s default = .ok r
  := by
  induction F generalizing items seen record with
  | nil => simp [readPositions]
  | cons f F ih =>
    obtain ⟨hf, hothers⟩ := List.forall_mem_cons.mp hF
    cases items with
    | nil => simp [readPositions]
    | cons item rest =>
      obtain ⟨name, decode⟩ := f
      simp only [readPositions, Decoded.bind_eq_ok_iff]
      constructor
      · rintro ⟨read, record', hitem, hrest⟩ (_ | i) f s hf' hs
        · obtain rfl := Option.some.inj hf'
          obtain rfl := Option.some.inj hs
          exact hf _ _ _ ⟨record', hitem⟩
        · exact (ih hothers _ _).mp ⟨read, hrest⟩ i f s hf' hs
      · intro h
        obtain ⟨record', hitem⟩ := hf _ _ record (h 0 _ _ rfl rfl)
        obtain ⟨read, hrest⟩ := (ih hothers (name :: seen) record').mpr
          fun i f s hf' hs => h (i + 1) f s hf' hs
        exact ⟨read, record', hitem, hrest⟩

theorem seen_readPositions {items : List Source} {seen seen' : List String} {record record' : ρ}
    (h : readPositions F items seen record = .ok (record', seen')) :
  ∀ name, name ∈ seen' ↔ name ∈ (F.take items.length).map Prod.fst ∨ name ∈ seen
  := by
  induction F generalizing items seen record with
  | nil =>
    obtain ⟨⟩ := h
    simp
  | cons f F ih =>
    cases items with
    | nil =>
      obtain ⟨⟩ := h
      simp
    | cons item rest =>
      obtain ⟨record'', -, hrest⟩ := Decoded.bind_eq_ok_iff.mp h
      intro name
      rw [ih hrest]
      simp only [List.length_cons, List.take_succ_cons, List.map_cons, List.mem_cons]
      tauto

/-- A whole array is read as a record exactly if its items can be read as the fields in their
places, there are no more of them than fields, and those that are required are among them. -/
theorem exists_asRecord_list_iff (hF : F.Steady) {items : List Source} {ending : Ending}
    (hending : ending.fault? = none) (expected : String) (required : List String) (default : ρ) :
  (∃ record, (list items ending).asRecord expected true required F default = .ok record)
    ↔ (∀ (i : Nat) f s, F[i]? = some f → items[i]? = some s → ∃ r, f.2 s default = .ok r)
      ∧ items.length ≤ F.length
      ∧ ∀ name ∈ required, name ∈ (F.take items.length).map Prod.fst
  := by
  rw [← exists_readPositions_iff hF [] default default, ← Nat.not_lt]
  simp only [asRecord, if_true, Decoded.bind_eq_ok_iff]
  constructor
  · rintro ⟨record, ⟨record', seen⟩, hread, hrest⟩
    have hseen := seen_readPositions hread
    split at hrest
    · cases hrest
    · next hsize =>
      simp only [hending, check, bind, Except.bind] at hrest
      split at hrest
      · cases hrest
      · next hfound =>
        refine ⟨⟨_, hread⟩, hsize, fun name hname => ?_⟩
        simpa [hseen] using List.find?_eq_none.mp hfound name hname
  · rintro ⟨⟨⟨record, seen⟩, hread⟩, hsize, hrequired⟩
    have hseen := seen_readPositions hread
    have hfound : required.find? (fun name => !seen.contains name) = none := by
      rw [List.find?_eq_none]
      intro name hname
      simpa [hseen] using hrequired name hname
    refine ⟨record, _, hread, ?_⟩
    simp only [if_neg hsize, hending, check, bind, Except.bind, hfound]

end Source

/-! ### Invocations -/

namespace InvokeDescriptor

/-- The list of the fields of an invocation: an identifier and a service, then perhaps data and
the two reactions, each of which may be null. -/
structure IsFieldList (κ : Type) (items : List Source) : Prop where
  id : ∃ id, items[0]? = some (.string id)
  service : ∃ name, items[1]? = some (.string name)
  data : ∀ s ∈ items[2]?, s = .null ∨ ∃ entries ending, s = .map entries ending
  onDone : ∀ s ∈ items[3]?, s = .null ∨ ∃ r, Reaction.decode (κ := κ) s = .ok r
  onError : ∀ s ∈ items[4]?, s = .null ∨ ∃ r, Reaction.decode (κ := κ) s = .ok r
  size : items.length ≤ 5

theorem steady_fields :
  (fields (κ := κ)).Steady
  := by
  intro f hf s r r' ⟨record, h⟩
  simp only [fields, List.mem_cons, List.not_mem_nil, or_false] at hf
  obtain rfl | rfl | rfl | rfl | rfl := hf <;>
  · obtain ⟨x, hx, -⟩ := Decoded.bind_eq_ok_iff.mp h
    exact ⟨_, Decoded.bind_eq_ok_iff.mpr ⟨x, hx, rfl⟩⟩

/-- A whole array is read as an invocation exactly if it is the list of the fields of one. -/
theorem exists_decode_list_iff {items : List Source} {ending : Ending}
    (h : (Source.list items ending).readFault? = none) :
  (∃ i, decode (κ := κ) (.list items ending) = .ok i) ↔ IsFieldList κ items
  := by
  obtain ⟨hitems, hending⟩ := Option.or_eq_none_iff.mp h
  have hsound : ∀ (i : Nat) s, items[i]? = some s → s.readFault? = none :=
    fun i s hs => Source.readFault?_of_mem hitems (List.mem_of_getElem? hs)
  rw [decode, Source.exists_asRecord_list_iff steady_fields hending]
  constructor
  · rintro ⟨hfields, hsize, hrequired⟩
    obtain ⟨a, b, rest, rfl⟩ : ∃ a b rest, items = a :: b :: rest := by
      have hsrc := hrequired "src" (by simp)
      match items with
      | [] => simp at hsrc
      | [a] => simp [fields] at hsrc
      | a :: b :: rest => exact ⟨a, b, rest, rfl⟩
    have hid := Source.exists_asString_iff.mp
      (Decoded.exists_bind_pure_iff.mp (hfields 0 _ a rfl rfl))
    have hservice :=
      Source.exists_asString_iff.mp (Decoded.exists_bind_pure_iff.mp (hfields 1 _ b rfl rfl))
    refine ⟨?_, ?_, fun s hs => ?_, fun s hs => ?_, fun s hs => ?_, hsize⟩
    · simpa using hid
    · simpa using hservice
    · have hdata := Source.exists_asOption_iff.mp
        (Decoded.exists_bind_pure_iff.mp (hfields 2 _ s rfl hs))
      rwa [Source.exists_asMap_asJson_iff (hsound 2 s hs)] at hdata
    · exact Source.exists_asOption_iff.mp (Decoded.exists_bind_pure_iff.mp (hfields 3 _ s rfl hs))
    · exact Source.exists_asOption_iff.mp (Decoded.exists_bind_pure_iff.mp (hfields 4 _ s rfl hs))
  · rintro ⟨⟨id, hid⟩, ⟨name, hservice⟩, hdata, hdone, herror, hsize⟩
    refine ⟨?_, hsize, ?_⟩
    · intro i f s hf hs
      match i with
      | 0 =>
        cases hf
        cases hid.symm.trans hs
        exact ⟨_, rfl⟩
      | 1 =>
        cases hf
        cases hservice.symm.trans hs
        exact ⟨_, rfl⟩
      | 2 =>
        cases hf
        apply Decoded.exists_bind_pure_iff.mpr
        rw [Source.exists_asOption_iff, Source.exists_asMap_asJson_iff (hsound 2 s hs)]
        exact hdata s hs
      | 3 =>
        cases hf
        exact Decoded.exists_bind_pure_iff.mpr (Source.exists_asOption_iff.mpr (hdone s hs))
      | 4 =>
        cases hf
        exact Decoded.exists_bind_pure_iff.mpr (Source.exists_asOption_iff.mpr (herror s hs))
      | i + 5 => cases hf
    · match items with
      | [] => cases hid
      | [a] => cases hservice
      | a :: b :: rest => simp [fields]

/-- Invocations are read from an array as a list, unless it is the list of the fields of one. -/
theorem readsAsList_iff {items : List Source} {ending : Ending} :
  ItemOrList.ReadsAsList (decode (κ := κ)) items (ItemOrList.decode decode (.list items ending))
    ↔ ¬ ((Source.list items ending).readFault? = none ∧ IsFieldList κ items)
  := by
  rw [ItemOrList.readsAsList_iff, not_iff_not]
  constructor
  · rintro ⟨hsound, -, hread⟩
    exact ⟨hsound, (exists_decode_list_iff hsound).mp hread⟩
  · rintro ⟨hsound, hlist⟩
    refine ⟨hsound, ?_, (exists_decode_list_iff hsound).mpr hlist⟩
    obtain ⟨id, hid⟩ := hlist.id
    match items with
    | first :: rest =>
      obtain rfl := Option.some.inj hid
      exact ⟨_, rfl⟩

end InvokeDescriptor

/-! ### Fields with lists -/

namespace Source.Fields

variable {F : Fields ρ} {name : String} {item : Source → Decoded α}

/-- From an array in a field its items are read one by one, if any are, unless the array is
excepted. -/
def ListsAt (F : Fields ρ) (name : String) (item : Source → Decoded α) (get : ρ → List α)
    (excepted : List Source → Prop) : Prop :=
  ∃ decode, F.find? name = some decode ∧ ∀ items ending record record',
    decode (.list items ending) record = .ok record' → ¬ excepted items →
      List.Forall₂ (fun s value => item s = .ok value) items (get record')

/-- From an array under a key of the map in a field its items are read one by one, if any are.
Of a key that is repeated the last value counts. -/
def ListsUnder (F : Fields ρ) (name : String) (item : Source → Decoded α)
    (get : ρ → OrderedMap (List α)) : Prop :=
  ∃ decode, F.find? name = some decode ∧ ∀ entries ending record record',
    decode (.map entries ending) record = .ok record' →
      ∀ key items ending', OrderedMap.find? key entries.reverse = some (.list items ending') →
        ∃ values, (get record').get? key = some values
          ∧ List.Forall₂ (fun s value => item s = .ok value) items values

end Source.Fields

namespace ItemOrList

variable {item : Source → Decoded α}

theorem forall₂_of_decodeList {items : List Source} {ending : Ending} {values : List α}
    (hread : decodeList item (.list items ending) = .ok values)
    (h : ReadsAsList item items (decode item (.list items ending))) :
  List.Forall₂ (fun s value => item s = .ok value) items values
  := by
  obtain ⟨read, hdecode, ⟨⟩⟩ := Decoded.bind_eq_ok_iff.mp hread
  rw [hdecode] at h
  cases h with
  | list each => exact each

theorem listsAt {F : Source.Fields ρ} {name : String} {get : ρ → List α}
    {excepted : List Source → Prop} (set : ρ → List α → ρ)
    (hfind : F.find? name = some fun s record => do
      let values ← decodeList item s
      return set record values)
    (hget : ∀ record values, get (set record values) = values)
    (h : ∀ items ending, ¬ excepted items →
      ReadsAsList item items (decode item (.list items ending))) :
  F.ListsAt name item get excepted
  := by
  refine ⟨_, hfind, fun items ending record record' hread hitems => ?_⟩
  obtain ⟨values, hvalues, ⟨⟩⟩ := Decoded.bind_eq_ok_iff.mp hread
  rw [hget]
  exact forall₂_of_decodeList hvalues (h items ending hitems)

theorem listsUnder {F : Source.Fields ρ} {name : String} {get : ρ → OrderedMap (List α)}
    (set : ρ → OrderedMap (List α) → ρ)
    (hfind : F.find? name = some fun s record => do
      let m ← s.asMap (decodeList item)
      return set record m)
    (hget : ∀ record m, get (set record m) = m)
    (h : ∀ items ending, ReadsAsList item items (decode item (.list items ending))) :
  F.ListsUnder name item get
  := by
  refine ⟨_, hfind, fun entries ending record record' hread key items ending' hkey => ?_⟩
  obtain ⟨m, hm, ⟨⟩⟩ := Decoded.bind_eq_ok_iff.mp hread
  rw [hget]
  obtain ⟨values, hvalues, hitems⟩ := Source.exists_get?_of_asMap hm hkey
  exact ⟨values, hvalues, forall₂_of_decodeList hitems (h items ending')⟩

end ItemOrList

/-- No array is a transition. -/
theorem TransitionDescriptor.decode_list (items : List Source) (ending : Ending) :
  (decode (κ := κ) (.list items ending)).toOption = none
  := by
  rw [decode, Source.asUnion]
  cases (Source.list items ending).readFault? <;> rfl

/-! ### Arrays where lists are written -/

namespace ItemOrList

/-- From an array of transitions or of actions what is read are its items one by one, or nothing.
From an array of invocations it is so exactly if the array is not the list of the fields of one
invocation.  Hence these are the lists that a state and a transition hold in their fields. -/
theorem decode_arrays (κ : Type) :
  (∀ items ending, ReadsAsList (TransitionDescriptor.decode (κ := κ)) items
    (decode TransitionDescriptor.decode (.list items ending)))
  ∧ (∀ items ending, ReadsAsList (Action.decode (κ := κ)) items
    (decode Action.decode (.list items ending)))
  ∧ (∀ items ending, ReadsAsList (InvokeDescriptor.decode (κ := κ)) items
      (decode InvokeDescriptor.decode (.list items ending))
    ↔ ¬ ((Source.list items ending).readFault? = none ∧ InvokeDescriptor.IsFieldList κ items))
  ∧ (∀ inner : Source → Decoded (StateDescriptor κ),
    let F := StateDescriptor.fields inner
    F.ListsUnder "on" TransitionDescriptor.decode StateDescriptor.on
    ∧ F.ListsUnder "after" TransitionDescriptor.decode StateDescriptor.after
    ∧ F.ListsAt "entry" Action.decode StateDescriptor.entry (fun _ => False)
    ∧ F.ListsAt "exit" Action.decode StateDescriptor.exit (fun _ => False)
    ∧ F.ListsAt "invoke" InvokeDescriptor.decode StateDescriptor.invoke
        (InvokeDescriptor.IsFieldList κ))
  ∧ (TransitionDescriptor.fields (κ := κ)).ListsAt "actions" Action.decode
      TransitionDescriptor.actions (fun _ => False)
  := by
  have htransitions : ∀ items ending, ReadsAsList (TransitionDescriptor.decode (κ := κ)) items
      (decode TransitionDescriptor.decode (.list items ending)) :=
    fun items ending =>
      readsAsList_of_toOption_eq_none (TransitionDescriptor.decode_list items ending)
  have hactions : ∀ items ending, ReadsAsList (Action.decode (κ := κ)) items
      (decode Action.decode (.list items ending)) :=
    fun items ending => readsAsList_of_toOption_eq_none rfl
  refine ⟨htransitions, hactions, fun items ending => InvokeDescriptor.readsAsList_iff,
    fun inner => ⟨?_, ?_, ?_, ?_, ?_⟩, ?_⟩
  · exact listsUnder (fun n m => { n with on := m }) rfl (fun _ _ => rfl) htransitions
  · exact listsUnder (fun n m => { n with after := m }) rfl (fun _ _ => rfl) htransitions
  · exact listsAt (fun n xs => { n with entry := xs }) rfl (fun _ _ => rfl)
      fun items ending _ => hactions items ending
  · exact listsAt (fun n xs => { n with exit := xs }) rfl (fun _ _ => rfl)
      fun items ending _ => hactions items ending
  · exact listsAt (fun n xs => { n with invoke := xs }) rfl (fun _ _ => rfl)
      fun items ending hitems =>
        InvokeDescriptor.readsAsList_iff.mpr fun hlist => hitems hlist.2
  · exact listsAt (fun t xs => { t with actions := xs }) rfl (fun _ _ => rfl)
      fun items ending _ => hactions items ending

/-- Two targets are two transitions, and an array in an array may be an invocation. -/
theorem decode_arrays_targets :
  List.Forall₂ (fun s t => TransitionDescriptor.decode (κ := String) s = .ok t)
    [.string "B", .string "C"] [.ofTarget "B", .ofTarget "C"]
  ∧ ReadsAsList (InvokeDescriptor.decode (κ := String))
    [.list [.string "kid", .string "svc"] .whole]
    (decode InvokeDescriptor.decode (.list [.list [.string "kid", .string "svc"] .whole] .whole))
  := by
  obtain ⟨htransitions, -, hinvocations, -⟩ := decode_arrays String
  refine ⟨?_, (hinvocations _ _).mpr ?_⟩
  · exact (htransitions [.string "B", .string "C"] .whole).forall₂ rfl
  · rintro ⟨-, ⟨id, hid⟩, -⟩
    cases hid

/-- An identifier and a service are read as one invocation, and so not as a list. -/
theorem decode_pair_not_list :
  decode (InvokeDescriptor.decode (κ := String)) (.ofJson (.array [.string "kid", .string "svc"]))
    = .ok (.item (.ofService "kid" "svc"))
  ∧ ¬ ReadsAsList (InvokeDescriptor.decode (κ := String))
    (Source.ofItems [.string "kid", .string "svc"])
    (decode InvokeDescriptor.decode (.ofJson (.array [.string "kid", .string "svc"])))
  := by
  refine ⟨rfl, ?_⟩
  intro h
  change ReadsAsList _ _ (.ok (.item (InvokeDescriptor.ofService "kid" "svc"))) at h
  cases h

end ItemOrList

end Statechart
