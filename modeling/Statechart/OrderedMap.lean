/-!
# Maps in insertion order

`OrderedMap α` maps strings to values and remembers the order in which its keys were
first inserted: a key bound anew keeps its place, a new key goes last.  The view of a
map is its list of entries; `get?`, `insert` and `erase` are described through
`keys` and `get?`.
-/

namespace Statechart

/-- A finite map from strings, with its keys in the order of first insertion. -/
structure OrderedMap (α : Type) where
  /-- The bindings in order. -/
  entries : List (String × α)
deriving Repr, DecidableEq

namespace OrderedMap

variable {α β : Type}

/-- The map without keys. -/
def empty : OrderedMap α := ⟨[]⟩

instance : EmptyCollection (OrderedMap α) := ⟨empty⟩

instance : Inhabited (OrderedMap α) := ⟨empty⟩

/-- The keys in order. -/
def keys (m : OrderedMap α) : List String := m.entries.map Prod.fst

/-- The values in the order of their keys. -/
def values (m : OrderedMap α) : List α := m.entries.map Prod.snd

/-- The number of keys. -/
def size (m : OrderedMap α) : Nat := m.entries.length

/-- Whether the map has no keys. -/
def isEmpty (m : OrderedMap α) : Bool := m.entries.isEmpty

/-- The value of the first entry with key `k`. -/
def find? (k : String) : List (String × α) → Option α
  | [] => none
  | (k', v) :: rest => if k' = k then some v else find? k rest

/-- The value at key `k`. -/
def get? (m : OrderedMap α) (k : String) : Option α := find? k m.entries

/-- Whether `k` is a key. -/
def contains (m : OrderedMap α) (k : String) : Bool := (m.get? k).isSome

/-- Binds the first entry with key `k` anew, or appends one. -/
def put (k : String) (v : α) : List (String × α) → List (String × α)
  | [] => [(k, v)]
  | (k', v') :: rest => if k' = k then (k, v) :: rest else (k', v') :: put k v rest

/-- Binds `k` to `v`; the place of a key that is present is kept. -/
def insert (m : OrderedMap α) (k : String) (v : α) : OrderedMap α := ⟨put k v m.entries⟩

/-- Removes the key `k`; the others keep their order. -/
def erase (m : OrderedMap α) (k : String) : OrderedMap α :=
  ⟨m.entries.filter fun e => decide (e.1 ≠ k)⟩

/-- Inserts entries one after another. -/
def insertAll (m : OrderedMap α) (es : List (String × α)) : OrderedMap α :=
  es.foldl (fun acc e => acc.insert e.1 e.2) m

/-- Inserts the entries of `n` into `m`. -/
def merge (m n : OrderedMap α) : OrderedMap α := m.insertAll n.entries

/-- The map made by inserting entries one after another. -/
def ofList (es : List (String × α)) : OrderedMap α := empty.insertAll es

/-- Applies `f` to every value. -/
def map (f : α → β) (m : OrderedMap α) : OrderedMap β :=
  ⟨m.entries.map fun e => (e.1, f e.2)⟩

/-- No key occurs twice. -/
def Distinct (m : OrderedMap α) : Prop := m.keys.Nodup

/-! ### Look-up -/

@[simp]
theorem get?_empty (k : String) :
  (empty : OrderedMap α).get? k = none
  := rfl

/-- A value that is put is found under its key, and others as before. -/
theorem find?_put (k k' : String) (v : α) (es : List (String × α)) :
  find? k' (put k v es) = if k = k' then some v else find? k' es
  := by
  induction es with
  | nil => simp [put, find?]
  | cons e rest ih =>
    obtain ⟨a, b⟩ := e
    by_cases h : a = k
    · subst h
      by_cases h' : a = k' <;> simp [put, find?, h']
    · by_cases h' : a = k'
      · subst h'
        simp [put, find?, h, Ne.symm h]
      · simp [put, find?, h, h', ih]

/-- A map answers the last value inserted under a key. -/
theorem get?_insert (m : OrderedMap α) (k k' : String) (v : α) :
  (m.insert k v).get? k' = if k = k' then some v else m.get? k'
  := find?_put k k' v m.entries

@[simp]
theorem get?_insert_self (m : OrderedMap α) (k : String) (v : α) :
  (m.insert k v).get? k = some v
  := by
  simp [get?_insert]

theorem get?_insert_of_ne (m : OrderedMap α) {k k' : String} (h : k ≠ k') (v : α) :
  (m.insert k v).get? k' = m.get? k'
  := by
  simp [get?_insert, h]

/-- Nothing is found under a key that was taken out, and others as before. -/
theorem find?_filter_ne (k k' : String) (es : List (String × α)) :
  find? k' (es.filter fun e => decide (e.1 ≠ k)) = if k = k' then none else find? k' es
  := by
  induction es with
  | nil => simp [find?]
  | cons e rest ih =>
    obtain ⟨a, b⟩ := e
    by_cases h : a = k
    · subst h
      by_cases h' : a = k' <;> simp_all [find?]
    · by_cases h' : a = k'
      · subst h'
        simp [find?, h, Ne.symm h]
      · simpa [find?, h, h'] using ih

/-- A map answers nothing under a key that was removed. -/
theorem get?_erase (m : OrderedMap α) (k k' : String) :
  (m.erase k).get? k' = if k = k' then none else m.get? k'
  := find?_filter_ne k k' m.entries

/-- Nothing is found just under the keys that are not there. -/
theorem find?_eq_none_iff (k : String) (es : List (String × α)) :
  find? k es = none ↔ k ∉ es.map Prod.fst
  := by
  induction es with
  | nil => simp [find?]
  | cons e rest ih =>
    obtain ⟨a, b⟩ := e
    by_cases h : a = k
    · simp [find?, h]
    · simpa [find?, h, Ne.symm h] using ih

/-- The keys are the arguments at which the map is defined. -/
theorem get?_eq_none_iff (m : OrderedMap α) (k : String) :
  m.get? k = none ↔ k ∉ m.keys
  := find?_eq_none_iff k m.entries

/-- What is found is an entry. -/
theorem mem_of_find? {k : String} {v : α} {es : List (String × α)}
    (h : find? k es = some v) :
  (k, v) ∈ es
  := by
  induction es with
  | nil => simp [find?] at h
  | cons e rest ih =>
    obtain ⟨a, b⟩ := e
    by_cases hk : a = k
    · simp_all [find?]
    · rw [find?, if_neg hk] at h
      exact List.mem_cons_of_mem _ (ih h)

/-- A binding that is found is an entry. -/
theorem mem_entries_of_get? {m : OrderedMap α} {k : String} {v : α}
    (h : m.get? k = some v) :
  (k, v) ∈ m.entries
  := mem_of_find? h

/-- What is found is a value. -/
theorem mem_values_of_get? {m : OrderedMap α} {k : String} {v : α} (h : m.get? k = some v) :
  v ∈ m.values
  := List.mem_map_of_mem (mem_entries_of_get? h)

/-- Where no key is repeated every entry is found. -/
theorem find?_eq_some_of_mem {k : String} {v : α} {es : List (String × α)}
    (distinct : (es.map Prod.fst).Nodup) (h : (k, v) ∈ es) :
  find? k es = some v
  := by
  induction es with
  | nil => simp at h
  | cons e rest ih =>
    obtain ⟨a, b⟩ := e
    rw [List.map_cons, List.nodup_cons] at distinct
    obtain h | h := List.mem_cons.mp h
    · simp_all [find?]
    · have hk : a ≠ k := by
        rintro rfl
        exact distinct.1 (List.mem_map.mpr ⟨_, h, rfl⟩)
      rw [find?, if_neg hk]
      exact ih distinct.2 h

/-- A value of a map with distinct keys is found under its key. -/
theorem Distinct.exists_get? {m : OrderedMap α} (h : m.Distinct) {v : α} (hv : v ∈ m.values) :
  ∃ k, m.get? k = some v
  := by
  obtain ⟨⟨k, v⟩, hmem, rfl⟩ := List.mem_map.mp hv
  exact ⟨k, find?_eq_some_of_mem h hmem⟩

/-- Values can be changed before or after a look-up. -/
theorem find?_map (f : String → α → β) (k : String) (es : List (String × α)) :
  find? k (es.map fun e => (e.1, f e.1 e.2)) = (find? k es).map (f k)
  := by
  induction es with
  | nil => rfl
  | cons e rest ih =>
    obtain ⟨a, b⟩ := e
    by_cases hk : a = k
    · simp [find?, hk]
    · simpa [find?, hk] using ih

/-- A map over values does not change where they are found. -/
theorem get?_map (f : α → β) (m : OrderedMap α) (k : String) :
  (m.map f).get? k = (m.get? k).map f
  := find?_map (fun _ => f) k m.entries

theorem contains_iff (m : OrderedMap α) (k : String) :
  m.contains k = true ↔ k ∈ m.keys
  := by
  rw [contains, Option.isSome_iff_ne_none, ne_eq, get?_eq_none_iff, Decidable.not_not]

/-! ### Order of the keys -/

/-- A new key comes last, and one that is there keeps its place. -/
theorem map_fst_put (k : String) (v : α) (es : List (String × α)) :
  (put k v es).map Prod.fst
    = if k ∈ es.map Prod.fst then es.map Prod.fst else es.map Prod.fst ++ [k]
  := by
  induction es with
  | nil => simp [put]
  | cons e rest ih =>
    obtain ⟨a, b⟩ := e
    by_cases h : a = k
    · simp [put, h]
    · rw [put, if_neg h, List.map_cons, ih]
      by_cases h' : k ∈ rest.map Prod.fst
      · simp [h']
      · simp [h', Ne.symm h]

/-- A present key keeps its place, a new one goes last. -/
theorem keys_insert (m : OrderedMap α) (k : String) (v : α) :
  (m.insert k v).keys = if k ∈ m.keys then m.keys else m.keys ++ [k]
  := map_fst_put k v m.entries

theorem distinct_empty :
  (empty : OrderedMap α).Distinct
  := List.nodup_nil

/-- An insertion repeats no key. -/
theorem Distinct.insert {m : OrderedMap α} (h : m.Distinct) (k : String) (v : α) :
  (m.insert k v).Distinct
  := by
  rw [Distinct, keys_insert]
  by_cases hk : k ∈ m.keys
  · rwa [if_pos hk]
  · rw [if_neg hk, List.nodup_append]
    refine ⟨h, by simp, ?_⟩
    intro a ha b hb
    rw [List.mem_singleton] at hb
    rintro rfl
    exact hk (hb ▸ ha)

/-- Insertions repeat no key. -/
theorem Distinct.insertAll {m : OrderedMap α} (h : m.Distinct) (es : List (String × α)) :
  (m.insertAll es).Distinct
  := by
  induction es generalizing m with
  | nil => exact h
  | cons e rest ih => exact ih (h.insert e.1 e.2)

/-- A value with a new key is put at the end. -/
theorem put_eq_append {k : String} {v : α} {es : List (String × α)}
    (h : k ∉ es.map Prod.fst) :
  put k v es = es ++ [(k, v)]
  := by
  induction es with
  | nil => rfl
  | cons e rest ih =>
    obtain ⟨a, b⟩ := e
    rw [List.map_cons, List.mem_cons, not_or] at h
    rw [put, if_neg (Ne.symm h.1), ih h.2, List.cons_append]

/-- The value of a new key goes last. -/
theorem values_insert {m : OrderedMap α} {k : String} (h : m.get? k = none) (v : α) :
  (m.insert k v).values = m.values ++ [v]
  := by
  have hentries : (m.insert k v).entries = m.entries ++ [(k, v)] :=
    put_eq_append ((get?_eq_none_iff m k).mp h)
  rw [values, hentries, List.map_append, values, List.map_singleton]

/-- Entries with new keys come behind those that are there. -/
theorem entries_insertAll {m : OrderedMap α} {es : List (String × α)}
    (h : (m.keys ++ es.map Prod.fst).Nodup) :
  (m.insertAll es).entries = m.entries ++ es
  := by
  induction es generalizing m with
  | nil => simp [insertAll]
  | cons e rest ih =>
    have fresh : e.1 ∉ m.entries.map Prod.fst := by
      intro he
      exact (List.nodup_append.mp h).2.2 _ he _ (by simp) rfl
    have step : (m.insert e.1 e.2).entries = m.entries ++ [e] := put_eq_append fresh
    have h' : ((m.insert e.1 e.2).keys ++ rest.map Prod.fst).Nodup := by
      rw [keys, step]
      simpa [keys] using h
    calc (m.insertAll (e :: rest)).entries
        = ((m.insert e.1 e.2).insertAll rest).entries := rfl
      _ = (m.insert e.1 e.2).entries ++ rest := ih h'
      _ = m.entries ++ e :: rest := by rw [step, List.append_assoc, List.singleton_append]

/-- Entries with distinct keys are kept as they are. -/
theorem entries_ofList {es : List (String × α)} (h : (es.map Prod.fst).Nodup) :
  (ofList es).entries = es
  := by
  have h' : ((empty : OrderedMap α).keys ++ es.map Prod.fst).Nodup := h
  rw [ofList, entries_insertAll h']
  rfl

/-- Every map made by insertions has distinct keys. -/
theorem distinct_ofList (es : List (String × α)) :
  (ofList es).Distinct
  := distinct_empty.insertAll es

/-! ### Insertions one after another -/

/-- The first entries are searched first. -/
theorem find?_append (k : String) (as bs : List (String × α)) :
  find? k (as ++ bs) = (find? k as).or (find? k bs)
  := by
  induction as with
  | nil => rfl
  | cons a rest ih =>
    obtain ⟨key, value⟩ := a
    by_cases h : key = k <;> simp [find?, h, ih]

/-- Of several insertions under one key the last one counts. -/
theorem get?_insertAll (m : OrderedMap α) (es : List (String × α)) (k : String) :
  (m.insertAll es).get? k = (find? k es.reverse).or (m.get? k)
  := by
  induction es generalizing m with
  | nil => rfl
  | cons e rest ih =>
    have hrest : (m.insertAll (e :: rest)).get? k = ((m.insert e.1 e.2).insertAll rest).get? k :=
      rfl
    rw [hrest, ih, get?_insert, List.reverse_cons, find?_append, Option.or_assoc]
    by_cases h : e.1 = k <;> simp [find?, h]

/-- Of entries with one key the last one counts. -/
theorem get?_ofList (es : List (String × α)) (k : String) :
  (ofList es).get? k = find? k es.reverse
  := by
  rw [ofList, get?_insertAll, get?_empty, Option.or_none]

/-- Where no key is repeated the order does not matter. -/
theorem find?_reverse {es : List (String × α)} (distinct : (es.map Prod.fst).Nodup)
    (k : String) :
  find? k es.reverse = find? k es
  := by
  have hreverse : (es.reverse.map Prod.fst).Nodup := by
    rw [List.map_reverse, List.Nodup, List.pairwise_reverse]
    exact distinct.imp Ne.symm
  apply Option.ext
  intro v
  constructor
  · exact fun h => find?_eq_some_of_mem distinct (List.mem_reverse.mp (mem_of_find? h))
  · exact fun h => find?_eq_some_of_mem hreverse (List.mem_reverse.mpr (mem_of_find? h))

/-- What is laid over a map is found first. -/
theorem Distinct.get?_merge {n : OrderedMap α} (h : n.Distinct) (m : OrderedMap α) (k : String) :
  (m.merge n).get? k = (n.get? k).or (m.get? k)
  := by
  rw [merge, get?_insertAll, find?_reverse h]
  rfl

theorem insertAll_append (m : OrderedMap α) (es es' : List (String × α)) :
  m.insertAll (es ++ es') = (m.insertAll es).insertAll es'
  := List.foldl_append

/-- The keys that are there keep their places, and the new ones follow in the order in which they
are first inserted. -/
theorem keys_insertAll (m : OrderedMap α) (es : List (String × α)) :
  (m.insertAll es).keys
    = m.keys ++ ((es.map Prod.fst).filter fun k => k ∉ m.keys).eraseDups
  := by
  induction es generalizing m with
  | nil => simp [insertAll]
  | cons e rest ih =>
    have hrest : (m.insertAll (e :: rest)).keys = ((m.insert e.1 e.2).insertAll rest).keys := rfl
    rw [hrest, ih, keys_insert, List.map_cons]
    by_cases h : e.1 ∈ m.keys
    · simp [h]
    · have hfilter : (rest.map Prod.fst).filter (fun k => k ∉ m.keys ++ [e.1])
          = ((rest.map Prod.fst).filter fun k => k ∉ m.keys).filter fun k => !k == e.1 := by
        rw [List.filter_filter]
        apply List.filter_congr
        intro k _
        by_cases hk : k ∈ m.keys <;> simp [hk, Bool.beq_eq_decide_eq]
      rw [if_neg h, List.filter_cons_of_pos (by simpa using h), List.eraseDups_cons, hfilter,
        List.append_assoc, List.singleton_append]

/-- A key that is not inserted keeps its value. -/
theorem get?_insertAll_of_notMem {es : List (String × α)} {k : String}
    (h : k ∉ es.map Prod.fst) (m : OrderedMap α) :
  (m.insertAll es).get? k = m.get? k
  := by
  have hnone : find? k es.reverse = none := by
    rw [find?_eq_none_iff, List.map_reverse, List.mem_reverse]
    exact h
  rw [get?_insertAll, hnone, Option.none_or]

end OrderedMap

end Statechart
