import Statechart.Proofs.Informed
import Mathlib.Data.List.Destutter

/-!
# Histories

The history of an instance is the trace of its value: it has a record for each change and no
other, and the values in its path are those that the instance has been at, without repetitions
(`Configuration.Run.records_changes`).
-/

namespace Statechart

variable {κ π σ : Type}

/-! ### Values of a machine -/

/-- What counts in a value: its state, or the value of each region. -/
def StateValue.content (v : StateValue) : Option String × (String → Option StateValue) :=
  (v.leaf?, v.region?)

/-- Regions are the same if each of them is found, in any order. -/
theorem StateValue.sameParts_iff {as : List (String × StateValue)} {bs : OrderedMap StateValue} :
  sameParts as bs = true ↔ ∀ e ∈ as, ∃ b, bs.get? e.1 = some b ∧ (e.2 == b) = true
  := by
  induction as with
  | nil => simp [sameParts]
  | cons e as ih =>
    obtain ⟨k, a⟩ := e
    rw [sameParts, Bool.and_eq_true, ih, List.forall_mem_cons]
    cases bs.get? k with
    | none => simp
    | some b => simp [BEq.beq]

/-- States are the same by their keys. -/
theorem StateValue.leaf_beq_leaf {a b : String} :
  (leaf a == leaf b) = true ↔ a = b
  := by
  change same (leaf a) (leaf b) = true ↔ a = b
  rw [same, beq_iff_eq]

/-- Two values that fit a machine are the same if they have the same content. -/
theorem Topology.Fits.beq_iff {t : Topology κ} {v w : StateValue} (sound : t.Sound)
    (hv : t.Fits v) (hw : t.Fits w) :
  (v == w) = true ↔ v.content = w.content
  := by
  cases t with
  | flat chart =>
    obtain ⟨a, -, rfl, -⟩ := hv
    obtain ⟨b, -, rfl, -⟩ := hw
    rw [StateValue.leaf_beq_leaf]
    constructor
    · rintro rfl
      rfl
    · intro h
      exact Option.some.inj (congrArg Prod.fst h)
  | parallel regions =>
    obtain ⟨⟨as⟩, rfl, has, hleaf⟩ := hv
    obtain ⟨bs, rfl, hbs, hleaf'⟩ := hw
    have hlength : (as.length == bs.size) = true := by
      have hperm := (has.trans hbs.symm).length_eq
      rwa [OrderedMap.keys, OrderedMap.keys, List.length_map, List.length_map,
        ← beq_iff_eq] at hperm
    have hdistinct : (as.map Prod.fst).Nodup := has.nodup_iff.mpr sound.2
    change StateValue.same _ _ = true ↔ _
    rw [StateValue.same, hlength, Bool.true_and, StateValue.sameParts_iff]
    constructor
    · intro h
      refine Prod.ext rfl (funext fun key => ?_)
      change OrderedMap.get? ⟨as⟩ key = bs.get? key
      by_cases hkey : key ∈ regions.map Chart.regionKey
      · obtain ⟨r, hr, rfl⟩ := List.mem_map.mp hkey
        obtain ⟨a, -, ha, -⟩ := hleaf r hr
        obtain ⟨b, -, hb, -⟩ := hleaf' r hr
        obtain ⟨b', hb', hab⟩ := h _ (OrderedMap.mem_entries_of_get? ha)
        obtain rfl := Option.some.inj (hb.symm.trans hb')
        rw [ha, hb, StateValue.leaf_beq_leaf.mp hab]
      · rw [(OrderedMap.get?_eq_none_iff _ key).mpr fun h => hkey (has.mem_iff.mp h),
          (OrderedMap.get?_eq_none_iff bs key).mpr fun h => hkey (hbs.mem_iff.mp h)]
    · rintro h ⟨key, a⟩ he
      have hget : OrderedMap.get? ⟨as⟩ key = some a := OrderedMap.find?_eq_some_of_mem hdistinct he
      have hkey : key ∈ regions.map Chart.regionKey :=
        has.mem_iff.mp (List.mem_map_of_mem (f := Prod.fst) he)
      obtain ⟨r, hr, rfl⟩ := List.mem_map.mp hkey
      obtain ⟨k, -, ha, -⟩ := hleaf r hr
      obtain rfl := Option.some.inj (hget.symm.trans ha)
      refine ⟨.leaf k, ?_, StateValue.leaf_beq_leaf.mpr rfl⟩
      rw [← hget]
      exact (congrFun (congrArg Prod.snd h) r.regionKey).symm

/-! ### Changes along a list of values -/

/-- The neighbours in a list of values that are not the same. -/
def changesAlong (vs : List StateValue) : List (StateValue × StateValue) :=
  (vs.zip vs.tail).filter fun p => !(p.1 == p.2)

/-- Changes along values are those from one to the next. -/
theorem changesAlong_cons_cons (u v : StateValue) (vs : List StateValue) :
  changesAlong (u :: v :: vs) = changesAlong [u, v] ++ changesAlong (v :: vs)
  := by
  change List.filter _ ([(u, v)] ++ _) = _
  rw [List.filter_append]
  rfl

/-- A further value brings the change to it from the last one, if it is one. -/
theorem changesAlong_concat {u : StateValue} {vs : List StateValue}
    (hu : vs.getLast? = some u) (v : StateValue) :
  changesAlong (vs ++ [v]) = changesAlong vs ++ changesAlong [u, v]
  := by
  induction vs with
  | nil => cases hu
  | cons w vs ih =>
    cases vs with
    | nil =>
      obtain rfl := Option.some.inj hu
      rfl
    | cons w' vs =>
      rw [List.getLast?_cons_cons] at hu
      rw [List.cons_append, List.cons_append, changesAlong_cons_cons, ← List.cons_append, ih hu,
        changesAlong_cons_cons w w' vs, List.append_assoc]

theorem changesAlong_pair (u v : StateValue) :
  changesAlong [u, v] = if u == v then [] else [(u, v)]
  := by
  cases h : u == v <;> simp [changesAlong, h]

/-- A change is between values that are not the same. -/
theorem beq_of_mem_changesAlong {vs : List StateValue} {p : StateValue × StateValue}
    (h : p ∈ changesAlong vs) :
  (p.1 == p.2) = false
  := by
  rw [changesAlong, List.mem_filter, Bool.not_eq_true'] at h
  exact h.2

/-- Where values are the same just if something of them is equal. -/
def Discerns {γ : Type} (f : StateValue → γ) (vs : List StateValue) : Prop :=
  ∀ v ∈ vs, ∀ w ∈ vs, (v == w) = true ↔ f v = f w

section

variable {γ : Type} {f : StateValue → γ} {u v : StateValue} {vs : List StateValue}

/-- What discerns values discerns fewer of them. -/
theorem Discerns.mono {ws : List StateValue} (h : Discerns f ws) (hsub : vs ⊆ ws) :
  Discerns f vs
  := fun v hv w hw => h v (hsub hv) w (hsub hw)

/-- A change is between two of the values. -/
theorem mem_of_mem_changesAlong {p : StateValue × StateValue} (h : p ∈ changesAlong vs) :
  p.1 ∈ vs ∧ p.2 ∈ vs
  := by
  have hp := List.of_mem_zip (List.mem_of_mem_filter h)
  exact ⟨hp.1, List.mem_of_mem_tail hp.2⟩

/-- Each change starts where the one before has led, the first one at the first value; and the
last one leads to the last value. -/
theorem isChain_changesAlong (h : Discerns f (u :: vs)) (hv : (u :: vs).getLast? = some v) :
  ((u, u) :: (changesAlong (u :: vs) ++ [(v, v)])).IsChain fun p q => (p.2 == q.1) = true
  := by
  have hmem : ∀ p ∈ (u, u) :: (changesAlong (u :: vs) ++ [(v, v)]),
      p.1 ∈ u :: vs ∧ p.2 ∈ u :: vs := by
    intro p hp
    have hlast := List.mem_of_getLast? hv
    simp only [List.mem_cons, List.mem_append, List.not_mem_nil, or_false] at hp
    obtain rfl | hp | rfl := hp
    · exact ⟨List.mem_cons_self, List.mem_cons_self⟩
    · exact mem_of_mem_changesAlong hp
    · exact ⟨hlast, hlast⟩
  suffices hchain : ((u, u) :: (changesAlong (u :: vs) ++ [(v, v)])).IsChain
      fun p q => f p.2 = f q.1 from
    hchain.imp_of_mem_imp fun p q hp hq => (h p.2 (hmem p hp).2 q.1 (hmem q hq).1).mpr
  clear hmem
  induction vs generalizing u with
  | nil =>
    obtain rfl := Option.some.inj hv
    exact .cons_cons rfl (.singleton _)
  | cons w vs ih =>
    have hrest := ih (h.mono (List.subset_cons_self _ _)) hv
    have hhead {p q : StateValue × StateValue} (hp : f q.2 = f p.2) {ps} :
        (p :: ps).IsChain (fun p q => f p.2 = f q.1) →
          (q :: ps).IsChain fun p q => f p.2 = f q.1 :=
      List.IsChain.imp_head (R := fun p q : StateValue × StateValue => f p.2 = f q.1) hp.trans
    rw [changesAlong_cons_cons, changesAlong_pair]
    split
    · next heq => exact hhead ((h u (by simp) w (by simp)).mp heq) hrest
    · exact .cons_cons rfl (hhead (p := (w, w)) (q := (u, w)) rfl hrest)

/-- The values that changes lead to, after the first, are those along the list without
repetitions. -/
theorem forall₂_destutter' {a : StateValue} (h : Discerns f (u :: v :: vs)) (hf : f u = f v)
    (ha : (a == u) = true) :
  List.Forall₂ (fun v w => (v == w) = true) (a :: (changesAlong (v :: vs)).map Prod.snd)
    (vs.destutter' (fun v w => ¬(v == w) = true) u)
  := by
  induction vs generalizing u v a with
  | nil => exact .cons ha .nil
  | cons w vs ih =>
    have hw : (u == w) = (v == w) := by
      rw [Bool.eq_iff_iff, h u (by simp) w (by simp), h v (by simp) w (by simp), hf]
    rw [changesAlong_cons_cons, changesAlong_pair]
    cases heq : v == w with
    | true =>
      rw [List.destutter'_cons_neg _ (by rw [hw, heq]; exact not_not.mpr rfl)]
      refine ih (h.mono ?_) (hf.trans ((h v (by simp) w (by simp)).mp heq)) ha
      exact List.cons_subset_cons _ (List.subset_cons_self _ _)
    | false =>
      rw [List.destutter'_cons_pos _ (by rw [hw, heq]; exact Bool.false_ne_true)]
      refine .cons ha (ih (h.mono ?_) rfl ((h w (by simp) w (by simp)).mpr rfl))
      exact List.cons_subset.mpr ⟨by simp, fun _ h => by simp [h]⟩

end

/-! ### Histories of instances -/

/-- From where to where a change goes. -/
def Change.ends (r : Change) : StateValue × StateValue := (r.source, r.target)

/-- The history of an instance is the trace of a list of values, which begins at one and ends at
the current one. -/
structure Instance.Chronicles (x : Instance κ) (v₀ : StateValue) (vs : List StateValue) :
    Prop where
  fits : ∀ v ∈ vs, x.machine.topology.Fits v
  first : vs.head? = some v₀
  last : vs.getLast? = some x.snapshot.value
  ends : x.history.records.map Change.ends = changesAlong vs

namespace Instance.Chronicles

variable {x : Instance κ} {v₀ : StateValue} {vs : List StateValue}

/-- Values that an instance passes through are the same just if their contents are. -/
theorem discerns (h : x.Chronicles v₀ vs) (sound : x.machine.topology.Sound) :
  Discerns StateValue.content vs
  := fun v hv w hw => (h.fits v hv).beq_iff sound (h.fits w hw)

/-- The records lead from the first value to the current one. -/
theorem isChain (h : x.Chronicles v₀ vs) (sound : x.machine.topology.Sound) :
  ((v₀, v₀) :: (x.history.records.map Change.ends
      ++ [(x.snapshot.value, x.snapshot.value)])).IsChain fun p q => (p.2 == q.1) = true
  := by
  obtain ⟨rest, rfl⟩ := List.head?_eq_some_iff.mp h.first
  rw [h.ends]
  exact isChain_changesAlong (h.discerns sound) h.last

/-- The path of a history that is not empty is what it traces without repetitions. -/
theorem forall₂_path (h : x.Chronicles v₀ vs) (sound : x.machine.topology.Sound)
    (hpath : x.history.path ≠ []) :
  List.Forall₂ (fun v w => (v == w) = true) x.history.path
    (vs.destutter fun v w => ¬(v == w) = true)
  := by
  obtain ⟨rest, rfl⟩ := List.head?_eq_some_iff.mp h.first
  have hdiscerns := h.discerns sound
  have hends := h.ends
  have hchain := h.isChain sound
  rw [History.path] at hpath ⊢
  cases hrecords : x.history.records with
  | nil =>
    rw [hrecords] at hpath
    exact absurd rfl hpath
  | cons r rs =>
    rw [hrecords] at hends hchain
    have hr : r.source ∈ v₀ :: rest :=
      (mem_of_mem_changesAlong (p := r.ends) (hends ▸ List.mem_cons_self)).1
    have hsource : (r.source == v₀) = true := by
      rw [hdiscerns _ hr v₀ List.mem_cons_self]
      exact ((hdiscerns v₀ List.mem_cons_self _ hr).mp (List.isChain_cons_cons.mp hchain).1).symm
    have hsub : v₀ :: v₀ :: rest ⊆ v₀ :: rest := by simp
    have hlist := forall₂_destutter' (hdiscerns.mono hsub) rfl hsource
    rwa [← hends, List.map_map] at hlist

end Instance.Chronicles

/-- A turn leaves the history, or it commits a snapshot. -/
theorem Turn.history_cases {i : Nat} {r r' : Engine κ} {x y : Instance κ}
    {w w' : Option (List (Phase κ))} (h : Turn i r r' x w y w') :
  (y.history = x.history ∧ (x.status = .notStarted ∨ y.snapshot = x.snapshot))
    ∨ (x.isRunning = true
      ∧ ∃ event now, y.history = (Configuration.commitTo x y.snapshot event now).history)
  := by
  cases h with
  | start hnot => exact .inl ⟨rfl, .inl hnot⟩
  | commit hrunning => exact .inr ⟨hrunning, _, _, rfl⟩
  | _ => exact .inl ⟨rfl, .inr rfl⟩

/-- A commit adds a change of the value to the history, if it is one. -/
theorem Configuration.ends_commitTo (x : Instance κ) (next : Snapshot κ) (event : Event)
    (now : Nat) :
  (commitTo x next event now).history.records.map Change.ends
    = x.history.records.map Change.ends ++ changesAlong [x.snapshot.value, next.value]
  := by
  rw [commitTo, changesAlong_pair]
  split
  · exact (List.append_nil _).symm
  · exact List.map_append

namespace Configuration

variable {H : Host κ π σ} {cs : List (Configuration κ π σ)} {b c d : Configuration κ π σ}
  {i : Nat} {x y : Instance κ} {v₀ : StateValue} {vs : List StateValue}

/-! ### The start of an instance -/

/-- The snapshot that an instance of a machine is started at in a run. -/
def startOf (i : Nat) (m : Machine κ) (cs : List (Configuration κ π σ)) : Snapshot κ :=
  (cs.findSome? (startsAt? i)).getD m.initial

/-- The value of an instance that was started. -/
def value? (i : Nat) (c : Configuration κ π σ) : Option StateValue :=
  (c.engine.get? i).bind fun x =>
    if x.status = .notStarted then none else some x.snapshot.value

/-- The values of an instance since it was started, one for each point of the run. -/
def values (i : Nat) (cs : List (Configuration κ π σ)) : List StateValue :=
  cs.filterMap (value? i)

/-- An instance that was started has the value of its snapshot. -/
theorem value?_of_begun (hx : c.engine.get? i = some x) (hbegun : x.status ≠ .notStarted) :
  value? i c = some x.snapshot.value
  := by
  rw [value?, hx, Option.bind_some, if_neg hbegun]

/-- An instance commits nothing unless it runs. -/
theorem commits?_of_not_running (h : c.engine.isRunning i = false) :
  commits? H i c = none
  := by
  rw [commits?, Option.bind_eq_none_iff]
  intro x hx
  rw [Option.bind_eq_none_iff]
  intro e _
  replace h : x.isRunning = false := by rwa [Engine.isRunning, hx] at h
  rw [Instance.next?]
  cases hres : x.resolution e with
  | attempt =>
    have hignored : x.resolution e ≠ .ignore := by
      intro hignored
      rw [hres] at hignored
      cases hignored
    rw [Instance.isRunning_of_resolution hignored] at h
    cases h
  | _ => rfl

/-- An instance that is new, or that was never started, has had no values, has committed nothing,
and was not started at a snapshot. -/
theorem Run.untouched (h : Run H cs c)
    (hi : c.engine.instances.next ≤ i ∨ ∃ x, c.engine.get? i = some x ∧ x.status = .notStarted) :
  values i (cs ++ [c]) = [] ∧ committed H i (cs ++ [c]) = []
    ∧ cs.findSome? (startsAt? i) = none
  := by
  refine ⟨?_, ?_, ?_⟩
  · rw [values, List.filterMap_eq_nil_iff]
    intro b hb
    rw [value?, Option.bind_eq_none_iff]
    intro x hx
    by_contra hbegun
    rw [ite_eq_left_iff, Classical.not_imp] at hbegun
    exact not_begun hi (h.begun_of_mem hb (Engine.begun_of_status hx hbegun.1))
  · rw [committed, List.filterMap_eq_nil_iff]
    exact fun b hb => commits?_of_not_running (h.not_ran hi b hb)
  · rw [List.findSome?_eq_none_iff]
    intro b hb
    by_contra hstarts
    obtain ⟨s, hstarts⟩ := Option.ne_none_iff_exists'.mp hstarts
    exact not_begun hi (h.begun_of_startsAt? hb hstarts)

/-- What a history traces goes on with the value after a step, which may be left out if it is the
value before. -/
theorem Run.chronicles_next (h : Run H cs c) (hstep : Evolves H c d)
    (hx : c.engine.get? i = some x) (hbegun : x.status ≠ .notStarted)
    (hy : d.engine.get? i = some y) (hvs : x.Chronicles v₀ vs) :
  y.Chronicles v₀ (vs ++ [y.snapshot.value])
    ∧ (y.snapshot.value = x.snapshot.value → y.Chronicles v₀ vs)
  := by
  have hvalid := h.valid.1 i x hx
  obtain ⟨mid, hgoes⟩ := h.goes hstep
  have hturn := hgoes.turn hx (hgoes.releases.get?_of_get? hy)
  have hsame := (hvalid.fits.beq_iff hvalid.compiled.sound.topology hvalid.fits).mpr rfl
  have hends : y.history.records.map Change.ends
      = changesAlong vs ++ changesAlong [x.snapshot.value, y.snapshot.value] := by
    rw [← hvs.ends]
    obtain ⟨hhistory, hnot | hsnapshot⟩ | ⟨-, event, now, hhistory⟩ := hturn.history_cases
    · exact absurd hnot hbegun
    · rw [hhistory, hsnapshot, changesAlong_pair, if_pos hsame, List.append_nil]
    · rw [hhistory, ends_commitTo]
  have hfits := ((h.next hstep).valid.1 i y hy).fits
  have hkept : ∀ v ∈ vs, y.machine.topology.Fits v := by
    rw [hturn.machine_eq.1]
    exact hvs.fits
  refine ⟨⟨?_, ?_, List.getLast?_concat, ?_⟩, fun heq => ⟨hkept, hvs.first, heq ▸ hvs.last, ?_⟩⟩
  · intro v hv
    obtain hv | hv := List.mem_append.mp hv
    · exact hkept v hv
    · exact List.mem_singleton.mp hv ▸ hfits
  · rw [List.head?_append, hvs.first]
    rfl
  · rw [hends, changesAlong_concat hvs.last]
  · rw [hends, heq, changesAlong_pair, if_pos hsame, List.append_nil]

/-- An instance that was new or not started before a step is, after it, at the snapshot that it is
started at, and its history is empty. -/
theorem Run.opening (h : Run H cs c) (hstep : Evolves H c d) (hy : d.engine.get? i = some y)
    (hi : ¬∃ x, c.engine.get? i = some x ∧ x.status ≠ .notStarted) :
  y.snapshot = startOf i y.machine (cs ++ [c]) ∧ y.history = .empty
    ∧ values i (cs ++ [c]) = [] ∧ committed H i (cs ++ [c]) = []
  := by
  obtain ⟨mid, hgoes⟩ := h.goes hstep
  have hmid := hgoes.releases.get?_of_get? hy
  obtain ⟨x, hx⟩ | ⟨rfl, harrives⟩ := hgoes.arrives hmid
  · have hnot : x.status = .notStarted := not_not.mp fun hnot => hi ⟨x, hx, hnot⟩
    have hturn := hgoes.turn hx hmid
    obtain ⟨hvalues, hcommitted, hstarts⟩ := h.untouched (.inr ⟨x, hx, hnot⟩)
    have hcommits : commits? H i c = none :=
      List.filterMap_eq_nil_iff.mp hcommitted c (by simp)
    have hsnapshot := h.snapshot_next hstep hx hy
    rw [hcommits, Option.or_none, (h.untouched_of_notStarted hx hnot).1] at hsnapshot
    refine ⟨?_, ?_, hvalues, hcommitted⟩
    · rw [startOf, List.findSome?_append, hstarts, hturn.machine_eq.1, hsnapshot]
      cases hnow : startsAt? i c <;> simp [hnow]
    · rw [← (h.untouched_of_notStarted hx hnot).2]
      obtain ⟨hsame, -⟩ | ⟨hrunning, -⟩ := hturn.history_cases
      · exact hsame
      · exact absurd hnot (Instance.status_ne_notStarted hrunning)
  · obtain ⟨hvalues, hcommitted, hstarts⟩ := h.untouched (.inl (Nat.le_refl _))
    have hnow : startsAt? c.engine.instances.next c = none := by
      by_contra hnow
      obtain ⟨s, hnow⟩ := Option.ne_none_iff_exists'.mp hnow
      obtain ⟨-, x, hx, -⟩ := startsAt_of_startsAt? hnow
      exact Nat.lt_irrefl _ (Engine.lt_next_of_get? hx)
    refine ⟨?_, ?_, hvalues, hcommitted⟩
    · rw [startOf, List.findSome?_append, hstarts, List.findSome?_singleton, hnow]
      generalize workOf c.engine.instances.next d.stack = w at harrives
      cases harrives <;> rfl
    · generalize workOf c.engine.instances.next d.stack = w at harrives
      cases harrives <;> rfl

/-- An instance with an empty history chronicles from where it is. -/
theorem Run.chronicles_of_opening (h : Run H cs c) (hx : c.engine.get? i = some x)
    (hhistory : x.history = .empty) :
  x.Chronicles x.snapshot.value [x.snapshot.value]
  where
  fits v hv := List.mem_singleton.mp hv ▸ (h.valid.1 i x hx).fits
  first := rfl
  last := rfl
  ends := by rw [hhistory]; rfl

/-- An instance goes on from the snapshot that it was started at. -/
theorem startOf_concat (hx : c.engine.get? i = some x) (hbegun : x.status ≠ .notStarted)
    (m : Machine κ) (cs : List (Configuration κ π σ)) :
  startOf i m (cs ++ [c]) = startOf i m cs
  := by
  have hnow : startsAt? i c = none := by
    by_contra hnow
    obtain ⟨s, hnow⟩ := Option.ne_none_iff_exists'.mp hnow
    obtain ⟨-, x', hx', hnot⟩ := startsAt_of_startsAt? hnow
    obtain rfl := Option.some.inj (hx.symm.trans hx')
    exact hbegun hnot
  rw [startOf, startOf, List.findSome?_append, List.findSome?_singleton, hnow, Option.or_none]

/-- A history traces the values of its instance since it was started. -/
theorem Run.chronicles_values (h : Run H cs c) (hx : c.engine.get? i = some x)
    (hbegun : x.status ≠ .notStarted) :
  x.Chronicles (startOf i x.machine cs).value (values i (cs ++ [c]))
  := by
  induction h generalizing x with
  | start memory => simp [idle] at hx
  | @next cs c d hrun hstep ih =>
    rw [values, filterMap_concat, value?_of_begun hx hbegun, ← values, Option.toList_some]
    by_cases hopening : ∃ z, c.engine.get? i = some z ∧ z.status ≠ .notStarted
    · obtain ⟨z, hz, hzbegun⟩ := hopening
      obtain ⟨mid, hgoes⟩ := hrun.goes hstep
      rw [startOf_concat hz hzbegun,
        (hgoes.turn hz (hgoes.releases.get?_of_get? hx)).machine_eq.1]
      exact (hrun.chronicles_next hstep hz hzbegun hx (ih hz hzbegun)).1
    · obtain ⟨hsnapshot, hhistory, hvalues, -⟩ := hrun.opening hstep hx hopening
      rw [hvalues, ← hsnapshot]
      exact (hrun.next hstep).chronicles_of_opening hx hhistory

/-- A history traces the value that its instance was started at and those of the snapshots that it
has committed. -/
theorem Run.chronicles_committed (h : Run H cs c) (hx : c.engine.get? i = some x) :
  x.Chronicles (startOf i x.machine cs).value
    ((startOf i x.machine cs).value :: (committed H i cs).map Snapshot.value)
  := by
  induction h generalizing x with
  | start memory => simp [idle] at hx
  | @next cs c d hrun hstep ih =>
    by_cases hopening : ∃ z, c.engine.get? i = some z ∧ z.status ≠ .notStarted
    · obtain ⟨z, hz, hzbegun⟩ := hopening
      obtain ⟨mid, hgoes⟩ := hrun.goes hstep
      obtain ⟨hlonger, hsame⟩ := hrun.chronicles_next hstep hz hzbegun hx (ih hz)
      have hsnapshot := hrun.snapshot_step hstep hz hx fun hnot => absurd hnot hzbegun
      rw [startOf_concat hz hzbegun,
        (hgoes.turn hz (hgoes.releases.get?_of_get? hx)).machine_eq.1, committed, filterMap_concat,
        ← committed]
      cases hcommits : commits? H i c with
      | none =>
        rw [hcommits] at hsnapshot
        rw [Option.toList_none, List.append_nil]
        exact hsame (congrArg Snapshot.value hsnapshot)
      | some s =>
        rw [hcommits] at hsnapshot
        obtain rfl : x.snapshot = s := hsnapshot
        rwa [Option.toList_some, List.map_append, List.map_singleton, ← List.cons_append]
    · obtain ⟨hsnapshot, hhistory, -, hcommitted⟩ := hrun.opening hstep hx hopening
      rw [hcommitted, ← hsnapshot]
      exact (hrun.next hstep).chronicles_of_opening hx hhistory

/-- The history of an instance, at any point of a run, is the exact trace of its value: of the
values since it was started, and of the value that it was started at with those that it has
committed.  No record is from a value to itself, each one starts where the one before has led, the
first where the instance was started, and the last leads to the current value; the path, if it is
not empty, is the trace without repetitions. -/
theorem Run.records_changes (h : Run H cs c) (hx : c.engine.get? i = some x) :
  x.history.records.map Change.ends = changesAlong (values i (cs ++ [c]))
    ∧ x.history.records.map Change.ends
      = changesAlong ((startOf i x.machine cs).value :: (committed H i cs).map Snapshot.value)
    ∧ (∀ r ∈ x.history.records, (r.source == r.target) = false)
    ∧ x.history.records.IsChain (fun r r' => (r.target == r'.source) = true)
    ∧ (∀ r ∈ x.history.records.head?, ((startOf i x.machine cs).value == r.source) = true)
    ∧ (∀ r ∈ x.history.records.getLast?, (r.target == x.snapshot.value) = true)
    ∧ (x.history.records = [] → ((startOf i x.machine cs).value == x.snapshot.value) = true)
    ∧ (x.history.path ≠ [] → List.Forall₂ (fun v w => (v == w) = true) x.history.path
        (((startOf i x.machine cs).value :: (committed H i cs).map Snapshot.value).destutter
          fun v w => ¬(v == w) = true))
  := by
  have hchronicle := h.chronicles_committed hx
  have hsound := (h.valid.1 i x hx).compiled.sound.topology
  have hchain := hchronicle.isChain hsound
  refine ⟨?_, hchronicle.ends, ?_, ?_, ?_, ?_, ?_, hchronicle.forall₂_path hsound⟩
  · by_cases hnot : x.status = .notStarted
    · obtain ⟨hvalues, -⟩ := h.untouched (.inr ⟨x, hx, hnot⟩)
      rw [(h.untouched_of_notStarted hx hnot).2, hvalues]
      rfl
    · exact (h.chronicles_values hx hnot).ends
  · intro r hr
    have hmem : r.ends ∈ changesAlong _ := hchronicle.ends ▸ List.mem_map_of_mem hr
    exact beq_of_mem_changesAlong hmem
  · obtain ⟨-, hrest⟩ := List.isChain_cons.mp hchain
    exact (List.isChain_map Change.ends).mp hrest.left_of_append
  · intro r hr
    refine (List.isChain_cons.mp hchain).1 r.ends ?_
    rw [List.head?_append, List.head?_map, hr]
    rfl
  · intro r hr
    rw [← List.cons_append, List.isChain_append] at hchain
    refine hchain.2.2 r.ends ?_ _ rfl
    rw [List.getLast?_cons, List.getLast?_map, hr]
    rfl
  · intro hnil
    rw [hnil] at hchain
    exact (List.isChain_cons_cons.mp hchain).1

/-- A relay is started at its second state, goes back, ignores an event, and goes on again. -/
def returning : Script Unit :=
  [.startAt 0 (.leaf "a_1"), .send 0 (.named "BACK"), .send 0 (.named "BACK"),
    .send 0 (.named "GO")]

/-- The relay has passed through three values in four snapshots. -/
theorem relay_records_changes :
  ∃ x, (relayRun returning 40).2.engine.get? 0 = some x
    ∧ x.history.path.map StateValue.leaf? = [some "a_1", some "a", some "a_1"]
    ∧ (committed relayHost 0 (relayRun returning 40).1).map (fun s => s.value.leaf?)
      = [some "a", some "a", some "a_1"]
    ∧ List.Forall₂ (fun v w => (v == w) = true) x.history.path
        (((startOf 0 x.machine (relayRun returning 40).1).value ::
          (committed relayHost 0 (relayRun returning 40).1).map Snapshot.value).destutter
          fun v w => ¬(v == w) = true)
  := by
  have hrun := @run_relayRun returning 40 (by decide +kernel)
  have hpath : ((relayRun returning 40).2.engine.get? 0).map
      (fun x => x.history.path.map StateValue.leaf?) = some [some "a_1", some "a", some "a_1"] := by
    decide +kernel
  obtain ⟨x, hx, hpath⟩ := Option.map_eq_some_iff.mp hpath
  obtain ⟨-, -, -, -, -, -, -, htrace⟩ := hrun.records_changes hx
  refine ⟨x, hx, hpath, by decide +kernel, htrace fun hnil => ?_⟩
  rw [hnil] at hpath
  cases hpath

end Configuration

end Statechart
