import Statechart.Proofs.Descent

/-!
# Ownership of children

In a run in which the host stops no child directly, the children that are stored with an
instance run, and when it is not at work they are those that its active state invokes.
Every other child that it ever invoked was stopped, with all that descends from it
(`Configuration.Run.ownership`).
-/

namespace Statechart

variable {κ π σ : Type}

/-! ### Invocations of the active state -/

/-- The active state has an invocation with this identifier. -/
def Instance.Invokes (x : Instance κ) (id : String) : Prop :=
  ∃ state v, x.activeInvoke? id state = some v

theorem Instance.Invokes.congr {x y : Instance κ} {id : String} (h : x.Invokes id)
    (hmachine : y.machine = x.machine)
    (hleaf : y.snapshot.value.leaf? = x.snapshot.value.leaf?) :
  y.Invokes id
  := by
  obtain ⟨state, v, hv⟩ := h
  refine ⟨state, v, ?_⟩
  rw [activeInvoke?, hmachine, hleaf]
  exact hv

/-- What the children are started from are invocations of the active state. -/
theorem Instance.invokes_of_activeInvocations {x : Instance κ} {state : String}
    {vs : List (Invocation κ)} (h : Configuration.activeInvocations x = .ok (some (state, vs)))
    {v : Invocation κ} (hv : v ∈ vs) :
  x.Invokes v.id
  := by
  have hleaf := Configuration.leaf?_of_activeInvocations h
  rw [Configuration.activeInvocations, hleaf] at h
  split at h
  · next chart state' hflat hstate =>
    obtain rfl := Option.some.inj hstate
    split at h
    · cases h
    · next n hn =>
      obtain ⟨-, rfl⟩ := Prod.mk.inj (Option.some.inj (Except.ok.inj h))
      obtain ⟨v', hv'⟩ : ∃ v', n.invoke? v.id = some v' := by
        rw [Node.invoke?, ← Option.isSome_iff_exists, List.find?_isSome]
        exact ⟨v, hv, by simp⟩
      refine ⟨state, v', ?_⟩
      rw [activeInvoke?, if_pos hleaf, hflat]
      simp only [Chart.node_eq_ok_iff.mp hn, Option.bind_some, hv']
  · cases h

/-- The children that are about to be started are invocations of the active state, and so
are those that are stored, unless they are still to be stopped. -/
structure Instance.Owns (x : Instance κ) (w : Option (List (Phase κ))) : Prop where
  ahead : ∀ ps state context vs, w = some ps → .invoke state context vs ∈ ps →
    ∀ v ∈ vs, x.Invokes v.id
  stored : ¬Clearing w → ∀ id ∈ x.children.keys, x.Invokes id

theorem Arrives.owns {s : Signal κ} {r : Engine κ} {i : Nat} {y : Instance κ}
    {w : Option (List (Phase κ))} (h : Arrives s r i y w) :
  y.Owns w
  := by
  cases h with
  | created pool => exact ⟨nofun, fun _ _ hid => by cases hid⟩
  | spawned services pool =>
    constructor
    · rintro _ state context vs ⟨⟩ hmem
      cases hmem
    · exact fun _ _ hid => by cases hid

namespace Instance.Owns

variable {x y : Instance κ} {w : Option (List (Phase κ))}

/-- An instance without children, and none ahead. -/
theorem of_empty (hchildren : x.children = .empty)
    (hphases : ∀ ps state context vs, w = some ps → .invoke state context vs ∉ ps) :
  x.Owns w
  := by
  constructor
  · intro ps state context vs hw hmem
    exact absurd hmem (hphases ps state context vs hw)
  · intro _ id hid
    rw [hchildren] at hid
    cases hid

/-- The work goes on with what is left, at the same value. -/
theorem goOn {p : Phase κ} {rest : List (Phase κ)} (hx : x.Owns (some (p :: rest)))
    (ps : List (Phase κ)) (hmachine : y.machine = x.machine)
    (hleaf : y.snapshot.value.leaf? = x.snapshot.value.leaf?)
    (hps : ∀ state context vs, .invoke state context vs ∈ ps → ∀ v ∈ vs, x.Invokes v.id)
    (hkeys : .stopChildren ∉ rest → ∀ id ∈ y.children.keys, x.Invokes id) :
  y.Owns (some (ps ++ rest))
  := by
  constructor
  · rintro _ state context vs ⟨⟩ hmem v hv
    obtain hmem | hmem := List.mem_append.mp hmem
    · exact (hps state context vs hmem v hv).congr hmachine hleaf
    · have hmem' := List.mem_cons_of_mem p hmem
      exact (hx.ahead _ state context vs rfl hmem' v hv).congr hmachine hleaf
  · intro hclear id hid
    rw [clearing_some, List.mem_append, not_or] at hclear
    exact (hkeys hclear.2 id hid).congr hmachine hleaf

end Instance.Owns

/-- Every turn keeps to the invocations of the active state. -/
theorem Turn.owns {i : Nat} {r r' : Engine κ} {x y : Instance κ}
    {w w' : Option (List (Phase κ))} (h : Turn i r r' x w y w') (htidy : x.Tidy w)
    (hx : x.Owns w) :
  y.Owns w'
  := by
  cases h with
  | keep hw _ =>
    obtain rfl | ⟨rfl, rfl⟩ | ⟨rfl, rfl⟩ := hw
    · exact ⟨hx.ahead, hx.stored⟩
    · refine ⟨?_, fun _ => hx.stored not_clearing_none⟩
      rintro _ state context vs ⟨⟩ hmem
      cases hmem
    · exact ⟨nofun, fun _ => hx.stored (by simp)⟩
  | start hstatus =>
    have hidle := htidy.idle (by simp [Instance.isRunning, hstatus])
    refine Instance.Owns.of_empty hidle.1 ?_
    rintro _ state context vs ⟨⟩ hmem
    cases hmem
  | begin _ =>
    refine ⟨?_, fun _ => hx.stored (by simp)⟩
    rintro _ state context vs ⟨⟩ hmem
    simp [Instance.startPhases] at hmem
  | @commit e mailbox event rearm next now found _ _ _ =>
    constructor
    · rintro _ state context vs ⟨⟩ hmem
      exact absurd hmem (Configuration.invoke_notMem_transitionPhases _ _ _ _ _ _ _)
    · intro hclear id hid
      -- The children of another value are still to be stopped.
      rw [clearing_some, Configuration.stopChildren_mem_transitionPhases,
        Bool.not_eq_false] at hclear
      exact (hx.stored (by simp) id hid).congr rfl (StateValue.leaf?_eq_of_beq hclear).symm
  | @advance p ps rest mailbox busy done hadvances =>
    refine hx.goOn ps rfl rfl ?_ ?_
    · intro state context vs hmem
      cases hadvances with
      | startChildren context' hactive =>
        obtain heq := List.mem_singleton.mp hmem
        cases heq
        exact fun v hv => Instance.invokes_of_activeInvocations hactive hv
      | invoke state' context' v' more =>
        obtain heq := List.mem_singleton.mp hmem
        cases heq
        intro v hv
        exact hx.ahead _ _ _ _ rfl List.mem_cons_self v (List.mem_cons_of_mem _ hv)
      | _ => simp at hmem
    · intro hclear
      apply hx.stored
      rw [clearing_some, List.mem_cons, not_or]
      exact ⟨Ne.symm hadvances.ne_stopChildren.1, hclear⟩
  | drop hrunning hw =>
    subst hw
    apply Instance.Owns.of_empty (htidy.idle hrunning).1
    rintro _ state context vs ⟨⟩ hmem
    cases hmem
  | stopChildren _ =>
    refine hx.goOn [] rfl rfl (fun _ _ _ hmem => by cases hmem) ?_
    intro _ id hid
    cases hid
  | @spawn rest state context v more m services _ _ _ =>
    have hahead := hx.ahead _ state context (v :: more) rfl List.mem_cons_self
    refine hx.goOn [.invoke state context more] rfl rfl ?_ ?_
    · intro state' context' vs hmem
      obtain heq := List.mem_singleton.mp hmem
      cases heq
      exact fun u hu => hahead u (List.mem_cons_of_mem _ hu)
    · intro hclear id hid
      have hstored := hx.stored (by simpa using hclear)
      rw [OrderedMap.keys_insert] at hid
      split at hid
      · exact hstored id hid
      · obtain hid | hid := List.mem_append.mp hid
        · exact hstored id hid
        · obtain rfl := List.mem_singleton.mp hid
          exact hahead v List.mem_cons_self
  | rearm _ _ =>
    refine hx.goOn [] rfl rfl (fun _ _ _ hmem => by cases hmem) ?_
    intro hclear
    exact hx.stored (by simpa using hclear)
  | halt hw _ =>
    refine ⟨?_, fun _ id hid => by cases hid⟩
    intro ps state context vs hps hmem v hv
    have hold : ∃ ps', w = some ps' ∧ .invoke state context vs ∈ ps' := by
      obtain rfl | ⟨p, rest, rfl, rfl⟩ := hw
      · exact ⟨ps, hps, hmem⟩
      · obtain rfl := Option.some.inj hps
        exact ⟨_, rfl, List.mem_cons_of_mem p hmem⟩
    obtain ⟨ps', hw', hmem'⟩ := hold
    exact (hx.ahead ps' state context vs hw' hmem' v hv).congr rfl rfl

namespace Configuration

variable {H : Host κ π σ} {cs : List (Configuration κ π σ)} {c : Configuration κ π σ} {i : Nat}
  {x : Instance κ}

/-- In a run the children of an instance are invocations of its active state, unless they
are still to be stopped. -/
theorem Run.owns (h : Run H cs c) (hx : c.engine.get? i = some x) :
  x.Owns (workOf i c.stack)
  := by
  have hboth := h.each (p := fun _ x w => x.Tidy w ∧ x.Owns w)
    (fun harrives _ => ⟨harrives.tidy, harrives.owns⟩)
    (fun _ hturn ⟨htidy, howns⟩ => ⟨hturn.tidy htidy, hturn.owns htidy howns⟩) hx
  exact hboth.2

/-! ### Children that run -/

/-- The host stops no instance that has a parent. -/
def SparesChildren (H : Host κ π σ) (cs : List (Configuration κ π σ)) : Prop :=
  ∀ d ∈ cs, ∀ i x, (signal H d).stopped = some i → d.engine.get? i = some x → x.parent = none

instance (H : Host κ π σ) (cs : List (Configuration κ π σ)) : Decidable (SparesChildren H cs) :=
  decidable_of_iff (∀ d ∈ cs, ((signal H d).stopped.bind d.engine.get?).all fun x =>
      x.parent.isNone) (by
    simp only [SparesChildren, Option.all_eq_true, Option.bind_eq_some_iff,
      Option.isNone_iff_eq_none]
    constructor
    · exact fun h d hd i x hi hx => h d hd x ⟨i, hi, hx⟩
    · exact fun h d hd x ⟨i, hi, hx⟩ => h d hd i x hi hx)

/-- A child that is stored with its parent before and after a step is not stopped in it, if
the host stops no child. -/
theorem Run.not_falls_of_child (h : Run H cs c) {mid : Engine κ}
    {d : Configuration κ π σ} (hgoes : Goes H c mid d) (hspares : SparesChildren H [c])
    {w y : Instance κ} {child : Nat} (hw : c.engine.get? i = some w)
    (hold : child ∈ w.children.values) (hx : mid.get? i = some x)
    (hchild : child ∈ x.children.values) :
  ¬Engine.Falls c.engine mid child y
  := by
  intro hfalls
  obtain ⟨link, hlink, hparent⟩ := h.parent_of_child hw hold hfalls.get?
  obtain hcall | ⟨j, u, hu, hchild', hempty⟩ :=
    (hgoes.move.stops h.whole.older).above hfalls
  · rw [hspares c List.mem_cons_self child y hcall hfalls.get?] at hlink
    cases hlink
  · -- The one that stopped it is its parent, and has no children left.
    obtain ⟨link', hlink', rfl⟩ := h.parent_of_child hu hchild' hfalls.get?
    rw [hlink] at hlink'
    obtain rfl := Option.some.inj hlink'
    subst hparent
    rw [hempty x hx] at hchild
    cases hchild

/-- The children that are stored with an instance run, if the host stops no child. -/
theorem Run.running_of_child (h : Run H cs c) (hspares : SparesChildren H cs)
    (hx : c.engine.get? i = some x) {child : Nat} (hchild : child ∈ x.children.values) :
  ∃ y, c.engine.get? child = some y ∧ y.status = .running
  := by
  induction h generalizing i x with
  | start memory => simp [idle] at hx
  | @next cs c d hrun hstep ih =>
    have hbefore : SparesChildren H cs := fun d hd => hspares d (List.mem_append_left _ hd)
    have hlast : SparesChildren H [c] := fun d hd => hspares d (List.mem_append_right _ hd)
    obtain ⟨z, hz⟩ := (hrun.next hstep).whole.there i x hx child hchild
    refine ⟨z, hz, ?_⟩
    obtain ⟨mid, hgoes⟩ := hrun.goes hstep
    have hx' := hgoes.releases.get?_of_get? hx
    have hz' := hgoes.releases.get?_of_get? hz
    obtain ⟨w, hw⟩ | ⟨-, harrives⟩ := hgoes.arrives hx'
    · obtain hold | ⟨-, u, hu, hrunning⟩ := (hgoes.turn hw hx').mem_children hchild
      · obtain ⟨y, hy, hrunning⟩ := ih hbefore hw hold
        obtain heq | hstatus | hstopped := (hgoes.turn hy hz').status
        · exact heq.trans hrunning
        · rw [hrunning] at hstatus
          cases hstatus
        · have hfalls : Engine.Falls c.engine mid child y :=
            ⟨hy, by simp [hrunning], z, hz', hstopped⟩
          exact absurd hfalls (hrun.not_falls_of_child hgoes hlast hw hold hx' hchild)
      · rw [hz'] at hu
        obtain rfl := Option.some.inj hu
        exact hrunning
    · rw [harrives.children_eq] at hchild
      cases hchild

/-! ### Children that were stopped -/

/-- An instance was stopped, and it is so if it is still there. -/
structure Ceased (cs : List (Configuration κ π σ)) (c : Configuration κ π σ) (i : Nat) :
    Prop where
  stopped : StoppedIn (cs ++ [c]) i
  status : ∀ x, c.engine.get? i = some x → x.status = .stopped

theorem Run.ceased (h : Run H cs c) (hi : StoppedIn (cs ++ [c]) i) :
  Ceased cs c i
  := ⟨hi, fun _ => h.status_of_stoppedIn hi⟩

/-- In a run in which the host stops no child, the children that are stored with an
instance run; and while the instance is not at work their identifiers are those of
invocations of its active state.  Any other child that it has invoked was stopped, and so
was all that descends from it.  With an instance that was stopped no child is stored, and
all that descends from it was stopped. -/
theorem Run.ownership (h : Run H cs c) (hspares : SparesChildren H cs)
    (hx : c.engine.get? i = some x) :
  (∀ child ∈ x.children.values, ∃ y, c.engine.get? child = some y ∧ y.status = .running)
    ∧ (workOf i c.stack = none → ∀ id ∈ x.children.keys,
        ∃ state v, x.activeInvoke? id state = some v)
    ∧ (∀ child, Invoked (cs ++ [c]) i child → child ∉ x.children.values →
        Ceased cs c child ∧ ∀ j, Descends (cs ++ [c]) child j → Ceased cs c j)
    ∧ (x.status = .stopped →
        x.children = .empty ∧ ∀ j, Descends (cs ++ [c]) i j → Ceased cs c j)
  := by
  refine ⟨?_, ?_, ?_, ?_⟩
  · exact fun child hchild => h.running_of_child hspares hx hchild
  · intro hwork id hid
    apply (h.owns hx).stored _ id hid
    rw [hwork]
    exact not_clearing_none
  · intro child hinvoked hchild
    have hstopped := h.stoppedIn_of_invoked hinvoked (.inr ⟨x, hx, hchild⟩)
    exact ⟨h.ceased hstopped, fun j hj => h.ceased (h.stoppedIn_of_descends hstopped hj)⟩
  · intro hstatus
    have hstopped : StoppedIn (cs ++ [c]) i := ⟨c, by simp, x, hx, hstatus⟩
    refine ⟨(h.empty_of_stopped hx hstatus).1, fun j hj => ?_⟩
    exact h.ceased (h.stoppedIn_of_descends hstopped hj)

/-- The last child runs, and the first one was stopped. -/
theorem guardian_ownership :
  Run guardianHost (guardianRun 165).1 (guardianRun 165).2
    ∧ SparesChildren guardianHost (guardianRun 165).1
    ∧ ∃ x, (guardianRun 165).2.engine.get? 0 = some x ∧ x.children.entries = [("kid", 3)]
      ∧ (∃ y, (guardianRun 165).2.engine.get? 3 = some y ∧ y.status = .running)
      ∧ (∃ state v, x.activeInvoke? "kid" state = some v)
      ∧ Invoked ((guardianRun 165).1 ++ [(guardianRun 165).2]) 0 1
      ∧ Ceased (guardianRun 165).1 (guardianRun 165).2 1
  := by
  have hrun : Run guardianHost (guardianRun 165).1 (guardianRun 165).2 :=
    run_guardianRun (by decide +kernel)
  have hspares : SparesChildren guardianHost (guardianRun 165).1 := by decide +kernel
  have hparent : ((guardianRun 165).2.engine.get? 0).map (fun x => x.children.entries)
      = some [("kid", 3)] := by decide +kernel
  obtain ⟨x, hx, hchildren⟩ := Option.map_eq_some_iff.mp hparent
  have hwork : (workOf 0 (guardianRun 165).2.stack).isNone = true := by decide +kernel
  have hinvoked : Invoked ((guardianRun 165).1 ++ [(guardianRun 165).2]) 0 1 := by
    decide +kernel
  obtain ⟨hrunning, hinvokes, hceased, -⟩ := hrun.ownership hspares hx
  have hvalues : x.children.values = [3] := by
    rw [OrderedMap.values, hchildren]
    rfl
  refine ⟨hrun, hspares, x, hx, hchildren, ?_, ?_, hinvoked, ?_⟩
  · exact hrunning 3 (by simp [hvalues])
  · apply hinvokes (Option.isNone_iff_eq_none.mp hwork)
    rw [OrderedMap.keys, hchildren]
    exact List.mem_cons_self
  · exact (hceased 1 hinvoked (by simp [hvalues])).1

end Configuration

end Statechart
