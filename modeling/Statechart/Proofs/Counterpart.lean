import Mathlib.Data.List.Forall2
import Statechart.Proofs.Arming
import Statechart.Proofs.Move
import Statechart.Proofs.Pairing

/-!
# Instances with a counterpart

A tie joins an instance of one engine to its counterpart in another one.  The two are alike
if they differ in numbers alone: those of their timers, their children and their parents,
which are paired and tied in turn, and those of their armings, of which the one on the left
has made more by a constant.  Alike instances find the same resolutions and arm the same
delays.
-/

namespace Statechart

variable {κ π σ : Type}

/-! ### Pairings -/

/-- An instance on the left, its counterpart on the right, and how many armings more the
one on the left has made. -/
structure Tie where
  left : Nat
  right : Nat
  lead : Int
deriving DecidableEq

/-- Which instances of two engines are counterparts, and which timers.  All others
descend from those of the root.  If listeners are heeded, counterparts have the same ones. -/
structure Pairing where
  root : Tie
  ties : List Tie
  timers : List (Nat × Nat)
  heeds : Bool

namespace Pairing

variable {P P' P'' : Pairing}

/-- Whether an instance on the left has no counterpart. -/
def Free (P : Pairing) (i : Nat) : Prop := ∀ t ∈ P.ties, t.left ≠ i

/-- Whether a timer on the left is not paired. -/
def FreeTimer (P : Pairing) (id : Nat) : Prop := ∀ e ∈ P.timers, e.1 ≠ id

/-- Two instances are counterparts. -/
def Tied (P : Pairing) (i j : Nat) : Prop := ∃ t ∈ P.ties, t.left = i ∧ t.right = j

/-- A pairing with more pairs. -/
structure Grows (P P' : Pairing) : Prop where
  root : P'.root = P.root
  ties : P.ties ⊆ P'.ties
  timers : P.timers ⊆ P'.timers
  heeds : P'.heeds = P.heeds

/-- A pairing grows into itself. -/
theorem Grows.refl (P : Pairing) :
  P.Grows P
  := ⟨rfl, List.Subset.refl _, List.Subset.refl _, rfl⟩

/-- A pairing that has grown twice has grown. -/
theorem Grows.trans (h : P.Grows P') (h' : P'.Grows P'') :
  P.Grows P''
  := ⟨h'.root.trans h.root, List.Subset.trans h.ties h'.ties,
    List.Subset.trans h.timers h'.timers, h'.heeds.trans h.heeds⟩

/-- The pairing with one more tie. -/
def tie (P : Pairing) (t : Tie) : Pairing := { P with ties := t :: P.ties }

/-- The pairing with other timers. -/
def withTimers (P : Pairing) (timers : List (Nat × Nat)) : Pairing :=
  { P with timers := timers }

/-- The pairing of two roots alone. -/
def ofRoot (t : Tie) (heeds : Bool) : Pairing := ⟨t, [t], [], heeds⟩

/-- One more tie is growth. -/
theorem grows_tie (P : Pairing) (t : Tie) :
  P.Grows (P.tie t)
  := ⟨rfl, List.subset_cons_self _ _, List.Subset.refl _, rfl⟩

/-- More paired timers are growth. -/
theorem grows_withTimers {timers : List (Nat × Nat)} (h : P.timers ⊆ timers) :
  P.Grows (P.withTimers timers)
  := ⟨rfl, List.Subset.refl _, h, rfl⟩

/-- Instances that are tied stay tied as the pairing grows. -/
theorem Tied.mono {i j : Nat} (h : P.Tied i j) (hgrows : P.Grows P') :
  P'.Tied i j
  := by
  obtain ⟨t, ht, hij⟩ := h
  exact ⟨t, hgrows.ties ht, hij⟩

/-- What has no counterpart has none either when instances with other numbers are tied. -/
theorem Free.tie {i : Nat} {t : Tie} (h : P.Free i) (hne : t.left ≠ i) :
  (P.tie t).Free i
  := by
  intro t' ht'
  obtain rfl | ht' := List.mem_cons.mp ht'
  · exact hne
  · exact h t' ht'

end Pairing

/-! ### What is alike -/

/-- Callbacks for the same delayed transition of counterparts. -/
inductive Callback.Alike (P : Pairing) : Callback κ → Callback κ → Prop where
  | after {t : Tie} {state key : String} {generation generation' : Nat} :
    t ∈ P.ties → (generation : Int) = generation' + t.lead →
      Alike P (.after t.left state key generation) (.after t.right state key generation')

/-- A callback for an instance without a counterpart. -/
def Callback.Foreign (P : Pairing) (cb : Callback κ) : Prop :=
  ∃ i state key generation, cb = .after i state key generation ∧ P.Free i

/-- Envelopes that differ in the number of an arming alone. -/
inductive Envelope.Alike (lead : Int) : Envelope → Envelope → Prop where
  | start : Alike lead .start .start
  | event (event : Event) : Alike lead (.event event) (.event event)
  | after {state key : String} {generation generation' : Nat} :
    (generation : Int) = generation' + lead →
      Alike lead (.after state key generation) (.after state key generation')
  | childDone (id state : String) : Alike lead (.childDone id state) (.childDone id state)
  | invokeFailed (id state message : String) :
    Alike lead (.invokeFailed id state message) (.invokeFailed id state message)

/-- Paired timers armed under one key. -/
structure Armed.Alike (timers : List (Nat × Nat)) (lead : Int) (a b : Armed) : Prop where
  key : a.key = b.key
  timer : (a.timer, b.timer) ∈ timers
  generation : (a.generation : Int) = b.generation + lead

/-- The same state of counterparts. -/
structure ParentLink.Alike (P : Pairing) (l l' : ParentLink) : Prop where
  id : l.id = l'.id
  state : l.state = l'.state
  parent : P.Tied l.parent l'.parent

/-- Instances that differ in numbers alone.  The effects of a snapshot that was reached
before matter only as long as the start is still to be carried out. -/
structure Instance.Alike (P : Pairing) (lead : Int) (x y : Instance κ) : Prop where
  machine : x.machine = y.machine
  services : x.services = y.services
  status : x.status = y.status
  value : x.snapshot.value = y.snapshot.value
  context : x.snapshot.context = y.snapshot.context
  metadata : x.snapshot.metadata = y.snapshot.metadata
  actions : x.snapshot.actions = y.snapshot.actions
    ∨ x.status ≠ .notStarted ∧ .start ∉ x.mailbox
  parent : Option.Rel (ParentLink.Alike P) x.parent y.parent
  timers : List.Forall₂ (Armed.Alike P.timers lead) x.timers y.timers
  generation : (x.generation : Int) = y.generation + lead
  children : List.Forall₂ (fun e f => e.1 = f.1 ∧ P.Tied e.2 f.2) x.children.entries
    y.children.entries
  doneReported : x.parent = none ∨ x.doneReported = y.doneReported
  mailbox : List.Forall₂ (Envelope.Alike lead) x.mailbox y.mailbox
  busy : x.busy = y.busy
  listeners : P.heeds = true → x.listeners.map Prod.snd = y.listeners.map Prod.snd

/-- What is there under the numbers of counterparts: two instances that are alike, or at
most one, which is stopped. -/
inductive Instance.Likened (P : Pairing) (lead : Int) :
    Option (Instance κ) → Option (Instance κ) → Prop where
  | alike {x y : Instance κ} : x.Alike P lead y → Likened P lead (some x) (some y)
  | left {x : Instance κ} : x.status = .stopped → Likened P lead (some x) none
  | right {y : Instance κ} : y.status = .stopped → Likened P lead none (some y)
  | none : Likened P lead none none

/-- An instance that has to do with others without a counterpart only. -/
structure Instance.Foreign (P : Pairing) (x : Instance κ) : Prop where
  parent : ∀ link, x.parent = some link → P.Free link.parent
  children : ∀ child ∈ x.children.values, P.Free child
  timers : ∀ a ∈ x.timers, P.FreeTimer a.timer

/-! ### More pairs -/

section

variable {P P' : Pairing} (hgrows : P.Grows P') {lead : Int}

include hgrows

/-- Callbacks stay alike as the pairing grows. -/
theorem Callback.Alike.mono {cb cb' : Callback κ} (h : cb.Alike P cb') :
  cb.Alike P' cb'
  := by
  cases h with
  | after ht hgeneration => exact .after (hgrows.ties ht) hgeneration

theorem ParentLink.Alike.mono {l l' : ParentLink} (h : l.Alike P l') :
  l.Alike P' l'
  := ⟨h.id, h.state, h.parent.mono hgrows⟩

/-- Instances stay alike as the pairing grows: nothing that they are compared by is taken back.
-/
theorem Instance.Alike.mono {x y : Instance κ} (h : x.Alike P lead y) :
  x.Alike P' lead y
  := by
  refine { h with
    parent := ?_, timers := ?_, children := ?_, listeners := hgrows.heeds ▸ h.listeners }
  · have hparent := h.parent
    generalize x.parent = a, y.parent = b at hparent
    cases hparent with
    | some hl => exact .some (hl.mono hgrows)
    | none => exact .none
  · exact h.timers.imp fun a b hab => ⟨hab.key, hgrows.timers hab.timer, hab.generation⟩
  · exact h.children.imp fun e f hef => ⟨hef.1, hef.2.mono hgrows⟩

theorem Instance.Likened.mono {o o' : Option (Instance κ)} (h : Likened P lead o o') :
  Likened P' lead o o'
  := by
  cases h with
  | alike h => exact .alike (h.mono hgrows)
  | left h => exact .left h
  | right h => exact .right h
  | none => exact .none

end

/-! ### What alike instances have in common -/

namespace Instance.Alike

variable {P : Pairing} {lead : Int} {x y : Instance κ}

/-- Like instances run or rest together. -/
theorem isRunning_eq (h : x.Alike P lead y) :
  x.isRunning = y.isRunning
  := by
  rw [isRunning, isRunning, h.status]

/-- Under a key, either both lists have armed timers that are paired, or none has one. -/
theorem find?_eq {as bs : List Armed} {timers : List (Nat × Nat)}
    (h : List.Forall₂ (Armed.Alike timers lead) as bs) (key : String) :
  Option.Rel (Armed.Alike timers lead) (as.find? fun a => a.key = key)
    (bs.find? fun b => b.key = key)
  := by
  induction h with
  | nil => exact .none
  | @cons a b as bs hab _ ih =>
    rw [List.find?_cons, List.find?_cons, hab.key]
    split
    · exact .some hab
    · exact ih

/-- The generations of like instances differ by the lead, so a firing is fresh for both or for
none. -/
theorem isFresh_eq (h : x.Alike P lead y) {state key : String} {generation generation' : Nat}
    (hgeneration : (generation : Int) = generation' + lead) :
  Configuration.isFresh x state key generation = Configuration.isFresh y state key generation'
  := by
  have harmed := find?_eq h.timers (armedKey state key)
  rw [Configuration.isFresh, Configuration.isFresh, h.value, armed?, armed?]
  congr 1
  generalize x.timers.find? _ = a, y.timers.find? _ = b at harmed
  cases harmed with
  | none => rfl
  | some hab =>
    have := hab.generation
    simp only [decide_eq_decide]
    omega

/-- Like instances are in the same states and so invoke the same children. -/
theorem activeInvoke?_eq (h : x.Alike P lead y) (id state : String) :
  x.activeInvoke? id state = y.activeInvoke? id state
  := by
  rw [activeInvoke?, activeInvoke?, h.value, h.machine]

/-- Children of like instances are tied under the same identifiers. -/
theorem get?_children (h : x.Alike P lead y) (id : String) :
  Option.Rel P.Tied (x.children.get? id) (y.children.get? id)
  := by
  have hchildren := h.children
  rw [OrderedMap.get?, OrderedMap.get?]
  generalize x.children.entries = es, y.children.entries = fs at hchildren
  induction hchildren with
  | nil => exact .none
  | @cons e f es fs hef _ ih =>
    obtain ⟨k, i⟩ := e
    obtain ⟨k', j⟩ := f
    obtain ⟨rfl, hij⟩ := hef
    simp only [OrderedMap.find?]
    split
    · exact .some hij
    · exact ih

/-- Like instances have children under the same identifiers. -/
theorem contains_eq (h : x.Alike P lead y) (id : String) :
  x.children.contains id = y.children.contains id
  := by
  have hget := h.get?_children id
  rw [OrderedMap.contains, OrderedMap.contains]
  generalize x.children.get? id = a, y.children.get? id = b at hget
  cases hget <;> rfl

/-- Children stored in the same order are counterparts. -/
theorem values (h : x.Alike P lead y) :
  List.Forall₂ P.Tied x.children.values y.children.values
  := by
  rw [OrderedMap.values, OrderedMap.values, List.forall₂_map_left_iff, List.forall₂_map_right_iff]
  exact h.children.imp fun _ _ hef => hef.2

/-- Tied children put under one identifier keep the lists of children alike. -/
theorem insert {es fs : List (String × Nat)} {id : String} {i j : Nat}
    (h : List.Forall₂ (fun e f => e.1 = f.1 ∧ P.Tied e.2 f.2) es fs) (hij : P.Tied i j) :
  List.Forall₂ (fun e f => e.1 = f.1 ∧ P.Tied e.2 f.2) (OrderedMap.put id i es)
    (OrderedMap.put id j fs)
  := by
  induction h with
  | nil => exact .cons ⟨rfl, hij⟩ .nil
  | @cons e f es fs hef hrest ih =>
    obtain ⟨k, i'⟩ := e
    obtain ⟨k', j'⟩ := f
    obtain ⟨rfl, hij'⟩ := hef
    simp only [OrderedMap.put]
    split
    · exact .cons ⟨rfl, hij⟩ hrest
    · exact .cons ⟨rfl, hij'⟩ ih

/-- Like instances react alike to a report, since a reaction reads machine, value and context
only. -/
theorem reaction_eq (h : x.Alike P lead y) (state : String) (event : Event)
    (reaction : Option (Reaction (Candidate κ))) :
  x.reaction state event reaction = y.reaction state event reaction
  := by
  unfold Instance.reaction
  rw [h.machine, h.value, h.context]

/-- An envelope has the same resolution for both. -/
theorem resolution_eq (h : x.Alike P lead y) {e e' : Envelope} (he : e.Alike lead e') :
  x.resolution e = y.resolution e'
  := by
  unfold resolution
  rw [h.isRunning_eq]
  cases he with
  | start => rfl
  | event event => rw [h.machine, h.value, h.context]
  | after hgeneration =>
    simp only
    rw [h.isFresh_eq hgeneration, h.machine, h.context]
  | childDone id state =>
    simp only [h.activeInvoke?_eq, h.contains_eq, h.reaction_eq]
  | invokeFailed id state message =>
    simp only [h.activeInvoke?_eq, h.reaction_eq]

/-- Like instances arm the same delays. -/
theorem activeDelays_eq (h : x.Alike P lead y) :
  Engine.activeDelays x = Engine.activeDelays y
  := by
  rw [Engine.activeDelays, Engine.activeDelays, h.machine, h.value]

/-- Like instances invoke the same children. -/
theorem activeInvocations_eq (h : x.Alike P lead y) :
  Configuration.activeInvocations x = Configuration.activeInvocations y
  := by
  rw [Configuration.activeInvocations, Configuration.activeInvocations, h.machine, h.value]

end Instance.Alike

end Statechart
