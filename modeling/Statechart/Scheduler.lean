import Statechart.Table

/-!
# A virtual clock with tasks

Time stands still until it is advanced.  Tasks are queued by the time at which they
fall due, ties in the order of their numbers, which are given out in the order of
scheduling.  An index has the due time of each waiting task, so that a task is found in
the queue by its number.  A task is taken off the queue with the clock at its due time.
There is no other clock here, in particular none of real time.
-/

namespace Statechart

/-- A task in the queue. -/
structure Pending (τ : Type) where
  due : Nat
  id : Nat
  task : τ

variable {τ : Type}

/-- The order of tasks: the one that falls due earlier is first, and of two that are due at
the same time the one with the smaller number. -/
def Pending.Before (p q : Pending τ) : Prop :=
  p.due < q.due ∨ p.due = q.due ∧ p.id < q.id

instance (p q : Pending τ) : Decidable (p.Before q) :=
  inferInstanceAs (Decidable (_ ∨ _))

/-- A clock, in milliseconds, with the tasks waiting on it in their order, and the due
times of the waiting tasks by their numbers. -/
structure Scheduler (τ : Type) where
  now : Nat
  queue : List (Pending τ)
  due : Table Nat

namespace Scheduler

/-- The clock at zero, without tasks. -/
def empty : Scheduler τ := ⟨0, [], .empty⟩

instance : Inhabited (Scheduler τ) := ⟨empty⟩

/-- The number that the next task gets. -/
def nextId (s : Scheduler τ) : Nat := s.due.next

/-- Inserts a task at its place. -/
def enqueue (p : Pending τ) : List (Pending τ) → List (Pending τ)
  | [] => [p]
  | q :: rest => if q.Before p then q :: enqueue p rest else p :: q :: rest

/-- Schedules a task some time from now; its number is `s.nextId`. -/
def schedule (s : Scheduler τ) (delay : Nat) (task : τ) : Scheduler τ where
  now := s.now
  queue := enqueue ⟨s.now + delay, s.nextId, task⟩ s.queue
  due := s.due.add (s.now + delay)

/-- Whether the queue has the task with a number at the time that the index says. -/
def isPending (s : Scheduler τ) (id : Nat) : Bool :=
  match s.due.get? id with
  | some due => s.queue.any fun p => p.due = due && p.id = id
  | none => false

/-- Takes a task off the queue, at the time that the index says. -/
def cancel (s : Scheduler τ) (id : Nat) : Scheduler τ :=
  match s.due.get? id with
  | some due =>
    { s with
      queue := s.queue.filter fun p => !(p.due = due && p.id = id)
      due := s.due.erase id }
  | none => s

/-- The number of tasks waiting. -/
def pending (s : Scheduler τ) : Nat := s.queue.length

/-- Takes the earliest task that is due by `target`, setting the clock to its due
time. -/
def takeDue (s : Scheduler τ) (target : Nat) : Option (Pending τ × Scheduler τ) :=
  match s.queue with
  | [] => none
  | p :: rest =>
    if p.due ≤ target then
      some (p, { s with now := p.due, queue := rest, due := s.due.erase p.id })
    else none

/-- Moves the clock forward to `target`. -/
def settle (s : Scheduler τ) (target : Nat) : Scheduler τ :=
  { s with now := max s.now target }

/-- The queue has the new task and those that were in it. -/
theorem mem_enqueue (p q : Pending τ) (ps : List (Pending τ)) :
  q ∈ enqueue p ps ↔ q = p ∨ q ∈ ps
  := by
  induction ps with
  | nil => simp [enqueue]
  | cons r rest ih =>
    by_cases h : r.Before p
    · simp only [enqueue, if_pos h, List.mem_cons, ih]
      grind
    · simp [enqueue, h]

/-- What is cancelled is taken off the queue, and nothing is put there. -/
theorem mem_of_mem_cancel {s : Scheduler τ} {id : Nat} {p : Pending τ}
    (h : p ∈ (s.cancel id).queue) :
  p ∈ s.queue
  := by
  rw [cancel] at h
  split at h
  · exact (List.mem_filter.mp h).1
  · exact h

/-- Time does not pass when a task is cancelled. -/
@[simp]
theorem now_cancel (s : Scheduler τ) (id : Nat) :
  (s.cancel id).now = s.now
  := by
  rw [cancel]
  split <;> rfl

/-- The number of a cancelled task is not given out again. -/
@[simp]
theorem nextId_cancel (s : Scheduler τ) (id : Nat) :
  (s.cancel id).nextId = s.nextId
  := by
  rw [cancel]
  split
  · exact Table.next_erase _ _
  · rfl

@[simp]
theorem nextId_schedule (s : Scheduler τ) (delay : Nat) (task : τ) :
  (s.schedule delay task).nextId = s.nextId + 1
  := Table.next_add _ _

/-- The number of a task that fell due is not given out again. -/
theorem nextId_of_takeDue {s s' : Scheduler τ} {target : Nat} {p : Pending τ}
    (h : s.takeDue target = some (p, s')) :
  s'.nextId = s.nextId
  := by
  rw [takeDue] at h
  split at h
  · cases h
  · split at h
    · obtain ⟨-, rfl⟩ := Prod.mk.inj (Option.some.inj h)
      exact Table.next_erase _ _
    · cases h

end Scheduler

end Statechart
