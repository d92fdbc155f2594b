import Mathlib.Data.List.Nodup

/-!
# First-come first-served locks

A lock of cooperative tasks. A task that finds the lock free takes it at once;
otherwise it joins the end of the queue, and the head of the queue takes the lock
after a release. A lock that was released but still has a queue is not free: a
newcomer cannot overtake.

`Agrees` ties a lock to the tasks: the queue is the waiting tasks, each once, and the
lock is locked exactly while one task holds it. While a task runs, the lock agrees with the
others (`AgreesBut`); where the task suspends decides what it is to the lock then.

## Main results

- `AsyncLock.grant_eq_some`: who can take the lock
- `AsyncLock.Agrees.acquire`, `Agrees.grant`, `Agrees.release`: the agreement survives
  the operations
- `AsyncLock.Agrees.stay`, `Agrees.leave`, `Agrees.take`, `AgreesBut.suspend`: a task runs
-/

/-- A lock with a queue of tasks `τ`. -/
structure AsyncLock (τ : Type*) where
  locked : Bool := false
  waiters : List τ := []
  deriving DecidableEq, Repr

namespace AsyncLock

variable {τ : Type*}

/-- Nobody holds the lock or waits for it. -/
def free (l : AsyncLock τ) : Bool := !l.locked && l.waiters.isEmpty

/-- Join the queue. -/
def acquire (l : AsyncLock τ) (k : τ) : AsyncLock τ := { l with waiters := l.waiters ++ [k] }

/-- The head of the queue takes the lock. -/
def grant [DecidableEq τ] (l : AsyncLock τ) (k : τ) : Option (AsyncLock τ) :=
  if l.locked = false ∧ l.waiters.head? = some k then some ⟨true, l.waiters.tail⟩ else none

def release (l : AsyncLock τ) : AsyncLock τ := { l with locked := false }

variable {l l' : AsyncLock τ} {j k : τ}

@[simp] theorem acquire_locked : (l.acquire k).locked = l.locked := rfl

@[simp] theorem acquire_waiters : (l.acquire k).waiters = l.waiters ++ [k] := rfl

@[simp] theorem release_locked : l.release.locked = false := rfl

@[simp] theorem release_waiters : l.release.waiters = l.waiters := rfl

/-- **Grant**: only the head of the queue of an unlocked lock takes it. -/
theorem grant_eq_some [DecidableEq τ] :
    l.grant k = some l' ↔ l.locked = false ∧ l.waiters = k :: l'.waiters ∧ l'.locked = true := by
  obtain ⟨locked, waiters⟩ := l
  obtain ⟨locked', waiters'⟩ := l'
  cases waiters with
  | nil => simp [grant]
  | cons x xs =>
    simp only [grant, List.head?_cons, List.tail_cons, Option.some.injEq, Option.ite_none_right_eq_some,
      AsyncLock.mk.injEq, List.cons.injEq]
    constructor
    · rintro ⟨⟨h1, h2⟩, h3, h4⟩
      exact ⟨h1, ⟨h2, h4⟩, h3.symm⟩
    · rintro ⟨h1, ⟨h2, h4⟩, h3⟩
      exact ⟨⟨h1, h2⟩, h3.symm, h4⟩

/-- The queue is the set of waiting tasks, and the lock is locked while the one task that
`holds` has it. -/
structure Agrees (l : AsyncLock τ) (waits holds : τ → Prop) : Prop where
  nodup : l.waiters.Nodup
  mem_waiters : ∀ k, k ∈ l.waiters ↔ waits k
  locked_iff : l.locked = true ↔ ∃ k, holds k
  unique : ∀ j k, holds j → holds k → j = k

namespace Agrees

variable {waits holds waits' holds' : τ → Prop}

theorem congr (h : l.Agrees waits holds) (hw : ∀ k, waits' k ↔ waits k)
    (hh : ∀ k, holds' k ↔ holds k) : l.Agrees waits' holds' where
  nodup := h.nodup
  mem_waiters k := (h.mem_waiters k).trans (hw k).symm
  locked_iff := by simp only [h.locked_iff, hh]
  unique j k hj hk := h.unique j k ((hh j).mp hj) ((hh k).mp hk)

/-- A task that was not waiting joins the queue. -/
theorem acquire (h : l.Agrees waits holds) (hk : ¬ waits k)
    (hw : ∀ j, waits' j ↔ waits j ∨ j = k) (hh : ∀ j, holds' j ↔ holds j) :
    (l.acquire k).Agrees waits' holds' where
  nodup := by
    have : k ∉ l.waiters := fun hmem => hk ((h.mem_waiters k).mp hmem)
    simpa [List.nodup_append, h.nodup] using fun a ha (hak : a = k) => this (hak ▸ ha)
  mem_waiters j := by simp [h.mem_waiters, hw]
  locked_iff := by simp only [acquire_locked, h.locked_iff, hh]
  unique i j hi hj := h.unique i j ((hh i).mp hi) ((hh j).mp hj)

/-- The head of the queue takes the lock and keeps it. -/
theorem grant [DecidableEq τ] (h : l.Agrees waits holds) (hg : l.grant k = some l')
    (hw : ∀ j, waits' j ↔ waits j ∧ j ≠ k) (hh : ∀ j, holds' j ↔ j = k) :
    l'.Agrees waits' holds' := by
  obtain ⟨-, hwaiters, hlocked⟩ := grant_eq_some.mp hg
  have hnodup := h.nodup
  rw [hwaiters, List.nodup_cons] at hnodup
  refine ⟨hnodup.2, fun j => ?_, by simp [hlocked, hh], fun i j hi hj => ?_⟩
  · have := h.mem_waiters j
    rw [hwaiters, List.mem_cons] at this
    rw [hw, ← this]
    constructor
    · intro hj
      exact ⟨.inr hj, fun hjk => hnodup.1 (hjk ▸ hj)⟩
    · rintro ⟨hj | hj, hne⟩
      · exact absurd hj hne
      · exact hj
  · rw [(hh i).mp hi, (hh j).mp hj]

/-- The holder gives the lock back. -/
theorem release (h : l.Agrees waits holds) (hw : ∀ j, waits' j ↔ waits j)
    (hh : ∀ j, ¬ holds' j) : l.release.Agrees waits' holds' where
  nodup := h.nodup
  mem_waiters j := (h.mem_waiters j).trans (hw j).symm
  locked_iff := by simp [hh]
  unique j _ hj := absurd hj (hh j)

/-- Whoever takes the lock was waiting, and nobody held it. -/
theorem of_grant [DecidableEq τ] (h : l.Agrees waits holds) (hg : l.grant k = some l') :
    waits k ∧ ∀ j, ¬ holds j := by
  obtain ⟨hunlocked, hwaiters, -⟩ := grant_eq_some.mp hg
  refine ⟨(h.mem_waiters k).mp (hwaiters ▸ List.mem_cons_self), fun j hj => ?_⟩
  have := h.locked_iff.mpr ⟨j, hj⟩
  simp [hunlocked] at this

end Agrees

/-- The lock while task `k` runs: the others wait and hold as they did, and `k` holds it or
not. -/
def AgreesBut (l : AsyncLock τ) (waits holds : τ → Prop) (k : τ) (has : Prop) : Prop :=
  l.Agrees (fun j => j ≠ k ∧ waits j) fun j => (j = k ∧ has) ∨ (j ≠ k ∧ holds j)

section Run

variable {waits holds waits' holds' : τ → Prop} {has : Prop}

/-- Who does not wait can be left out of the queue. -/
theorem ne_and_iff (hw : ¬ waits k) (j : τ) : j ≠ k ∧ waits j ↔ waits j := by
  refine and_iff_right_of_imp fun hj => ?_
  rintro rfl
  exact hw hj

/-- A task that does not wait leaves the lock alone. -/
theorem Agrees.stay (h : l.Agrees waits holds) (hw : ¬ waits k) (hhas : has ↔ holds k) :
    l.AgreesBut waits holds k has := by
  refine h.congr (ne_and_iff hw) fun j => ?_
  by_cases hj : j = k
  · simp [hj, hhas]
  · simp [hj]

/-- The holder gives the lock back and goes on. -/
theorem Agrees.leave (h : l.Agrees waits holds) (hw : ¬ waits k) (hk : holds k) :
    l.release.AgreesBut waits holds k False := by
  refine h.release (ne_and_iff hw) ?_
  rintro j (⟨-, hfalse⟩ | ⟨hj, hheld⟩)
  · exact hfalse
  · exact hj (h.unique j k hheld hk)

/-- The head of the queue has the lock. -/
theorem Agrees.take [DecidableEq τ] (h : l.Agrees waits holds) (hg : l.grant k = some l') :
    l'.AgreesBut waits holds k True := by
  refine h.grant hg (fun j => and_comm) fun j => ?_
  simp [(h.of_grant hg).2]

/-- It gives the lock back before it suspends. -/
theorem AgreesBut.release (h : l.AgreesBut waits holds k True) :
    l.release.AgreesBut waits holds k False := by
  refine Agrees.release h (fun _ => Iff.rfl) ?_
  rintro j (⟨-, hfalse⟩ | ⟨hj, hheld⟩)
  · exact hfalse
  · exact hj (h.unique j k (.inr ⟨hj, hheld⟩) (.inl ⟨rfl, trivial⟩))

/-- The task suspends, in the queue or elsewhere. -/
theorem AgreesBut.suspend {wait : Bool} (h : l.AgreesBut waits holds k has)
    (hw : ∀ j, waits' j ↔ (j = k ∧ wait) ∨ (j ≠ k ∧ waits j))
    (hh : ∀ j, holds' j ↔ (j = k ∧ has) ∨ (j ≠ k ∧ holds j)) :
    (if wait then l.acquire k else l).Agrees waits' holds' := by
  split_ifs with hwait
  · refine Agrees.acquire h (by simp) (fun j => ?_) hh
    rw [hw]
    tauto
  · refine Agrees.congr h (fun j => ?_) hh
    rw [hw]
    tauto

end Run

end AsyncLock
