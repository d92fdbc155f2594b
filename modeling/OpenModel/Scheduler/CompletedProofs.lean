import OpenModel.Scheduler.Goroutines

/-!
# The set of completed proofs

`markProofCompleted` empties the set from inside the insertion when it has grown beyond 128
keys, so what it remembers depends on the whole history. Beside the set, `ProofMarks` keeps the
keys marked since it was last emptied: the set holds exactly these.

## Main results

- `ProofMarks.completed_eq`: the set holds the keys marked since the last reset
- `remembers_of_marks`: what is remembered after any calls
- `Sched.completedProofs_of_reach`: in a run of the scheduler the set is that of some calls
-/

namespace OpenModel.Scheduler

/-- `isProofAlreadyCompleted` -/
def isProofAlreadyCompleted (completed : Finset ProofKey) (key : ProofKey) : Bool :=
  decide (key ∈ completed)

/-- The set, and the keys marked since it was last emptied. -/
structure ProofMarks where
  completed : Finset ProofKey := ∅
  sinceReset : List ProofKey := []

namespace ProofMarks

/-- A call of `markProofCompleted`; the call that empties the set marks the first key after
the reset. -/
def mark (m : ProofMarks) (key : ProofKey) : ProofMarks where
  completed := markProofCompleted m.completed key
  sinceReset := if 128 < m.completed.card then [key] else m.sinceReset ++ [key]

variable {m : ProofMarks} {key : ProofKey} {keys : List ProofKey}

/-- What the calls preserve. -/
structure Inv (keys : List ProofKey) (m : ProofMarks) : Prop where
  completed : m.completed = m.sinceReset.toFinset
  suffix : m.sinceReset <:+ keys
  last : keys.getLast? = m.sinceReset.getLast?
  card_le : m.completed.card ≤ 129

/-- **Step lemma**. -/
theorem Inv.mark (h : m.Inv keys) : (m.mark key).Inv (keys ++ [key]) := by
  unfold ProofMarks.mark markProofCompleted
  split_ifs with hfull
  · refine ⟨by simp, List.suffix_append keys [key], by simp, ?_⟩
    rw [Finset.card_singleton]
    omega
  · obtain ⟨before, rfl⟩ := h.suffix
    refine ⟨?_, ⟨before, (List.append_assoc _ _ _).symm⟩, by simp, ?_⟩
    · rw [h.completed, List.toFinset_append, Finset.union_comm]
      rfl
    · have hinsert := Finset.card_insert_le key m.completed
      show (insert key m.completed).card ≤ 129
      omega

end ProofMarks

/-- Behind calls of `markProofCompleted` from the start on. -/
def marks (keys : List ProofKey) : ProofMarks := keys.foldl ProofMarks.mark {}

theorem marks_append (keys : List ProofKey) (key : ProofKey) :
    marks (keys ++ [key]) = (marks keys).mark key := by
  rw [marks, List.foldl_append]
  rfl

/-- **Run lemma**. -/
theorem inv_marks (keys : List ProofKey) : (marks keys).Inv keys := by
  induction keys using List.reverseRecOn with
  | nil => exact ⟨rfl, List.suffix_rfl, rfl, by decide⟩
  | append_singleton keys key ih =>
    rw [marks_append]
    exact ih.mark

/-- What is known behind the calls, of the keys and of the yields that are skipped. -/
structure Remembers (keys : List ProofKey) (m : ProofMarks) : Prop where
  marked : ∀ key, isProofAlreadyCompleted m.completed key → key ∈ keys
  skips : ∀ d info, skipsYield d m.completed info → info.proofKey ∈ keys
  sinceReset : ∀ key ∈ m.sinceReset, isProofAlreadyCompleted m.completed key
  last : ∀ key ∈ keys.getLast?, isProofAlreadyCompleted m.completed key
  card_le : m.completed.card ≤ 129

theorem ProofMarks.Inv.isProofAlreadyCompleted {m : ProofMarks} {keys : List ProofKey}
    {key : ProofKey} (h : m.Inv keys) :
    isProofAlreadyCompleted m.completed key ↔ key ∈ m.sinceReset := by
  rw [Scheduler.isProofAlreadyCompleted, decide_eq_true_iff, h.completed, List.mem_toFinset]

/-- **Completed proofs**: only marked keys are remembered, all of those since the last reset
are, the latest one always, and there are never more than 129. -/
theorem remembers_of_marks (keys : List ProofKey) : Remembers keys (marks keys) := by
  have hinv := inv_marks keys
  refine ⟨fun key hkey => ?_, fun d info hskips => ?_, fun key hkey => ?_, fun key hkey => ?_,
    hinv.card_le⟩
  · exact hinv.suffix.subset (hinv.isProofAlreadyCompleted.mp hkey)
  · have hkey := (Bool.and_eq_true_iff.mp hskips).2
    exact hinv.suffix.subset (hinv.isProofAlreadyCompleted.mp hkey)
  · exact hinv.isProofAlreadyCompleted.mpr hkey
  · rw [hinv.last] at hkey
    exact hinv.isProofAlreadyCompleted.mpr (List.mem_of_mem_getLast? hkey)

/-- Marked or left alone. -/
def Marks (completed completed' : Finset ProofKey) : Prop :=
  completed' = completed ∨ ∃ key, completed' = markProofCompleted completed key

theorem PollPc.step_completedProofs {cfg : Config} {answers : LotusAnswers} {c : Cells}
    {pc : PollPc} : (pc.step cfg answers c).1.completedProofs = c.completedProofs := by
  obtain ⟨cache, h⟩ | ⟨guarded, d, apply, -, h⟩ | ⟨info, -, h⟩ := pc.step_cells cfg answers c
  · rw [h]
  · rw [h, ApplyPc.step_completedProofs]
  · rw [h]

/-- A monitor marks its own key, once. -/
theorem MonitorPc.step_completedProofs {c c' : Cells} {m m' : MonitorPc}
    (h : m.step c = some (c', m')) : Marks c.completedProofs c'.completedProofs := by
  cases m with
  | waiting info =>
    cases h
    exact .inl rfl
  | markCompleted info =>
    cases h
    exact .inr ⟨info.proofKey, rfl⟩
  | applying pc =>
    cases h
    exact .inl ApplyPc.step_completedProofs
  | clearActive =>
    cases h
    exact .inl rfl
  | exited => cases h

namespace Sched

variable {cfg : Config} {s t : Sched} {a : Action}

/-- A step of the scheduler marks a key or leaves the set alone. -/
theorem marks_of_step (h : step cfg s a = some t) :
    Marks s.cells.completedProofs t.cells.completedProofs := by
  cases a with
  | poll answers =>
    cases h
    exact .inl PollPc.step_completedProofs
  | monitor i =>
    obtain ⟨m, c, m', -, hm, rfl⟩ := monitorStep_eq_some.mp h
    exact MonitorPc.step_completedProofs hm
  | trigger i =>
    obtain ⟨w, c, w', started, -, hw, rfl⟩ := triggerStep_eq_some.mp h
    obtain ⟨a, -, rfl, -⟩ | ⟨-, rfl, -⟩ | ⟨gen, -, rfl, -⟩ := Trigger.step_cases hw
    · exact .inl ApplyPc.step_completedProofs
    · exact .inl rfl
    · exact .inl rfl
  | timer i =>
    obtain ⟨r, c, pc', -, hr, rfl⟩ := timerStep_eq_some.mp h
    obtain ⟨-, rfl, -⟩ | ⟨f, -, -, rfl, -⟩ | ⟨-, rfl, -⟩ | ⟨a, -, rfl, -⟩ := TimerPc.step_cases hr
    · exact .inl rfl
    · exact .inl rfl
    · exact .inl rfl
    · exact .inl ApplyPc.step_completedProofs
  | timerDone i =>
    obtain ⟨r, fireAt, -, -, -, rfl⟩ := timerDoneStep_eq_some.mp h
    exact .inl rfl
  | _ =>
    cases h
    exact .inl rfl

/-- **The scheduler's set**: in every run it is that of some calls of `markProofCompleted`. -/
theorem completedProofs_of_reach {ok : Sched → Action → Prop} (h : (system cfg).Reach ok s) :
    ∃ keys, s.cells.completedProofs = (marks keys).completed := by
  refine h.invariant (I := fun s => ∃ keys, s.cells.completedProofs = (marks keys).completed) ?_
    fun s l t ⟨keys, hs⟩ _ hstep => ?_
  · rintro s rfl
    exact ⟨[], rfl⟩
  · obtain hsame | ⟨key, hmark⟩ := marks_of_step hstep
    · exact ⟨keys, hsame.trans hs⟩
    · refine ⟨keys ++ [key], ?_⟩
      rw [hmark, hs, marks_append]
      rfl

end Sched

end OpenModel.Scheduler
