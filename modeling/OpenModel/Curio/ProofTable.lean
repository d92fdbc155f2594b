import Mathlib.Data.List.Count
import OpenModel.Lib.Transition

/-!
# Proof completion in Curio's database

Curio proves the partitions of a deadline one after another and writes the proof of each
into its row of `wdpost_proofs`. `IsProofComplete` counts the rows of the deadline that are
there and those that have a proof; `WaitForProofComplete` polls it. Neither knows how many
partitions the deadline has, so rows that are still missing are not missed.

## Main results

- `AwaitedDeadline.sound_iff`: when a query's answer is right
- `AwaitedDeadline.allProven_of_reach`: in every history in which it is, a wait that returns
  true has seen every partition proven
- `AwaitedDeadline.firstOfTwo_not_allProven`: the first of two rows, proven before the second
  appears
-/

namespace OpenModel.Curio

open Transition (System)

/-- A row of `wdpost_proofs`, without the columns that no query reads. -/
structure ProofRow where
  spID : Int
  provingPeriodStart : Int
  deadline : Int
  partition : Nat
  /-- null until the proof of the partition is computed -/
  proofParams : Option (List UInt8) := none
  deriving DecidableEq, Repr

/-- The parameters of a wait, and the number of partitions the deadline has. -/
structure AwaitedDeadline where
  spID : Int
  periodStart : Int
  deadline : UInt64
  partitions : Nat
  partitions_pos : 0 < partitions

/-- Where a call of `WaitForProofComplete` is. -/
inductive WaitPc
  /-- the check before the first tick -/
  | firstCheck
  /-- waiting for a tick, the timeout or the end of the context -/
  | selecting
  /-- `detected` is what `waitForProofAndResume` goes on with and reports -/
  | returned (detected : Bool)
  deriving DecidableEq, Repr

/-- The table, and a wait on it. -/
structure Wait where
  rows : List ProofRow := []
  pc : WaitPc := .firstCheck
  deriving DecidableEq, Repr

inductive WaitLabel
  /-- Curio inserts a row -/
  | insert (row : ProofRow)
  /-- Curio writes the proof of row `i` -/
  | prove (i : Nat) (proof : List UInt8)
  /-- the query of the first check or of a tick returns, or fails -/
  | check (ok : Bool)
  | timeout
  | contextDone
  deriving DecidableEq, Repr

namespace AwaitedDeadline

variable (d : AwaitedDeadline)

/-- The `WHERE` clause; `int64(deadline)` wraps. -/
def selects (row : ProofRow) : Bool :=
  row.spID == d.spID && row.provingPeriodStart == d.periodStart &&
    row.deadline == d.deadline.toInt64.toInt

/-- `COUNT(*)`. -/
def total (rows : List ProofRow) : Nat := (rows.filter d.selects).length

/-- `COUNT(CASE WHEN proof_params IS NOT NULL THEN 1 END)`. -/
def completed (rows : List ProofRow) : Nat := (rows.filter d.selects).countP (·.proofParams.isSome)

/-- `IsProofComplete`, when the query succeeds. -/
def isProofComplete (rows : List ProofRow) : Bool :=
  if d.total rows = 0 then false else d.completed rows == d.total rows

/-- `WaitForProofComplete`, one event at a time. -/
def step (s : Wait) : WaitLabel → Option Wait
  | .insert row => some { s with rows := s.rows ++ [row] }
  | .prove i proof =>
    s.rows[i]?.map fun row => { s with rows := s.rows.set i { row with proofParams := some proof } }
  | .check ok =>
    match s.pc with
    | .returned _ => none
    | _ =>
      some { s with pc := if ok && d.isProofComplete s.rows then .returned true else .selecting }
  | .timeout | .contextDone =>
    match s.pc with
    | .selecting => some { s with pc := .returned false }
    | _ => none

/-- A table with rows of other deadlines only, and a wait that starts. -/
def system : System Wait WaitLabel where
  init s := (∀ row ∈ s.rows, d.selects row = false) ∧ s.pc = .firstCheck
  step := d.step

/-- The row of partition `p` is there. -/
def HasRow (rows : List ProofRow) (p : Nat) : Prop := ∃ row ∈ rows, d.selects row ∧ row.partition = p

/-- The proof of partition `p` is computed. -/
def Proven (rows : List ProofRow) (p : Nat) : Prop :=
  ∃ row ∈ rows, d.selects row ∧ row.partition = p ∧ row.proofParams.isSome

/-- Every partition of the deadline is proven. -/
def AllProven (rows : List ProofRow) : Prop := ∀ p < d.partitions, d.Proven rows p

/-- A query's answer is right. -/
def Sound (rows : List ProofRow) : Prop := d.isProofComplete rows = true → d.AllProven rows

/-- The deadline has no row, a row without a proof, or all its rows. -/
def RowsTell (rows : List ProofRow) : Prop :=
  (∀ row ∈ rows, d.selects row = false) ∨
    (∃ row ∈ rows, d.selects row ∧ row.proofParams = none) ∨ ∀ p < d.partitions, d.HasRow rows p

instance (rows : List ProofRow) : Decidable (d.RowsTell rows) :=
  inferInstanceAs (Decidable ((∀ row ∈ rows, d.selects row = false) ∨
    (∃ row ∈ rows, d.selects row ∧ row.proofParams = none) ∨
      ∀ p < d.partitions, ∃ row ∈ rows, d.selects row ∧ row.partition = p))

variable {d} {rows : List ProofRow} {s t : Wait} {l : WaitLabel}

/-- **What the query says**: there is a row, and every row that is there has a proof. -/
theorem isProofComplete_iff :
    d.isProofComplete rows = true ↔
      (∃ row ∈ rows, d.selects row) ∧ ∀ row ∈ rows, d.selects row → row.proofParams.isSome := by
  have htotal : d.total rows = 0 ↔ ¬ ∃ row ∈ rows, d.selects row := by
    simp [total, List.filter_eq_nil_iff]
  have hcompleted : d.completed rows = d.total rows ↔
      ∀ row ∈ rows, d.selects row → row.proofParams.isSome := by
    simp [completed, total, List.countP_eq_length]
  unfold isProofComplete
  split_ifs with h0
  · simp [htotal.mp h0]
  · rw [beq_iff_eq, hcompleted]
    exact (and_iff_right (not_not.mp (htotal.not.mp h0))).symm

theorem Proven.hasRow {p : Nat} (h : d.Proven rows p) : d.HasRow rows p := by
  obtain ⟨row, hrow, hsel, hp, -⟩ := h
  exact ⟨row, hrow, hsel, hp⟩

/-- **Exact condition for one query**. -/
theorem sound_iff : d.Sound rows ↔ d.RowsTell rows := by
  rw [Sound, isProofComplete_iff]
  constructor
  · intro h
    by_cases hrow : ∃ row ∈ rows, d.selects row
    · by_cases hall : ∀ row ∈ rows, d.selects row → row.proofParams.isSome
      · exact .inr (.inr fun p hp => (h ⟨hrow, hall⟩ p hp).hasRow)
      · refine .inr (.inl ?_)
        push Not at hall
        obtain ⟨row, hmem, hsel, hnull⟩ := hall
        exact ⟨row, hmem, hsel, by simpa using hnull⟩
    · refine .inl fun row hmem => ?_
      simpa using fun hsel => hrow ⟨row, hmem, hsel⟩
  · rintro (hnone | ⟨row, hmem, hsel, hnull⟩ | hrows) ⟨⟨row', hmem', hsel'⟩, hall⟩
    · simp [hnone row' hmem'] at hsel'
    · have := hall row hmem hsel
      simp [hnull] at this
    · intro p hp
      obtain ⟨row, hmem, hsel, rfl⟩ := hrows p hp
      exact ⟨row, hmem, hsel, rfl, hall row hmem hsel⟩

/-- A proof that was written stays. -/
theorem proven_step (hstep : d.step s l = some t) {p : Nat} (h : d.Proven s.rows p) :
    d.Proven t.rows p := by
  obtain ⟨row, hmem, hsel, hp, hproof⟩ := h
  cases l with
  | insert row' =>
    cases hstep
    exact ⟨row, List.mem_append_left _ hmem, hsel, hp, hproof⟩
  | prove i proof =>
    obtain ⟨row', hrow', rfl⟩ := Option.map_eq_some_iff.mp hstep
    obtain ⟨j, hj⟩ := List.mem_iff_getElem?.mp hmem
    by_cases hij : i = j
    · subst hij
      obtain rfl := Option.some.inj (hj.symm.trans hrow')
      exact ⟨_, List.mem_set (List.getElem?_eq_some_iff.mp hj).1 _, hsel, hp, rfl⟩
    · refine ⟨row, List.mem_of_getElem? (i := j) ?_, hsel, hp, hproof⟩
      rw [List.getElem?_set_ne hij, hj]
  | check ok =>
    simp only [step] at hstep
    split at hstep <;> cases hstep
    exact ⟨row, hmem, hsel, hp, hproof⟩
  | timeout | contextDone =>
    simp only [step] at hstep
    split at hstep <;> cases hstep
    exact ⟨row, hmem, hsel, hp, hproof⟩

/-- A wait returns true just after a query that said so. -/
theorem returned_step (hstep : d.step s l = some t) (h : t.pc = .returned true) :
    s.pc = .returned true ∨
      (l = .check true ∧ d.isProofComplete s.rows = true ∧ t.rows = s.rows) := by
  cases l with
  | insert row =>
    cases hstep
    exact .inl h
  | prove i proof =>
    obtain ⟨row, -, rfl⟩ := Option.map_eq_some_iff.mp hstep
    exact .inl h
  | check ok =>
    simp only [step] at hstep
    split at hstep <;> cases hstep
    dsimp only at h
    split_ifs at h with hcond
    obtain ⟨rfl, hdone⟩ : ok = true ∧ d.isProofComplete s.rows = true := by simpa using hcond
    exact .inr ⟨rfl, hdone, rfl⟩
  | timeout | contextDone =>
    simp only [step] at hstep
    split at hstep <;> cases hstep
    cases h

/-- Every query that succeeds finds rows that tell. -/
def ChecksTell (d : AwaitedDeadline) (s : Wait) (l : WaitLabel) : Prop :=
  l = .check true → d.RowsTell s.rows

instance (s : Wait) (l : WaitLabel) : Decidable (d.ChecksTell s l) :=
  inferInstanceAs (Decidable (l = .check true → d.RowsTell s.rows))

/-- **Proof completion means all partitions**: a single query is right exactly when the rows
tell, and in every history whose queries find such rows a wait returns true only when all
partitions are proven. -/
theorem allProven_of_reach (d : AwaitedDeadline) :
    (∀ rows, d.Sound rows ↔ d.RowsTell rows) ∧
      ∀ s, d.system.Reach d.ChecksTell s → s.pc = .returned true → d.AllProven s.rows := by
  refine ⟨fun rows => sound_iff, fun s h => ?_⟩
  refine h.invariant (I := fun s => s.pc = .returned true → d.AllProven s.rows) ?_ ?_
  · rintro s ⟨-, hpc⟩ hret
    rw [hpc] at hret
    cases hret
  · intro s l t hs hok hstep hret
    rcases returned_step hstep hret with hold | ⟨hl, hdone, hrows⟩
    · exact fun p hp => proven_step hstep (hs hold p hp)
    · rw [hrows]
      exact sound_iff.mpr (hok hl) hdone

/-- A deadline with two partitions. -/
def twoPartitions : AwaitedDeadline := ⟨1000, 500000, 5, 2, by decide⟩

/-- The wait polls before the row of partition 1 appears and before its proof is there, and once
when the query fails; a row of another deadline is never proven. -/
def bothProven : List WaitLabel :=
  [.insert ⟨1000, 500000, 5, 0, none⟩, .insert ⟨1000, 500000, 6, 0, none⟩, .check true,
    .insert ⟨1000, 500000, 5, 1, none⟩, .prove 0 [1], .check true, .prove 2 [2], .check false,
    .check true]

theorem allProven_bothProven :
    ∃ s, twoPartitions.system.Reach twoPartitions.ChecksTell s ∧ s.pc = .returned true ∧
      twoPartitions.AllProven s.rows := by
  have hinit : twoPartitions.system.init {} := ⟨by simp, rfl⟩
  have hfinal : (twoPartitions.system.execGuarded twoPartitions.ChecksTell {} bothProven).any
      (fun s => s.pc = .returned true) = true := by
    decide
  obtain ⟨s, hrun, hs⟩ := (Option.any_eq_true _ _).mp hfinal
  have hreturned : s.pc = .returned true := of_decide_eq_true hs
  have hreach := (System.Reach.init hinit).execGuarded hrun
  exact ⟨s, hreach, hreturned, (allProven_of_reach twoPartitions).2 s hreach hreturned⟩

/-- The row of partition 0 appears and is proven, then the wait polls; the row of partition
1 appears afterwards. -/
def firstOfTwo : List WaitLabel :=
  [.insert ⟨1000, 500000, 5, 0, none⟩, .prove 0 [1], .check true]

theorem firstOfTwo_not_allProven :
    ∃ s, twoPartitions.system.Reach System.anyStep s ∧ s.pc = .returned true ∧
      ¬ twoPartitions.AllProven s.rows := by
  let s : Wait := ⟨[⟨1000, 500000, 5, 0, some [1]⟩], .returned true⟩
  have hrun : twoPartitions.system.exec {} firstOfTwo = some s := by decide
  refine ⟨s, System.reach_of_exec ⟨by simp, rfl⟩ hrun, rfl, fun h => ?_⟩
  obtain ⟨row, hrow, -, hp, -⟩ := h 1 (by decide)
  obtain rfl := List.mem_singleton.mp hrow
  cases hp

end AwaitedDeadline

end OpenModel.Curio
