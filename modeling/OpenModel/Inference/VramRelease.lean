import Mathlib.Algebra.Order.Field.Rat
import Mathlib.Tactic.Linarith
import Mathlib.Tactic.NormNum
import OpenModel.Lib.Transition

/-!
# Waiting for VRAM

`_wait_for_vram_release` polls `nvidia-smi` until enough of the GPU's memory is free or the
timeout has elapsed. A query that fails is made again, unless `nvidia-smi` seems not to be
there: no query has ever worked, and three in a row have failed.

The clock goes on between any two steps and during a query. `queries` keeps what the queries of
the loop have shown, which the program does not.

## Main results

- `VramWait.Inv.step`: what a step of the loop preserves
- `VramWait.justified_of_reach`: why the wait returns
-/

namespace OpenModel.Inference

/-- A run of `nvidia-smi`. -/
inductive SmiOutcome
  /-- a status other than 0, an exception, or an output that is not two numbers -/
  | failed
  | printed (freeMib totalMib : ℚ)
  deriving DecidableEq

/-- `_query_gpu_free_ratio` -/
def queryGpuFreeRatio : SmiOutcome → Option ℚ
  | .failed => none
  | .printed freeMib totalMib => if 0 < totalMib then some (freeMib / totalMib) else none

/-- Where `_wait_for_vram_release` is. -/
inductive VramPc
  /-- at the condition of the loop -/
  | check
  | query
  | sleeping (wake : ℚ)
  /-- behind the loop, about to query for the log -/
  | timedOut
  | returned
  deriving DecidableEq

structure VramWait where
  neededRatio : ℚ
  deadline : ℚ
  now : ℚ
  smiEverWorked : Bool := false
  consecutiveFailures : Nat := 0
  pc : VramPc := .check
  queries : List (Option ℚ) := []
  deriving DecidableEq

inductive VramLabel
  | elapse (secs : ℚ)
  | go
  | smi (outcome : SmiOutcome)

namespace VramWait

/-- `asyncio.sleep(0.5)` -/
def sleep (s : VramWait) : VramWait := { s with pc := .sleeping (s.now + 1 / 2) }

/-- A query of the loop has failed. -/
def smiFailed (s : VramWait) : VramWait :=
  let t := { s with
    consecutiveFailures := s.consecutiveFailures + 1
    queries := s.queries ++ [none] }
  if t.smiEverWorked = false ∧ 3 ≤ t.consecutiveFailures then { t with pc := .returned }
  else t.sleep

/-- A query of the loop has worked. -/
def smiWorked (s : VramWait) (freeRatio : ℚ) : VramWait :=
  let t := { s with
    smiEverWorked := true
    consecutiveFailures := 0
    queries := s.queries ++ [some freeRatio] }
  if t.neededRatio ≤ freeRatio then { t with pc := .returned } else t.sleep

def step (s : VramWait) : VramLabel → Option VramWait
  | .elapse secs => if 0 ≤ secs then some { s with now := s.now + secs } else none
  | .go =>
    match s.pc with
    | .check => some { s with pc := if s.now < s.deadline then .query else .timedOut }
    | .sleeping wake => if wake ≤ s.now then some { s with pc := .check } else none
    | _ => none
  | .smi outcome =>
    match s.pc with
    | .query =>
      match queryGpuFreeRatio outcome with
      | none => some s.smiFailed
      | some freeRatio => some (s.smiWorked freeRatio)
    | .timedOut => some { s with pc := .returned }
    | _ => none

/-- A call of `_wait_for_vram_release`, at any time. -/
def system (neededRatio timeout : ℚ) : Transition.System VramWait VramLabel where
  init s := ∃ start, s = { neededRatio, deadline := start + timeout, now := start }
  step := step

/-- The latest query has shown enough. -/
def Released (s : VramWait) : Prop :=
  ∃ freeRatio, s.queries.getLast? = some (some freeRatio) ∧ s.neededRatio ≤ freeRatio

def TimedOut (s : VramWait) : Prop := s.deadline ≤ s.now

/-- Why the wait returns; a query that has worked leaves two reasons. -/
structure Justified (s : VramWait) : Prop where
  returned : s.pc = .returned →
    s.Released ∨ s.queries.take 3 = [none, none, none] ∨ s.TimedOut
  worked : s.pc = .returned → (∃ freeRatio, some freeRatio ∈ s.queries) → s.Released ∨ s.TimedOut

/-- The invariant of the loop: what the two variables say about the queries so far. -/
structure Inv (s : VramWait) : Prop where
  worked : s.smiEverWorked = true ↔ ∃ freeRatio, some freeRatio ∈ s.queries
  failed : s.smiEverWorked = false → s.queries = List.replicate s.consecutiveFailures none
  few : s.smiEverWorked = false → s.pc ≠ .returned → s.consecutiveFailures < 3
  timedOut : s.pc = .timedOut → s.TimedOut
  returned : s.pc = .returned → s.Released ∨ s.queries = [none, none, none] ∨ s.TimedOut

variable {s t : VramWait} {l : VramLabel} {neededRatio timeout : ℚ}

theorem Inv.smiFailed (h : s.Inv) (hpc : s.pc = .query) : s.smiFailed.Inv := by
  have hworked : (s.smiEverWorked = true ↔ ∃ freeRatio, some freeRatio ∈ s.queries ++ [none]) := by
    simp [h.worked]
  have hfailed (hnever : s.smiEverWorked = false) :
      s.queries ++ [none] = List.replicate (s.consecutiveFailures + 1) none := by
    rw [h.failed hnever, List.replicate_succ']
  unfold VramWait.smiFailed
  dsimp only
  split_ifs with hgiveUp
  · refine ⟨hworked, hfailed, fun _ hne => absurd rfl hne, nofun, fun _ => .inr (.inl ?_)⟩
    -- the failures before this one were fewer than three
    have hfew := h.few hgiveUp.1 (by rw [hpc]; nofun)
    have hthree : s.consecutiveFailures + 1 = 3 := by omega
    show s.queries ++ [none] = _
    rw [hfailed hgiveUp.1, hthree]
    rfl
  · refine ⟨hworked, hfailed, fun hnever _ => ?_, nofun, nofun⟩
    exact Nat.lt_of_not_le fun hle => hgiveUp ⟨hnever, hle⟩

theorem Inv.smiWorked (freeRatio : ℚ) : (s.smiWorked freeRatio).Inv := by
  have hworked : (true = true ↔ ∃ ratio, some ratio ∈ s.queries ++ [some freeRatio]) :=
    iff_of_true rfl ⟨freeRatio, List.mem_append_right _ (List.mem_singleton_self _)⟩
  unfold VramWait.smiWorked
  dsimp only
  split_ifs with henough
  · exact ⟨hworked, nofun, nofun, nofun, fun _ => .inl ⟨freeRatio, by simp, henough⟩⟩
  · exact ⟨hworked, nofun, nofun, nofun, nofun⟩

/-- **Step lemma**. -/
theorem Inv.step (h : s.Inv) (hstep : s.step l = some t) : t.Inv := by
  cases l with
  | elapse secs =>
    obtain ⟨hsecs, hstep⟩ := Option.ite_none_right_eq_some.mp hstep
    cases hstep
    have hlater (hout : s.TimedOut) : s.deadline ≤ s.now + secs := by
      have : s.deadline ≤ s.now := hout
      linarith
    exact ⟨h.worked, h.failed, h.few, fun hpc => hlater (h.timedOut hpc),
      fun hpc => (h.returned hpc).imp_right (Or.imp_right hlater)⟩
  | go =>
    simp only [VramWait.step] at hstep
    split at hstep
    · next hpc =>
      cases hstep
      have hfew (hnever : s.smiEverWorked = false) := h.few hnever (by rw [hpc]; nofun)
      by_cases hin : s.now < s.deadline
      · simp only [hin, if_true]
        exact ⟨h.worked, h.failed, fun hnever _ => hfew hnever, nofun, nofun⟩
      · simp only [hin, if_false]
        exact ⟨h.worked, h.failed, fun hnever _ => hfew hnever, fun _ => not_lt.mp hin, nofun⟩
    · next wake hpc =>
      obtain ⟨-, hstep⟩ := Option.ite_none_right_eq_some.mp hstep
      cases hstep
      exact ⟨h.worked, h.failed, fun hnever _ => h.few hnever (by rw [hpc]; nofun), nofun, nofun⟩
    · cases hstep
  | smi outcome =>
    simp only [VramWait.step] at hstep
    split at hstep
    · next hpc =>
      split at hstep
      · cases hstep
        exact h.smiFailed hpc
      · cases hstep
        exact Inv.smiWorked _
    · next hpc =>
      cases hstep
      exact ⟨h.worked, h.failed, fun _ hne => absurd rfl hne, nofun,
        fun _ => .inr (.inr (h.timedOut hpc))⟩
    · cases hstep

theorem inv_of_reach {ok : VramWait → VramLabel → Prop}
    (h : (system neededRatio timeout).Reach ok s) : s.Inv := by
  refine h.invariant (fun s hs => ?_) fun s l t hs _ hstep => hs.step hstep
  obtain ⟨start, rfl⟩ := hs
  exact ⟨by simp, fun _ => rfl, fun _ _ => Nat.zero_lt_succ 2, nofun, nofun⟩

/-- **Waiting for VRAM**: the wait returns when the latest query has shown enough, when the
first three queries have failed, or at the timeout; once a query has worked, failures are no
reason. -/
theorem justified_of_reach (h : (system neededRatio timeout).Reach Transition.System.anyStep s) :
    s.Justified := by
  have hinv := inv_of_reach h
  refine ⟨fun hpc => ?_, fun hpc hworked => ?_⟩
  · obtain hreleased | hthree | hout := hinv.returned hpc
    · exact .inl hreleased
    · exact .inr (.inl (by rw [hthree]; rfl))
    · exact .inr (.inr hout)
  · obtain hreleased | hthree | hout := hinv.returned hpc
    · exact .inl hreleased
    · obtain ⟨freeRatio, hmem⟩ := hworked
      rw [hthree] at hmem
      simp at hmem
    · exact .inr hout

/-- A query that fails, then one that shows nine tenths. -/
theorem justified_transientFailure : ∃ s,
    (system (17 / 20) 5).Reach Transition.System.anyStep s ∧ s.pc = .returned ∧
      s.queries = [none, some (9 / 10)] ∧ s.now < s.deadline ∧ s.Justified := by
  have hrun : ((system (17 / 20) 5).exec { neededRatio := 17 / 20, deadline := 5, now := 0 }
      [.go, .smi .failed, .elapse (1 / 2), .go, .go, .smi (.printed 9 10)]).any
      (fun s => decide (s.pc = .returned ∧ s.queries = [none, some (9 / 10)] ∧
        s.now < s.deadline)) = true := by
    decide +kernel
  obtain ⟨s, hexec, hs⟩ := (Option.any_eq_true _ _).mp hrun
  have hreach := Transition.System.reach_of_exec (M := system (17 / 20) 5)
    ⟨0, by norm_num⟩ hexec
  obtain ⟨hpc, hqueries, hnow⟩ := of_decide_eq_true hs
  exact ⟨s, hreach, hpc, hqueries, hnow, justified_of_reach hreach⟩

end VramWait

end OpenModel.Inference
