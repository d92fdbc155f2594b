import Mathlib.Data.Finset.Card
import OpenModel.Scheduler.SectorCache

/-!
# Shared cells of the scheduler

The fields of `Scheduler` that several goroutines read and write, each behind its
own mutex or atomic, with the operations on them: the state machine
(`Transition`, `TransitionUnless`), the completed-proof set, event subscribers,
and the two ways to apply a decision.

`applyDecision` and `applyDecisionUnlessWinning` are given here as they run
without interference; `ApplyPc.step` cuts them into their atomic steps, and
`ApplyPc.run_transition` shows that the uninterrupted steps compute the same cells.
-/

namespace OpenModel.Scheduler

/-- `proofKey`: a completed WindowPoSt proof. -/
structure ProofKey where
  period : Int
  deadline : Nat
  deriving DecidableEq, Repr

/-- The key under which the proof of a deadline is awaited and recorded. -/
def DeadlineInfo.proofKey (info : DeadlineInfo) : ProofKey := ⟨info.periodStart, info.index⟩

/-- `markProofCompleted`: the set is emptied first when it holds more than 128 keys. -/
def markProofCompleted (completed : Finset ProofKey) (key : ProofKey) : Finset ProofKey :=
  if 128 < completed.card then {key} else insert key completed

/-- `pb.ScheduleEvent`, without the fields that `broadcastEvent` leaves unset. -/
structure ScheduleEvent where
  state : GpuState
  urgency : YieldUrgency
  secondsUntilDeadline : Int
  reason : YieldReason
  message : String
  deriving DecidableEq, Repr

/-- One entry of `subscribers`: its identifier and the events buffered in its channel. -/
structure Subscriber where
  id : Nat
  buffer : List ScheduleEvent
  deriving DecidableEq, Repr

/-- The cells shared by the goroutines of a `Scheduler`. -/
structure Cells where
  current : GpuState := .unknown
  latestDecision : Option YieldDecision := none
  winningGen : Int := 0
  proofMonitorActive : Bool := false
  completedProofs : Finset ProofKey := ∅
  sectorCache : SectorCache := {}
  subscribers : List Subscriber := []
  nextSubID : Nat := 0

namespace Cells

/-- `StateMachine.Transition`. -/
def transition (c : Cells) (newState : GpuState) : Bool × Cells :=
  if c.current = newState then (false, c) else (true, { c with current := newState })

/-- `StateMachine.TransitionUnless`. -/
def transitionUnless (c : Cells) (newState : GpuState) (blocked : List GpuState) : Bool × Cells :=
  if c.current ∈ blocked then (false, c)
  else if c.current = newState then (false, c)
  else (true, { c with current := newState })

/-- `broadcastEvent`: every subscriber with room in its 32-slot channel gets the event. -/
def broadcastEvent (c : Cells) (d : YieldDecision) : Cells :=
  let event : ScheduleEvent := ⟨d.state, d.urgency, d.secondsUntilNextChange, d.reason, d.message⟩
  { c with subscribers := c.subscribers.map fun sub =>
      if sub.buffer.length < 32 then { sub with buffer := sub.buffer ++ [event] } else sub }

/-- `Subscribe`. -/
def subscribe (c : Cells) : Cells :=
  { c with
    subscribers := c.subscribers ++ [⟨c.nextSubID, []⟩]
    nextSubID := c.nextSubID + 1 }

/-- `Unsubscribe`. -/
def unsubscribe (c : Cells) (id : Nat) : Cells :=
  { c with subscribers := c.subscribers.filter fun sub => sub.id != id }

/-- A subscriber takes the oldest event out of its channel. -/
def receive (c : Cells) (id : Nat) : Cells :=
  { c with subscribers := c.subscribers.map fun sub =>
      if sub.id = id then { sub with buffer := sub.buffer.tail } else sub }

/-- `applyDecision`, uninterrupted. -/
def applyDecision (c : Cells) (d : YieldDecision) : Cells :=
  let (changed, c₁) := c.transition d.state
  let c₂ := { c₁ with latestDecision := some d }
  if changed then c₂.broadcastEvent d else c₂

/-- `applyDecisionUnlessWinning`, uninterrupted. -/
def applyDecisionUnlessWinning (c : Cells) (d : YieldDecision) : Cells :=
  let (changed, c₁) := c.transitionUnless d.state [.winningPost]
  if changed then ({ c₁ with latestDecision := some d }).broadcastEvent d
  else if c₁.current = .winningPost then c₁
  else { c₁ with latestDecision := some d }

@[simp] theorem broadcastEvent_current (c : Cells) (d : YieldDecision) :
    (c.broadcastEvent d).current = c.current := rfl

@[simp] theorem broadcastEvent_winningGen (c : Cells) (d : YieldDecision) :
    (c.broadcastEvent d).winningGen = c.winningGen := rfl

@[simp] theorem broadcastEvent_proofMonitorActive (c : Cells) (d : YieldDecision) :
    (c.broadcastEvent d).proofMonitorActive = c.proofMonitorActive := rfl

/-- The state machine always ends in the requested state. -/
@[simp] theorem transition_current (c : Cells) (g : GpuState) :
    (c.transition g).2.current = g := by
  unfold transition
  split
  · assumption
  · rfl

/-- A guarded transition leaves a blocked state alone and reaches every other one. -/
theorem transitionUnless_current (c : Cells) (g : GpuState) (blocked : List GpuState) :
    (c.transitionUnless g blocked).2.current = if c.current ∈ blocked then c.current else g := by
  unfold transitionUnless
  split
  · rfl
  · split
    · assumption
    · rfl

@[simp] theorem transition_winningGen (c : Cells) (g : GpuState) :
    (c.transition g).2.winningGen = c.winningGen := by
  unfold transition; split <;> rfl

@[simp] theorem transition_proofMonitorActive (c : Cells) (g : GpuState) :
    (c.transition g).2.proofMonitorActive = c.proofMonitorActive := by
  unfold transition; split <;> rfl

@[simp] theorem transitionUnless_winningGen (c : Cells) (g : GpuState) (bs : List GpuState) :
    (c.transitionUnless g bs).2.winningGen = c.winningGen := by
  unfold transitionUnless; split <;> [rfl; (split <;> rfl)]

@[simp] theorem transitionUnless_proofMonitorActive (c : Cells) (g : GpuState)
    (bs : List GpuState) :
    (c.transitionUnless g bs).2.proofMonitorActive = c.proofMonitorActive := by
  unfold transitionUnless; split <;> [rfl; (split <;> rfl)]

@[simp] theorem transition_completedProofs (c : Cells) (g : GpuState) :
    (c.transition g).2.completedProofs = c.completedProofs := by
  unfold transition; split <;> rfl

@[simp] theorem transitionUnless_completedProofs (c : Cells) (g : GpuState) (bs : List GpuState) :
    (c.transitionUnless g bs).2.completedProofs = c.completedProofs := by
  unfold transitionUnless; split <;> [rfl; (split <;> rfl)]

@[simp] theorem transition_sectorCache (c : Cells) (g : GpuState) :
    (c.transition g).2.sectorCache = c.sectorCache := by
  unfold transition; split <;> rfl

@[simp] theorem transitionUnless_sectorCache (c : Cells) (g : GpuState) (bs : List GpuState) :
    (c.transitionUnless g bs).2.sectorCache = c.sectorCache := by
  unfold transitionUnless; split <;> [rfl; (split <;> rfl)]

/-- Outside WINNING_POST a guarded decision always takes effect. -/
theorem applyDecisionUnlessWinning_current (c : Cells) (d : YieldDecision) :
    (c.applyDecisionUnlessWinning d).current =
      if c.current = .winningPost then .winningPost else d.state := by
  unfold applyDecisionUnlessWinning
  by_cases hw : c.current = .winningPost
  · simp [transitionUnless, hw]
  · by_cases hs : c.current = d.state
    · have hd : d.state ≠ .winningPost := hs ▸ hw
      simp [transitionUnless, hs, hd]
    · simp [transitionUnless, hw, hs]

/-- Outside WINNING_POST a guarded decision sets the state and the latest decision; apart from
them only the subscribers' channels change. -/
theorem applyDecisionUnlessWinning_eq {c : Cells} (h : c.current ≠ .winningPost)
    (d : YieldDecision) :
    ∃ subscribers, c.applyDecisionUnlessWinning d =
      { c with current := d.state, latestDecision := some d, subscribers := subscribers } := by
  by_cases hs : c.current = d.state
  · refine ⟨c.subscribers, ?_⟩
    have hd : d.state ≠ .winningPost := hs ▸ h
    simp [applyDecisionUnlessWinning, transitionUnless, hs, hd]
  · refine ⟨(c.broadcastEvent d).subscribers, ?_⟩
    simp only [applyDecisionUnlessWinning, transitionUnless, List.mem_singleton, h, hs, if_false,
      if_true]
    rfl

/-- No decision touches the sector cache. -/
@[simp] theorem applyDecisionUnlessWinning_sectorCache (c : Cells) (d : YieldDecision) :
    (c.applyDecisionUnlessWinning d).sectorCache = c.sectorCache := by
  by_cases hw : c.current = .winningPost
  · simp [applyDecisionUnlessWinning, transitionUnless, hw]
  · obtain ⟨subscribers, heq⟩ := applyDecisionUnlessWinning_eq hw d
    rw [heq]

theorem applyDecision_current (c : Cells) (d : YieldDecision) :
    (c.applyDecision d).current = d.state := by
  by_cases hs : c.current = d.state <;> simp [applyDecision, transition, hs]

end Cells

/-- The next atomic step of a call that applies a decision. -/
inductive ApplyPc
  | transition
  | recheck
  | storeLatest (changed : Bool)
  | broadcast
  deriving DecidableEq, Repr

namespace ApplyPc

/-- One atomic step of a call of `applyDecision` or, when `guarded`, of
`applyDecisionUnlessWinning`, and what remains of the call. -/
def step (guarded : Bool) (decision : YieldDecision) (c : Cells) : ApplyPc → Cells × Option ApplyPc
  | .transition =>
    if guarded then
      let (changed, c') := c.transitionUnless decision.state [.winningPost]
      (c', some (if changed then .storeLatest true else .recheck))
    else
      let (changed, c') := c.transition decision.state
      (c', some (.storeLatest changed))
  | .recheck =>
    -- the second `sm.Current()` of applyDecisionUnlessWinning
    if c.current = .winningPost then (c, none) else (c, some (.storeLatest false))
  | .storeLatest changed =>
    ({ c with latestDecision := some decision }, if changed then some .broadcast else none)
  | .broadcast => (c.broadcastEvent decision, none)

/-- Run the rest of the call without interference. A call has at most three steps. -/
def run (guarded : Bool) (decision : YieldDecision) : Nat → Cells → ApplyPc → Cells
  | 0, c, _ => c
  | fuel + 1, c, pc =>
    match pc.step guarded decision c with
    | (c', none) => c'
    | (c', some pc') => run guarded decision fuel c' pc'

variable {guarded : Bool} {d : YieldDecision} {c : Cells} {pc : ApplyPc}

/-- The first step of a call writes the GPU state, the others leave it alone. -/
theorem step_current :
    (pc.step guarded d c).1.current =
      if pc = .transition ∧ ¬ (guarded = true ∧ c.current = .winningPost) then d.state
      else c.current := by
  cases pc with
  | transition =>
    cases guarded with
    | false => simp [step]
    | true =>
      have h := c.transitionUnless_current d.state [.winningPost]
      by_cases hw : c.current = .winningPost <;> simp_all [step]
  | recheck => by_cases hw : c.current = .winningPost <;> simp [step, hw]
  | storeLatest b => simp [step]
  | broadcast => simp [step]

theorem step_current_of_ne (h : pc ≠ .transition) :
    (pc.step guarded d c).1.current = c.current := by
  simp [step_current, h]

/-- A guarded call never touches WINNING_POST. -/
theorem step_current_of_guarded (h : c.current = .winningPost) :
    (pc.step true d c).1.current = .winningPost := by
  simp [step_current, h]

@[simp] theorem step_winningGen : (pc.step guarded d c).1.winningGen = c.winningGen := by
  cases pc with
  | transition => unfold step; dsimp only; split <;> simp
  | recheck => unfold step; dsimp only; split <;> rfl
  | storeLatest b => rfl
  | broadcast => rfl

@[simp] theorem step_proofMonitorActive :
    (pc.step guarded d c).1.proofMonitorActive = c.proofMonitorActive := by
  cases pc with
  | transition => unfold step; dsimp only; split <;> simp
  | recheck => unfold step; dsimp only; split <;> rfl
  | storeLatest b => rfl
  | broadcast => rfl

@[simp] theorem step_completedProofs :
    (pc.step guarded d c).1.completedProofs = c.completedProofs := by
  cases pc with
  | transition => unfold step; dsimp only; split <;> simp
  | recheck => unfold step; dsimp only; split <;> rfl
  | storeLatest b => rfl
  | broadcast => rfl

@[simp] theorem step_sectorCache : (pc.step guarded d c).1.sectorCache = c.sectorCache := by
  cases pc with
  | transition => unfold step; dsimp only; split <;> simp
  | recheck => unfold step; dsimp only; split <;> rfl
  | storeLatest b => rfl
  | broadcast => rfl

/-- The first step of a call is never its last. -/
theorem step_transition_ne_none : (step guarded d c .transition).2 ≠ none := by
  simp only [step]
  split <;> simp

/-- What remains of a call is never its first step again. -/
theorem step_ne_transition {pc' : ApplyPc} (h : (pc.step guarded d c).2 = some pc') :
    pc' ≠ .transition := by
  cases pc with
  | transition =>
    unfold step at h
    dsimp only at h
    split at h
    · cases h
      split <;> simp
    · cases h
      simp
  | recheck =>
    unfold step at h
    dsimp only at h
    split at h <;> cases h
    simp
  | storeLatest b =>
    unfold step at h
    dsimp only at h
    split at h <;> cases h
    simp
  | broadcast => cases h

/-- An upper bound on the steps that a call still takes. -/
def left : ApplyPc → Nat
  | .transition => 3
  | .recheck | .storeLatest true => 2
  | .storeLatest false | .broadcast => 1

theorem left_pos (pc : ApplyPc) : 0 < pc.left := by
  cases pc with
  | storeLatest b => cases b <;> decide
  | _ => decide

theorem left_step {pc' : ApplyPc} (h : (pc.step guarded d c).2 = some pc') :
    pc'.left < pc.left := by
  cases pc with
  | transition =>
    have hne := step_ne_transition h
    cases pc' with
    | transition => exact absurd rfl hne
    | storeLatest b => cases b <;> decide
    | _ => decide
  | recheck =>
    by_cases hw : c.current = .winningPost
    · simp [step, hw] at h
    · simp only [step, hw, if_false, Option.some.injEq] at h
      subst h
      decide
  | storeLatest b =>
    cases b with
    | false => simp [step] at h
    | true =>
      simp only [step, if_true, Option.some.injEq] at h
      subst h
      decide
  | broadcast => simp [step] at h

/-- The atomic steps of a call, run without interference, are the call. -/
theorem run_transition (guarded : Bool) (d : YieldDecision) (c : Cells) :
    run guarded d 3 c .transition =
      if guarded then c.applyDecisionUnlessWinning d else c.applyDecision d := by
  cases guarded with
  | false =>
    by_cases h : c.current = d.state
    · simp [run, step, Cells.transition, Cells.applyDecision, h]
    · simp [run, step, Cells.transition, Cells.applyDecision, h]
  | true =>
    by_cases hw : c.current = .winningPost
    · simp [run, step, Cells.transitionUnless, Cells.applyDecisionUnlessWinning, hw]
    · by_cases h : c.current = d.state
      · simp_all [run, step, Cells.transitionUnless, Cells.applyDecisionUnlessWinning]
      · simp [run, step, Cells.transitionUnless, Cells.applyDecisionUnlessWinning, hw, h]

end ApplyPc

end OpenModel.Scheduler
