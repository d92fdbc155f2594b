import Mathlib.Algebra.GroupWithZero.Nat
import OpenModel.Inference.SwitchLock

/-!
# What the pool reports

`EnginePool.status` condenses the engines' states into one, `EnginePool.is_available` asks
whether an engine takes a new request. The health endpoint shows both, the heartbeat to the
scheduler the first.

They look at different things. An engine that drains is RUNNING behind a closed gate, and a
switch of the whole pool is LOADING as long as it lasts, whichever engines serve meanwhile.
Apart from these two the reports agree.

## Main results

- `Pool.switching_iff_of_reach`: `_switching` is set while a request is in `switch_model`
- `Pool.reportsConsistent_of_reach`: how the reports hang together in every run
-/

namespace OpenModel.Inference

structure EngineStatus where
  state : EngineState
  activeRequests : Nat
  loadedModel : ModelPath
  deriving DecidableEq, Repr

/-- The `status` field of the health endpoint. -/
inductive Health
  | ok
  | unavailable
  deriving DecidableEq, Repr

structure HealthReport where
  status : Health
  engineState : EngineState
  activeRequests : Nat
  loadedModel : ModelPath
  deriving DecidableEq, Repr

/-- What the heartbeat tells the scheduler. -/
structure InferenceStatusReport where
  isRunning : Bool
  activeRequests : Nat
  loadedModel : ModelPath
  deriving DecidableEq, Repr

def VLLMEngine.status (e : VLLMEngine) : EngineStatus := ⟨e.state, e.activeRequests, e.model⟩

/-- In `EnginePool.switch_model`. -/
def TaskPc.inSwitch : TaskPc → Bool
  | switching _ _ => true
  | _ => false

theorem TaskPc.holds_of_inSwitch {pc : TaskPc} (h : pc.inSwitch) : pc.holds := by
  cases pc <;> first | rfl | cases h

namespace Pool

/-- The state of a pool of engines in these states. -/
def aggState (states : List EngineState) : EngineState :=
  if states.any (· == .running) then .running
  else if states.all (· == .dead) then .dead
  else if states.all (· == .paused) then .paused
  else if states.all (· == .stopped) then .stopped
  else .paused

/-- `status`; in `tensor_parallel` mode it raises when there is no engine. -/
def status (s : Pool) : Option EngineStatus :=
  match s.mode with
  | .tensorParallel =>
    s.engines.head?.map fun e =>
      if s.switching && e.engine.status.state == .running then
        { e.engine.status with state := .loading }
      else e.engine.status
  | .multiInstance =>
    let statuses := s.engines.map (·.engine.status)
    some
      { state := if s.switching then .loading else aggState (statuses.map EngineStatus.state)
        activeRequests := (statuses.map EngineStatus.activeRequests).sum
        loadedModel := (statuses.head?.map EngineStatus.loadedModel).getD "" }

/-- The health endpoint. -/
def health (s : Pool) : Option HealthReport :=
  s.status.map fun status =>
    ⟨if s.isAvailable then .ok else .unavailable, status.state, status.activeRequests,
      status.loadedModel⟩

/-- `_report_status` of the scheduler listener; nothing is sent when `status` raises. -/
def reportStatus (s : Pool) : Option InferenceStatusReport :=
  s.status.map fun status =>
    ⟨status.state == .running, status.activeRequests, status.loadedModel⟩

/-- The engines that requests go to. -/
def serving (s : Pool) : List EngineSys :=
  match s.mode with
  | .tensorParallel => s.engines.head?.toList
  | .multiInstance => s.engines

variable {s t : Pool} {l : PoolLabel} {status : EngineStatus}

theorem isAvailable_iff_serving :
    s.isAvailable ↔ ∃ e ∈ s.serving, e.engine.state = .running ∧ e.engine.accepting := by
  cases hmode : s.mode with
  | tensorParallel =>
    cases hhead : s.engines.head? <;>
      simp [isAvailable, serving, VLLMEngine.isAvailable, hmode, hhead]
  | multiInstance => simp [isAvailable, serving, VLLMEngine.isAvailable, hmode]

theorem aggState_eq_running {states : List EngineState} :
    aggState states = .running ↔ .running ∈ states := by
  unfold aggState
  split_ifs with hrunning <;> simp_all

/-- The pool is reported RUNNING when an engine is and no switch of the pool is on. -/
theorem state_eq_running (h : s.status = some status) :
    status.state = .running ↔
      s.switching = false ∧ ∃ e ∈ s.serving, e.engine.state = .running := by
  cases hmode : s.mode with
  | tensorParallel =>
    simp only [Pool.status, hmode, Option.map_eq_some_iff] at h
    obtain ⟨e, he, rfl⟩ := h
    simp only [serving, hmode, he, Option.toList_some, List.mem_singleton, exists_eq_left]
    cases s.switching <;> by_cases hrun : e.engine.state = .running <;>
      simp [VLLMEngine.status, hrun]
  | multiInstance =>
    simp only [Pool.status, hmode, Option.some.injEq] at h
    subst h
    cases s.switching with
    | true => simp
    | false => simp [serving, hmode, aggState_eq_running, VLLMEngine.status]

/-- During a switch of the pool a RUNNING engine is reported LOADING. -/
theorem state_of_switching (h : s.status = some status) (hswitching : s.switching)
    (hserving : ∃ e ∈ s.serving, e.engine.state = .running) : status.state = .loading := by
  cases hmode : s.mode with
  | tensorParallel =>
    simp only [Pool.status, hmode, Option.map_eq_some_iff] at h
    obtain ⟨e, he, rfl⟩ := h
    obtain ⟨e', he', hrun⟩ := hserving
    obtain rfl : e' = e := by simpa [serving, hmode, he] using he'
    simp [VLLMEngine.status, hrun, hswitching]
  | multiInstance =>
    simp only [Pool.status, hmode, Option.some.injEq] at h
    subst h
    simp [hswitching]

/-- `_switching` after a stretch of a task that found it set in its own switch. -/
theorem switching_of_taskStep {j : Nat} {o : TaskOutcome} {task : Task} {slice : TaskSlice}
    (hslice : s.taskStep j task o = some slice) (hin : task.pc.inSwitch → s.switching) :
    slice.switching = (slice.pc.inSwitch || s.switching && !task.pc.inSwitch) := by
  have hadmitted {model : String} {stream : Bool} {pick : Nat} {slice₀ : TaskSlice}
      (h₀ : s.admitRequest model stream pick slice₀ = some slice) :
      slice.switching = slice₀.switching ∧ slice.pc.inSwitch = false := by
    obtain rfl | rfl | ⟨-, calls, -, rfl⟩ := admitRequest_cases h₀ <;> exact ⟨rfl, rfl⟩
  obtain ⟨op, pc⟩ := task
  cases op with
  | resume =>
    obtain ⟨i, rfl, -, rfl⟩ | ⟨i, e, rfl, -, -, rfl⟩ | ⟨i, k, rfl, -, rfl⟩ |
      ⟨i, k, rfl, -, rfl⟩ := resumeStep_cases hslice
    all_goals simp [stay, TaskPc.inSwitch]
  | request model stream =>
    cases requestSlice_of_step hslice with
    | check _ hadmit | lock _ _ hadmit =>
      obtain ⟨hswitching, hpc⟩ := hadmitted hadmit
      rw [hswitching, hpc]
      simp [stay, TaskPc.inSwitch]
    | loopEnd _ hadmit | gatherReturned _ hadmit =>
      obtain ⟨hswitching, hpc⟩ := hadmitted hadmit
      rw [hswitching, hpc]
      simp [endSwitch, TaskPc.inSwitch]
    | ensured => unfold beginSwitch; split <;> rfl
    | loopCall _ _ | awaitReturned _ => simp [stay, TaskPc.inSwitch, hin rfl]
    | awaitRaised | gatherRaised => simp [endSwitch, TaskPc.inSwitch]
    | checkLock | lockEnsure _ | ensureFailed | streamStart _ => simp [stay, TaskPc.inSwitch]

/-- Only tasks write `_switching`. -/
theorem switching_of_taskless (h : s.step l = some t) (hl : ∀ j o, l ≠ .task j o) :
    t.switching = s.switching := by
  cases stepped_of_step h with
  | task _ _ _ => exact absurd rfl (hl _ _)
  | _ => rfl

/-- A switch of the pool is on. -/
def InSwitch (s : Pool) : Prop := ∃ j, s.TaskAt TaskPc.inSwitch j

/-- **Step lemma**: the flag follows the one task that switches. -/
theorem switching_iff_of_step (hlock : s.SwitchLockAgrees) (hs : s.switching ↔ s.InSwitch)
    (h : s.step l = some t) : t.switching ↔ t.InSwitch := by
  by_cases hl : ∃ j o, l = .task j o
  · obtain ⟨j, o, rfl⟩ := hl
    obtain ⟨-, hrun⟩ := Option.ite_none_right_eq_some.mp h
    obtain ⟨task, slice, engines, hj, hslice, -, ht⟩ := runTask_eq_some.mp hrun
    have htasks : t.tasks = s.tasks.set j ⟨task.op, slice.pc⟩ := by rw [← ht]
    have hswitching : t.switching = slice.switching := by rw [← ht]
    have hat : s.TaskAt TaskPc.inSwitch j ↔ task.pc.inSwitch := taskAt_of_tasks hj
    have hflag := switching_of_taskStep hslice fun hin => hs.mpr ⟨j, hat.mpr hin⟩
    rw [hswitching, hflag]
    simp only [InSwitch, taskAt_set hj htasks]
    constructor
    · intro hset
      obtain hin | ⟨hold, hout⟩ : slice.pc.inSwitch ∨ s.switching ∧ task.pc.inSwitch = false := by
        simpa using hset
      · exact ⟨j, .inl ⟨rfl, hin⟩⟩
      · obtain ⟨i, hi⟩ := hs.mp hold
        refine ⟨i, .inr ⟨?_, hi⟩⟩
        rintro rfl
        simp [hat, hout] at hi
    · rintro ⟨i, ⟨rfl, hin⟩ | ⟨hij, hi⟩⟩
      · simp [hin]
      · have hout : task.pc.inSwitch = false := by
          by_contra hin
          -- two tasks would hold the switch lock
          obtain ⟨other, hother, hswitch⟩ := hi
          exact hij (hlock.unique i j ⟨other, hother, TaskPc.holds_of_inSwitch hswitch⟩
            ⟨task, hj, TaskPc.holds_of_inSwitch (Bool.eq_true_of_not_eq_false hin)⟩)
        simp [hs.mpr ⟨i, hi⟩, hout]
  · have hl : ∀ j o, l ≠ .task j o := fun j o hjo => hl ⟨j, o, hjo⟩
    obtain ⟨-, -, tasks, htasks, hnew⟩ := switchLock_of_step h hl
    have hout : ∀ task ∈ tasks, task.pc.inSwitch = false := by
      intro task htask
      by_contra hin
      have hholds := TaskPc.holds_of_inSwitch (Bool.eq_true_of_not_eq_false hin)
      rw [(hnew task htask).2] at hholds
      cases hholds
    rw [switching_of_taskless h hl, hs]
    exact exists_congr fun j => (taskAt_append htasks hout).symm

/-- **The flag**: in every run `_switching` is set while a request is in `switch_model`. -/
theorem switching_iff_of_reach {ok : Pool → PoolLabel → Prop} (h : system.Reach ok s) :
    s.switching ↔ s.InSwitch := by
  refine h.invariant_of (I := fun s => s.switching ↔ s.InSwitch)
    (fun _ => switchLockAgrees_of_reach) (fun s hs => ?_)
    fun s l t hlock hs _ hstep => switching_iff_of_step hlock hs hstep
  obtain ⟨up, -, hs⟩ := hs
  rw [hs]
  simp [InSwitch, TaskAt]

/-- The reported state and the admission say the same, and so does everyone who shows them. -/
structure ReportsAgree (s : Pool) : Prop where
  available_iff : ∀ status, s.status = some status → (s.isAvailable ↔ status.state = .running)
  health : ∀ report, s.health = some report →
    (report.status = .ok ↔ report.engineState = .running)
  loading : s.switching → ∀ status, s.status = some status → status.state = .loading →
    s.isAvailable = false
  heartbeat : ∀ report, s.reportStatus = some report → (report.isRunning ↔ s.isAvailable)

/-- The reports agree but for a switch of the pool and for engines that are RUNNING behind a
closed gate. -/
structure Consistent (s : Pool) (status : EngineStatus) : Prop where
  /-- whoever takes requests outside a switch of the pool is reported RUNNING -/
  running : ¬ s.InSwitch → s.isAvailable → status.state = .running
  /-- what is reported RUNNING takes requests, unless every RUNNING engine's gate is closed -/
  available : status.state = .running →
    s.isAvailable ∨ (∃ e ∈ s.serving, e.engine.state = .running) ∧
      ∀ e ∈ s.serving, e.engine.state = .running → e.engine.accepting = false
  /-- a switch of the pool is not reported RUNNING, and LOADING as long as an engine is -/
  loading : s.InSwitch → status.state ≠ .running ∧
    ((∃ e ∈ s.serving, e.engine.state = .running) → status.state = .loading)
  health : ∀ report, s.health = some report →
    (report.status = .ok ↔ s.isAvailable) ∧ report.engineState = status.state
  heartbeat : ∀ report, s.reportStatus = some report →
    (report.isRunning ↔ status.state = .running)

/-- **What the pool reports**, in every run. -/
theorem reportsConsistent_of_reach {ok : Pool → PoolLabel → Prop} (h : system.Reach ok s)
    (hstatus : s.status = some status) : s.Consistent status where
  running hout havailable := by
    obtain ⟨e, he, hrun, -⟩ := isAvailable_iff_serving.mp havailable
    have hflag := mt (switching_iff_of_reach h).mp hout
    exact (state_eq_running hstatus).mpr ⟨Bool.eq_false_iff.mpr hflag, e, he, hrun⟩
  available hstate := by
    by_cases havailable : s.isAvailable
    · exact .inl havailable
    · refine .inr ⟨((state_eq_running hstatus).mp hstate).2, fun e he hrun => ?_⟩
      by_contra haccepting
      exact havailable (isAvailable_iff_serving.mpr
        ⟨e, he, hrun, Bool.eq_true_of_not_eq_false haccepting⟩)
  loading hin := by
    have hflag := (switching_iff_of_reach h).mpr hin
    refine ⟨fun hstate => ?_, state_of_switching hstatus hflag⟩
    rw [((state_eq_running hstatus).mp hstate).1] at hflag
    cases hflag
  health report hreport := by
    rw [Pool.health, hstatus] at hreport
    cases hreport
    refine ⟨?_, rfl⟩
    cases s.isAvailable <;> simp
  heartbeat report hreport := by
    rw [reportStatus, hstatus] at hreport
    cases hreport
    simp

/-- Two RUNNING engines. -/
def servingPool : Pool where
  mode := .multiInstance
  engines := List.replicate 2
    { engine :=
        { state := .running, core := some ⟨"a"⟩, model := "a", childPids := [1], live := [1],
          loads := 1 } }
  ensured := [("a", "a")]

theorem init_servingPool : servingPool.init := by
  refine ⟨.started "a" "a", fun i e he => ?_, rfl⟩
  obtain ⟨-, rfl⟩ := List.mem_replicate.mp (List.mem_of_getElem? he)
  exact ⟨[1], rfl⟩

/-- Each engine serves a request when the pool is told to yield softly. -/
def softYieldUnderLoad : List PoolLabel :=
  [.request "default" false, .task 0 (.go 0), .request "default" false, .task 1 (.go 1),
    .pause .normal, .engine 0 1 .go, .engine 0 1 .go, .engine 1 1 .go, .engine 1 1 .go]

/-- The first engine drains for a switch of the pool, the second serves. -/
def switchUnderLoad : List PoolLabel :=
  [.request "default" false, .task 0 (.go 0), .request "b" false, .task 1 (.go 0),
    .task 1 (.go 0), .task 1 (.ensured "b"), .task 1 (.go 0)]

/-- A worker that switches shows `ok` and LOADING. -/
theorem reportsConsistent_switchUnderLoad : ∃ (s : Pool) (status : EngineStatus),
    system.exec servingPool switchUnderLoad = some s ∧ s.status = some status ∧
      s.health = some ⟨.ok, .loading, 1, "a"⟩ ∧ s.Consistent status := by
  obtain ⟨s, hs⟩ : ∃ s, system.exec servingPool switchUnderLoad = some s := ⟨_, rfl⟩
  obtain ⟨status, hstatus, hhealth⟩ : ∃ status, s.status = some status ∧
      s.health = some ⟨.ok, .loading, 1, "a"⟩ := by
    cases hs
    exact ⟨_, rfl, by decide +kernel⟩
  exact ⟨s, status, hs, hstatus, hhealth,
    reportsConsistent_of_reach (Transition.System.reach_of_exec init_servingPool hs) hstatus⟩

/-- The pool yields softly: `unavailable` and RUNNING. It switches: `ok` and LOADING. -/
theorem underLoad_not_reportsAgree :
    (∃ s, system.Reach Transition.System.anyStep s ∧ s.idle ∧ ¬ s.ReportsAgree ∧
      s.health = some ⟨.unavailable, .running, 2, "a"⟩) ∧
    ∃ s, system.Reach Transition.System.anyStep s ∧ s.idle ∧ ¬ s.ReportsAgree ∧
      s.health = some ⟨.ok, .loading, 1, "a"⟩ := by
  obtain ⟨s, hs⟩ : ∃ s, system.exec servingPool softYieldUnderLoad = some s := ⟨_, rfl⟩
  obtain ⟨t, ht⟩ : ∃ t, system.exec servingPool switchUnderLoad = some t := ⟨_, rfl⟩
  have hyields : s.idle ∧ s.health = some ⟨.unavailable, .running, 2, "a"⟩ := by
    cases hs
    decide +kernel
  have hswitches : t.idle ∧ t.health = some ⟨.ok, .loading, 1, "a"⟩ := by
    cases ht
    decide +kernel
  refine ⟨⟨s, Transition.System.reach_of_exec init_servingPool hs, hyields.1, fun hagree => ?_,
    hyields.2⟩, t, Transition.System.reach_of_exec init_servingPool ht, hswitches.1,
    fun hagree => ?_, hswitches.2⟩
  · cases (hagree.health _ hyields.2).mpr rfl
  · cases (hagree.health _ hswitches.2).mp rfl

end Pool

end OpenModel.Inference
