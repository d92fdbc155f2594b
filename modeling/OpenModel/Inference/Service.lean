import OpenModel.Inference.SwitchWhileYielded
import OpenModel.Scheduler.Policy

/-!
# Start-up of the inference service

`main` asks the scheduler once whether the GPU is available, then lets the model manager
find or download the weights, which may take any time, and then starts the engines or
leaves them PAUSED, as the answer said. Only after that it starts the scheduler listener
and the API. The scheduler's state changes at any time.

## Main results

- `Service.respectsMining_of_reach`: the runs in which the start-up respects mining
- `Service.yieldDuringDownload_not_respectsMining`: a run in which it does not
-/

namespace OpenModel.Inference

open Scheduler (GpuState)
open Transition (System)

/-- Where `main` is. -/
inductive MainPc
  | connect
  | getSchedule
  /-- in `ensure_model` -/
  | ensureModel
  /-- in `engine.start` -/
  | start
  | startListener
  | serve
  /-- an exception ended `main` -/
  | failed
  deriving DecidableEq, Repr

/-- The scheduler's state, `main` with its variables, and the pool. `startedIn`, which the
program does not keep, has the scheduler's state at each beginning of `engine.start`, and
`resumed` says whether the listener has called `resume`. -/
structure Service where
  scheduler : GpuState := .unknown
  main : MainPc := .connect
  /-- `connect` has set `_stub` -/
  stub : Bool := false
  gpuAvailable : Bool := false
  listening : Bool := false
  pool : Pool
  startedIn : List GpuState := []
  resumed : Bool := false
  deriving DecidableEq, Repr

inductive ServiceAction
  | scheduler (newState : GpuState)
  | connect (ok : Bool)
  /-- the RPC is answered or fails -/
  | getSchedule (answered : Bool)
  /-- `ensure_model` returns or raises -/
  | ensureModel (path : Option ModelPath)
  /-- `engine.start` has ended -/
  | start
  | startListener (ok : Bool)
  /-- the listener's thread calls the pool -/
  | listener (l : PoolLabel)
  | request (model : String) (stream : Bool)
  /-- a task or a thread of an engine runs -/
  | loop (l : PoolLabel)
  deriving DecidableEq, Repr

/-- What the listener calls. -/
def PoolLabel.fromListener : PoolLabel → Bool
  | requestPause | pause _ | resume => true
  | _ => false

/-- What runs on the event loop by itself. -/
def PoolLabel.onLoop : PoolLabel → Bool
  | task _ _ | engine _ _ _ => true
  | _ => false

namespace Service

/-- How the engines' `start` coroutines stand; in `tensor_parallel` mode there is one. -/
def startResults (s : Service) : List (Option Pc) :=
  match s.pool.mode with
  | .tensorParallel => (s.pool.engines.take 1).map (·.pcAt 0)
  | .multiInstance => s.pool.engines.map (·.pcAt 0)

/-- `ensure_model` has returned: start the engines, or leave them PAUSED. -/
def bringUp (s : Service) (path : ModelPath) : Option Service :=
  if s.gpuAvailable then
    (s.pool.step (.start path)).map fun pool =>
      { s with pool, main := .start, startedIn := s.startedIn ++ [s.scheduler] }
  else (s.pool.step (.startPaused path)).map fun pool => { s with pool, main := .startListener }

def step (s : Service) : ServiceAction → Option Service
  | .scheduler newState => some { s with scheduler := newState }
  | .connect ok =>
    if s.main = .connect then
      some { s with main := if ok then .getSchedule else .ensureModel, stub := ok }
    else none
  | .getSchedule answered =>
    if s.main = .getSchedule then
      some { s with main := .ensureModel, gpuAvailable := answered && s.scheduler == .available }
    else none
  | .ensureModel none => if s.main = .ensureModel then some { s with main := .failed } else none
  | .ensureModel (some path) => if s.main = .ensureModel then s.bringUp path else none
  | .start =>
    if s.main = .start then
      if s.startResults.any (· == some (.finished .raised)) then some { s with main := .failed }
      else if s.startResults.all (· == some (.finished .returned)) then
        some { s with main := .startListener }
      else none
    else none
  | .startListener ok =>
    if s.main = .startListener then some { s with main := .serve, listening := s.stub && ok }
    else none
  | .listener l =>
    if s.listening && l.fromListener then
      (s.pool.step l).map fun pool => { s with pool, resumed := s.resumed || l == .resume }
    else none
  | .request model stream =>
    if s.main = .serve then
      (s.pool.step (.request model stream)).map fun pool => { s with pool }
    else none
  | .loop l => if l.onLoop then (s.pool.step l).map fun pool => { s with pool } else none

/-- The process starts with new engines. -/
def init (s : Service) : Prop :=
  s = { pool := { mode := s.pool.mode, engines := s.pool.engines } } ∧
    ∀ e ∈ s.pool.engines, e = {}

def system : System Service ServiceAction := ⟨init, step⟩

/-- `main` left the engines PAUSED, and the listener has not resumed them. -/
def Held (s : Service) : Prop :=
  (s.main = .startListener ∨ s.main = .serve) ∧ s.startedIn = [] ∧ s.resumed = false

/-- The engines were started only when the scheduler was AVAILABLE, and otherwise they are
PAUSED without a core, and never began a load, until the listener resumes them. -/
structure RespectsMining (s : Service) : Prop where
  started : ∀ g ∈ s.startedIn, g = .available
  held : s.Held → ∀ e ∈ s.pool.engines,
    e.engine.state = .paused ∧ e.engine.core = none ∧ e.engine.loads = 0

/-- The scheduler is AVAILABLE when `ensure_model` returns if it was when it answered, and no
request switches the model of engines that are held, unless `_pause_requested` stops the
switch. -/
def Settled (s : Service) : ServiceAction → Prop
  | .ensureModel (some _) => s.gpuAvailable = true → s.scheduler = .available
  | .loop (.task k (.ensured path)) => s.Held → s.pool.YieldsClean (.task k (.ensured path))
  | _ => True

instance (s : Service) : Decidable s.Held := by
  unfold Held
  infer_instance

instance (s : Service) (a : ServiceAction) : Decidable (s.Settled a) := by
  unfold Settled Pool.YieldsClean
  split <;> infer_instance

end Service

-- ════════════════════════════════════════════════════════════════════════
-- Engines at rest
-- ════════════════════════════════════════════════════════════════════════

/-- The coroutines that do nothing to a PAUSED engine. -/
def Op.sleeps : Op → Bool
  | pause _ | generate _ => true
  | _ => false

def Pc.sleeps : Pc → Bool
  | created | lock (.pauseLook _ .external) | finished _ => true
  | _ => false

namespace VLLMEngine

/-- PAUSED, without a core, and never loaded. -/
structure Unloaded (e : VLLMEngine) : Prop where
  state : e.state = .paused
  core : e.core = none
  loads : e.loads = 0

/-- A pause or a request leaves a PAUSED engine alone. -/
theorem runPc_sleeps {e : VLLMEngine} {k : Nat} {op : Op} {pc : Pc} {o : Outcome} {slice : Slice}
    (he : e.Unloaded) (hop : op.sleeps) (hpc : pc.sleeps) (h : e.runPc k op pc o = some slice) :
    slice.engine.Unloaded ∧ slice.pc.sleeps ∧ slice.spawn = false := by
  cases pc with
  | created =>
    cases o <;> cases h
    cases op with
    | pause urgency => exact ⟨he, rfl, rfl⟩
    | generate model =>
      have hraise : e.enter (.generate model) = ⟨e, .finished .raised, false⟩ := by
        simp [enter, beginGenerate, isAvailable, he.state]
      rw [hraise]
      exact ⟨he, rfl, rfl⟩
    | _ => cases hop
  | lock block =>
    obtain ⟨l, -, rfl⟩ := runPc_block h
    cases block with
    | pauseLook urgency c =>
      cases c with
      | external =>
        have hreturn : { e with transitionLock := l }.critical (.pauseLook urgency .external) =
            { e with transitionLock := l }.release.pauseReturn .external := by
          simp [critical, he.state]
        rw [hreturn]
        exact ⟨⟨he.state, he.core, he.loads⟩, rfl, rfl⟩
      | switchModel new => cases hpc
    | _ => cases hpc
  | finished r => cases o <;> cases h
  | _ => cases hpc

end VLLMEngine

namespace EngineSys

variable {s t : EngineSys} {k : Nat} {o : Outcome} {op : Op}

/-- PAUSED and never loaded, with no thread that will load it. -/
structure Asleep (s : EngineSys) : Prop where
  engine : s.engine.Unloaded
  threads : ∀ th ∈ s.threads, th.op.sleeps ∧ th.pc.sleeps

theorem Asleep.spawn (h : s.Asleep) (hop : op.sleeps) : (s.spawn op).Asleep := by
  refine ⟨h.engine, fun th hth => ?_⟩
  rcases List.mem_append.mp hth with hth | hth
  · exact h.threads th hth
  · obtain rfl := List.mem_singleton.mp hth
    exact ⟨hop, rfl⟩

theorem Asleep.runThread (h : s.Asleep) (hrun : s.runThread k o = some t) : t.Asleep := by
  obtain ⟨th, slice, hth, hslice, rfl⟩ := runThread_eq_some.mp hrun
  obtain ⟨hop, hpc⟩ := h.threads th (List.mem_of_getElem? hth)
  obtain ⟨heng, hpc', hspawn⟩ := VLLMEngine.runPc_sleeps h.engine hop hpc hslice
  refine ⟨⟨heng.state, heng.core, heng.loads⟩, fun x hx => ?_⟩
  obtain ⟨j, hj⟩ := List.mem_iff_getElem?.mp hx
  obtain ⟨-, hxop, hxpc⟩ | ⟨-, hold⟩ := thread_of_settle hth hspawn hj
  · rw [hxop, hxpc]
    exact ⟨hop, hpc'⟩
  · exact h.threads x (List.mem_of_getElem? hold)

end EngineSys

namespace Pool

variable {s t : Pool} {l : PoolLabel}

/-- No engine was loaded, and no task will load one. -/
structure AtRest (s : Pool) : Prop where
  yielded : s.yielded
  engines : ∀ (i : Nat) (e : EngineSys), s.engines[i]? = some e → e.Asleep
  requests : ∀ (j : Nat) (task : Task), s.tasks[j]? = some task → task.op ≠ .resume
  loops : ∀ (j : Nat) (task : Task) (path : ModelPath) (pc : SwitchPc), s.tasks[j]? = some task →
    task.pc = .switching path pc → pc.sequential → s.pauseRequested

/-- A task at rest calls nothing but requests. -/
theorem AtRest.sleeps_of_task (h : s.AtRest) {j : Nat} {o : TaskOutcome}
    (hok : s.YieldsClean (.task j o)) {op : Op}
    (hop : (∃ i, s.called (.task j o) = .engine i op) ∨ s.called (.task j o) = .gather op) :
    op.sleeps := by
  have hcalled : ∃ task slice, s.tasks[j]? = some task ∧ s.taskStep j task o = some slice ∧
      ((∃ i, slice.calls = .engine i op) ∨ slice.calls = .gather op) := by
    obtain ⟨i, hcall⟩ | hcall := hop
    · obtain ⟨task, slice, htask, hslice, hc⟩ := called_task_cases hcall Calls.noConfusion
      exact ⟨task, slice, htask, hslice, .inl ⟨i, hc⟩⟩
    · obtain ⟨task, slice, htask, hslice, hc⟩ := called_task_cases hcall Calls.noConfusion
      exact ⟨task, slice, htask, hslice, .inr hc⟩
  obtain ⟨task, slice, htask, hslice, hcalls⟩ := hcalled
  have hswitch := callsSwitch_of_step hslice
  obtain ⟨top, tpc⟩ := task
  cases top with
  | resume => exact absurd rfl (h.requests j _ htask)
  | request model stream =>
    have hadmit : ∀ {slice₀ : TaskSlice} {pick : Nat},
        s.admitRequest model stream pick slice₀ = some slice → slice₀.calls = .nothing →
          op.sleeps := by
      intro slice₀ pick hadmit h₀
      obtain hc | hc := (admitRequest_calls hadmit h₀).1
      · obtain ⟨i, hcall⟩ | hcall := hcalls <;> cases hc.symm.trans hcall
      · obtain ⟨i, hcall⟩ | hcall := hcalls <;> cases hc.symm.trans hcall
        rfl
    cases requestSlice_of_step hslice with
    | check _ ha => exact hadmit ha rfl
    | lock _ _ ha => exact hadmit ha rfl
    | loopEnd _ ha => exact hadmit ha rfl
    | gatherReturned _ ha => exact hadmit ha rfl
    | loopCall he hpause => cases (h.loops j _ _ _ htask rfl rfl).symm.trans hpause
    | streamStart hgen =>
      obtain rfl | rfl := generate_cases hgen
      · obtain ⟨i, hcall⟩ | hcall := hcalls <;> cases hcall
      · obtain ⟨i, hcall⟩ | hcall := hcalls <;> cases hcall
        rfl
    | @ensured path =>
      obtain ⟨i, hcall⟩ | hcall := hcalls
      · cases hm : s.mode <;> simp [beginSwitch, hm] at hcall
      · cases (hok h.yielded).1.symm.trans (hswitch.gather op hcall).2
    | _ => obtain ⟨i, hcall⟩ | hcall := hcalls <;> cases hcall

theorem asleep_of_move {i : Nat} {e e' : EngineSys} (he : e.Asleep)
    (hcalled : ∀ op, (∃ i, s.called l = .engine i op) ∨ s.called l = .gather op → op.sleeps)
    (hpaused : ∀ path, l ≠ .startPaused path) (hm : Move s i e l e') : e'.Asleep := by
  cases hm with
  | same => exact he
  | startPaused => exact absurd rfl (hpaused _)
  | spawn hspawn => exact he.spawn (hcalled _ (.inr hspawn))
  | call hcall hstep =>
    exact (he.spawn (hcalled _ (.inl ⟨_, hcall⟩))).runThread (EngineSys.runThread_of_call hstep)
  | run hstep => exact he.runThread (EngineSys.runThread_of_run hstep)

/-- **Step lemma**: pauses, requests and the event loop leave a pool at rest. -/
theorem AtRest.step (h : s.AtRest)
    (hl : l = .requestPause ∨ (∃ urgency, l = .pause urgency) ∨
      (∃ model stream, l = .request model stream) ∨ l.onLoop)
    (hok : ∀ j o, l = .task j o → s.YieldsClean (.task j o)) (hstep : s.step l = some t) :
    t.AtRest := by
  have hpaused : ∀ path, l ≠ .startPaused path := by
    rintro path rfl
    simp [PoolLabel.onLoop] at hl
  have hresume : l ≠ .resume := by
    rintro rfl
    simp [PoolLabel.onLoop] at hl
  have hcalled : ∀ op, (∃ i, s.called l = .engine i op) ∨ s.called l = .gather op →
      op.sleeps := by
    intro op hop
    cases l with
    | task j o => exact h.sleeps_of_task (hok j o rfl) hop
    | pause urgency =>
      obtain ⟨i, hop⟩ | hop := hop <;> cases hop
      rfl
    | requestPause | request model stream | engine i k o =>
      obtain ⟨i, hop⟩ | hop := hop <;> cases hop
    | start path | startPaused path | resume => simp [PoolLabel.onLoop] at hl
  have hflags : t.yielded ∧ (s.pauseRequested = true → t.pauseRequested = true) := by
    cases stepped_of_step hstep with
    | requestPause => exact ⟨h.yielded, fun _ => rfl⟩
    | pause _ => exact ⟨rfl, fun _ => rfl⟩
    | resume _ _ | resumeLoop _ => exact absurd rfl hresume
    | startPaused => exact absurd rfl (hpaused _)
    | _ => exact ⟨h.yielded, id⟩
  refine ⟨hflags.1, fun i e' he' => ?_, fun j task' hj => ?_, fun j task' path pc hj hpc hseq => ?_⟩
  · obtain ⟨e, he, hm⟩ := move_of_step hstep he'
    exact asleep_of_move (h.engines i e he) hcalled hpaused hm
  · cases taskMove_of_step hstep hj with
    | same hold => exact h.requests j task' hold
    | request _ => exact TaskOp.noConfusion
    | resume _ _ => exact absurd rfl hresume
    | @run o task slice hold _ => exact h.requests j task hold
  · apply hflags.2
    cases taskMove_of_step hstep hj with
    | same hold => exact h.loops j task' path pc hold hpc hseq
    | request _ => cases hpc
    | resume _ _ => exact absurd rfl hresume
    | run hold hslice =>
      obtain ⟨pc', hpc', hseq'⟩ | ⟨p, rfl⟩ := (callsSwitch_of_step hslice).loops path pc hpc hseq
      · exact h.loops j _ path pc' hold hpc' hseq'
      · exact (hok j _ rfl h.yielded).2

end Pool

-- ════════════════════════════════════════════════════════════════════════
-- Runs of the service
-- ════════════════════════════════════════════════════════════════════════

namespace Service

variable {s t : Service} {a : ServiceAction}

/-- Before the engines are brought up, nothing has touched the pool. -/
structure Fresh (s : Service) : Prop where
  tasks : s.pool.tasks = []
  engines : ∀ e ∈ s.pool.engines, e = {}
  switching : s.pool.pauseRequested = false
  listening : s.listening = false
  startedIn : s.startedIn = []
  resumed : s.resumed = false

/-- The invariant of the start-up, by where `main` is. -/
structure Inv (s : Service) : Prop where
  started : ∀ g ∈ s.startedIn, g = .available
  fresh : s.main = .connect ∨ s.main = .getSchedule ∨ s.main = .ensureModel → s.Fresh
  idle : s.main = .start ∨ s.main = .startListener → s.listening = false
  starting : s.main = .start → s.startedIn ≠ []
  held : s.Held → s.pool.AtRest

/-- On a fresh pool the event loop has nothing to run. -/
theorem Fresh.step_loop (h : s.Fresh) {l : PoolLabel} (hl : l.onLoop) : s.pool.step l = none := by
  cases l with
  | task k o => simp [Pool.step, Pool.runTask, h.tasks]
  | engine i k o =>
    simp only [Pool.step, ite_eq_right_iff]
    rintro -
    cases he : s.pool.engines[i]? with
    | none => simp [Pool.runEngine, he]
    | some e =>
      obtain rfl := h.engines e (List.mem_of_getElem? he)
      simp [Pool.runEngine, he, EngineSys.step, EngineSys.runThread]
  | _ => cases hl

theorem atRest_of_startPaused (h : s.Fresh) {pool : Pool} {path : ModelPath}
    (hstep : s.pool.step (.startPaused path) = some pool) : pool.AtRest := by
  cases Pool.stepped_of_step hstep with
  | startPaused =>
    refine ⟨rfl, fun i e he => ?_, fun j task hj => ?_, fun j task path pc hj => ?_⟩
    · simp only [Pool.startPaused, List.getElem?_map, Option.map_eq_some_iff] at he
      obtain ⟨e, he, rfl⟩ := he
      obtain rfl := h.engines e (List.mem_of_getElem? he)
      exact ⟨⟨rfl, rfl, rfl⟩, by simp⟩
    · simp [Pool.startPaused, h.tasks] at hj
    · simp [Pool.startPaused, h.tasks] at hj

theorem Fresh.congr (h : s.Fresh) (hpool : t.pool = s.pool) (hl : t.listening = s.listening)
    (hst : t.startedIn = s.startedIn) (hr : t.resumed = s.resumed) : t.Fresh := by
  constructor
  · rw [hpool, h.tasks]
  · rw [hpool]
    exact h.engines
  · rw [hpool, h.switching]
  · rw [hl, h.listening]
  · rw [hst, h.startedIn]
  · rw [hr, h.resumed]

/-- **Step lemma**. -/
theorem Inv.step (h : s.Inv) (hok : s.Settled a) (hstep : s.step a = some t) : t.Inv := by
  cases a with
  | scheduler g =>
    cases hstep
    refine ⟨h.started, fun hm => ?_, h.idle, h.starting, h.held⟩
    exact (h.fresh hm).congr rfl rfl rfl rfl
  | connect ok =>
    obtain ⟨hm, hstep⟩ := Option.ite_none_right_eq_some.mp hstep
    cases hstep
    have hf := h.fresh (.inl hm)
    refine ⟨h.started, fun _ => hf.congr rfl rfl rfl rfl, ?_, ?_, ?_⟩ <;> cases ok <;> simp [Held]
  | getSchedule answered =>
    obtain ⟨hm, hstep⟩ := Option.ite_none_right_eq_some.mp hstep
    cases hstep
    have hf := h.fresh (.inr (.inl hm))
    exact ⟨h.started, fun _ => hf.congr rfl rfl rfl rfl, by simp, by simp, by simp [Held]⟩
  | ensureModel path =>
    cases path with
    | none =>
      obtain ⟨hm, hstep⟩ := Option.ite_none_right_eq_some.mp hstep
      cases hstep
      exact ⟨h.started, by simp, by simp, by simp, by simp [Held]⟩
    | some path =>
      obtain ⟨hm, hstep⟩ := Option.ite_none_right_eq_some.mp hstep
      have hf := h.fresh (.inr (.inr hm))
      unfold bringUp at hstep
      split_ifs at hstep with hg
      · obtain ⟨pool, -, rfl⟩ := Option.map_eq_some_iff.mp hstep
        refine ⟨?_, by simp, fun _ => hf.listening, by simp, by simp [Held]⟩
        intro g hmem
        rcases List.mem_append.mp hmem with hmem | hmem
        · exact h.started g hmem
        · rw [List.mem_singleton.mp hmem]
          exact hok hg
      · obtain ⟨pool, hpool, rfl⟩ := Option.map_eq_some_iff.mp hstep
        exact ⟨h.started, by simp, fun _ => hf.listening, by simp,
          fun _ => atRest_of_startPaused hf hpool⟩
  | start =>
    obtain ⟨hm, hstep⟩ := Option.ite_none_right_eq_some.mp hstep
    have hne := h.starting hm
    split_ifs at hstep
    · cases hstep
      exact ⟨h.started, by simp, by simp, by simp, by simp [Held]⟩
    · cases hstep
      exact ⟨h.started, by simp, fun _ => h.idle (.inl hm), by simp, fun hh => absurd hh.2.1 hne⟩
  | startListener ok =>
    obtain ⟨hm, hstep⟩ := Option.ite_none_right_eq_some.mp hstep
    cases hstep
    exact ⟨h.started, by simp, by simp, by simp, fun hh => h.held ⟨.inl hm, hh.2⟩⟩
  | listener l =>
    obtain ⟨hl, hstep⟩ := Option.ite_none_right_eq_some.mp hstep
    obtain ⟨pool, hpool, rfl⟩ := Option.map_eq_some_iff.mp hstep
    obtain ⟨hlisten, hfrom⟩ := Bool.and_eq_true_iff.mp hl
    have hidle : ¬ (s.main = .start ∨ s.main = .startListener) := fun hm => by
      cases (h.idle hm).symm.trans hlisten
    have hfresh : ¬ (s.main = .connect ∨ s.main = .getSchedule ∨ s.main = .ensureModel) :=
      fun hm => by cases (h.fresh hm).listening.symm.trans hlisten
    refine ⟨h.started, fun hm => absurd hm hfresh, fun hm => absurd hm hidle, h.starting, ?_⟩
    rintro ⟨hmain, hst, hres⟩
    obtain ⟨hres, hl⟩ : s.resumed = false ∧ l ≠ .resume := by simpa using hres
    refine (h.held ⟨hmain, hst, hres⟩).step ?_ ?_ hpool
    · cases l <;> simp_all [PoolLabel.fromListener]
    · rintro j o rfl
      cases hfrom
  | request model stream =>
    obtain ⟨hm, hstep⟩ := Option.ite_none_right_eq_some.mp hstep
    obtain ⟨pool, hpool, rfl⟩ := Option.map_eq_some_iff.mp hstep
    refine ⟨h.started, by simp [hm], by simp [hm], by simp [hm], fun hh => ?_⟩
    exact (h.held hh).step (.inr (.inr (.inl ⟨model, stream, rfl⟩))) (by simp) hpool
  | loop l =>
    obtain ⟨hl, hstep⟩ := Option.ite_none_right_eq_some.mp hstep
    obtain ⟨pool, hpool, rfl⟩ := Option.map_eq_some_iff.mp hstep
    have hfresh : ¬ (s.main = .connect ∨ s.main = .getSchedule ∨ s.main = .ensureModel) :=
      fun hm => by cases ((h.fresh hm).step_loop hl).symm.trans hpool
    refine ⟨h.started, fun hm => absurd hm hfresh, h.idle, h.starting, fun hh => ?_⟩
    refine (h.held hh).step (.inr (.inr (.inr hl))) ?_ hpool
    rintro j o rfl
    cases o with
    | ensured path => exact hok hh
    | _ => trivial

theorem inv_init (h : s.init) : s.Inv := by
  obtain ⟨hs, hnew⟩ := h
  rw [hs]
  refine ⟨by simp, fun _ => ⟨rfl, hnew, rfl, rfl, rfl, rfl⟩, by simp, by simp, by simp [Held]⟩

/-- **Run lemma**. -/
theorem inv_of_reach (h : system.Reach Settled s) : s.Inv :=
  h.invariant (fun _ hs => inv_init hs) fun _ _ _ hs hok hstep => hs.step hok hstep

/-- **Start-up respects mining**, in every run in which the scheduler is AVAILABLE again when
the download ends. -/
theorem respectsMining_of_reach (h : system.Reach Settled s) : s.RespectsMining := by
  have hinv := inv_of_reach h
  refine ⟨hinv.started, fun hh e he => ?_⟩
  obtain ⟨i, hi⟩ := List.mem_iff_getElem?.mp he
  have hasleep := ((hinv.held hh).engines i e hi).engine
  exact ⟨hasleep.state, hasleep.core, hasleep.loads⟩

/-- A service with one engine. -/
def oneEngine : Service := { pool := { mode := .multiInstance, engines := [{}] } }

theorem init_oneEngine : oneEngine.init := ⟨rfl, by simp [oneEngine]⟩

/-- The scheduler is UNKNOWN at first, so the engine comes up PAUSED; then the listener pauses
it again, and a request finds it not available. -/
def unknownAtStart : List ServiceAction :=
  [.connect true, .getSchedule true, .scheduler .available, .ensureModel (some "a"),
    .startListener true, .listener (.pause .normal), .loop (.engine 0 0 .go),
    .loop (.engine 0 0 .go), .request "a" false, .loop (.task 0 (.go 0))]

theorem respectsMining_unknownAtStart :
    ∃ s, system.execGuarded Settled oneEngine unknownAtStart = some s ∧ s.Held ∧
      s.RespectsMining := by
  have hfinal : (system.execGuarded Settled oneEngine unknownAtStart).any (fun s => s.Held) =
      true := by decide +kernel
  obtain ⟨s, hrun, hs⟩ := (Option.any_eq_true _ _).mp hfinal
  exact ⟨s, hrun, of_decide_eq_true hs,
    respectsMining_of_reach (.execGuarded (.init init_oneEngine) hrun)⟩

/-- The scheduler is AVAILABLE when it answers, and a window opens during the download. -/
def yieldDuringDownload : List ServiceAction :=
  [.scheduler .available, .connect true, .getSchedule true, .scheduler .windowPost,
    .ensureModel (some "a")]

/-- `engine.start` begins in WINDOW_POST. -/
theorem yieldDuringDownload_not_respectsMining :
    ∃ s, system.Reach System.anyStep s ∧ s.startedIn = [.windowPost] ∧ ¬ s.RespectsMining := by
  have hfinal : (system.exec oneEngine yieldDuringDownload).any
      (fun s => s.startedIn = [.windowPost]) = true := by decide +kernel
  obtain ⟨s, hrun, hs⟩ := (Option.any_eq_true _ _).mp hfinal
  have hstarted := of_decide_eq_true hs
  refine ⟨s, System.reach_of_exec init_oneEngine hrun, hstarted, fun hr => ?_⟩
  have := hr.started .windowPost (by simp [hstarted])
  cases this

end Service

end OpenModel.Inference
