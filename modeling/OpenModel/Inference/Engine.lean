import OpenModel.Lib.AsyncLock
import OpenModel.Lib.Transition

/-!
# The inference engine

`VLLMEngine` and the coroutines that run on it: `start`, `pause`, `resume`, `stop`,
`switch_model`, `generate` and the recovery of a dead core. All of them share one
event loop. A thread (one call of a coroutine, or the recovery task) runs without
interruption up to its next await that suspends; its program counter says where it
waits.

A step runs one block of `async with self._transition_lock`, or one stretch of code
between two awaits. After a step that ends in front of a free lock or at another await
that does not suspend, the same thread goes on before any other (`EngineSys.cur`).
Sleeps, the VRAM wait, aborts and the construction of a core may suspend.

`generate_stream` differs from `generate` only in what it hands to its caller, so both
are the one operation `generate`.
-/

namespace OpenModel.Inference

abbrev ModelPath := String

abbrev Pid := Nat

inductive YieldUrgency
  | normal
  | immediate
  deriving DecidableEq, Repr

inductive EngineState
  | stopped
  | starting
  | running
  | unloading
  | paused
  | loading
  | stopping
  | dead
  deriving DecidableEq, Repr

/-- The vLLM engine with its core subprocesses; `model` is the path its weights were
read from. -/
structure AsyncLLMEngine where
  model : ModelPath
  deriving DecidableEq, Repr

/-- The fields of `VLLMEngine`, then what the operating system knows of it. -/
structure VLLMEngine where
  state : EngineState := .stopped
  /-- `_engine` -/
  core : Option AsyncLLMEngine := none
  model : ModelPath := ""
  activeRequests : Nat := 0
  transitionLock : AsyncLock Nat := {}
  pendingPause : Option YieldUrgency := none
  pendingResume : Bool := false
  childPids : List Pid := []
  accepting : Bool := true
  recovering : Bool := false
  /-- core processes that were neither killed nor seen to exit -/
  live : List Pid := []
  /-- processes that a failed construction left behind -/
  orphans : List Pid := []
  /-- how many loads (`start` or `_do_reload`) were begun -/
  loads : Nat := 0
  deriving DecidableEq, Repr

-- ════════════════════════════════════════════════════════════════════════
-- Program counters
-- ════════════════════════════════════════════════════════════════════════

/-- Who called `pause` or `resume`. -/
inductive Caller
  | external
  | switchModel (newModelPath : ModelPath)
  deriving DecidableEq, Repr

/-- Who called `_do_reload`. -/
inductive ReloadCaller
  | pause (caller : Caller)
  | resume (caller : Caller)
  | recover
  deriving DecidableEq, Repr

/-- A running `_do_reload`. -/
structure Reload where
  attempt : Nat
  caller : ReloadCaller
  deriving DecidableEq, Repr

/-- The blocks under `_transition_lock`. -/
inductive Critical
  | startBegin (modelPath : ModelPath)
  | startFailed
  | startFinish
  | pauseLook (urgency : YieldUrgency) (caller : Caller)
  | pauseTakeover (caller : Caller)
  | pauseDestroy (caller : Caller)
  | resumeLook (caller : Caller)
  | reloadFinish (reload : Reload)
  | reloadGiveUp (reload : Reload)
  | recoverBegin
  | stopBegin
  deriving DecidableEq, Repr

/-- Who called `_destroy_engine`, always under the lock. -/
inductive Teardown
  | start
  | pause (caller : Caller)
  | reload (reload : Reload)
  | recover
  | stop
  deriving DecidableEq, Repr

/-- Where `_destroy_engine` is. -/
inductive Phase
  /-- aborting the requests in flight -/
  | abort
  /-- the sleep after `shutdown()`, with the processes that were recorded then -/
  | exitWait (childPids : List Pid)
  /-- the sleep after the kill -/
  | killWait
  /-- about to empty the CUDA cache -/
  | release
  deriving DecidableEq, Repr

/-- Who called `_drain_requests`. -/
inductive Drain
  | pause (caller : Caller)
  | switchModel (newModelPath : ModelPath)
  deriving DecidableEq, Repr

/-- How a thread ended. -/
inductive Result
  | returned
  | raised
  /-- `generate` returned a result, which a core with these weights produced -/
  | served (weights : ModelPath)
  deriving DecidableEq, Repr

inductive Pc
  /-- created, not yet run -/
  | created
  /-- acquiring the transition lock for a block -/
  | lock (block : Critical)
  | destroy (teardown : Teardown) (phase : Phase)
  | drain (drain : Drain)
  /-- waiting for VRAM, then constructing the core -/
  | load (reload : Reload)
  /-- `start` constructing the core -/
  | startCreate
  /-- between two reload attempts -/
  | retrySleep (reload : Reload)
  /-- the sleep before `os._exit` -/
  | exitSleep
  /-- iterating the outputs of a core with these weights -/
  | generating (weights : ModelPath) (hasOutput : Bool)
  /-- aborting the own request, then raising -/
  | aborting
  | finished (result : Result)
  deriving DecidableEq, Repr

/-- The coroutine a thread runs. -/
inductive Op
  | start (modelPath : ModelPath)
  | pause (urgency : YieldUrgency)
  | resume
  | stop
  | switchModel (newModelPath : ModelPath)
  /-- `requested` is the `model` field of the API request -/
  | generate (requested : String)
  /-- `_recover_dead_engine` -/
  | recover
  deriving DecidableEq, Repr

/-- What the environment contributes to a step. -/
inductive Outcome
  | go
  | drainTimeout
  /-- a core was constructed and spawned these processes -/
  | created (pids : List Pid)
  /-- the construction raised and left these processes behind -/
  | createFailed (orphans : List Pid)
  /-- emptying the CUDA cache raised -/
  | cudaError
  /-- the core produced an output -/
  | output
  /-- the core ended the output -/
  | ended
  /-- the request failed or was cancelled -/
  | failed
  /-- no output in time -/
  | stalled
  /-- the request failed with an `EngineDeadError` -/
  | coreDead
  deriving DecidableEq, Repr

/-- What a thread leaves behind when it suspends. -/
structure Slice where
  engine : VLLMEngine
  pc : Pc
  /-- it created a recovery task -/
  spawn : Bool := false
  deriving DecidableEq, Repr

namespace VLLMEngine

def isAvailable (e : VLLMEngine) : Bool := e.state == .running && e.accepting

/-- Leave the `async with` block. -/
def release (e : VLLMEngine) : VLLMEngine := { e with transitionLock := e.transitionLock.release }

-- ════════════════════════════════════════════════════════════════════════
-- Returns to the caller
-- ════════════════════════════════════════════════════════════════════════

/-- `pause` returns; in `switch_model` the new path is recorded and `resume` is next. -/
def pauseReturn (e : VLLMEngine) : Caller → Slice
  | .external => ⟨e, .finished .returned, false⟩
  | .switchModel new => ⟨{ e with model := new }, .lock (.resumeLook (.switchModel new)), false⟩

/-- `pause` raises; `switch_model` passes it on through its `finally`. -/
def pauseRaise (e : VLLMEngine) : Caller → Slice
  | .external => ⟨e, .finished .raised, false⟩
  | .switchModel _ => ⟨{ e with accepting := true }, .finished .raised, false⟩

/-- `resume` returns. It never raises: `_do_reload` retries or ends the process, so the
rollback of `switch_model` is dead code. -/
def resumeReturn (e : VLLMEngine) : Caller → Slice
  | .external => ⟨e, .finished .returned, false⟩
  | .switchModel _ => ⟨{ e with accepting := true }, .finished .returned, false⟩

def reloadReturn (e : VLLMEngine) : ReloadCaller → Slice
  | .pause c => e.pauseReturn c
  | .resume c => e.resumeReturn c
  | .recover => ⟨{ e with recovering := false }, .finished .returned, false⟩

/-- The `except` of one reload attempt. -/
def reloadFailed (e : VLLMEngine) (r : Reload) : Slice :=
  if r.attempt < 3 then ⟨{ e with core := none }, .retrySleep r, false⟩
  else ⟨e, .lock (.reloadGiveUp r), false⟩

-- ════════════════════════════════════════════════════════════════════════
-- `_create_engine` and `_destroy_engine`
-- ════════════════════════════════════════════════════════════════════════

def createEngine (e : VLLMEngine) (pids : List Pid) : VLLMEngine :=
  { e with core := some ⟨e.model⟩, childPids := pids, live := e.live ++ pids }

def createEngineFailed (e : VLLMEngine) (orphans : List Pid) : VLLMEngine :=
  { e with orphans := e.orphans ++ orphans }

/-- Enter `_destroy_engine`, which skips all but the cache release when there is no core. -/
def beginDestroy (e : VLLMEngine) (t : Teardown) : Slice :=
  ⟨e, .destroy t (if e.core.isSome then .abort else .release), false⟩

/-- `_destroy_engine` returned. -/
def destroyed (e : VLLMEngine) : Teardown → Slice
  | .start => ⟨{ e with state := .paused }.release, .finished .returned, false⟩
  | .pause c =>
    let e := { e with accepting := true }
    if e.pendingResume then
      ⟨{ e with pendingResume := false, state := .loading, loads := e.loads + 1 }.release,
        .load ⟨1, .pause c⟩, false⟩
    else { e with state := .paused }.release.pauseReturn c
  | .reload r => { e with state := .paused }.release.reloadReturn r.caller
  | .recover =>
    ⟨{ e with state := .loading, loads := e.loads + 1 }.release, .load ⟨1, .recover⟩, false⟩
  | .stop => ⟨{ e with state := .stopped }.release, .finished .returned, false⟩

/-- `_destroy_engine` raised. -/
def destroyRaised (e : VLLMEngine) : Teardown → Slice
  | .start => ⟨e.release, .finished .raised, false⟩
  | .pause c => e.release.pauseRaise c
  | .reload r => e.release.reloadFailed r
  | .recover => ⟨{ e with recovering := false }.release, .finished .returned, false⟩
  | .stop => ⟨e.release, .finished .raised, false⟩

def destroyStep (e : VLLMEngine) (t : Teardown) : Phase → Outcome → Option Slice
  | .abort, .go =>
    some ⟨{ e with core := none },
      .destroy t (if e.childPids = [] then .release else .exitWait e.childPids), false⟩
  | .exitWait childPids, .go =>
    some ⟨{ e with live := e.live.filter fun pid => pid ∉ childPids }, .destroy t .killWait, false⟩
  | .killWait, .go => some ⟨{ e with childPids := [] }, .destroy t .release, false⟩
  | .release, .go => some (e.destroyed t)
  | .release, .cudaError => some (e.destroyRaised t)
  | _, _ => none

-- ════════════════════════════════════════════════════════════════════════
-- The blocks under the lock
-- ════════════════════════════════════════════════════════════════════════

/-- Run a block, from the moment the lock was taken. -/
def critical (e : VLLMEngine) : Critical → Slice
  | .startBegin modelPath =>
    ⟨{ e with state := .starting, accepting := true, model := modelPath,
              loads := e.loads + 1 }.release, .startCreate, false⟩
  | .startFailed =>
    ⟨{ e with state := .stopped, pendingPause := none }.release, .finished .raised, false⟩
  | .startFinish =>
    if e.pendingPause.isSome then { e with pendingPause := none }.beginDestroy .start
    else ⟨{ e with state := .running }.release, .finished .returned, false⟩
  | .pauseLook urgency c =>
    if e.state = .loading ∨ e.state = .starting then
      { e with pendingPause := some urgency }.release.pauseReturn c
    else if e.state ≠ .running then e.release.pauseReturn c
    else if urgency = .normal then
      ⟨{ e with accepting := false }.release, .drain (.pause c), false⟩
    else ⟨{ e with state := .unloading }.release, .lock (.pauseDestroy c), false⟩
  | .pauseTakeover c =>
    if e.state ≠ .running then e.release.pauseReturn c
    else ⟨{ e with state := .unloading }.release, .lock (.pauseDestroy c), false⟩
  | .pauseDestroy c => e.beginDestroy (.pause c)
  | .resumeLook c =>
    if e.state = .unloading then { e with pendingResume := true }.release.resumeReturn c
    else if e.state = .dead then e.release.resumeReturn c
    else if e.state ≠ .paused then e.release.resumeReturn c
    else ⟨{ e with state := .loading, loads := e.loads + 1 }.release, .load ⟨1, .resume c⟩, false⟩
  | .reloadFinish r =>
    if e.pendingPause.isSome then { e with pendingPause := none }.beginDestroy (.reload r)
    else { e with state := .running }.release.reloadReturn r.caller
  | .reloadGiveUp _ =>
    ⟨{ e with pendingPause := none, state := .paused }.release, .exitSleep, false⟩
  | .recoverBegin =>
    if e.state ≠ .dead then ⟨{ e with recovering := false }.release, .finished .returned, false⟩
    else e.beginDestroy .recover
  | .stopBegin => { e with state := .stopping }.beginDestroy .stop

-- ════════════════════════════════════════════════════════════════════════
-- Requests
-- ════════════════════════════════════════════════════════════════════════

/-- The `finally` of `generate`. -/
def requestDone (e : VLLMEngine) : VLLMEngine := { e with activeRequests := e.activeRequests - 1 }

/-- The first stretch of `generate`. A missing core makes it raise. -/
def beginGenerate (e : VLLMEngine) : Slice :=
  match e.isAvailable, e.core with
  | true, some core =>
    ⟨{ e with activeRequests := e.activeRequests + 1 }, .generating core.model false, false⟩
  | _, _ => ⟨e, .finished .raised, false⟩

/-- `_mark_dead`; it schedules a recovery unless one is on its way. -/
def markDead (e : VLLMEngine) : VLLMEngine := { e with state := .dead, recovering := true }

def generateStep (e : VLLMEngine) (weights : ModelPath) (hasOutput : Bool) :
    Outcome → Option Slice
  | .output =>
    if e.state = .running then some ⟨e, .generating weights true, false⟩
    else if e.core.isSome then some ⟨e, .aborting, false⟩
    else some ⟨e.requestDone, .finished .raised, false⟩
  | .ended =>
    some ⟨e.requestDone, .finished (if hasOutput then .served weights else .raised), false⟩
  | .failed => some ⟨e.requestDone, .finished .raised, false⟩
  | .stalled => some ⟨e, .aborting, false⟩
  | .coreDead => some ⟨e.markDead.requestDone, .finished .raised, !e.recovering⟩
  | _ => none

-- ════════════════════════════════════════════════════════════════════════
-- Threads
-- ════════════════════════════════════════════════════════════════════════

/-- The first stretch of `switch_model`. -/
def switchEnter (e : VLLMEngine) (new : ModelPath) : Slice :=
  if e.model = new ∧ e.state = .running then ⟨e, .finished .returned, false⟩
  else ⟨{ e with accepting := false }, .drain (.switchModel new), false⟩

/-- The first stretch of a coroutine. -/
def enter (e : VLLMEngine) : Op → Slice
  | .start modelPath => ⟨e, .lock (.startBegin modelPath), false⟩
  | .pause urgency => ⟨e, .lock (.pauseLook urgency .external), false⟩
  | .resume => ⟨e, .lock (.resumeLook .external), false⟩
  | .stop => ⟨e, .lock .stopBegin, false⟩
  | .switchModel new => e.switchEnter new
  | .generate _ => e.beginGenerate
  | .recover => ⟨e, .lock .recoverBegin, false⟩

/-- The drain is over. -/
def drained (e : VLLMEngine) : Drain → Slice
  | .pause c => ⟨e, .lock (.pauseTakeover c), false⟩
  | .switchModel new => ⟨e, .lock (.pauseLook .normal (.switchModel new)), false⟩

/-- Run thread `k` up to where it suspends next. -/
def runPc (e : VLLMEngine) (k : Nat) (op : Op) : Pc → Outcome → Option Slice
  | .created, .go => some (e.enter op)
  | .lock block, .go =>
    (e.transitionLock.grant k).map fun l => { e with transitionLock := l }.critical block
  | .destroy t phase, o => e.destroyStep t phase o
  | .drain d, .go => if e.activeRequests = 0 then some (e.drained d) else none
  | .drain d, .drainTimeout => some (e.drained d)
  | .load r, .created pids => some ⟨e.createEngine pids, .lock (.reloadFinish r), false⟩
  | .load r, .createFailed orphans => some ((e.createEngineFailed orphans).reloadFailed r)
  | .startCreate, .created pids => some ⟨e.createEngine pids, .lock .startFinish, false⟩
  | .startCreate, .createFailed orphans =>
    some ⟨e.createEngineFailed orphans, .lock .startFailed, false⟩
  | .retrySleep r, .go => some ⟨e, .load { r with attempt := r.attempt + 1 }, false⟩
  | .generating weights hasOutput, o => e.generateStep weights hasOutput o
  | .aborting, .go => some ⟨e.requestDone, .finished .raised, false⟩
  | _, _ => none

section Run

variable {e : VLLMEngine} {k : Nat} {op : Op} {o : Outcome} {slice : Slice}

/-- A block runs when its thread is granted the lock. -/
theorem runPc_block {block : Critical} (h : e.runPc k op (.lock block) o = some slice) :
    ∃ l, e.transitionLock.grant k = some l ∧
      slice = { e with transitionLock := l }.critical block := by
  cases o <;> try cases h
  obtain ⟨l, hl, rfl⟩ := Option.map_eq_some_iff.mp h
  exact ⟨l, hl, rfl⟩

/-- A drain ends with the last request or in a timeout. -/
theorem runPc_drain {d : Drain} (h : e.runPc k op (.drain d) o = some slice) :
    slice = e.drained d := by
  cases o <;> simp_all [runPc]

end Run

end VLLMEngine

namespace Pc

/-- In the queue of the transition lock. -/
def waits : Pc → Bool
  | lock _ => true
  | _ => false

/-- Holding the transition lock across an await. -/
def holds : Pc → Bool
  | destroy _ _ => true
  | _ => false

/-- About to look at the state for a pause. -/
def atPauseLook : Pc → Bool
  | lock (.pauseLook _ _) => true
  | _ => false

/-- The await in front of which a thread stands does not suspend. -/
def runsOn (e : VLLMEngine) : Pc → Bool
  | lock _ => e.transitionLock.free
  | drain _ => e.activeRequests == 0
  | destroy _ .release => true
  | _ => false

theorem exists_block {pc : Pc} (h : pc.waits) : ∃ block, pc = lock block := by
  cases pc <;> first | exact ⟨_, rfl⟩ | cases h

theorem exists_teardown {pc : Pc} (h : pc.holds) : ∃ teardown phase, pc = destroy teardown phase := by
  cases pc <;> first | exact ⟨_, _, rfl⟩ | cases h

end Pc

/-- The mining commands. -/
inductive Command
  | pause
  | resume
  deriving DecidableEq, Repr

def Op.command : Op → Option Command
  | pause _ => some .pause
  | resume => some .resume
  | _ => none

/-- One call of a coroutine. `mark` is the number of loads begun when its pause last
looked at the state. -/
structure Thread where
  op : Op
  pc : Pc := .created
  mark : Nat := 0
  deriving DecidableEq, Repr

/-- One engine with the threads that were started on it. -/
structure EngineSys where
  engine : VLLMEngine := {}
  threads : List Thread := []
  /-- the thread that goes on without suspending -/
  cur : Option Nat := none
  /-- the last mining command that was issued -/
  lastCommand : Option Command := none
  deriving DecidableEq, Repr

inductive Label
  /-- create a task for a coroutine -/
  | spawn (op : Op)
  /-- call a coroutine, which runs at once -/
  | call (op : Op)
  /-- thread `k` runs -/
  | run (k : Nat) (o : Outcome)
  deriving DecidableEq, Repr

namespace EngineSys

def pcAt (s : EngineSys) (k : Nat) : Option Pc := s.threads[k]?.map Thread.pc

def spawn (s : EngineSys) (op : Op) : EngineSys := { s with threads := s.threads ++ [{ op }] }

/-- Thread `k`, which was `t`, suspends. -/
def settle (s : EngineSys) (k : Nat) (t : Thread) (slice : Slice) : EngineSys where
  engine :=
    { slice.engine with
      transitionLock :=
        if slice.pc.waits then slice.engine.transitionLock.acquire k
        else slice.engine.transitionLock }
  threads :=
    s.threads.set k
      { op := t.op, pc := slice.pc, mark := if t.pc.atPauseLook then s.engine.loads else t.mark } ++
      if slice.spawn then [{ op := .recover }] else []
  cur := if slice.pc.runsOn slice.engine then some k else none
  lastCommand := if t.pc = .created then t.op.command <|> s.lastCommand else s.lastCommand

def runThread (s : EngineSys) (k : Nat) (o : Outcome) : Option EngineSys :=
  s.threads[k]?.bind fun t => (s.engine.runPc k t.op t.pc o).map (s.settle k t)

/-- One step of the event loop. The recovery is never called from outside. -/
def step (s : EngineSys) : Label → Option EngineSys
  | .spawn op => if s.cur = none ∧ op ≠ .recover then some (s.spawn op) else none
  | .call op =>
    if s.cur = none ∧ op ≠ .recover then (s.spawn op).runThread s.threads.length .go else none
  | .run k o => if s.cur = none ∨ s.cur = some k then s.runThread k o else none

/-- A new engine, or one that the pool put to PAUSED in `start_paused`. -/
def init (s : EngineSys) : Prop :=
  s = {} ∨ ∃ modelPath, s = { engine := { state := .paused, model := modelPath } }

def system : Transition.System EngineSys Label := ⟨init, step⟩

variable {s t : EngineSys} {k : Nat} {o : Outcome}

theorem runThread_eq_some :
    s.runThread k o = some t ↔ ∃ th slice, s.threads[k]? = some th ∧
      s.engine.runPc k th.op th.pc o = some slice ∧ s.settle k th slice = t := by
  simp [runThread, Option.bind_eq_some_iff]

theorem runThread_of_run (h : s.step (.run k o) = some t) : s.runThread k o = some t :=
  (Option.ite_none_right_eq_some.mp h).2

theorem runThread_of_call {op : Op} (h : s.step (.call op) = some t) :
    (s.spawn op).runThread s.threads.length .go = some t :=
  (Option.ite_none_right_eq_some.mp h).2

theorem pcAt_of_threads {th : Thread} (h : s.threads[k]? = some th) : s.pcAt k = some th.pc := by
  simp [pcAt, h]

theorem pcAt_spawn {op : Op} {j : Nat} :
    (s.spawn op).pcAt j = if j = s.threads.length then some .created else s.pcAt j := by
  simp only [pcAt, spawn, List.getElem?_append, List.getElem?_singleton]
  split_ifs with h1 h2 h3
  · omega
  · rfl
  · rfl
  · omega
  · omega
  · simp [List.getElem?_eq_none (by omega : s.threads.length ≤ j)]

theorem pcAt_settle {th : Thread} {slice : Slice} {j : Nat} (h : s.threads[k]? = some th) :
    (s.settle k th slice).pcAt j =
      if j = k then some slice.pc
      else if slice.spawn ∧ j = s.threads.length then some .created
      else s.pcAt j := by
  have hk : k < s.threads.length := (List.getElem?_eq_some_iff.mp h).1
  simp only [pcAt, settle, List.getElem?_append, List.length_set, List.getElem?_set]
  by_cases hjk : j = k
  · subst hjk
    simp [hk]
  · rw [if_neg hjk]
    by_cases hj : j < s.threads.length
    · simp [hj, Ne.symm hjk, show j ≠ s.threads.length by omega]
    · by_cases hspawn : slice.spawn
      · by_cases hlen : j = s.threads.length
        · simp [hspawn, hlen]
        · simp [hj, hspawn, hlen, show j - s.threads.length ≠ 0 by omega]
      · simp [hj, hspawn]

/-- Thread `k` is at a program counter that satisfies `P`. -/
def At (s : EngineSys) (P : Pc → Bool) (k : Nat) : Prop := ∃ pc, s.pcAt k = some pc ∧ P pc

theorem at_of_pcAt {P : Pc → Bool} {pc : Pc} (h : s.pcAt k = some pc) : s.At P k ↔ P pc := by
  simp [At, h]

theorem pcAt_length : s.pcAt s.threads.length = none := by simp [pcAt]

theorem at_spawn {P : Pc → Bool} {op : Op} {j : Nat} (hP : P .created = false) :
    (s.spawn op).At P j ↔ s.At P j := by
  simp only [At, pcAt_spawn]
  split_ifs with hj
  · simp [hj, pcAt_length, hP]
  · rfl

theorem at_settle {P : Pc → Bool} {th : Thread} {slice : Slice} {j : Nat}
    (hP : P .created = false) (h : s.threads[k]? = some th) :
    (s.settle k th slice).At P j ↔ (j = k ∧ P slice.pc) ∨ (j ≠ k ∧ s.At P j) := by
  simp only [At, pcAt_settle h]
  split_ifs with hjk hj
  · simp [hjk]
  · simp [hjk, hP, (hj.2 ▸ pcAt_length : s.pcAt j = none)]
  · simp [hjk]

/-- **Step cases**: a step creates a task, runs a thread, or does both. -/
theorem step_cases {l : Label} (h : s.step l = some t) :
    (∃ op, op ≠ .recover ∧ l = .spawn op ∧ t = s.spawn op) ∨
    (∃ op, op ≠ .recover ∧ l = .call op ∧ (s.spawn op).runThread s.threads.length .go = some t) ∨
    ∃ k o, l = .run k o ∧ s.runThread k o = some t := by
  cases l with
  | spawn op =>
    obtain ⟨⟨-, hop⟩, rfl⟩ : (s.cur = none ∧ op ≠ .recover) ∧ s.spawn op = t := by
      simpa [step] using h
    exact .inl ⟨op, hop, rfl, rfl⟩
  | call op =>
    exact .inr (.inl ⟨op, (Option.ite_none_right_eq_some.mp h).1.2, rfl, runThread_of_call h⟩)
  | run k o =>
    exact .inr (.inr ⟨k, o, rfl, runThread_of_run h⟩)

end EngineSys

end OpenModel.Inference
