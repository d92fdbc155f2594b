import OpenModel.Inference.Coroutine
import OpenModel.Model.Manager

/-!
# The engine pool and its API

`EnginePool` over any number of engines, the scheduler listener's calls on it, and the
API requests that may switch its model, all on one event loop (`request_pause` alone is
called from the listener's own thread, so it can come between any two steps).

A request runs as a task of the pool: it compares its model with the pool's, and if they
differ it takes the API's switch lock, asks the model manager for the weights, and runs
`switch_model` of the pool, which in `multi_instance` mode switches one engine after the
other and in `tensor_parallel` mode all at once. When the model is right it goes to an
engine; from there the engine's thread is the rest of the request.

## Main results

- `Pool.stepped_of_step`: what a step of the pool does
- `Pool.move_of_step`: what it does to one engine
- `Pool.taskMove_of_step`: what it does to one task
-/

namespace OpenModel.Inference

inductive Mode
  | tensorParallel
  | multiInstance
  deriving DecidableEq, Repr

/-- Where `EnginePool.switch_model` is. -/
inductive SwitchPc
  /-- about to look at engine `i` -/
  | loop (i : Nat)
  /-- awaiting thread `k` of engine `i` -/
  | await (i k : Nat)
  /-- awaiting thread `kids[j]` of every engine `j` -/
  | gather (kids : List Nat)
  deriving DecidableEq, Repr

inductive TaskPc
  /-- `EnginePool.resume`, about to look at engine `i` -/
  | resumeLoop (i : Nat)
  | resumeAwait (i k : Nat)
  /-- a request at its first look at the pool's model -/
  | check
  /-- acquiring `_model_switch_lock` -/
  | lock
  /-- in `ensure_model` -/
  | ensure
  | switching (path : ModelPath) (pc : SwitchPc)
  /-- the response was returned, its generator has not started -/
  | streamStart
  | done
  deriving DecidableEq, Repr

inductive TaskOp
  | resume
  | request (model : String) (stream : Bool)
  deriving DecidableEq, Repr

structure Task where
  op : TaskOp
  pc : TaskPc
  deriving DecidableEq, Repr

inductive TaskOutcome
  /-- `pick` is the engine that `_pick_engine` chooses among the available ones -/
  | go (pick : Nat)
  | ensured (path : ModelPath)
  | ensureFailed
  deriving DecidableEq, Repr

/-- What the pool does to its engines. -/
inductive Calls
  | nothing
  /-- call a coroutine of engine `i` -/
  | engine (i : Nat) (op : Op)
  /-- create a task for a coroutine of every engine -/
  | gather (op : Op)
  deriving DecidableEq, Repr

/-- What a task leaves behind when it suspends. -/
structure TaskSlice where
  pc : TaskPc
  switching : Bool
  switchLock : AsyncLock Nat
  ensured : List (String × ModelPath)
  calls : Calls
  deriving DecidableEq, Repr

/-- The pool, the API's switch lock and the tasks. -/
structure Pool where
  mode : Mode
  engines : List EngineSys
  pauseRequested : Bool := false
  /-- `_switching` -/
  switching : Bool := false
  /-- `_model_switch_lock` -/
  switchLock : AsyncLock Nat := {}
  tasks : List Task := []
  /-- the task that goes on without suspending -/
  cur : Option Nat := none
  /-- a pause was called since the last resume -/
  yielded : Bool := false
  /-- what `ensure_model` returned for which model -/
  ensured : List (String × ModelPath) := []
  deriving DecidableEq, Repr

inductive PoolLabel
  | start (path : ModelPath)
  | startPaused (path : ModelPath)
  | requestPause
  | pause (urgency : YieldUrgency)
  | resume
  | request (model : String) (stream : Bool)
  | task (t : Nat) (o : TaskOutcome)
  /-- thread `k` of engine `i` runs -/
  | engine (i k : Nat) (o : Outcome)
  deriving DecidableEq, Repr

-- ════════════════════════════════════════════════════════════════════════
-- `_model_matches`
-- ════════════════════════════════════════════════════════════════════════

/-- `s.replace("\\", "/").rstrip("/").split("/")[-1]`. -/
def lastComponent (s : String) : List Char :=
  let slashed := s.toList.map fun c => if c = Char.ofNat 92 then '/' else c
  ((slashed.reverse.dropWhile (· = '/')).takeWhile (· ≠ '/')).reverse

/-- `_model_matches`. -/
def modelMatches (current requested : String) : Bool :=
  if current = "" then false
  else if current = requested then true
  else lastComponent current == lastComponent (Model.replaceSlashes requested)

-- ════════════════════════════════════════════════════════════════════════
-- Awaits
-- ════════════════════════════════════════════════════════════════════════

def Pc.isFinished : Pc → Bool
  | finished _ => true
  | _ => false

theorem Pc.eq_finished {pc : Pc} (h : pc.isFinished) : ∃ result, pc = .finished result := by
  cases pc with
  | finished result => exact ⟨result, rfl⟩
  | _ => cases h

/-- Thread `k` of engine `i` has ended. -/
def ended (engines : List EngineSys) (i k : Nat) : Bool :=
  (engines[i]?.bind (·.pcAt k)).any Pc.isFinished

namespace TaskPc

/-- In the queue of the switch lock. -/
def waits : TaskPc → Bool
  | lock => true
  | _ => false

/-- Holding the switch lock. -/
def holds : TaskPc → Bool
  | ensure | switching _ _ => true
  | _ => false

/-- Awaiting thread `k` of engine `i`. -/
def awaits (i k : Nat) : TaskPc → Bool
  | resumeAwait i' k' | switching _ (.await i' k') => i' == i && k' == k
  | _ => false

/-- The await in front of which a task stands does not suspend. -/
def runsOn (l : AsyncLock Nat) (engines : List EngineSys) : TaskPc → Bool
  | resumeLoop _ | switching _ (.loop _) => true
  | resumeAwait i k | switching _ (.await i k) => ended engines i k
  | lock => l.free
  | _ => false

end TaskPc

namespace Pool

/-- `current_model`. -/
def currentModel (s : Pool) : ModelPath := (s.engines.head?.map (·.engine.model)).getD ""

/-- `is_available`. -/
def isAvailable (s : Pool) : Bool :=
  match s.mode with
  | .tensorParallel => s.engines.head?.any (·.engine.isAvailable)
  | .multiInstance => s.engines.any (·.engine.isAvailable)

/-- No thread and no task goes on without suspending. -/
def idle (s : Pool) : Bool := s.cur.isNone && s.engines.all (·.cur.isNone)

/-- The engines after some calls on them. -/
def perform (s : Pool) : Calls → Option (List EngineSys)
  | .nothing => some s.engines
  | .engine i op => s.engines[i]?.bind fun e => (e.step (.call op)).map (s.engines.set i)
  | .gather op => some (s.engines.map (·.spawn op))

-- ════════════════════════════════════════════════════════════════════════
-- Requests
-- ════════════════════════════════════════════════════════════════════════

/-- Move on to `pc`. -/
def stay (s : Pool) (pc : TaskPc) : TaskSlice :=
  ⟨pc, s.switching, s.switchLock, s.ensured, .nothing⟩

/-- The engine that `generate` and `generate_stream` route a request to. -/
def target (s : Pool) (pick : Nat) : Nat :=
  match s.mode with
  | .tensorParallel => 0
  | .multiInstance => pick

/-- `EnginePool.generate` and `generate_stream`; without an available engine
`_pick_engine` raises. -/
def generate (s : Pool) (model : String) (pick : Nat) : Option Calls :=
  match s.mode with
  | .tensorParallel => some (.engine 0 (.generate model))
  | .multiInstance =>
    if s.isAvailable then
      if s.engines[pick]?.any (·.engine.isAvailable) then some (.engine pick (.generate model))
      else none
    else some .nothing

/-- The rest of the handler once the model is right. -/
def admitRequest (s : Pool) (model : String) (stream : Bool) (pick : Nat) (slice : TaskSlice) :
    Option TaskSlice :=
  if s.isAvailable then
    if stream then some { slice with pc := .streamStart }
    else (s.generate model pick).map fun calls => { slice with pc := .done, calls }
  else some { slice with pc := .done }

/-- `switch_model` of the pool is over, and so is the `async with` around it. -/
def endSwitch (s : Pool) : TaskSlice :=
  ⟨.done, false, s.switchLock.release, s.ensured, .nothing⟩

/-- One stretch of `EnginePool.switch_model`. -/
def switchStep (s : Pool) (model : String) (stream : Bool) (path : ModelPath) (pick : Nat) :
    SwitchPc → Option TaskSlice
  | .loop i =>
    match s.engines[i]? with
    | none => s.admitRequest model stream pick s.endSwitch
    | some e =>
      if s.pauseRequested then s.admitRequest model stream pick s.endSwitch
      else
        some { s.stay (.switching path (.await i e.threads.length)) with
          calls := .engine i (.switchModel path) }
  | .await i k =>
    match s.engines[i]?.bind (·.pcAt k) with
    | some (.finished .returned) => some (s.stay (.switching path (.loop (i + 1))))
    | some (.finished .raised) => some s.endSwitch
    | _ => none
  | .gather kids =>
    let results := s.engines.zipWith (·.pcAt ·) kids
    if results.any (· == some (.finished .raised)) then some s.endSwitch
    else if results.all (· == some (.finished .returned)) then
      s.admitRequest model stream pick s.endSwitch
    else none

/-- Start `EnginePool.switch_model`. -/
def beginSwitch (s : Pool) (model : String) (path : ModelPath) : TaskSlice :=
  match s.mode with
  | .multiInstance =>
    ⟨.switching path (.loop 0), true, s.switchLock, s.ensured ++ [(model, path)], .nothing⟩
  | .tensorParallel =>
    ⟨.switching path (.gather (s.engines.map (·.threads.length))), true, s.switchLock,
      s.ensured ++ [(model, path)], .gather (.switchModel path)⟩

/-- One stretch of a request. -/
def requestStep (s : Pool) (t : Nat) (model : String) (stream : Bool) :
    TaskPc → TaskOutcome → Option TaskSlice
  | .check, .go pick =>
    if model = "default" then s.admitRequest model stream pick (s.stay .done)
    else if modelMatches s.currentModel model then
      s.admitRequest model stream pick (s.stay .done)
    else some (s.stay .lock)
  | .lock, .go pick =>
    (s.switchLock.grant t).bind fun l =>
      if modelMatches s.currentModel model then
        s.admitRequest model stream pick { s.stay .done with switchLock := l.release }
      else some { s.stay .ensure with switchLock := l }
  | .ensure, .ensured path => some (s.beginSwitch model path)
  | .ensure, .ensureFailed => some { s.stay .done with switchLock := s.switchLock.release }
  | .switching path pc, .go pick => s.switchStep model stream path pick pc
  | .streamStart, .go pick =>
    (s.generate model pick).map fun calls => { s.stay .done with calls }
  | _, _ => none

/-- One stretch of `EnginePool.resume` in `multi_instance` mode. -/
def resumeStep (s : Pool) : TaskPc → TaskOutcome → Option TaskSlice
  | .resumeLoop i, .go _ =>
    match s.engines[i]? with
    | none => some (s.stay .done)
    | some e =>
      if s.pauseRequested then some (s.stay .done)
      else some { s.stay (.resumeAwait i e.threads.length) with calls := .engine i .resume }
  | .resumeAwait i k, .go _ =>
    match s.engines[i]?.bind (·.pcAt k) with
    | some (.finished .returned) => some (s.stay (.resumeLoop (i + 1)))
    | some (.finished .raised) => some (s.stay .done)
    | _ => none
  | _, _ => none

def taskStep (s : Pool) (t : Nat) (task : Task) (o : TaskOutcome) : Option TaskSlice :=
  match task.op with
  | .resume => s.resumeStep task.pc o
  | .request model stream => s.requestStep t model stream task.pc o

-- ════════════════════════════════════════════════════════════════════════
-- The event loop
-- ════════════════════════════════════════════════════════════════════════

/-- Task `t` suspends. -/
def settle (s : Pool) (t : Nat) (op : TaskOp) (slice : TaskSlice) : Option Pool :=
  (s.perform slice.calls).map fun engines =>
    { s with
      engines
      switching := slice.switching
      switchLock :=
        if slice.pc.waits then slice.switchLock.acquire t else slice.switchLock
      tasks := s.tasks.set t ⟨op, slice.pc⟩
      cur := if slice.pc.runsOn slice.switchLock engines then some t else none
      ensured := slice.ensured }

/-- A new task runs at once. -/
def begin (s : Pool) (task : Task) : Pool :=
  { s with tasks := s.tasks ++ [task], cur := some s.tasks.length }

def startPaused (s : Pool) (path : ModelPath) : Pool :=
  { s with
    yielded := true
    engines := s.engines.map fun e =>
      { e with engine := { e.engine with model := path, state := .paused } } }

/-- What a call of the pool's `start`, `pause` or `resume` does at once to the engines. -/
def callsOf (s : Pool) : PoolLabel → Calls
  | .start path =>
    match s.mode with
    | .tensorParallel => .engine 0 (.start path)
    | .multiInstance => .gather (.start path)
  | .pause urgency => .gather (.pause urgency)
  | .resume =>
    match s.mode with
    | .tensorParallel => .gather .resume
    | .multiInstance => .nothing
  | _ => .nothing

def callPool (s : Pool) (l : PoolLabel) : Option Pool :=
  (s.perform (s.callsOf l)).map fun engines =>
    let s := { s with engines }
    match l with
    | .pause _ => { s with pauseRequested := true, yielded := true }
    | .resume =>
      let s := { s with pauseRequested := false, yielded := false }
      match s.mode with
      | .tensorParallel => s
      | .multiInstance => s.begin ⟨.resume, .resumeLoop 0⟩
    | _ => s

/-- Task `t` runs. -/
def runTask (s : Pool) (t : Nat) (o : TaskOutcome) : Option Pool :=
  s.tasks[t]?.bind fun task => (s.taskStep t task o).bind (s.settle t task.op)

/-- Thread `k` of engine `i` runs; a task that awaited its end goes on. -/
def runEngine (s : Pool) (i k : Nat) (o : Outcome) : Option Pool :=
  s.engines[i]?.bind fun e => (e.step (.run k o)).map fun e' =>
    let engines := s.engines.set i e'
    { s with
      engines
      cur := if ended engines i k then s.tasks.findIdx? (·.pc.awaits i k) else none }

/-- One step of the event loop. -/
def step (s : Pool) : PoolLabel → Option Pool
  | .requestPause => some { s with pauseRequested := true }
  | .startPaused path => if s.idle then some (s.startPaused path) else none
  | .request model stream =>
    if s.idle then some (s.begin ⟨.request model stream, .check⟩) else none
  | .task t o =>
    if (s.cur = none ∨ s.cur = some t) ∧ s.engines.all (·.cur.isNone) then s.runTask t o else none
  | .engine i k o =>
    if s.cur = none ∧ (s.engines.eraseIdx i).all (·.cur.isNone) then s.runEngine i k o else none
  | l => if s.idle then s.callPool l else none

/-- What `main` did with the engines before anything else could call the pool. -/
inductive StartUp
  | constructed
  | started (model : String) (path : ModelPath)
  | startedPaused (model : String) (path : ModelPath)
  deriving DecidableEq, Repr

namespace StartUp

def ensured : StartUp → List (String × ModelPath)
  | constructed => []
  | started model path | startedPaused model path => [(model, path)]

def yielded : StartUp → Bool
  | startedPaused _ _ => true
  | _ => false

/-- Engine `i` after the start-up, which in `tensor_parallel` mode starts the first. -/
def Leaves (mode : Mode) (i : Nat) (e : EngineSys) : StartUp → Prop
  | constructed => e = {}
  | started _ path =>
    if mode = .tensorParallel ∧ i ≠ 0 then e = {}
    else ∃ pids, e = { engine :=
      { state := .running, core := some ⟨path⟩, model := path, childPids := pids, live := pids,
        loads := 1 } }
  | startedPaused _ path => e = { engine := { state := .paused, model := path } }

end StartUp

def init (s : Pool) : Prop :=
  ∃ up : StartUp, (∀ i e, s.engines[i]? = some e → up.Leaves s.mode i e) ∧
    s = { mode := s.mode, engines := s.engines, yielded := up.yielded, ensured := up.ensured }

def system : Transition.System Pool PoolLabel := ⟨init, step⟩

-- ════════════════════════════════════════════════════════════════════════
-- What a step does
-- ════════════════════════════════════════════════════════════════════════

variable {s t : Pool} {l : PoolLabel} {i k : Nat} {e e' : EngineSys}

/-- What a step does to the engines, other than running one of their threads. -/
def called (s : Pool) : PoolLabel → Calls
  | .task k o => ((s.tasks[k]?.bind (s.taskStep k · o)).map TaskSlice.calls).getD .nothing
  | l => s.callsOf l

/-- What a step does to engine `i`. -/
inductive Move (s : Pool) (i : Nat) (e : EngineSys) : PoolLabel → EngineSys → Prop
  | same {l : PoolLabel} : Move s i e l e
  | startPaused {path : ModelPath} : Move s i e (.startPaused path)
      { e with engine := { e.engine with model := path, state := .paused } }
  | spawn {l : PoolLabel} {op : Op} : s.called l = .gather op → Move s i e l (e.spawn op)
  | call {l : PoolLabel} {op : Op} {e' : EngineSys} : s.called l = .engine i op →
      e.step (.call op) = some e' → Move s i e l e'
  | run {k : Nat} {o : Outcome} {e' : EngineSys} : e.step (.run k o) = some e' →
      Move s i e (.engine i k o) e'

theorem getElem?_set_cases {es : List EngineSys} {j : Nat} (h : (es.set j e)[i]? = some e') :
    (i = j ∧ e' = e) ∨ (i ≠ j ∧ es[i]? = some e') := by
  rw [List.getElem?_set] at h
  split_ifs at h with hij hlt
  · exact .inl ⟨hij.symm, (Option.some.inj h).symm⟩
  · exact .inr ⟨Ne.symm hij, h⟩

theorem move_of_perform {calls : Calls} {es : List EngineSys} (hcalls : s.called l = calls)
    (h : s.perform calls = some es) (he : es[i]? = some e') :
    ∃ e, s.engines[i]? = some e ∧ Move s i e l e' := by
  cases calls with
  | nothing =>
    cases h
    exact ⟨e', he, .same⟩
  | engine j op =>
    simp only [perform, Option.bind_eq_some_iff, Option.map_eq_some_iff] at h
    obtain ⟨e₀, he₀, e₁, hcall, rfl⟩ := h
    obtain ⟨rfl, rfl⟩ | ⟨-, hsame⟩ := getElem?_set_cases he
    · exact ⟨e₀, he₀, .call hcalls hcall⟩
    · exact ⟨e', hsame, .same⟩
  | gather op =>
    cases h
    simp only [List.getElem?_map, Option.map_eq_some_iff] at he
    obtain ⟨e₀, he₀, rfl⟩ := he
    exact ⟨e₀, he₀, .spawn hcalls⟩

theorem runTask_eq_some {o : TaskOutcome} :
    s.runTask k o = some t ↔ ∃ task slice engines, s.tasks[k]? = some task ∧
      s.taskStep k task o = some slice ∧ s.perform slice.calls = some engines ∧
      { s with
        engines
        switching := slice.switching
        switchLock := if slice.pc.waits then slice.switchLock.acquire k else slice.switchLock
        tasks := s.tasks.set k ⟨task.op, slice.pc⟩
        cur := if slice.pc.runsOn slice.switchLock engines then some k else none
        ensured := slice.ensured } = t := by
  simp only [runTask, settle, Option.bind_eq_some_iff, Option.map_eq_some_iff]
  constructor
  · rintro ⟨task, htask, slice, hslice, engines, hengines, rfl⟩
    exact ⟨task, slice, engines, htask, hslice, hengines, rfl⟩
  · rintro ⟨task, slice, engines, htask, hslice, hengines, rfl⟩
    exact ⟨task, htask, slice, hslice, engines, hengines, rfl⟩

theorem called_task {o : TaskOutcome} {task : Task} {slice : TaskSlice}
    (htask : s.tasks[k]? = some task) (hslice : s.taskStep k task o = some slice) :
    s.called (.task k o) = slice.calls := by
  simp [called, htask, hslice]

theorem runEngine_eq_some {o : Outcome} :
    s.runEngine i k o = some t ↔ ∃ e e', s.engines[i]? = some e ∧ e.step (.run k o) = some e' ∧
      { s with
        engines := s.engines.set i e'
        cur :=
          if ended (s.engines.set i e') i k then s.tasks.findIdx? (·.pc.awaits i k) else none } =
        t := by
  simp only [runEngine, Option.bind_eq_some_iff, Option.map_eq_some_iff]
  constructor
  · rintro ⟨e, he, e', he', rfl⟩
    exact ⟨e, e', he, he', rfl⟩
  · rintro ⟨e, e', he, he', rfl⟩
    exact ⟨e, he, e', he', rfl⟩

/-- The steps of the pool, with the state that each leaves. -/
inductive Stepped (s : Pool) : PoolLabel → Pool → Prop
  | requestPause : Stepped s .requestPause { s with pauseRequested := true }
  | startPaused {path : ModelPath} : Stepped s (.startPaused path) (s.startPaused path)
  | request {model : String} {stream : Bool} :
      Stepped s (.request model stream) (s.begin ⟨.request model stream, .check⟩)
  | start {path : ModelPath} {es : List EngineSys} :
      s.perform (s.callsOf (.start path)) = some es →
      Stepped s (.start path) { s with engines := es }
  | pause {urgency : YieldUrgency} {es : List EngineSys} :
      s.perform (.gather (.pause urgency)) = some es →
      Stepped s (.pause urgency) { s with engines := es, pauseRequested := true, yielded := true }
  | resume {es : List EngineSys} : s.mode = .tensorParallel →
      s.perform (.gather .resume) = some es →
      Stepped s .resume { s with engines := es, pauseRequested := false, yielded := false }
  | resumeLoop : s.mode = .multiInstance →
      Stepped s .resume
        ({ s with pauseRequested := false, yielded := false }.begin ⟨.resume, .resumeLoop 0⟩)
  | task {k : Nat} {o : TaskOutcome} {task : Task} {slice : TaskSlice} {es : List EngineSys} :
      s.tasks[k]? = some task → s.taskStep k task o = some slice →
      s.perform slice.calls = some es →
      Stepped s (.task k o)
        { s with
          engines := es
          switching := slice.switching
          switchLock := if slice.pc.waits then slice.switchLock.acquire k else slice.switchLock
          tasks := s.tasks.set k ⟨task.op, slice.pc⟩
          cur := if slice.pc.runsOn slice.switchLock es then some k else none
          ensured := slice.ensured }
  | engine {i k : Nat} {o : Outcome} {e e' : EngineSys} : s.engines[i]? = some e →
      e.step (.run k o) = some e' →
      Stepped s (.engine i k o)
        { s with
          engines := s.engines.set i e'
          cur :=
            if ended (s.engines.set i e') i k then s.tasks.findIdx? (·.pc.awaits i k) else none }

/-- **Inversion**: what a step of the pool does. -/
theorem stepped_of_step (h : s.step l = some t) : Stepped s l t := by
  cases l with
  | requestPause =>
    cases h
    exact .requestPause
  | startPaused path =>
    obtain ⟨-, h⟩ := Option.ite_none_right_eq_some.mp h
    cases h
    exact .startPaused
  | request model stream =>
    obtain ⟨-, h⟩ := Option.ite_none_right_eq_some.mp h
    cases h
    exact .request
  | task k o =>
    obtain ⟨-, h⟩ := Option.ite_none_right_eq_some.mp h
    obtain ⟨task, slice, engines, htask, hslice, hes, rfl⟩ := runTask_eq_some.mp h
    exact .task htask hslice hes
  | engine i k o =>
    obtain ⟨-, h⟩ := Option.ite_none_right_eq_some.mp h
    obtain ⟨e, e', he, hrun, rfl⟩ := runEngine_eq_some.mp h
    exact .engine he hrun
  | start path =>
    obtain ⟨-, h⟩ := Option.ite_none_right_eq_some.mp h
    obtain ⟨es, hes, rfl⟩ := Option.map_eq_some_iff.mp h
    exact .start hes
  | pause urgency =>
    obtain ⟨-, h⟩ := Option.ite_none_right_eq_some.mp h
    obtain ⟨es, hes, rfl⟩ := Option.map_eq_some_iff.mp h
    exact .pause hes
  | resume =>
    obtain ⟨-, h⟩ := Option.ite_none_right_eq_some.mp h
    obtain ⟨es, hes, rfl⟩ := Option.map_eq_some_iff.mp h
    cases hmode : s.mode with
    | tensorParallel =>
      simp only [callsOf, hmode] at hes
      have hstep := Stepped.resume hmode hes
      rwa [hmode] at hstep
    | multiInstance =>
      simp only [callsOf, hmode] at hes
      cases hes
      have hstep := Stepped.resumeLoop hmode
      rwa [hmode] at hstep

/-- **One engine**: every step of the pool moves each engine. -/
theorem move_of_step (h : s.step l = some t) (he : t.engines[i]? = some e') :
    ∃ e, s.engines[i]? = some e ∧ Move s i e l e' := by
  cases stepped_of_step h with
  | requestPause | request | resumeLoop _ => exact ⟨e', he, .same⟩
  | startPaused =>
    simp only [startPaused, List.getElem?_map, Option.map_eq_some_iff] at he
    obtain ⟨e, he, rfl⟩ := he
    exact ⟨e, he, .startPaused⟩
  | start hes | pause hes => exact move_of_perform rfl hes he
  | resume hmode hes => exact move_of_perform (by simp only [called, callsOf, hmode]) hes he
  | task htask hslice hes => exact move_of_perform (called_task htask hslice) hes he
  | engine he₀ hrun =>
    obtain ⟨rfl, rfl⟩ | ⟨-, hsame⟩ := getElem?_set_cases he
    · exact ⟨_, he₀, .run hrun⟩
    · exact ⟨e', hsame, .same⟩

/-- **Engine invariants**: what holds of every new engine and survives each move holds of
every engine of the pool. -/
theorem forall_engines_of_reach {ok : Pool → PoolLabel → Prop} {I : EngineSys → Prop}
    (hinit : ∀ (up : StartUp) mode i e, up.Leaves mode i e → I e)
    (hmove : ∀ s l i e e', ok s l → Move s i e l e' → I e → I e') (h : system.Reach ok s) :
    ∀ (i : Nat) (e : EngineSys), s.engines[i]? = some e → I e := by
  refine h.invariant (I := fun s => ∀ (i : Nat) (e : EngineSys), s.engines[i]? = some e → I e) ?_
    fun s l t hs hok hstep i e' he' => ?_
  · rintro s ⟨up, hup, -⟩ i e he
    exact hinit up s.mode i e (hup i e he)
  · obtain ⟨e, he, hm⟩ := move_of_step hstep he'
    exact hmove s l i e e' hok hm (hs i e he)

theorem threads_of_leaves {up : StartUp} {mode : Mode} (h : up.Leaves mode i e) :
    e.threads = [] := by
  cases up with
  | constructed =>
    obtain rfl : e = {} := h
    rfl
  | started model path =>
    simp only [StartUp.Leaves] at h
    split_ifs at h
    · rw [h]
    · obtain ⟨pids, rfl⟩ := h
      rfl
  | startedPaused model path =>
    obtain rfl := h
    rfl

/-- Every thread of every engine stands within its coroutine. -/
theorem belongs_of_reach {ok : Pool → PoolLabel → Prop} (h : system.Reach ok s) :
    ∀ (i : Nat) (e : EngineSys), s.engines[i]? = some e → e.Belongs := by
  refine forall_engines_of_reach (fun up mode i e hup th hth => ?_) (fun s l i e e' _ hm hb => ?_) h
  · rw [threads_of_leaves hup] at hth
    cases hth
  · cases hm with
    | same => exact hb
    | startPaused => exact hb
    | spawn _ => exact hb.spawn
    | call _ hcall => exact hb.step hcall
    | run hrun => exact hb.step hrun

/-- Where task `j` comes from. -/
inductive TaskMove (s : Pool) (j : Nat) : PoolLabel → Task → Prop
  | same {l : PoolLabel} {task : Task} : s.tasks[j]? = some task → TaskMove s j l task
  | request {model : String} {stream : Bool} : j = s.tasks.length →
      TaskMove s j (.request model stream) ⟨.request model stream, .check⟩
  | resume : j = s.tasks.length → s.mode = .multiInstance →
      TaskMove s j .resume ⟨.resume, .resumeLoop 0⟩
  | run {o : TaskOutcome} {task : Task} {slice : TaskSlice} : s.tasks[j]? = some task →
      s.taskStep j task o = some slice → TaskMove s j (.task j o) ⟨task.op, slice.pc⟩

theorem getElem?_begin {task : Task} {j : Nat} {task' : Task}
    (h : (s.tasks ++ [task])[j]? = some task') :
    s.tasks[j]? = some task' ∨ j = s.tasks.length ∧ task' = task := by
  rw [List.getElem?_append] at h
  split_ifs at h with hlt
  · exact .inl h
  · rw [List.getElem?_singleton] at h
    split_ifs at h with hj
    exact .inr ⟨by omega, (Option.some.inj h).symm⟩

/-- **One task**: every step of the pool moves each task. -/
theorem taskMove_of_step {j : Nat} {task' : Task} (h : s.step l = some t)
    (hj : t.tasks[j]? = some task') : TaskMove s j l task' := by
  cases stepped_of_step h with
  | requestPause | startPaused | start _ | pause _ | resume _ _ | engine _ _ => exact .same hj
  | request =>
    obtain hold | ⟨hlen, rfl⟩ := getElem?_begin hj
    · exact .same hold
    · exact .request hlen
  | resumeLoop hmode =>
    obtain hold | ⟨hlen, rfl⟩ := getElem?_begin hj
    · exact .same hold
    · exact .resume hlen hmode
  | @task k o task slice es htask hslice _ =>
    by_cases hjk : k = j
    · subst hjk
      rw [List.getElem?_set_self (List.getElem?_eq_some_iff.mp htask).1] at hj
      obtain rfl := Option.some.inj hj
      exact .run htask hslice
    · rw [List.getElem?_set_ne hjk] at hj
      exact .same hj

theorem length_tasks_of_step (h : s.step l = some t) : s.tasks.length ≤ t.tasks.length := by
  cases stepped_of_step h with
  | request | resumeLoop _ => simp [begin]
  | task _ _ _ => simp
  | _ => exact Nat.le_refl _

/-- A task stays where it is, or makes a step. -/
theorem task_of_step {j : Nat} {task : Task} (h : s.step l = some t)
    (hj : s.tasks[j]? = some task) :
    t.tasks[j]? = some task ∨ ∃ o slice, l = .task j o ∧ s.taskStep j task o = some slice ∧
      t.tasks[j]? = some ⟨task.op, slice.pc⟩ := by
  have hlt : j < s.tasks.length := (List.getElem?_eq_some_iff.mp hj).1
  obtain ⟨task', htask'⟩ : ∃ task', t.tasks[j]? = some task' :=
    ⟨_, List.getElem?_eq_getElem (hlt.trans_le (length_tasks_of_step h))⟩
  cases taskMove_of_step h htask' with
  | same hold => exact .inl (htask'.trans (hold.symm.trans hj))
  | request hlen | resume hlen _ => omega
  | run hold hslice =>
    obtain rfl := Option.some.inj (hj.symm.trans hold)
    exact .inr ⟨_, _, rfl, hslice, htask'⟩

/-- What a task that runs leaves behind. -/
theorem task_of_run {j : Nat} {o : TaskOutcome} (h : s.step (.task j o) = some t) :
    ∃ task slice, s.tasks[j]? = some task ∧ s.taskStep j task o = some slice ∧
      t.tasks[j]? = some ⟨task.op, slice.pc⟩ ∧ s.perform slice.calls = some t.engines ∧
      t.ensured = slice.ensured := by
  cases stepped_of_step h with
  | task htask hslice hes =>
    exact ⟨_, _, htask, hslice,
      List.getElem?_set_self (List.getElem?_eq_some_iff.mp htask).1, hes, rfl⟩

/-- The engines after a task has run. -/
theorem engines_of_task {j : Nat} {o : TaskOutcome} {task : Task} {slice : TaskSlice}
    (h : s.step (.task j o) = some t) (htask : s.tasks[j]? = some task)
    (hslice : s.taskStep j task o = some slice) : s.perform slice.calls = some t.engines := by
  obtain ⟨task', slice', htask', hslice', -, hengines, -⟩ := task_of_run h
  obtain rfl := Option.some.inj (htask.symm.trans htask')
  obtain rfl := Option.some.inj (hslice.symm.trans hslice')
  exact hengines

/-- The mode is fixed, and only the node's commands write `_pause_requested`. -/
theorem flag_of_step (h : s.step l = some t) :
    t.mode = s.mode ∧ (t.pauseRequested = s.pauseRequested ∨ l = .requestPause ∨
      l = .resume ∨ ∃ urgency, l = .pause urgency) := by
  cases stepped_of_step h with
  | requestPause => exact ⟨rfl, .inr (.inl rfl)⟩
  | resume _ _ | resumeLoop _ => exact ⟨rfl, .inr (.inr (.inl rfl))⟩
  | pause _ => exact ⟨rfl, .inr (.inr (.inr ⟨_, rfl⟩))⟩
  | _ => exact ⟨rfl, .inl rfl⟩

-- ════════════════════════════════════════════════════════════════════════
-- What a request does
-- ════════════════════════════════════════════════════════════════════════

/-- The stretches of a request, by where it stood. -/
inductive RequestSlice (s : Pool) (j : Nat) (model : String) (stream : Bool) :
    TaskPc → TaskOutcome → TaskSlice → Prop
  | check {pick : Nat} {slice : TaskSlice} :
      model = "default" ∨ modelMatches s.currentModel model →
      s.admitRequest model stream pick (s.stay .done) = some slice →
      RequestSlice s j model stream .check (.go pick) slice
  | checkLock {pick : Nat} : RequestSlice s j model stream .check (.go pick) (s.stay .lock)
  | lock {pick : Nat} {slice : TaskSlice} {l : AsyncLock Nat} : s.switchLock.grant j = some l →
      modelMatches s.currentModel model →
      s.admitRequest model stream pick { s.stay .done with switchLock := l.release } =
        some slice →
      RequestSlice s j model stream .lock (.go pick) slice
  | lockEnsure {pick : Nat} {l : AsyncLock Nat} : s.switchLock.grant j = some l →
      RequestSlice s j model stream .lock (.go pick) { s.stay .ensure with switchLock := l }
  | ensured {path : ModelPath} :
      RequestSlice s j model stream .ensure (.ensured path) (s.beginSwitch model path)
  | ensureFailed : RequestSlice s j model stream .ensure .ensureFailed
      { s.stay .done with switchLock := s.switchLock.release }
  | loopEnd {pick i : Nat} {path : ModelPath} {slice : TaskSlice} :
      s.engines[i]? = none ∨ s.pauseRequested = true →
      s.admitRequest model stream pick s.endSwitch = some slice →
      RequestSlice s j model stream (.switching path (.loop i)) (.go pick) slice
  | loopCall {pick i : Nat} {path : ModelPath} {e : EngineSys} : s.engines[i]? = some e →
      s.pauseRequested = false →
      RequestSlice s j model stream (.switching path (.loop i)) (.go pick)
        { s.stay (.switching path (.await i e.threads.length)) with
          calls := .engine i (.switchModel path) }
  | awaitReturned {pick i k : Nat} {path : ModelPath} :
      s.engines[i]?.bind (·.pcAt k) = some (.finished .returned) →
      RequestSlice s j model stream (.switching path (.await i k)) (.go pick)
        (s.stay (.switching path (.loop (i + 1))))
  | awaitRaised {pick i k : Nat} {path : ModelPath} :
      RequestSlice s j model stream (.switching path (.await i k)) (.go pick) s.endSwitch
  | gatherRaised {pick : Nat} {kids : List Nat} {path : ModelPath} :
      RequestSlice s j model stream (.switching path (.gather kids)) (.go pick) s.endSwitch
  | gatherReturned {pick : Nat} {kids : List Nat} {path : ModelPath} {slice : TaskSlice} :
      (s.engines.zipWith (·.pcAt ·) kids).all (· == some (.finished .returned)) →
      s.admitRequest model stream pick s.endSwitch = some slice →
      RequestSlice s j model stream (.switching path (.gather kids)) (.go pick) slice
  | streamStart {pick : Nat} {calls : Calls} : s.generate model pick = some calls →
      RequestSlice s j model stream .streamStart (.go pick) { s.stay .done with calls }

theorem requestSlice_of_switchStep {j pick : Nat} {model : String} {stream : Bool}
    {path : ModelPath} {pc : SwitchPc} {slice : TaskSlice}
    (h : s.switchStep model stream path pick pc = some slice) :
    RequestSlice s j model stream (.switching path pc) (.go pick) slice := by
  cases pc with
  | loop i =>
    simp only [switchStep] at h
    split at h
    · next hnone => exact .loopEnd (.inl hnone) h
    · next e he =>
      split_ifs at h with hpause
      · exact .loopEnd (.inr hpause) h
      · cases h
        exact .loopCall he (Bool.eq_false_iff.mpr hpause)
  | await i k =>
    simp only [switchStep] at h
    split at h
    · next hret =>
      cases h
      exact .awaitReturned hret
    · cases h
      exact .awaitRaised
    · cases h
  | gather kids =>
    simp only [switchStep] at h
    split_ifs at h with hraised hall
    · cases h
      exact .gatherRaised
    · exact .gatherReturned hall h

theorem requestSlice_of_step {j : Nat} {model : String} {stream : Bool} {pc : TaskPc}
    {o : TaskOutcome} {slice : TaskSlice} (h : s.requestStep j model stream pc o = some slice) :
    RequestSlice s j model stream pc o slice := by
  unfold requestStep at h
  split at h
  · split_ifs at h with hdefault hmatch
    · exact .check (.inl hdefault) h
    · exact .check (.inr hmatch) h
    · cases h
      exact .checkLock
  · obtain ⟨l, hl, h⟩ := Option.bind_eq_some_iff.mp h
    split_ifs at h with hmatch
    · exact .lock hl hmatch h
    · cases h
      exact .lockEnsure hl
  · cases h
    exact .ensured
  · cases h
    exact .ensureFailed
  · exact requestSlice_of_switchStep h
  · obtain ⟨calls, hcalls, rfl⟩ := Option.map_eq_some_iff.mp h
    exact .streamStart hcalls
  · cases h

/-- Admission ends the handler, or calls an engine. -/
theorem admitRequest_cases {model : String} {stream : Bool} {pick : Nat} {slice₀ slice : TaskSlice}
    (h : s.admitRequest model stream pick slice₀ = some slice) :
    slice = { slice₀ with pc := .streamStart } ∨ slice = { slice₀ with pc := .done } ∨
      stream = false ∧ ∃ calls, s.generate model pick = some calls ∧
        slice = { slice₀ with pc := .done, calls } := by
  unfold admitRequest at h
  split_ifs at h with hav hstream
  · exact .inl (Option.some.inj h).symm
  · obtain ⟨calls, hcalls, rfl⟩ := Option.map_eq_some_iff.mp h
    exact .inr (.inr ⟨Bool.eq_false_iff.mpr hstream, calls, hcalls, rfl⟩)
  · exact .inr (.inl (Option.some.inj h).symm)

theorem generate_cases {model : String} {pick : Nat} {calls : Calls}
    (h : s.generate model pick = some calls) :
    calls = .nothing ∨ calls = .engine (s.target pick) (.generate model) := by
  unfold generate at h
  unfold target
  split at h
  · exact .inr (Option.some.inj h).symm
  · split_ifs at h
    · exact .inr (Option.some.inj h).symm
    · exact .inl (Option.some.inj h).symm

/-- What an admission calls, and where it goes. -/
theorem admitRequest_calls {model : String} {stream : Bool} {pick : Nat} {slice₀ slice : TaskSlice}
    (h : s.admitRequest model stream pick slice₀ = some slice) (h₀ : slice₀.calls = .nothing) :
    (slice.calls = .nothing ∨ slice.calls = .engine (s.target pick) (.generate model)) ∧
      (slice.pc = .streamStart ∨ slice.pc = .done) := by
  obtain rfl | rfl | ⟨-, calls, hcalls, rfl⟩ := admitRequest_cases h
  · exact ⟨.inl h₀, .inl rfl⟩
  · exact ⟨.inl h₀, .inr rfl⟩
  · exact ⟨generate_cases hcalls, .inr rfl⟩

/-- The stretches of the pool's `resume`. -/
theorem resumeStep_cases {pc : TaskPc} {o : TaskOutcome} {slice : TaskSlice}
    (h : s.resumeStep pc o = some slice) :
    (∃ i, pc = .resumeLoop i ∧ (s.engines[i]? = none ∨ s.pauseRequested = true) ∧
      slice = s.stay .done) ∨
    (∃ i e, pc = .resumeLoop i ∧ s.engines[i]? = some e ∧ s.pauseRequested = false ∧
      slice = { s.stay (.resumeAwait i e.threads.length) with calls := .engine i .resume }) ∨
    (∃ i k, pc = .resumeAwait i k ∧
      s.engines[i]?.bind (·.pcAt k) = some (.finished .returned) ∧
      slice = s.stay (.resumeLoop (i + 1))) ∨
    ∃ i k, pc = .resumeAwait i k ∧ s.engines[i]?.bind (·.pcAt k) = some (.finished .raised) ∧
      slice = s.stay .done := by
  unfold resumeStep at h
  split at h
  · next i pick =>
    split at h
    · next hnone =>
      cases h
      exact .inl ⟨i, rfl, .inl hnone, rfl⟩
    · next e he =>
      split_ifs at h with hpause
      · cases h
        exact .inl ⟨i, rfl, .inr hpause, rfl⟩
      · cases h
        exact .inr (.inl ⟨i, e, rfl, he, Bool.eq_false_iff.mpr hpause, rfl⟩)
  · next i k pick =>
    split at h
    · next hret =>
      cases h
      exact .inr (.inr (.inl ⟨i, k, rfl, hret, rfl⟩))
    · next hraise =>
      cases h
      exact .inr (.inr (.inr ⟨i, k, rfl, hraise, rfl⟩))
    · cases h
  · cases h

/-- A call that a task's step makes. -/
theorem called_task_cases {o : TaskOutcome} {calls : Calls} (h : s.called (.task k o) = calls)
    (hne : calls ≠ .nothing) :
    ∃ task slice, s.tasks[k]? = some task ∧ s.taskStep k task o = some slice ∧
      slice.calls = calls := by
  cases htask : s.tasks[k]? with
  | none =>
    simp only [called, htask] at h
    exact absurd h.symm hne
  | some task =>
    cases hslice : s.taskStep k task o with
    | none =>
      simp only [called, htask, Option.bind_some, hslice] at h
      exact absurd h.symm hne
    | some slice =>
      rw [called_task htask hslice] at h
      exact ⟨task, slice, rfl, hslice, h⟩

end Pool

end OpenModel.Inference
