import OpenModel.Inference.NamedWeights
import OpenModel.Inference.SwitchLock

/-!
# The model that serves a request

A request compares its model with the recorded path of engine 0 alone, before it knows which
engine will serve it and, if it streams, before its generator has started. When it switches the
pool itself, `request_pause` can stop the switch between two engines, and the handler goes on
as if the switch were complete.

In the runs of `Faithful` a request that did not switch every engine itself is only sent to
engines with a path that `ensure_model` returned for its model, a `gather` that raised has left
no switch behind when the next one begins, and the engines keep the weights of their recorded
path (`VLLMEngine.truthfulRun`). There every result comes from weights that `ensure_model`
returned for the model that the request names.

## Main results

- `Pool.servingCall_of_called`: what such a run calls on an engine
- `Pool.servedByNamed_of_reach`: every result comes from the named model
- `Pool.abortedSwitch_not_servedByNamed`: a stopped switch serves the old model
-/

namespace OpenModel.Inference

open Transition (System)

/-- How far a switch of the pool to `path` has come on engine `i`. -/
def SwitchPc.Progress (path : ModelPath) (i : Nat) (e : EngineSys) : SwitchPc → Prop
  | .loop n => e.SwitchesOver ∧ (i < n → e.engine.model = path)
  | .await n k =>
    if i = n then e.Follows k path else e.SwitchesOver ∧ (i < n → e.engine.model = path)
  | .gather kids => ∃ k, kids[i]? = some k ∧ e.Follows k path

/-- No switch of this engine began on the way from `e` to `e'`. -/
structure EngineSys.Steady (e e' : EngineSys) : Prop where
  switchesOver : e.SwitchesOver → e'.SwitchesOver ∧ e'.engine.model = e.engine.model
  follows : ∀ k path, e.Follows k path → e'.Follows k path

namespace EngineSys.Steady

variable {e e' e'' : EngineSys}

theorem refl : e.Steady e := ⟨fun h => ⟨h, rfl⟩, fun _ _ h => h⟩

theorem trans (h : e.Steady e') (h' : e'.Steady e'') : e.Steady e'' := by
  refine ⟨fun hover => ?_, fun k path hfollows => h'.follows k path (h.follows k path hfollows)⟩
  obtain ⟨hover, hmodel⟩ := h.switchesOver hover
  obtain ⟨hover, hmodel'⟩ := h'.switchesOver hover
  exact ⟨hover, hmodel'.trans hmodel⟩

theorem spawn {op : Op} (hop : op.isSwitch = false) : e.Steady (e.spawn op) :=
  ⟨fun h => ⟨h.spawn hop, rfl⟩, fun _ _ h => h.spawn hop⟩

theorem runThread {k : Nat} {o : Outcome} (he : e.Tracked) (hrun : e.runThread k o = some e') :
    e.Steady e' :=
  ⟨fun h => h.runThread he hrun, fun _ _ h => h.runThread he hrun⟩

theorem progress (h : e.Steady e') {path : ModelPath} {i : Nat} {pc : SwitchPc}
    (hp : pc.Progress path i e) : pc.Progress path i e' := by
  have hover {n : Nat} (hp : e.SwitchesOver ∧ (i < n → e.engine.model = path)) :
      e'.SwitchesOver ∧ (i < n → e'.engine.model = path) := by
    obtain ⟨hover, hmodel⟩ := h.switchesOver hp.1
    exact ⟨hover, fun hin => hmodel.trans (hp.2 hin)⟩
  cases pc with
  | loop n => exact hover hp
  | await n k =>
    simp only [SwitchPc.Progress] at hp ⊢
    split_ifs at hp ⊢
    · exact h.follows k path hp
    · exact hover hp
  | gather kids =>
    obtain ⟨k, hk, hfollows⟩ := hp
    exact ⟨k, hk, h.follows k path hfollows⟩

end EngineSys.Steady

namespace Pool

variable {s t : Pool} {l : PoolLabel} {i j : Nat} {e e' : EngineSys}

-- ════════════════════════════════════════════════════════════════════════
-- The runs
-- ════════════════════════════════════════════════════════════════════════

/-- `ensure_model` returned `path` for `model`, which may stay unnamed. -/
def Named (s : Pool) (model : String) (path : ModelPath) : Prop :=
  model = "default" ∨ (model, path) ∈ s.ensured

/-- Every result for a named model was produced by weights that `ensure_model` returned for
it. -/
def ServedByNamed (s : Pool) : Prop :=
  ∀ (i k : Nat) (e : EngineSys) (th : Thread) (model : String) (weights : ModelPath),
    s.engines[i]? = some e → e.threads[k]? = some th → th.op = .generate model →
      model ≠ "default" → th.pc = .finished (.served weights) → (model, weights) ∈ s.ensured

/-- The next stretch of this task can send its request to an engine without a switch of its own
that went through all engines. -/
def sendsUnswitched (s : Pool) (task : Task) : Bool :=
  match task.op, task.pc with
  | .request model false, .check | .request model false, .lock => modelMatches s.currentModel model
  | .request _ false, .switching _ (.loop i) => decide (i < s.engines.length) && s.pauseRequested
  | .request _ _, .streamStart => true
  | _, _ => false

/-- If engine `i` takes a request of this task, it has recorded a path of its model. -/
def Routed (s : Pool) (task : Task) (i : Nat) : Prop :=
  match task.op with
  | .resume => True
  | .request model _ => ∀ e ∈ s.engines[i]?, e.engine.isAvailable → s.Named model e.engine.model

/-- The steps of the runs described above. -/
def Faithful (s : Pool) : PoolLabel → Prop
  | .start _ | .startPaused _ => False
  | .task _ (.ensured _) => s.mode = .tensorParallel → ∀ e ∈ s.engines, e.SwitchesOver
  | .task j (.go pick) =>
    ∀ task ∈ s.tasks[j]?, s.sendsUnswitched task → s.Routed task (s.target pick)
  | .engine i k o => ∀ e ∈ s.engines[i]?, ∀ pc ∈ e.pcAt k, e.engine.truthfulRun pc o
  | _ => True

/-- What holds in these runs. -/
structure Serving (s : Pool) : Prop where
  tracked : ∀ (i : Nat) (e : EngineSys), s.engines[i]? = some e → e.Tracked
  serves : ∀ (i : Nat) (e : EngineSys), s.engines[i]? = some e → e.Serves s.Named
  ensured : ∀ (j : Nat) (task : Task) (path : ModelPath) (pc : SwitchPc) (model : String)
    (stream : Bool), s.tasks[j]? = some task → task.pc = .switching path pc →
      task.op = .request model stream → (model, path) ∈ s.ensured
  progress : ∀ (j : Nat) (task : Task) (path : ModelPath) (pc : SwitchPc),
    s.tasks[j]? = some task → task.pc = .switching path pc →
      ∀ (i : Nat) (e : EngineSys), s.engines[i]? = some e → pc.Progress path i e
  sequential : s.mode = .multiInstance → ∀ (j : Nat) (task : Task) (path : ModelPath)
    (pc : SwitchPc), s.tasks[j]? = some task → task.pc = .switching path pc → pc.sequential
  switchesOver : s.mode = .multiInstance → s.NoSwitching →
    ∀ (i : Nat) (e : EngineSys), s.engines[i]? = some e → e.SwitchesOver

-- ════════════════════════════════════════════════════════════════════════
-- Calls
-- ════════════════════════════════════════════════════════════════════════

/-- What these runs call. -/
inductive ServingCall (s : Pool) : PoolLabel → Calls → Prop
  | nothing {l : PoolLabel} : ServingCall s l .nothing
  | pause {urgency : YieldUrgency} : ServingCall s (.pause urgency) (.gather (.pause urgency))
  | resume : ServingCall s .resume (.gather .resume)
  | resumeNext {j i : Nat} {o : TaskOutcome} : ServingCall s (.task j o) (.engine i .resume)
  | generate {j i : Nat} {o : TaskOutcome} {model : String} :
      (∀ e ∈ s.engines[i]?, e.engine.isAvailable → s.Named model e.engine.model) →
      ServingCall s (.task j o) (.engine i (.generate model))
  | switchNext {j i : Nat} {o : TaskOutcome} {task : Task} {path : ModelPath} :
      s.tasks[j]? = some task → task.pc = .switching path (.loop i) →
      ServingCall s (.task j o) (.engine i (.switchModel path))
  | switchAll {j : Nat} {task : Task} {path : ModelPath} : s.tasks[j]? = some task →
      task.pc = .ensure → s.mode = .tensorParallel → ServingCall s (.task j (.ensured path)) (.gather (.switchModel path))

theorem servingCall_of_generate {o : TaskOutcome} {model : String} {pick : Nat} {calls : Calls}
    (hrouted : ∀ e ∈ s.engines[s.target pick]?, e.engine.isAvailable →
      s.Named model e.engine.model)
    (h : s.generate model pick = some calls) : ServingCall s (.task j o) calls := by
  obtain rfl | rfl := generate_cases h
  · exact .nothing
  · exact .generate hrouted

/-- An admitted request, when the engines that can take it are right. -/
theorem servingCall_of_admit {o : TaskOutcome} {model : String} {stream : Bool} {pick : Nat}
    {slice₀ slice : TaskSlice}
    (hrouted : stream = false → ∀ e ∈ s.engines[s.target pick]?, e.engine.isAvailable →
      s.Named model e.engine.model)
    (h₀ : slice₀.calls = .nothing) (h : s.admitRequest model stream pick slice₀ = some slice) :
    ServingCall s (.task j o) slice.calls := by
  obtain rfl | rfl | ⟨hstream, calls, hcalls, rfl⟩ := admitRequest_cases h
  · rw [h₀]
    exact .nothing
  · rw [h₀]
    exact .nothing
  · exact servingCall_of_generate (hrouted hstream) hcalls

/-- A complete switch leaves its path on every engine. -/
theorem model_of_loopEnd (h : s.Serving) {task : Task} {path : ModelPath} {n : Nat}
    (hj : s.tasks[j]? = some task) (hpc : task.pc = .switching path (.loop n))
    (hnone : s.engines[n]? = none) (he : s.engines[i]? = some e) : e.engine.model = path := by
  have hlt := (List.getElem?_eq_some_iff.mp he).1
  rw [List.getElem?_eq_none_iff] at hnone
  exact (h.progress j task path _ hj hpc i e he).2 (by omega)

theorem model_of_gather (h : s.Serving) {task : Task} {path : ModelPath} {kids : List Nat}
    (hj : s.tasks[j]? = some task) (hpc : task.pc = .switching path (.gather kids))
    (hall : (s.engines.zipWith (·.pcAt ·) kids).all (· == some (.finished .returned)))
    (he : s.engines[i]? = some e) : e.engine.model = path := by
  obtain ⟨k, hk, hfollows⟩ := h.progress j task path _ hj hpc i e he
  have hmem : e.pcAt k ∈ s.engines.zipWith (·.pcAt ·) kids := by
    refine List.mem_of_getElem? (i := i) ?_
    simp [List.getElem?_zipWith, he, hk]
  have hreturned := List.all_eq_true.mp hall _ hmem
  exact (hfollows.returned (beq_iff_eq.mp hreturned)).2

theorem servingCall_of_request (h : s.Serving) {o : TaskOutcome} {model : String} {stream : Bool}
    {pc : TaskPc} {slice : TaskSlice} (hj : s.tasks[j]? = some ⟨.request model stream, pc⟩)
    (hok : s.Faithful (.task j o)) (hslice : RequestSlice s j model stream pc o slice) :
    ServingCall s (.task j o) slice.calls := by
  cases hslice with
  | check hmatch hadmit =>
    refine servingCall_of_admit ?_ rfl hadmit
    rintro rfl e he hav
    obtain hdefault | hmatch := hmatch
    · exact .inl hdefault
    · exact hok _ hj hmatch e he hav
  | lock _ hmatch hadmit =>
    refine servingCall_of_admit ?_ rfl hadmit
    rintro rfl e he hav
    exact hok _ hj hmatch e he hav
  | @loopEnd pick n path slice hend hadmit =>
    refine servingCall_of_admit ?_ rfl hadmit
    rintro rfl e he hav
    cases hn : s.engines[n]? with
    | none =>
      rw [model_of_loopEnd h hj rfl hn he]
      exact .inr (h.ensured j _ _ _ model false hj rfl rfl)
    | some e' =>
      have hpause := hend.resolve_left (by simp [hn])
      refine hok _ hj ?_ e he hav
      simp [sendsUnswitched, hpause, (List.getElem?_eq_some_iff.mp hn).1]
  | gatherReturned hall hadmit =>
    refine servingCall_of_admit (fun _ e he _ => ?_) rfl hadmit
    rw [model_of_gather h hj rfl hall he]
    exact .inr (h.ensured j _ _ _ model stream hj rfl rfl)
  | streamStart hgen => exact servingCall_of_generate (hok _ hj (by cases stream <;> rfl)) hgen
  | loopCall _ _ => exact .switchNext hj rfl
  | ensured =>
    unfold beginSwitch
    split
    · exact .nothing
    · next hmode => exact .switchAll hj rfl hmode
  | _ => exact .nothing

/-- **Inversion**: the calls of these runs. -/
theorem servingCall_of_called (h : s.Serving) (hok : s.Faithful l) :
    ServingCall s l (s.called l) := by
  cases l with
  | task j o =>
    by_cases hcalls : s.called (.task j o) = .nothing
    · rw [hcalls]
      exact .nothing
    · obtain ⟨⟨op, pc⟩, slice, hj, hslice, hsame⟩ := called_task_cases rfl hcalls
      rw [← hsame]
      cases op with
      | resume =>
        obtain ⟨i, -, -, rfl⟩ | ⟨i, e, -, -, -, rfl⟩ | ⟨i, k, -, -, rfl⟩ | ⟨i, k, -, -, rfl⟩ :=
          resumeStep_cases hslice
        · exact .nothing
        · exact .resumeNext
        · exact .nothing
        · exact .nothing
      | request model stream => exact servingCall_of_request h hj hok (requestSlice_of_step hslice)
  | resume =>
    simp only [called, callsOf]
    split
    · exact .resume
    · exact .nothing
  | start path => exact hok.elim
  | pause urgency => exact .pause
  | _ => exact .nothing

-- ════════════════════════════════════════════════════════════════════════
-- One engine
-- ════════════════════════════════════════════════════════════════════════

theorem ServingCall.op_ne {calls : Calls} (h : ServingCall s l calls) {op : Op}
    (hop : calls = .gather op ∨ calls = .engine i op) : op ≠ .stop ∧ op.isStart = false := by
  cases h <;> obtain hop | hop := hop <;> cases hop <;> exact ⟨Op.noConfusion, rfl⟩

theorem tracked_of_move (hcalled : ServingCall s l (s.called l)) (hok : s.Faithful l)
    (he : s.engines[i]? = some e) (hm : Move s i e l e') (htracked : e.Tracked) : e'.Tracked := by
  cases hm with
  | same => exact htracked
  | startPaused => exact hok.elim
  | spawn hspawn =>
    obtain ⟨hop, hstart⟩ := hcalled.op_ne (i := i) (.inl hspawn)
    exact htracked.spawn hop hstart
  | call hcall hstep =>
    obtain ⟨hop, hstart⟩ := hcalled.op_ne (.inr hcall)
    exact htracked.call hop hstart hstep
  | run hrun =>
    exact htracked.runThread (fun pc hpc => hok e he pc hpc) (EngineSys.runThread_of_run hrun)

/-- A request that is sent to an engine gets the weights of the recorded path. -/
theorem serves_of_move (hcalled : ServingCall s l (s.called l)) (hok : s.Faithful l)
    (he : s.engines[i]? = some e) (hm : Move s i e l e') (htracked : e.Tracked)
    (hserves : e.Serves s.Named) : e'.Serves s.Named := by
  cases hm with
  | same => exact hserves
  | startPaused => exact hok.elim
  | spawn hspawn =>
    rw [hspawn] at hcalled
    refine hserves.spawn ?_
    rintro model rfl
    cases hcalled
  | call hcall hstep =>
    rw [hcall] at hcalled
    refine hserves.call ?_ hstep
    rintro model rfl hav c hc
    cases hcalled with
    | generate hrouted =>
      simp only [VLLMEngine.isAvailable, Bool.and_eq_true, beq_iff_eq] at hav
      rw [htracked.model_of_running hav.1 c hc]
      exact hrouted e he (by simp [VLLMEngine.isAvailable, hav])
  | run hrun =>
    exact hserves.runThread (EngineSys.runThread_of_run hrun)

/-- A move that calls no switch on this engine. -/
theorem steady_of_move (hok : s.Faithful l) (hm : Move s i e l e') (htracked : e.Tracked)
    (hop : ∀ op, s.called l = .gather op ∨ s.called l = .engine i op → op.isSwitch = false)
    (hcalled : ServingCall s l (s.called l)) : e.Steady e' := by
  cases hm with
  | same => exact .refl
  | startPaused => exact hok.elim
  | spawn hspawn => exact .spawn (hop _ (.inl hspawn))
  | call hcall hstep =>
    obtain ⟨hstop, hstart⟩ := hcalled.op_ne (.inr hcall)
    exact (EngineSys.Steady.spawn (hop _ (.inr hcall))).trans
      (.runThread (htracked.spawn hstop hstart) (EngineSys.runThread_of_call hstep))
  | run hrun =>
    exact .runThread htracked (EngineSys.runThread_of_run hrun)

-- ════════════════════════════════════════════════════════════════════════
-- Switches of the pool
-- ════════════════════════════════════════════════════════════════════════

/-- Whoever calls a switch holds the switch lock. -/
theorem ServingCall.holds {calls : Calls} (h : ServingCall s l calls) {op : Op}
    (hop : calls = .gather op ∨ calls = .engine i op) (hswitch : op.isSwitch) :
    ∃ j o, l = .task j o ∧ s.TaskAt TaskPc.holds j := by
  cases h with
  | switchNext hj hpc => exact ⟨_, _, rfl, _, hj, by rw [hpc]; rfl⟩
  | switchAll hj hpc _ => exact ⟨_, _, rfl, _, hj, by rw [hpc]; rfl⟩
  | _ => obtain hop | hop := hop <;> cases hop <;> cases hswitch

theorem ServingCall.not_switch {calls : Calls} (h : ServingCall s l calls) (hns : s.NoSwitching)
    (hmode : s.mode = .multiInstance) {op : Op}
    (hop : calls = .gather op ∨ calls = .engine i op) : op.isSwitch = false := by
  cases h with
  | switchNext hj hpc => exact absurd hpc (hns _ _ hj _ _)
  | switchAll _ _ htensor => cases hmode.symm.trans htensor
  | _ => obtain hop | hop := hop <;> cases hop <;> rfl

/-- While another task or thread runs, a switch of the pool stays where it is. -/
theorem progress_of_other (h : s.Serving) (hlock : s.SwitchLockAgrees) (hok : s.Faithful l)
    (hstep : s.step l = some t) {task : Task} {path : ModelPath} {pc : SwitchPc}
    (hj : s.tasks[j]? = some task) (hpc : task.pc = .switching path pc)
    (hl : ∀ o, l ≠ .task j o) (he' : t.engines[i]? = some e') : pc.Progress path i e' := by
  obtain ⟨e, he, hm⟩ := move_of_step hstep he'
  have hcalled := servingCall_of_called h hok
  refine (steady_of_move hok hm (h.tracked i e he) (fun op hop => ?_) hcalled).progress
    (h.progress j task path pc hj hpc i e he)
  by_contra hswitch
  obtain ⟨k, o, rfl, hholds⟩ := hcalled.holds hop (by simpa using hswitch)
  have hjk : k = j := hlock.unique k j hholds ⟨task, hj, by rw [hpc]; rfl⟩
  exact hl o (by rw [hjk])

theorem beginSwitch_ensured {model : String} {path : ModelPath} :
    (s.beginSwitch model path).ensured = s.ensured ++ [(model, path)] := by
  unfold beginSwitch
  split <;> rfl

theorem path_of_begin {model : String} {path path' : ModelPath} {pc : SwitchPc}
    (hpc : (s.beginSwitch model path).pc = .switching path' pc) : path = path' := by
  unfold beginSwitch at hpc
  split at hpc <;> exact (TaskPc.switching.inj hpc).1

/-- A switch of the pool begins. -/
theorem progress_of_begin {model : String} {path : ModelPath} {pc : SwitchPc}
    (hover : ∀ e ∈ s.engines, e.SwitchesOver)
    (hperform : s.perform (s.beginSwitch model path).calls = some t.engines)
    (hpc : (s.beginSwitch model path).pc = .switching path pc)
    (he' : t.engines[i]? = some e') : pc.Progress path i e' := by
  cases hmode : s.mode with
  | multiInstance =>
    simp only [beginSwitch, hmode] at hperform hpc
    cases hpc
    have hengines : s.engines = t.engines := Option.some.inj hperform
    rw [← hengines] at he'
    exact ⟨hover e' (List.mem_of_getElem? he'), fun h => absurd h (Nat.not_lt_zero i)⟩
  | tensorParallel =>
    simp only [beginSwitch, hmode] at hperform hpc
    cases hpc
    have hengines : s.engines.map (·.spawn (.switchModel path)) = t.engines :=
      Option.some.inj hperform
    rw [← hengines, List.getElem?_map] at he'
    obtain ⟨e, he, rfl⟩ := Option.map_eq_some_iff.mp he'
    exact ⟨e.threads.length, by simp [he], .of_spawn (hover e (List.mem_of_getElem? he))⟩

/-- The loop of `switch_model` calls the next engine. -/
theorem progress_of_call (h : s.Serving) {task : Task} {path : ModelPath} {n : Nat}
    {e₀ : EngineSys} (hj : s.tasks[j]? = some task) (hpc : task.pc = .switching path (.loop n))
    (hn : s.engines[n]? = some e₀)
    (hperform : s.perform (.engine n (.switchModel path)) = some t.engines)
    (he' : t.engines[i]? = some e') :
    (SwitchPc.await n e₀.threads.length).Progress path i e' := by
  simp only [perform, hn, Option.bind_some, Option.map_eq_some_iff] at hperform
  obtain ⟨e₁, hcall, hengines⟩ := hperform
  rw [← hengines] at he'
  simp only [SwitchPc.Progress]
  obtain ⟨rfl, rfl⟩ | ⟨hin, he⟩ := getElem?_set_cases he'
  · rw [if_pos rfl]
    have hover := (h.progress j task path _ hj hpc i e₀ hn).1
    have htracked : (e₀.spawn (.switchModel path)).Tracked :=
      (h.tracked i e₀ hn).spawn Op.noConfusion rfl
    exact (EngineSys.Follows.of_spawn hover).runThread htracked (EngineSys.runThread_of_call hcall)
  · rw [if_neg hin]
    exact h.progress j task path _ hj hpc i e' he

/-- An engine has switched. -/
theorem progress_of_returned (h : s.Serving) {task : Task} {path : ModelPath} {n k : Nat}
    (hj : s.tasks[j]? = some task) (hpc : task.pc = .switching path (.await n k))
    (hret : s.engines[n]?.bind (·.pcAt k) = some (.finished .returned))
    (he : s.engines[i]? = some e) : (SwitchPc.loop (n + 1)).Progress path i e := by
  have hprogress := h.progress j task path _ hj hpc i e he
  simp only [SwitchPc.Progress] at hprogress ⊢
  split_ifs at hprogress with hin
  · subst hin
    rw [he] at hret
    obtain ⟨hover, hmodel⟩ := hprogress.returned hret
    exact ⟨hover, fun _ => hmodel⟩
  · exact ⟨hprogress.1, fun hlt => hprogress.2 (by omega)⟩

/-- While a request is in `ensure_model`, nobody is in `switch_model`. -/
theorem noSwitching_of_ensure (hlock : s.SwitchLockAgrees) {task : Task}
    (hj : s.tasks[j]? = some task) (hpc : task.pc = .ensure) : s.NoSwitching := by
  intro k task' hk path pc hpc'
  obtain rfl : j = k :=
    hlock.unique j k ⟨task, hj, by rw [hpc]; rfl⟩ ⟨task', hk, by rw [hpc']; rfl⟩
  obtain rfl := Option.some.inj (hj.symm.trans hk)
  cases hpc.symm.trans hpc'

/-- **The running task**: where it is in its switch, and for which path. -/
theorem progress_of_run (h : s.Serving) (hlock : s.SwitchLockAgrees) {o : TaskOutcome}
    (hok : s.Faithful (.task j o)) {task : Task} {slice : TaskSlice} {path : ModelPath} {pc : SwitchPc}
    (hj : s.tasks[j]? = some task) (hslice : s.taskStep j task o = some slice)
    (hperform : s.perform slice.calls = some t.engines) (hpc : slice.pc = .switching path pc) :
    (∀ (i : Nat) (e' : EngineSys), t.engines[i]? = some e' → pc.Progress path i e') ∧
      ∀ model stream, task.op = .request model stream → (model, path) ∈ slice.ensured := by
  obtain ⟨op, pc'⟩ := task
  cases op with
  | resume =>
    obtain ⟨i, -, -, rfl⟩ | ⟨i, e, -, -, -, rfl⟩ | ⟨i, k, -, -, rfl⟩ | ⟨i, k, -, -, rfl⟩ :=
      resumeStep_cases hslice <;> cases hpc
  | request model stream =>
    have hout {pick : Nat} {slice₀ : TaskSlice}
        (h : s.admitRequest model stream pick slice₀ = some slice) : False := by
      have hholds := (admitRequest_frame h).2.2
      rw [hpc] at hholds
      cases hholds
    cases requestSlice_of_step hslice with
    | check _ h | lock _ _ h | loopEnd _ h | gatherReturned _ h => exact (hout h).elim
    | checkLock | lockEnsure _ | ensureFailed | awaitRaised | gatherRaised | streamStart _ =>
      cases hpc
    | ensured =>
      obtain rfl := path_of_begin hpc
      have hover (e : EngineSys) (he : e ∈ s.engines) : e.SwitchesOver := by
        cases hmode : s.mode with
        | tensorParallel => exact hok hmode e he
        | multiInstance =>
          obtain ⟨i, hi⟩ := List.mem_iff_getElem?.mp he
          exact h.switchesOver hmode (noSwitching_of_ensure hlock hj rfl) i e hi
      refine ⟨fun i e' he' => progress_of_begin hover hperform hpc he', ?_⟩
      rintro model stream ⟨⟩
      simp [beginSwitch_ensured]
    | loopCall hn _ =>
      cases hpc
      refine ⟨fun i e' he' => progress_of_call h hj rfl hn hperform he', ?_⟩
      rintro model stream ⟨⟩
      exact h.ensured j _ _ _ _ _ hj rfl rfl
    | awaitReturned hret =>
      cases hpc
      have hengines : s.engines = t.engines := Option.some.inj hperform
      refine ⟨fun i e' he' => progress_of_returned h hj rfl hret (hengines ▸ he'), ?_⟩
      rintro model stream ⟨⟩
      exact h.ensured j _ _ _ _ _ hj rfl rfl

-- ════════════════════════════════════════════════════════════════════════
-- Every run
-- ════════════════════════════════════════════════════════════════════════

theorem ensured_of_taskStep {o : TaskOutcome} {task : Task} {slice : TaskSlice}
    (h : s.taskStep j task o = some slice) : s.ensured ⊆ slice.ensured := by
  obtain ⟨op, pc⟩ := task
  cases op with
  | resume =>
    obtain ⟨i, -, -, rfl⟩ | ⟨i, e, -, -, -, rfl⟩ | ⟨i, k, -, -, rfl⟩ | ⟨i, k, -, -, rfl⟩ :=
      resumeStep_cases h <;> exact List.Subset.refl _
  | request model stream =>
    cases requestSlice_of_step h with
    | check _ hadmit | lock _ _ hadmit | loopEnd _ hadmit | gatherReturned _ hadmit =>
      rw [(admitRequest_frame hadmit).2.1]
      exact List.Subset.refl _
    | ensured =>
      rw [beginSwitch_ensured]
      exact List.subset_append_left _ _
    | _ => exact List.Subset.refl _

/-- What `ensure_model` returned stays known. -/
theorem ensured_of_step (h : s.step l = some t) : s.ensured ⊆ t.ensured := by
  by_cases hl : ∃ j o, l = .task j o
  · obtain ⟨j, o, rfl⟩ := hl
    obtain ⟨task, slice, -, hslice, -, -, hensured⟩ := task_of_run h
    rw [hensured]
    exact ensured_of_taskStep hslice
  · rw [(switchLock_of_step h fun j o hjo => hl ⟨j, o, hjo⟩).2.1]
    exact List.Subset.refl _

theorem Named.step (hstep : s.step l = some t) {model : String} {path : ModelPath}
    (h : s.Named model path) : t.Named model path :=
  h.imp_right fun h => ensured_of_step hstep h

/-- Where a task that switches the pool comes from. -/
theorem switching_of_step (hstep : s.step l = some t) {task' : Task} {path : ModelPath}
    {pc : SwitchPc} (hj : t.tasks[j]? = some task') (hpc : task'.pc = .switching path pc) :
    (s.tasks[j]? = some task' ∧ ∀ o, l ≠ .task j o) ∨
      ∃ o task slice, l = .task j o ∧ s.tasks[j]? = some task ∧
        s.taskStep j task o = some slice ∧ s.perform slice.calls = some t.engines ∧
        t.ensured = slice.ensured ∧ task'.op = task.op ∧ slice.pc = .switching path pc := by
  by_cases hl : ∃ o, l = .task j o
  · obtain ⟨o, rfl⟩ := hl
    obtain ⟨task, slice, htask, hslice, htask', hperform, hensured⟩ := task_of_run hstep
    obtain rfl := Option.some.inj (htask'.symm.trans hj)
    exact .inr ⟨o, task, slice, rfl, htask, hslice, hperform, hensured, rfl, hpc⟩
  · refine .inl ⟨?_, fun o hlo => hl ⟨o, hlo⟩⟩
    cases taskMove_of_step hstep hj with
    | same hold => exact hold
    | request _ | resume _ _ => cases hpc
    | run _ _ => exact absurd ⟨_, rfl⟩ hl

/-- In `multi_instance` mode a switch goes from engine to engine. -/
theorem sequential_of_run (hmode : s.mode = .multiInstance) {o : TaskOutcome} {task : Task}
    {slice : TaskSlice} {path : ModelPath} {pc : SwitchPc}
    (hslice : s.taskStep j task o = some slice) (hpc : slice.pc = .switching path pc) :
    pc.sequential := by
  obtain ⟨op, pc'⟩ := task
  cases op with
  | resume =>
    obtain ⟨i, -, -, rfl⟩ | ⟨i, e, -, -, -, rfl⟩ | ⟨i, k, -, -, rfl⟩ | ⟨i, k, -, -, rfl⟩ :=
      resumeStep_cases hslice <;> cases hpc
  | request model stream =>
    cases requestSlice_of_step hslice with
    | check _ hadmit | lock _ _ hadmit | loopEnd _ hadmit | gatherReturned _ hadmit =>
      have hholds := (admitRequest_frame hadmit).2.2
      rw [hpc] at hholds
      cases hholds
    | ensured =>
      simp only [beginSwitch, hmode] at hpc
      cases hpc
      rfl
    | loopCall _ _ | awaitReturned _ =>
      cases hpc
      rfl
    | _ => cases hpc

/-- When a loop of `switch_model` ends, every engine has ended its switch. -/
theorem over_of_end (h : s.Serving) (hmode : s.mode = .multiInstance) {o : TaskOutcome}
    {task : Task} {slice : TaskSlice} {path : ModelPath} {pc : SwitchPc}
    (hj : s.tasks[j]? = some task) (hpc : task.pc = .switching path pc)
    (hslice : s.taskStep j task o = some slice)
    (hend : ∀ path pc, slice.pc ≠ .switching path pc) :
    (∀ (i : Nat) (e : EngineSys), s.engines[i]? = some e → e.SwitchesOver) ∧
      ∀ i op, slice.calls = .gather op ∨ slice.calls = .engine i op → op.isSwitch = false := by
  obtain ⟨op, pc'⟩ := task
  obtain rfl := hpc
  have hprogress := h.progress j _ path pc hj rfl
  cases op with
  | resume =>
    have hresume : s.resumeStep (.switching path pc) o = some slice := hslice
    obtain ⟨i, hloop, -⟩ | ⟨i, e, hloop, -⟩ | ⟨i, k, hloop, -⟩ | ⟨i, k, hloop, -⟩ :=
      resumeStep_cases hresume <;> cases hloop
  | request model stream =>
    cases requestSlice_of_step hslice with
    | loopEnd _ hadmit =>
      refine ⟨fun i e he => (hprogress i e he).1, fun i op hop => ?_⟩
      obtain hcalls | hcalls := (admitRequest_calls hadmit rfl).1
      · rw [hcalls] at hop
        obtain hop | hop := hop <;> cases hop
      · rw [hcalls] at hop
        obtain hop | hop := hop <;> cases hop
        rfl
    | loopCall _ _ | awaitReturned _ => exact absurd rfl (hend _ _)
    | @awaitRaised pick n k path =>
      refine ⟨fun i e he => ?_, fun i op hop => by obtain hop | hop := hop <;> cases hop⟩
      have hat := hprogress i e he
      simp only [SwitchPc.Progress] at hat
      split_ifs at hat with hin
      · subst hin
        simp only [taskStep, requestStep, switchStep, he, Option.bind_some] at hslice
        split at hslice
        · next hret => exact hat.switchesOver hret rfl
        · next hraised => exact hat.switchesOver hraised rfl
        · cases hslice
      · exact hat.1
    | gatherRaised | gatherReturned _ _ => cases h.sequential hmode j _ _ _ hj rfl

/-- Outside `switch_model` no engine is switching. -/
theorem over_of_step (h : s.Serving) (hok : s.Faithful l) (hstep : s.step l = some t)
    (hmode : s.mode = .multiInstance) (hns : t.NoSwitching) (he' : t.engines[i]? = some e') :
    e'.SwitchesOver := by
  have hcalled := servingCall_of_called h hok
  obtain ⟨e, he, hm⟩ := move_of_step hstep he'
  have hkeep (hover : e.SwitchesOver)
      (hop : ∀ op, s.called l = .gather op ∨ s.called l = .engine i op → op.isSwitch = false) :
      e'.SwitchesOver :=
    ((steady_of_move hok hm (h.tracked i e he) hop hcalled).switchesOver hover).1
  by_cases hold : s.NoSwitching
  · exact hkeep (h.switchesOver hmode hold i e he) fun op hop => hcalled.not_switch hold hmode hop
  · obtain ⟨j, task, hj, path, pc, hpc⟩ : ∃ (j : Nat) (task : Task), s.tasks[j]? = some task ∧
        ∃ path pc, task.pc = .switching path pc := by
      simpa [NoSwitching] using hold
    obtain hsame | ⟨o, slice, rfl, hslice, hj'⟩ := task_of_step hstep hj
    · exact absurd hpc (hns j task hsame path pc)
    · obtain ⟨hover, hcalls⟩ := over_of_end h hmode hj hpc hslice (hns j _ hj')
      refine hkeep (hover i e he) fun op hop => hcalls i op ?_
      rwa [called_task hj hslice] at hop

/-- **Step lemma**. -/
theorem Serving.step (h : s.Serving) (hlock : s.SwitchLockAgrees) (hok : s.Faithful l)
    (hstep : s.step l = some t) : t.Serving := by
  have hcalled := servingCall_of_called h hok
  have hmode : t.mode = s.mode := (flag_of_step hstep).1
  refine ⟨fun i e' he' => ?_, fun i e' he' => ?_,
    fun j task' path pc model stream hj hpc hop => ?_, fun j task' path pc hj hpc i e' he' => ?_,
    fun hmulti j task' path pc hj hpc => ?_, fun hmulti hns i e' he' => ?_⟩
  · obtain ⟨e, he, hm⟩ := move_of_step hstep he'
    exact tracked_of_move hcalled hok he hm (h.tracked i e he)
  · obtain ⟨e, he, hm⟩ := move_of_step hstep he'
    exact (serves_of_move hcalled hok he hm (h.tracked i e he) (h.serves i e he)).mono
      fun _ _ => Named.step hstep
  · obtain ⟨hold, -⟩ | ⟨o, task, slice, rfl, htask, hslice, hperform, hensured, hop', hpc'⟩ :=
      switching_of_step hstep hj hpc
    · exact ensured_of_step hstep (h.ensured j task' path pc model stream hold hpc hop)
    · rw [hensured]
      exact (progress_of_run h hlock hok htask hslice hperform hpc').2 model stream
        (hop'.symm.trans hop)
  · obtain ⟨hold, hl⟩ | ⟨o, task, slice, rfl, htask, hslice, hperform, -, -, hpc'⟩ :=
      switching_of_step hstep hj hpc
    · exact progress_of_other h hlock hok hstep hold hpc hl he'
    · exact (progress_of_run h hlock hok htask hslice hperform hpc').1 i e' he'
  · obtain ⟨hold, -⟩ | ⟨o, task, slice, -, -, hslice, -, -, -, hpc'⟩ :=
      switching_of_step hstep hj hpc
    · exact h.sequential (hmode ▸ hmulti) j task' path pc hold hpc
    · exact sequential_of_run (hmode ▸ hmulti) hslice hpc'
  · exact over_of_step h hok hstep (hmode ▸ hmulti) hns he'

/-- The core that the start-up left has the weights of its path. -/
theorem model_of_leaves {up : StartUp} {mode : Mode} (h : up.Leaves mode i e) :
    ∀ c ∈ e.engine.core, c.model = e.engine.model := by
  cases up with
  | constructed =>
    obtain rfl : e = {} := h
    simp
  | started model path =>
    simp only [StartUp.Leaves] at h
    split_ifs at h
    · simp [h]
    · obtain ⟨pids, rfl⟩ := h
      simp
  | startedPaused model path =>
    obtain rfl := h
    simp

theorem tracked_of_leaves {up : StartUp} {mode : Mode} (h : up.Leaves mode i e) : e.Tracked := by
  have hsound := sound_of_leaves h
  refine ⟨hsound.lock, hsound.own, hsound.belongs, ?_, fun c hc => .inl (model_of_leaves h c hc)⟩
  simp [threads_of_leaves h]

theorem serving_of_init (h : s.init) : s.Serving := by
  obtain ⟨up, hup, hs⟩ := h
  have htasks : s.tasks = [] := by rw [hs]
  refine ⟨fun i e he => tracked_of_leaves (hup i e he), fun i e he k th hth => ?_, ?_, ?_, ?_,
    fun _ _ i e he th hth => ?_⟩
  · simp [threads_of_leaves (hup i e he)] at hth
  · simp [htasks]
  · simp [htasks]
  · simp [htasks]
  · simp [threads_of_leaves (hup i e he)] at hth

/-- **Run lemma**. -/
theorem serving_of_reach (h : system.Reach Faithful s) : s.Serving :=
  h.invariant_of (fun _ => switchLockAgrees_of_reach) (fun _ => serving_of_init)
    fun _ _ _ hlock hs hok hstep => hs.step hlock hok hstep

/-- **The named model**: in a faithful run every result for a named model comes from weights
that `ensure_model` returned for it. -/
theorem servedByNamed_of_reach (h : system.Reach Faithful s) : s.ServedByNamed := by
  intro i k e th model weights he hth hop hnamed hpc
  obtain ⟨-, hserved⟩ := (serving_of_reach h).serves i e he k th hth model hop
  exact (hserved weights (by rw [hpc]; rfl)).resolve_left hnamed

instance (e : EngineSys) : Decidable e.SwitchesOver :=
  inferInstanceAs (Decidable (∀ th ∈ e.threads, _ → _))

instance (s : Pool) (model : String) (path : ModelPath) : Decidable (s.Named model path) :=
  inferInstanceAs (Decidable (_ ∨ _))

instance (s : Pool) (task : Task) (i : Nat) : Decidable (s.Routed task i) :=
  match task with
  | ⟨.resume, _⟩ => .isTrue trivial
  | ⟨.request _ _, _⟩ => inferInstanceAs (Decidable (∀ e ∈ s.engines[i]?, _ → _))

instance (s : Pool) (l : PoolLabel) : Decidable (s.Faithful l) :=
  match l with
  | .start _ | .startPaused _ => .isFalse id
  | .task _ (.ensured _) => inferInstanceAs (Decidable (_ → ∀ e ∈ s.engines, _))
  | .task j (.go _) => inferInstanceAs (Decidable (∀ task ∈ s.tasks[j]?, _ → _))
  | .engine i _ _ => inferInstanceAs (Decidable (∀ e ∈ s.engines[i]?, ∀ pc ∈ e.pcAt _, _))
  | .task _ .ensureFailed | .requestPause | .pause _ | .resume | .request _ _ => .isTrue trivial

/-- Two RUNNING engines with the same weights. -/
def runningPair : Pool where
  mode := .multiInstance
  engines := List.replicate 2
    { engine := { state := .running, core := some ⟨"a"⟩, model := "a", loads := 1 } }
  ensured := [("a", "a")]

theorem init_runningPair : runningPair.init := by
  refine ⟨.started "a" "a", fun i e he => ?_, rfl⟩
  obtain rfl := List.eq_of_mem_replicate (List.mem_of_getElem? he)
  exact ⟨[], rfl⟩

/-- A request for "b" comes to its switch, which takes the first engine to the new model. -/
def switchFirst : List PoolLabel :=
  [.request "b" false, .task 0 (.go 0), .task 0 (.go 0), .task 0 (.ensured "b"), .task 0 (.go 0)] ++
    List.replicate 8 (.engine 0 0 .go) ++
    [.engine 0 0 (.created []), .engine 0 0 .go, .task 0 (.go 0)]

/-- Then the second, which serves the request. -/
def switchSecond : List PoolLabel :=
  [.task 0 (.go 0)] ++ List.replicate 8 (.engine 1 0 .go) ++
    [.engine 1 0 (.created []), .engine 1 0 .go, .task 0 (.go 0), .task 0 (.go 1),
      .engine 1 1 .output, .engine 1 1 .ended]

/-- A complete switch serves the new model. -/
theorem servedByNamed_switchedPair :
    ∃ (s : Pool) (e : EngineSys) (th : Thread), s.engines[1]? = some e ∧
      e.threads[1]? = some th ∧ th = ⟨.generate "b", .finished (.served "b"), 0⟩ ∧ s.ServedByNamed := by
  let switched (threads : List Thread) : EngineSys :=
    { engine := { state := .running, core := some ⟨"b"⟩, model := "b", loads := 2 }
      threads := ⟨.switchModel "b", .finished .returned, 1⟩ :: threads }
  let s : Pool :=
    { runningPair with
      engines := [switched [], switched [⟨.generate "b", .finished (.served "b"), 0⟩]]
      tasks := [⟨.request "b" false, .done⟩]
      ensured := [("a", "a"), ("b", "b")] }
  have hrun : system.execGuarded Faithful runningPair (switchFirst ++ switchSecond) = some s := by
    decide +kernel
  exact ⟨s, _, _, rfl, rfl, rfl, servedByNamed_of_reach (.execGuarded (.init init_runningPair) hrun)⟩

/-- `request_pause` comes when the first engine has switched: the switch stops, and the second
engine serves the request. -/
def stopBetween : List PoolLabel :=
  [.requestPause, .task 0 (.go 1), .engine 1 0 .output, .engine 1 0 .ended]

/-- A request for "b" is served by the weights "a". -/
theorem abortedSwitch_not_servedByNamed :
    ∃ s, system.Reach System.anyStep s ∧ ¬ s.ServedByNamed := by
  let first : EngineSys :=
    { engine := { state := .running, core := some ⟨"b"⟩, model := "b", loads := 2 }
      threads := [⟨.switchModel "b", .finished .returned, 1⟩] }
  let second : EngineSys :=
    { engine := { state := .running, core := some ⟨"a"⟩, model := "a", loads := 1 }
      threads := [⟨.generate "b", .finished (.served "a"), 0⟩] }
  let s : Pool :=
    { runningPair with
      engines := [first, second]
      pauseRequested := true
      tasks := [⟨.request "b" false, .done⟩]
      ensured := [("a", "a"), ("b", "b")] }
  have hrun : system.exec runningPair (switchFirst ++ stopBetween) = some s := by decide +kernel
  refine ⟨s, System.reach_of_exec init_runningPair hrun, fun hserved => ?_⟩
  have hmem := hserved 1 0 second _ "b" "a" rfl rfl rfl (by decide) rfl
  simp [s] at hmem

end Pool

end OpenModel.Inference
