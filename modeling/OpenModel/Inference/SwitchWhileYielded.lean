import OpenModel.Inference.Pool

/-!
# Model switches and the mining yield

`switch_model` of an engine drains, pauses and then resumes it like any other caller, and
its resume does not know of the yield. A switch is harmless to a pause that comes once its
own load has begun: the pause is then recorded for that load. Before that, the switch finds
PAUSED what the mining pause left PAUSED, and loads it.

A switch of the pool that is called during a yield is stopped only in `multi_instance` mode
and only by `_pause_requested`, which `start_paused` does not set.

## Main results

- `VLLMEngine.runPc_pastResume`: a switch whose load has begun starts no other
- `Pool.switchHeld_of_reach`: the runs in which no switch loads a yielded engine
-/

namespace OpenModel.Inference

open Transition (System)

def Op.isSwitch : Op → Bool
  | switchModel _ => true
  | _ => false

def ReloadCaller.isResume : ReloadCaller → Bool
  | resume _ => true
  | _ => false

/-- In the load of an own `resume`, or at the end. -/
def Pc.pastResume : Pc → Bool
  | load r | retrySleep r | lock (.reloadFinish r) | lock (.reloadGiveUp r)
  | destroy (.reload r) _ => r.caller.isResume
  | exitSleep | finished _ => true
  | _ => false

namespace VLLMEngine

variable {e : VLLMEngine} {r : Reload}

theorem reloadReturn_pastResume (h : r.caller.isResume) : (e.reloadReturn r.caller).pc.pastResume := by
  cases hc : r.caller with
  | resume c => cases c <;> rfl
  | pause c | recover => simp [hc, ReloadCaller.isResume] at h

theorem reloadFailed_pastResume (h : r.caller.isResume) : (e.reloadFailed r).pc.pastResume := by
  unfold reloadFailed
  split_ifs <;> exact h

theorem reloadFailed_state : (e.reloadFailed r).engine.state = e.state := by
  unfold reloadFailed
  split_ifs <;> rfl

theorem reloadReturn_state {c : ReloadCaller} : (e.reloadReturn c).engine.state = e.state := by
  rw [reloadReturn_eq]

/-- **A load that has begun** is the last that this thread begins. -/
theorem runPc_pastResume {k : Nat} {op : Op} {pc : Pc} {o : Outcome} {slice : Slice}
    (hpc : pc.pastResume) (h : e.runPc k op pc o = some slice) :
    slice.pc.pastResume ∧ (slice.engine.state = .loading → e.state = .loading) := by
  cases pc with
  | load r =>
    cases o <;> cases h
    · exact ⟨hpc, id⟩
    · refine ⟨reloadFailed_pastResume hpc, fun hs => ?_⟩
      rwa [reloadFailed_state] at hs
  | retrySleep r =>
    cases o <;> cases h
    exact ⟨hpc, id⟩
  | lock block =>
    obtain ⟨l, -, rfl⟩ := runPc_block h
    cases block with
    | reloadFinish r =>
      simp only [critical]
      split_ifs with hp
      · exact ⟨hpc, id⟩
      · refine ⟨reloadReturn_pastResume hpc, fun hs => ?_⟩
        rw [reloadReturn_state] at hs
        cases hs
    | reloadGiveUp r => exact ⟨rfl, fun hs => by cases hs⟩
    | _ => cases hpc
  | destroy t phase =>
    cases t with
    | reload r =>
      cases phase <;> cases o <;> cases h
      · exact ⟨by split_ifs <;> exact hpc, id⟩
      · exact ⟨hpc, id⟩
      · exact ⟨hpc, id⟩
      · refine ⟨reloadReturn_pastResume hpc, fun hs => ?_⟩
        rw [destroyed, reloadReturn_state] at hs
        cases hs
      · refine ⟨reloadFailed_pastResume hpc, fun hs => ?_⟩
        rwa [destroyRaised, reloadFailed_state] at hs
    | _ => cases hpc
  | exitSleep | finished result => cases o <;> cases h
  | _ => cases hpc

/-- The first stretch of a coroutine leaves the state alone. -/
theorem enter_state {op : Op} : (e.enter op).engine.state = e.state := by
  cases op with
  | switchModel new =>
    simp only [enter, switchEnter]
    split_ifs <;> rfl
  | generate requested =>
    simp only [enter, beginGenerate]
    split <;> rfl
  | _ => rfl

end VLLMEngine

namespace EngineSys

variable {s t : EngineSys} {k : Nat} {o : Outcome} {op : Op}

/-- Every switch of this engine has begun its load, or is over. -/
def PastResume (s : EngineSys) : Prop := ∀ th ∈ s.threads, th.op.isSwitch → th.pc.pastResume

theorem PastResume.spawn (h : s.PastResume) (hop : op.isSwitch = false) : (s.spawn op).PastResume := by
  intro th hth hswitch
  rcases List.mem_append.mp hth with hth | hth
  · exact h th hth hswitch
  · obtain rfl := List.mem_singleton.mp hth
    cases hop.symm.trans hswitch

theorem PastResume.runThread (h : s.PastResume) (hrun : s.runThread k o = some t) :
    t.PastResume := by
  obtain ⟨th, slice, hth, hslice, rfl⟩ := runThread_eq_some.mp hrun
  intro x hx hswitch
  obtain hx | ⟨hop, hpc⟩ | rfl := mem_settle hx
  · exact h x hx hswitch
  · rw [hpc]
    exact (VLLMEngine.runPc_pastResume (h th (List.mem_of_getElem? hth) (hop ▸ hswitch)) hslice).1
  · cases hswitch

theorem state_of_call (h : s.step (.call op) = some t) : t.engine.state = s.engine.state := by
  obtain ⟨slice, -, hslice, rfl⟩ := thread_of_call h
  cases hslice
  exact VLLMEngine.enter_state

end EngineSys

/-- A loop of the pool's `switch_model`, which looks at `_pause_requested`. -/
def SwitchPc.sequential : SwitchPc → Bool
  | loop _ | await _ _ => true
  | gather _ => false

namespace Pool

variable {s t : Pool} {l : PoolLabel}

/-- No switch will load an engine: those on the engines have begun their loads, and the
loops stop before the next engine. -/
structure SwitchesHeld (s : Pool) : Prop where
  engines : ∀ (i : Nat) (e : EngineSys), s.engines[i]? = some e → e.PastResume
  loops : ∀ (j : Nat) (task : Task) (path : ModelPath) (pc : SwitchPc), s.tasks[j]? = some task →
    task.pc = .switching path pc → pc.sequential → s.pauseRequested

/-- A mining pause comes when no switch is still to load; during a yield no switch of the
pool is called, or its loop is stopped by `_pause_requested`. -/
def YieldsClean (s : Pool) : PoolLabel → Prop
  | .pause _ => ∀ (i : Nat) (e : EngineSys), s.engines[i]? = some e → e.PastResume
  | .startPaused _ => s.SwitchesHeld
  | .task _ (.ensured _) => s.yielded → s.mode = .multiInstance ∧ s.pauseRequested
  | _ => True

/-- A load that begins during a yield does not belong to a switch. -/
def SwitchHeld (s : Pool) (l : PoolLabel) (t : Pool) : Prop :=
  s.yielded → ∀ (i : Nat) (e e' : EngineSys), s.engines[i]? = some e → t.engines[i]? = some e' →
    e.engine.state = .paused → e'.engine.state = .loading →
      ∃ k o th, l = .engine i k o ∧ e.threads[k]? = some th ∧ th.op.isSwitch = false

/-- Which switches a task calls, and how it comes to a loop of `switch_model`. -/
structure CallsSwitch (s : Pool) (task : Task) (o : TaskOutcome) (slice : TaskSlice) : Prop where
  engine : ∀ i op, slice.calls = .engine i op → op.isSwitch →
    ∃ path, task.pc = .switching path (.loop i) ∧ s.pauseRequested = false
  gather : ∀ op, slice.calls = .gather op →
    (∃ path, o = .ensured path) ∧ s.mode = .tensorParallel
  loops : ∀ path pc, slice.pc = .switching path pc → pc.sequential →
    (∃ pc', task.pc = .switching path pc' ∧ pc'.sequential) ∨ ∃ path, o = .ensured path

/-- A slice that calls no switch and does not come to a loop. -/
theorem callsSwitch_of_admit {task : Task} {o : TaskOutcome} {slice₀ slice : TaskSlice}
    {model : String} {stream : Bool} {pick : Nat}
    (h : s.admitRequest model stream pick slice₀ = some slice) (h₀ : slice₀.calls = .nothing) :
    s.CallsSwitch task o slice := by
  obtain ⟨hcalls, hpc⟩ := admitRequest_calls h h₀
  refine ⟨fun i op hop hswitch => ?_, fun op hop => ?_, fun path pc hsw => ?_⟩
  · obtain hc | hc := hcalls
    · cases hc.symm.trans hop
    · cases hc.symm.trans hop
      cases hswitch
  · obtain hc | hc := hcalls <;> cases hc.symm.trans hop
  · obtain hp | hp := hpc <;> cases hp.symm.trans hsw

theorem callsSwitch_of_stay {task : Task} {o : TaskOutcome} {slice : TaskSlice}
    (hcalls : slice.calls = .nothing) (hpc : ∀ path pc, slice.pc ≠ .switching path pc) :
    s.CallsSwitch task o slice := by
  refine ⟨fun i op hop => ?_, fun op hop => ?_, fun path pc hsw => absurd hsw (hpc path pc)⟩
  · cases hcalls.symm.trans hop
  · cases hcalls.symm.trans hop

theorem callsSwitch_of_step {j : Nat} {task : Task} {o : TaskOutcome} {slice : TaskSlice}
    (h : s.taskStep j task o = some slice) : s.CallsSwitch task o slice := by
  unfold taskStep at h
  split at h
  · obtain ⟨i, -, -, rfl⟩ | ⟨i, e, -, -, -, rfl⟩ | ⟨i, k, -, -, rfl⟩ | ⟨i, k, -, -, rfl⟩ :=
      resumeStep_cases h
    · exact callsSwitch_of_stay rfl fun _ _ => TaskPc.noConfusion
    · refine ⟨?_, ?_, ?_⟩
      · rintro i op ⟨⟩ hswitch
        cases hswitch
      · rintro op ⟨⟩
      · rintro path pc ⟨⟩
    · exact callsSwitch_of_stay rfl fun _ _ => TaskPc.noConfusion
    · exact callsSwitch_of_stay rfl fun _ _ => TaskPc.noConfusion
  · next model stream =>
    obtain ⟨op, pc⟩ := task
    cases requestSlice_of_step h with
    | check _ hadmit => exact callsSwitch_of_admit hadmit rfl
    | lock _ _ hadmit => exact callsSwitch_of_admit hadmit rfl
    | loopEnd _ hadmit => exact callsSwitch_of_admit hadmit rfl
    | gatherReturned _ hadmit => exact callsSwitch_of_admit hadmit rfl
    | checkLock | lockEnsure _ | ensureFailed | awaitRaised | gatherRaised =>
      exact callsSwitch_of_stay rfl fun _ _ => TaskPc.noConfusion
    | ensured =>
      rename_i path
      unfold beginSwitch
      cases hmode : s.mode with
      | tensorParallel =>
        refine ⟨?_, fun op _ => ⟨⟨path, rfl⟩, hmode⟩, fun _ _ _ _ => .inr ⟨path, rfl⟩⟩
        rintro i op ⟨⟩
      | multiInstance =>
        refine ⟨?_, ?_, fun _ _ _ _ => .inr ⟨path, rfl⟩⟩
        · rintro i op ⟨⟩
        · rintro op ⟨⟩
    | loopCall he hpause =>
      rename_i pick i path e
      refine ⟨?_, ?_, ?_⟩
      · rintro i op ⟨⟩ -
        exact ⟨path, rfl, hpause⟩
      · rintro op ⟨⟩
      · rintro path pc ⟨⟩ -
        exact .inl ⟨_, rfl, rfl⟩
    | awaitReturned hret =>
      refine ⟨?_, ?_, ?_⟩
      · rintro i op ⟨⟩
      · rintro op ⟨⟩
      · rintro path pc ⟨⟩ -
        exact .inl ⟨_, rfl, rfl⟩
    | streamStart hgen =>
      refine ⟨fun i op hop hswitch => ?_, fun op hop => ?_, ?_⟩
      · obtain rfl | rfl := generate_cases hgen
        · cases hop
        · cases hop
          cases hswitch
      · obtain rfl | rfl := generate_cases hgen <;> cases hop
      · rintro path pc ⟨⟩

-- ════════════════════════════════════════════════════════════════════════
-- Runs
-- ════════════════════════════════════════════════════════════════════════

/-- What a step does to the flags of the pool. -/
theorem flags_of_step (h : s.step l = some t) :
    (∃ urgency, l = .pause urgency ∧ t.pauseRequested = true) ∨
    (∃ path, l = .startPaused path ∧ t.pauseRequested = s.pauseRequested) ∨
    (l = .resume ∧ t.yielded = false) ∨
    (t.yielded = s.yielded ∧ (s.pauseRequested = true → t.pauseRequested = true) ∧
      l ≠ .resume ∧ (∀ urgency, l ≠ .pause urgency) ∧ ∀ path, l ≠ .startPaused path) := by
  cases stepped_of_step h with
  | requestPause => exact .inr (.inr (.inr ⟨rfl, fun _ => rfl, by simp⟩))
  | startPaused => exact .inr (.inl ⟨_, rfl, rfl⟩)
  | pause _ => exact .inl ⟨_, rfl, rfl⟩
  | resume _ _ | resumeLoop _ => exact .inr (.inr (.inl ⟨rfl, rfl⟩))
  | _ => exact .inr (.inr (.inr ⟨rfl, id, by simp⟩))

/-- A pool whose switches are held calls no switch. -/
theorem not_isSwitch_of_called (hheld : ∀ j o, l = .task j o → s.yielded ∧ s.SwitchesHeld)
    (hok : s.YieldsClean l) {op : Op} (hop : (∃ i, s.called l = .engine i op) ∨ s.called l = .gather op) :
    op.isSwitch = false := by
  refine Bool.eq_false_iff.mpr fun hswitch => ?_
  cases l with
  | task j o =>
    obtain ⟨hy, hheld⟩ := hheld j o rfl
    obtain ⟨i, hcall⟩ | hcall := hop
    · obtain ⟨task, slice, htask, hslice, hcalls⟩ := called_task_cases hcall Calls.noConfusion
      obtain ⟨path, hpc, hpause⟩ := (callsSwitch_of_step hslice).engine i op hcalls hswitch
      cases hpause.symm.trans (hheld.loops j task path _ htask hpc rfl)
    · obtain ⟨task, slice, htask, hslice, hcalls⟩ := called_task_cases hcall Calls.noConfusion
      obtain ⟨⟨path, rfl⟩, hmode⟩ := (callsSwitch_of_step hslice).gather op hcalls
      cases hmode.symm.trans (hok hy).1
  | start path | resume =>
    cases hmode : s.mode <;> simp [called, callsOf, hmode] at hop
    all_goals
      subst hop
      cases hswitch
  | pause urgency =>
    simp only [called, callsOf] at hop
    obtain ⟨i, hop⟩ | hop := hop <;> cases hop
    cases hswitch
  | _ => obtain ⟨i, hop⟩ | hop := hop <;> cases hop

theorem pastResume_of_move {i : Nat} {e e' : EngineSys} (hpast : e.PastResume)
    (hcalled : ∀ op, (∃ i, s.called l = .engine i op) ∨ s.called l = .gather op →
      op.isSwitch = false) (hm : Move s i e l e') : e'.PastResume := by
  cases hm with
  | same => exact hpast
  | startPaused => exact hpast
  | spawn hspawn => exact hpast.spawn (hcalled _ (.inr hspawn))
  | call hcall hstep =>
    exact (hpast.spawn (hcalled _ (.inl ⟨_, hcall⟩))).runThread
      (EngineSys.runThread_of_call hstep)
  | run hstep =>
    exact hpast.runThread (EngineSys.runThread_of_run hstep)

/-- **Step lemma**. -/
theorem switchesHeld_of_step (hheld : s.yielded → s.SwitchesHeld) (hok : s.YieldsClean l)
    (hstep : s.step l = some t) (hy : t.yielded) : t.SwitchesHeld := by
  have hflags := flags_of_step hstep
  have hbefore : (∃ urgency, l = .pause urgency) ∨
      s.SwitchesHeld ∧ (s.pauseRequested = true → t.pauseRequested = true) ∧ l ≠ .resume := by
    obtain ⟨urgency, rfl, -⟩ | ⟨path, rfl, hflag⟩ | ⟨-, hno⟩ | ⟨hyield, hflag, hres, -⟩ := hflags
    · exact .inl ⟨urgency, rfl⟩
    · exact .inr ⟨hok, fun h => hflag.trans h, PoolLabel.noConfusion⟩
    · cases hno.symm.trans hy
    · exact .inr ⟨hheld (hyield ▸ hy), hflag, hres⟩
  have hpast : ∀ (i : Nat) (e : EngineSys), s.engines[i]? = some e → e.PastResume := by
    obtain ⟨urgency, rfl⟩ | ⟨hs, -⟩ := hbefore
    · exact hok
    · exact hs.engines
  have htask : ∀ j o, l = .task j o → s.yielded ∧ s.SwitchesHeld := by
    rintro j o rfl
    obtain ⟨urgency, hl, -⟩ | ⟨path, hl, -⟩ | ⟨hl, -⟩ | ⟨hyield, -⟩ := hflags
    · cases hl
    · cases hl
    · cases hl
    · exact ⟨hyield ▸ hy, hheld (hyield ▸ hy)⟩
  refine ⟨fun i e' he' => ?_, fun j task' path pc htask' hpc hseq => ?_⟩
  · obtain ⟨e, he, hm⟩ := move_of_step hstep he'
    exact pastResume_of_move (hpast i e he) (fun op => not_isSwitch_of_called htask hok) hm
  · obtain ⟨urgency, rfl⟩ | ⟨hs, hflag, hres⟩ := hbefore
    · obtain ⟨-, -, hflag⟩ | ⟨path, hl, -⟩ | ⟨hl, -⟩ | ⟨-, -, -, hl, -⟩ := hflags
      · exact hflag
      · cases hl
      · cases hl
      · exact absurd rfl (hl urgency)
    · apply hflag
      cases taskMove_of_step hstep htask' with
      | same hold => exact hs.loops j task' path pc hold hpc hseq
      | request hlen => cases hpc
      | resume hlen hmode => exact absurd rfl hres
      | @run o task slice hold hslice =>
        obtain ⟨pc', hpc', hseq'⟩ | ⟨p, rfl⟩ := (callsSwitch_of_step hslice).loops path pc hpc hseq
        · exact hs.loops j task path pc' hold hpc' hseq'
        · exact (hok (htask j _ rfl).1).2

/-- **Run lemma**: during a yield the switches are held. -/
theorem switchesHeld_of_reach (h : system.Reach YieldsClean s) (hy : s.yielded) : s.SwitchesHeld := by
  refine h.invariant (I := fun s => s.yielded → s.SwitchesHeld) ?_
    (fun s l t hs hok hstep => switchesHeld_of_step hs hok hstep) hy
  rintro s ⟨up, hup, hs⟩ -
  refine ⟨fun i e he th hth => ?_, fun j task path pc hj => ?_⟩
  · rw [threads_of_leaves (hup i e he)] at hth
    cases hth
  · rw [hs] at hj
    cases hj

/-- **No load by a switch during a yield**, in every run whose pauses come when no switch is
still to load. -/
theorem switchHeld_of_reach (h : system.Reach YieldsClean s) (hstep : s.step l = some t) :
    s.SwitchHeld l t := by
  intro hy i e e' he he' hpaused hloading
  have hpast := (switchesHeld_of_reach h hy).engines i e he
  obtain ⟨e₀, he₀, hm⟩ := move_of_step hstep he'
  obtain rfl := Option.some.inj (he.symm.trans he₀)
  cases hm with
  | same => cases hpaused.symm.trans hloading
  | startPaused => cases hloading
  | spawn _ => cases hpaused.symm.trans hloading
  | call _ hcall =>
    rw [EngineSys.state_of_call hcall] at hloading
    cases hpaused.symm.trans hloading
  | @run k o _ hrun =>
    obtain ⟨th, slice, hth, hslice, rfl⟩ :=
      EngineSys.runThread_eq_some.mp (EngineSys.runThread_of_run hrun)
    refine ⟨k, o, th, rfl, hth, Bool.eq_false_iff.mpr fun hswitch => ?_⟩
    have hstill := (VLLMEngine.runPc_pastResume (hpast th (List.mem_of_getElem? hth) hswitch) hslice).2
    cases hpaused.symm.trans (hstill hloading)

/-- One engine that `start_paused` left PAUSED. -/
def pausedPool : Pool where
  mode := .multiInstance
  engines := [{ engine := { state := .paused, model := "a" } }]
  yielded := true
  ensured := [("a", "a")]

theorem init_pausedPool : pausedPool.init := by
  refine ⟨.startedPaused "a" "a", fun i e he => ?_, rfl⟩
  obtain ⟨rfl, rfl⟩ : i = 0 ∧ e = { engine := { state := .paused, model := "a" } } := by
    cases i <;> simp_all [pausedPool]
  rfl

/-- `YieldsClean`, as a check of a given run. -/
def yieldsCleanly (s : Pool) : PoolLabel → Bool
  | .pause _ => s.engines.all fun e => e.threads.all fun th => !th.op.isSwitch || th.pc.pastResume
  | .startPaused _ => false
  | .task _ (.ensured _) => !s.yielded
  | _ => true

theorem yieldsClean_of_check (h : s.yieldsCleanly l) : s.YieldsClean l := by
  cases l with
  | pause urgency =>
    intro i e he th hth hswitch
    have hth := List.all_eq_true.mp (List.all_eq_true.mp h e (List.mem_of_getElem? he)) th hth
    simpa [hswitch] using hth
  | startPaused path => cases h
  | task j o =>
    cases o with
    | ensured path =>
      intro hy
      simp [yieldsCleanly, hy] at h
    | _ => trivial
  | _ => trivial

/-- Two engines that serve the same model, each with a core of its own. -/
def runningInstances : Pool where
  mode := .multiInstance
  engines := [1, 2].map fun pid =>
    { engine :=
        { state := .running, core := some ⟨"a"⟩, model := "a", childPids := [pid], live := [pid],
          loads := 1 } }
  ensured := [("a", "a")]

theorem init_runningInstances : runningInstances.init := by
  refine ⟨.started "a" "a", fun i e he => ?_, rfl⟩
  obtain ⟨pid, -, rfl⟩ := List.mem_map.mp (List.mem_of_getElem? he)
  exact ⟨[pid], rfl⟩

/-- A request for another model: the loop of `switch_model` takes the first engine down and
loads it, the mining pause comes during that load, and both engines are torn down. -/
def pauseDuringSwitch : List PoolLabel :=
  [.request "b" false, .task 0 (.go 0), .task 0 (.go 0), .task 0 (.ensured "b"), .task 0 (.go 0)] ++
    List.replicate 10 (.engine 0 0 .go) ++
    [.pause .immediate, .engine 0 1 .go, .engine 0 1 .go] ++ List.replicate 7 (.engine 1 0 .go) ++
    [.engine 0 0 (.created [3])] ++ List.replicate 5 (.engine 0 0 .go) ++ [.task 0 (.go 0)]

/-- The loop comes to the second engine, which is PAUSED, and `_pause_requested` stops it. -/
theorem switchHeld_pauseDuringSwitch :
    ∃ s t, system.execGuarded (fun s l => s.yieldsCleanly l) runningInstances pauseDuringSwitch =
        some s ∧
      s.yielded ∧ (s.tasks.map (·.pc) = [.switching "b" (.loop 1)]) ∧
      (s.engines.map (·.engine.state) = [.paused, .paused]) ∧
      s.step (.task 0 (.go 0)) = some t ∧ s.SwitchHeld (.task 0 (.go 0)) t := by
  let switched : EngineSys :=
    { engine := { state := .paused, model := "b", loads := 2 }
      threads :=
        [⟨.switchModel "b", .finished .returned, 1⟩, ⟨.pause .immediate, .finished .returned, 2⟩]
      lastCommand := some .pause }
  let paused : EngineSys :=
    { engine := { state := .paused, model := "a", loads := 1 }
      threads := [⟨.pause .immediate, .finished .returned, 1⟩]
      lastCommand := some .pause }
  let s : Pool :=
    { runningInstances with
      engines := [switched, paused]
      pauseRequested := true
      switching := true
      switchLock := ⟨true, []⟩
      tasks := [⟨.request "b" false, .switching "b" (.loop 1)⟩]
      cur := some 0
      yielded := true
      ensured := [("a", "a"), ("b", "b")] }
  have hexec : system.execGuarded (fun s l => s.yieldsCleanly l) runningInstances
      pauseDuringSwitch = some s := by decide +kernel
  obtain ⟨t, ht⟩ : ∃ t, s.step (.task 0 (.go 0)) = some t := ⟨_, rfl⟩
  have hreach : system.Reach YieldsClean s :=
    .execGuarded_of (.init init_runningInstances) (fun l _ s => yieldsClean_of_check) hexec
  exact ⟨s, t, hexec, rfl, rfl, rfl, ht, switchHeld_of_reach hreach ht⟩

/-- A request for another model during the yield, up to the switch's own resume. -/
def requestWhileYielded : List PoolLabel :=
  [.request "b" false, .task 0 (.go 0), .task 0 (.go 0), .task 0 (.ensured "b"), .task 0 (.go 0)] ++
    List.replicate 2 (.engine 0 0 .go)

/-- The switch that the request calls loads the PAUSED engine. -/
theorem requestWhileYielded_not_switchHeld :
    ∃ s t, system.Reach System.anyStep s ∧ s.yielded ∧ s.step (.engine 0 0 .go) = some t ∧
      ¬ s.SwitchHeld (.engine 0 0 .go) t := by
  let look : EngineSys :=
    { engine :=
        { state := .paused, model := "b", accepting := false, transitionLock := ⟨false, [0]⟩ }
      threads := [⟨.switchModel "b", .lock (.resumeLook (.switchModel "b")), 0⟩]
      cur := some 0 }
  let load : EngineSys :=
    { engine := { state := .loading, model := "b", accepting := false, loads := 1 }
      threads := [⟨.switchModel "b", .load ⟨1, .resume (.switchModel "b")⟩, 0⟩] }
  let s : Pool :=
    { pausedPool with
      engines := [look]
      switching := true
      switchLock := ⟨true, []⟩
      tasks := [⟨.request "b" false, .switching "b" (.await 0 0)⟩]
      ensured := [("a", "a"), ("b", "b")] }
  have hexec : system.exec pausedPool requestWhileYielded = some s := by decide +kernel
  have hstep : s.step (.engine 0 0 .go) = some { s with engines := [load] } := by decide +kernel
  refine ⟨s, _, System.reach_of_exec init_pausedPool hexec, rfl, hstep, fun hheld => ?_⟩
  obtain ⟨k, o, th, hl, hth, hswitch⟩ := hheld rfl 0 look load rfl rfl rfl rfl
  cases hl
  cases hth
  cases hswitch

end Pool

end OpenModel.Inference
