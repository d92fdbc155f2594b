import OpenModel.Inference.CoreCrash
import OpenModel.Inference.SwitchWhileYielded

/-!
# Mining commands on a pool

The runs in which a pool is started at most once, then paused and resumed any number of
times, next to requests for the model that it has. No model is switched, no core dies and no
teardown raises; a core may fail to start any number of times. As asyncio has it, tasks that
were created start in the order of their creation.

## Main results

- `Pool.miningCall_of_called`: what such a run calls on an engine
- `Pool.sound_of_reach`: the invariants of the engine hold on every engine of the pool
-/

namespace OpenModel.Inference

open Transition (System)

def Op.isStart : Op → Bool
  | start _ => true
  | _ => false

/-- The coroutines that these runs call. -/
def Op.mining : Op → Bool
  | start _ | pause _ | resume | generate _ => true
  | _ => false

/-- The states of an engine that nobody stops and whose core does not die. -/
def EngineState.mining : EngineState → Bool
  | stopping | dead => false
  | _ => true

/-- A `start` that has not begun its load. -/
def Pc.unstarted : Pc → Bool
  | created | lock (.startBegin _) => true
  | _ => false

/-- It starts neither a load of its own nor another thread. -/
def Slice.plain (slice : Slice) : Bool := !slice.pc.unstarted && !slice.spawn

/-- A command of the node to its pool. -/
def PoolLabel.isCommand : PoolLabel → Bool
  | start _ | startPaused _ | pause _ | resume => true
  | _ => false

-- ════════════════════════════════════════════════════════════════════════
-- One engine
-- ════════════════════════════════════════════════════════════════════════

namespace VLLMEngine

variable {e : VLLMEngine} {k : Nat} {op : Op} {pc : Pc} {o : Outcome} {slice : Slice}

/-- Only a `start` gets an engine out of STOPPED, and only a `resume` out of PAUSED. -/
theorem runPc_off (hs : e.state = .stopped ∨ e.state = .paused) (hrole : pc.role = none)
    (hstart : ∀ modelPath, pc ≠ .lock (.startBegin modelPath))
    (hresume : ∀ c, pc = .lock (.resumeLook c) → e.state ≠ .paused) (ho : o ≠ .coreDead)
    (h : e.runPc k op pc o = some slice) : slice.engine.state = e.state := by
  have hoff : e.state ≠ .running ∧ e.state ≠ .loading ∧ e.state ≠ .starting ∧
      e.state ≠ .unloading ∧ e.state ≠ .dead := by
    obtain hs | hs := hs <;> simp [hs]
  obtain ⟨hrunning, hloading, hstarting, hunloading, hdead⟩ := hoff
  cases pc with
  | created =>
    cases o <;> cases h
    exact enter_state
  | lock block =>
    obtain ⟨l, -, rfl⟩ := runPc_block h
    cases block with
    | startBegin modelPath => exact absurd rfl (hstart modelPath)
    | pauseLook u c => simp [critical, hrunning, hloading, hstarting, pauseReturn_eq, release]
    | pauseTakeover c => simp [critical, hrunning, pauseReturn_eq, release]
    | resumeLook c =>
      simp [critical, hunloading, hdead, hresume c rfl, resumeReturn_eq, release]
    | recoverBegin => simp [critical, hdead, release]
    | _ => cases hrole
  | drain d =>
    obtain rfl := runPc_drain h
    cases d <;> rfl
  | generating weights hasOutput =>
    cases o with
    | output =>
      simp only [runPc, generateStep] at h
      split_ifs at h <;> cases h <;> rfl
    | coreDead => exact absurd rfl ho
    | _ => cases h <;> rfl
  | aborting =>
    cases o <;> cases h
    rfl
  | exitSleep | finished result => cases o <;> cases h
  | _ => cases hrole

theorem critical_mining {block : Critical} (hblock : block ≠ .stopBegin) (he : e.state.mining) :
    (e.critical block).engine.state.mining := by
  cases block with
  | startBegin modelPath | startFailed | reloadGiveUp r => rfl
  | pauseDestroy c => exact he
  | startFinish =>
    simp only [critical]
    split_ifs
    · exact he
    · rfl
  | pauseLook u c | pauseTakeover c =>
    simp only [critical, pauseReturn_eq]
    split_ifs <;> first | exact he | rfl
  | resumeLook c =>
    simp only [critical, resumeReturn_eq]
    split_ifs <;> first | exact he | rfl
  | reloadFinish r =>
    simp only [critical]
    split_ifs
    · exact he
    · rw [reloadReturn_state]
      rfl
  | recoverBegin =>
    simp only [critical]
    split_ifs <;> exact he
  | stopBegin => exact absurd rfl hblock

theorem destroyStep_mining {t : Teardown} {phase : Phase} (he : e.state.mining)
    (h : e.destroyStep t phase o = some slice) : slice.engine.state.mining := by
  cases phase <;> cases o <;> cases h <;> try exact he
  · cases t with
    | pause c =>
      simp only [destroyed, pauseReturn_eq]
      split_ifs <;> rfl
    | reload r =>
      rw [destroyed, reloadReturn_state]
      rfl
    | start | recover | stop => rfl
  · cases t with
    | pause c =>
      rw [destroyRaised, pauseRaise_eq]
      exact he
    | reload r =>
      rw [destroyRaised, reloadFailed_state]
      exact he
    | start | recover | stop => exact he

/-- Only the report of a dead core makes the engine DEAD, and only a `stop` STOPPING. -/
theorem runPc_mining (ho : o ≠ .coreDead) (hpc : pc ≠ .lock .stopBegin) (he : e.state.mining)
    (h : e.runPc k op pc o = some slice) : slice.engine.state.mining := by
  cases pc with
  | created =>
    cases o <;> cases h
    rw [enter_state]
    exact he
  | lock block =>
    obtain ⟨l, -, rfl⟩ := runPc_block h
    refine critical_mining (e := { e with transitionLock := l }) ?_ he
    rintro rfl
    exact hpc rfl
  | destroy t phase => exact destroyStep_mining he h
  | drain d =>
    obtain rfl := runPc_drain h
    cases d <;> exact he
  | load r =>
    cases o <;> cases h
    · exact he
    · rw [reloadFailed_state]
      exact he
  | generating weights hasOutput =>
    cases o with
    | output =>
      simp only [runPc, generateStep] at h
      split_ifs at h <;> cases h <;> exact he
    | coreDead => exact absurd rfl ho
    | _ => cases h <;> exact he
  | _ => cases o <;> cases h <;> exact he

theorem pauseReturn_plain {c : Caller} : (e.pauseReturn c).plain := by
  cases c <;> rfl

theorem resumeReturn_plain {c : Caller} : (e.resumeReturn c).plain := by
  cases c <;> rfl

theorem reloadReturn_plain {c : ReloadCaller} : (e.reloadReturn c).plain := by
  cases c with
  | pause c => exact pauseReturn_plain
  | resume c => exact resumeReturn_plain
  | recover => rfl

theorem reloadFailed_plain {r : Reload} : (e.reloadFailed r).plain := by
  unfold reloadFailed
  split_ifs <;> rfl

theorem critical_plain {block : Critical} : (e.critical block).plain := by
  cases block with
  | startFinish | recoverBegin =>
    simp only [critical]
    split_ifs <;> rfl
  | pauseLook u c | pauseTakeover c =>
    simp only [critical]
    split_ifs <;> first | rfl | exact pauseReturn_plain
  | resumeLook c =>
    simp only [critical]
    split_ifs <;> first | rfl | exact resumeReturn_plain
  | reloadFinish r =>
    simp only [critical]
    split_ifs
    · rfl
    · exact reloadReturn_plain
  | _ => rfl

theorem destroyStep_plain {t : Teardown} {phase : Phase}
    (h : e.destroyStep t phase o = some slice) : slice.plain := by
  cases phase <;> cases o <;> cases h <;> try rfl
  · cases t with
    | pause c =>
      simp only [destroyed]
      split_ifs
      · rfl
      · exact pauseReturn_plain
    | reload r => exact reloadReturn_plain
    | _ => rfl
  · cases t with
    | pause c => cases c <;> rfl
    | reload r => exact reloadFailed_plain
    | _ => rfl

/-- After its first stretch a thread starts nothing. -/
theorem runPc_plain (hpc : pc ≠ .created) (ho : o ≠ .coreDead)
    (h : e.runPc k op pc o = some slice) : slice.plain := by
  cases pc with
  | created => exact absurd rfl hpc
  | lock block =>
    obtain ⟨l, -, rfl⟩ := runPc_block h
    exact critical_plain
  | destroy t phase => exact destroyStep_plain h
  | drain d =>
    obtain rfl := runPc_drain h
    cases d <;> rfl
  | load r =>
    cases o <;> cases h
    · rfl
    · exact reloadFailed_plain
  | generating weights hasOutput =>
    cases o with
    | output =>
      simp only [runPc, generateStep] at h
      split_ifs at h <;> cases h <;> rfl
    | coreDead => exact absurd rfl ho
    | _ => cases h <;> rfl
  | _ => cases o <;> cases h <;> rfl

theorem enter_ne_created : (e.enter op).pc ≠ .created := by
  cases op with
  | switchModel new =>
    simp only [enter, switchEnter]
    split_ifs <;> exact Pc.noConfusion
  | generate requested =>
    simp only [enter, beginGenerate]
    split <;> exact Pc.noConfusion
  | _ => exact Pc.noConfusion

/-- A thread that has run has begun. -/
theorem runPc_ne_created (h : e.runPc k op pc o = some slice) : slice.pc ≠ .created := by
  by_cases hpc : pc = .created
  · rw [hpc] at h
    cases o <;> cases h
    exact enter_ne_created
  · by_cases ho : o = .coreDead
    · subst ho
      cases pc with
      | destroy t phase => cases phase <;> cases h
      | _ => cases h <;> exact Pc.noConfusion
    · intro hcreated
      have := runPc_plain hpc ho h
      simp [Slice.plain, hcreated, Pc.unstarted] at this

/-- The first stretch of a coroutine creates no task. -/
theorem enter_spawn : (e.enter op).spawn = false := by
  cases op with
  | switchModel new =>
    simp only [enter, switchEnter]
    split_ifs <;> rfl
  | generate requested =>
    simp only [enter, beginGenerate]
    split <;> rfl
  | _ => rfl

theorem runPc_spawn (ho : o ≠ .coreDead) (h : e.runPc k op pc o = some slice) :
    slice.spawn = false := by
  by_cases hpc : pc = .created
  · subst hpc
    cases o <;> cases h
    exact enter_spawn
  · have := runPc_plain hpc ho h
    simpa [Slice.plain] using (Bool.and_eq_true_iff.mp this).2

end VLLMEngine

namespace EngineSys

variable {s t : EngineSys} {k : Nat} {o : Outcome} {op : Op}

/-- Thread `k` has no older thread to wait for: tasks start in the order of their creation. -/
def InTurn (s : EngineSys) (k : Nat) : Prop :=
  s.pcAt k = some .created → ∀ j < k, s.pcAt j ≠ some .created

/-- The invariant of one engine. -/
structure Sound (s : EngineSys) : Prop where
  lock : s.LockAgrees
  own : s.Ownership
  belongs : s.Belongs
  ops : ∀ th ∈ s.threads, th.op.mining
  state : s.engine.state.mining
  once : ∀ (j k : Nat) (x y : Thread), s.threads[j]? = some x → s.threads[k]? = some y →
    x.op.isStart → y.op.isStart → j = k
  unstarted : ∀ (k : Nat) (th : Thread), s.threads[k]? = some th → th.op.isStart →
    th.pc.unstarted → s.engine.state = .stopped

theorem isStart_of_startBegin (h : s.Belongs) {th : Thread} {path : ModelPath}
    (hth : s.threads[k]? = some th) (hpc : th.pc = .lock (.startBegin path)) : th.op.isStart := by
  have hb := h th (List.mem_of_getElem? hth)
  rw [hpc] at hb
  obtain hop : th.op = .start path := by simpa [Pc.belongs, Critical.belongs] using hb
  rw [hop]
  rfl

namespace Sound

theorem spawn (h : s.Sound) (hop : op.mining)
    (hstart : op.isStart → s.engine.state = .stopped ∧ ∀ th ∈ s.threads, th.op.isStart = false) :
    (s.spawn op).Sound := by
  have hnone (hop : op.isStart) {j : Nat} {x : Thread} (hx : s.threads[j]? = some x)
      (hxop : x.op.isStart) : False := by
    cases ((hstart hop).2 x (List.mem_of_getElem? hx)).symm.trans hxop
  refine ⟨h.lock.spawn, h.own.spawn ?_, h.belongs.spawn, fun x hx => ?_, h.state,
    fun i j x y hx hy hxop hyop => ?_, fun j x hx hxop hun => ?_⟩
  · rintro rfl
    cases hop
  · obtain hx | hx := List.mem_append.mp hx
    · exact h.ops x hx
    · obtain rfl := List.mem_singleton.mp hx
      exact hop
  · obtain hx | ⟨hi, rfl⟩ := thread_of_spawn hx
    · obtain hy | ⟨hj, rfl⟩ := thread_of_spawn hy
      · exact h.once i j x y hx hy hxop hyop
      · exact (hnone hyop hx hxop).elim
    · obtain hy | ⟨hj, rfl⟩ := thread_of_spawn hy
      · exact (hnone hxop hy hyop).elim
      · exact hi.trans hj.symm
  · obtain hx | ⟨hj, rfl⟩ := thread_of_spawn hx
    · exact h.unstarted j x hx hxop hun
    · exact (hstart hxop).1

/-- Nobody owns an engine that is off. -/
theorem role_eq_none (h : s.Sound) (hs : s.engine.state = .stopped ∨ s.engine.state = .paused)
    {th : Thread} (hth : s.threads[k]? = some th) : th.pc.role = none := by
  by_contra hrole
  obtain ⟨ρ, hρ⟩ := Option.ne_none_iff_exists'.mp hrole
  have hallows := h.own.allows k th.pc ρ (pcAt_of_threads hth) hρ
  obtain hs | hs := hs <;> cases ρ <;> simp [Role.allows, hs] at hallows

/-- A `start` that takes the lock finds the engine STOPPED. -/
theorem regularRun (h : s.Sound) (ho : o ≠ .coreDead) {pc : Pc} (hpc : s.pcAt k = some pc) :
    s.engine.regularRun pc o := by
  obtain ⟨th, hth, rfl⟩ := Option.map_eq_some_iff.mp hpc
  unfold VLLMEngine.regularRun
  split
  · next o path hstart =>
    have hop := isStart_of_startBegin h.belongs hth hstart
    have := h.unstarted k th hth hop (by rw [hstart]; rfl)
    simpa using this
  · exact absurd rfl ho
  · rfl

theorem not_stopBegin (h : s.Sound) {th : Thread} (hth : s.threads[k]? = some th) :
    th.pc ≠ .lock .stopBegin := by
  intro hpc
  have hmem := List.mem_of_getElem? hth
  have hb := h.belongs th hmem
  rw [hpc] at hb
  obtain hop : th.op = .stop := by simpa [Pc.belongs, Critical.belongs] using hb
  exact h.own.ops th hmem hop

theorem state_ne_dead (h : s.Sound) : s.engine.state ≠ .dead := by
  intro hdead
  have hs := h.state
  rw [hdead] at hs
  cases hs

theorem runThread (h : s.Sound) (ho : o ≠ .coreDead) (hrun : s.runThread k o = some t) :
    t.Sound := by
  have hown := h.own.runThread h.lock (fun _ => h.regularRun ho) hrun
  have hlock := h.lock.runThread hrun
  have hbelongs := h.belongs.runThread hrun
  obtain ⟨th, slice, hth, hslice, rfl⟩ := runThread_eq_some.mp hrun
  have hspawn := VLLMEngine.runPc_spawn ho hslice
  have hold {j : Nat} {x : Thread} (hx : (s.settle k th slice).threads[j]? = some x) :
      ∃ y, s.threads[j]? = some y ∧ x.op = y.op := by
    obtain ⟨rfl, hop, -⟩ | ⟨-, hx⟩ := thread_of_settle hth hspawn hx
    · exact ⟨th, hth, hop⟩
    · exact ⟨x, hx, rfl⟩
  refine ⟨hlock, hown, hbelongs, fun x hx => ?_,
    VLLMEngine.runPc_mining ho (h.not_stopBegin hth) h.state hslice,
    fun i j x y hx hy hxop hyop => ?_, fun j x hx hxop hun => ?_⟩
  · obtain ⟨j, hj⟩ := List.mem_iff_getElem?.mp hx
    obtain ⟨y, hy, hop⟩ := hold hj
    exact hop ▸ h.ops y (List.mem_of_getElem? hy)
  · obtain ⟨x', hx', hxop'⟩ := hold hx
    obtain ⟨y', hy', hyop'⟩ := hold hy
    exact h.once i j x' y' hx' hy' (hxop' ▸ hxop) (hyop' ▸ hyop)
  · -- a STOPPED engine has no owner, and no other `start` takes it over
    have hstopped (hs : s.engine.state = .stopped)
        (hstart : ∀ modelPath, th.pc ≠ .lock (.startBegin modelPath)) :
        (s.settle k th slice).engine.state = .stopped :=
      (VLLMEngine.runPc_off (.inl hs) (h.role_eq_none (.inl hs) hth) hstart (by simp [hs]) ho
        hslice).trans hs
    obtain ⟨rfl, hop, hpc⟩ | ⟨hjk, hx⟩ := thread_of_settle hth hspawn hx
    · have hcreated : th.pc = .created := by
        by_contra hne
        have := VLLMEngine.runPc_plain hne ho hslice
        simp [Slice.plain, ← hpc, hun] at this
      refine hstopped (h.unstarted _ th hth (hop ▸ hxop) ?_) ?_
      · rw [hcreated]
        rfl
      · simp [hcreated]
    · refine hstopped (h.unstarted j x hx hxop hun) fun path hstart => ?_
      exact hjk (h.once j k x th hx hth hxop (isStart_of_startBegin h.belongs hth hstart))

/-- **Step lemma**: a call runs at once, like a task that was just created. -/
theorem call (h : s.Sound) (hop : op.mining)
    (hstart : op.isStart → s.engine.state = .stopped ∧ ∀ th ∈ s.threads, th.op.isStart = false)
    (hstep : s.step (.call op) = some t) : t.Sound := by
  exact (h.spawn hop hstart).runThread Outcome.noConfusion (runThread_of_call hstep)

theorem run (h : s.Sound) (ho : o ≠ .coreDead) (hstep : s.step (.run k o) = some t) : t.Sound := by
  exact h.runThread ho (runThread_of_run hstep)

end Sound

end EngineSys

-- ════════════════════════════════════════════════════════════════════════
-- The pool
-- ════════════════════════════════════════════════════════════════════════

namespace Pool

variable {s t : Pool} {l : PoolLabel} {i : Nat} {e e' : EngineSys}

/-- The steps of the runs described above. -/
def Mining (s : Pool) : PoolLabel → Prop
  | .start _ => ∀ e ∈ s.engines,
      e.engine.state = .stopped ∧ ∀ th ∈ e.threads, th.op.isStart = false
  | .startPaused _ | .task _ (.ensured _) => False
  | .engine i k o => o ≠ .coreDead ∧ o ≠ .cudaError ∧ ∀ e ∈ s.engines[i]?, e.InTurn k
  | _ => True

instance (e : EngineSys) (k : Nat) : Decidable (e.InTurn k) :=
  inferInstanceAs (Decidable (_ → _))

instance (s : Pool) (l : PoolLabel) : Decidable (s.Mining l) :=
  match l with
  | .start _ => inferInstanceAs (Decidable (∀ e ∈ s.engines, _ ∧ _))
  | .startPaused _ | .task _ (.ensured _) => .isFalse id
  | .engine _ _ _ => inferInstanceAs (Decidable (_ ∧ _ ∧ _))
  | .task _ (.go _) | .task _ .ensureFailed | .requestPause | .pause _ | .resume
  | .request _ _ => .isTrue trivial

/-- No task is in `switch_model`. -/
def NoSwitching (s : Pool) : Prop :=
  ∀ (j : Nat) (task : Task), s.tasks[j]? = some task → ∀ path pc, task.pc ≠ .switching path pc

/-- What a mining run calls. -/
inductive MiningCall (s : Pool) : PoolLabel → Calls → Prop
  | nothing {l : PoolLabel} : MiningCall s l .nothing
  | startFirst {path : ModelPath} : MiningCall s (.start path) (.engine 0 (.start path))
  | start {path : ModelPath} : MiningCall s (.start path) (.gather (.start path))
  | pause {urgency : YieldUrgency} : MiningCall s (.pause urgency) (.gather (.pause urgency))
  | resume : s.mode = .tensorParallel → MiningCall s .resume (.gather .resume)
  | resumeNext {j i : Nat} {o : TaskOutcome} {task : Task} : s.tasks[j]? = some task →
      task.pc = .resumeLoop i → s.pauseRequested = false →
      MiningCall s (.task j o) (.engine i .resume)
  | generate {j i : Nat} {o : TaskOutcome} {model : String} :
      MiningCall s (.task j o) (.engine i (.generate model))

theorem notSwitching_of_admit {j pick : Nat} {o : TaskOutcome} {model : String} {stream : Bool}
    {slice₀ slice : TaskSlice} (h : s.admitRequest model stream pick slice₀ = some slice)
    (h₀ : slice₀.calls = .nothing) :
    (∀ path pc, slice.pc ≠ .switching path pc) ∧ MiningCall s (.task j o) slice.calls := by
  obtain ⟨hcalls, hpc⟩ := admitRequest_calls h h₀
  refine ⟨fun path pc hsw => ?_, ?_⟩
  · obtain hp | hp := hpc <;> cases hp.symm.trans hsw
  · obtain hc | hc := hcalls
    · exact hc ▸ .nothing
    · exact hc ▸ .generate

/-- A task comes to `switch_model` only from `ensure_model`. -/
theorem notSwitching_of_step {j : Nat} {task : Task} {o : TaskOutcome} {slice : TaskSlice}
    (htask : s.tasks[j]? = some task) (hpc : ∀ path pc, task.pc ≠ .switching path pc)
    (ho : ∀ path, o ≠ .ensured path) (h : s.taskStep j task o = some slice) :
    (∀ path pc, slice.pc ≠ .switching path pc) ∧ MiningCall s (.task j o) slice.calls := by
  unfold taskStep at h
  split at h
  · obtain ⟨i, -, -, rfl⟩ | ⟨i, e, hloop, -, hpause, rfl⟩ | ⟨i, k, -, -, rfl⟩ | ⟨i, k, -, -, rfl⟩ :=
      resumeStep_cases h
    · exact ⟨fun _ _ => TaskPc.noConfusion, .nothing⟩
    · exact ⟨fun _ _ => TaskPc.noConfusion, .resumeNext htask hloop hpause⟩
    · exact ⟨fun _ _ => TaskPc.noConfusion, .nothing⟩
    · exact ⟨fun _ _ => TaskPc.noConfusion, .nothing⟩
  · obtain ⟨op, pc⟩ := task
    cases requestSlice_of_step h with
    | check _ hadmit => exact notSwitching_of_admit hadmit rfl
    | lock _ _ hadmit => exact notSwitching_of_admit hadmit rfl
    | checkLock | lockEnsure _ | ensureFailed => exact ⟨fun _ _ => TaskPc.noConfusion, .nothing⟩
    | ensured => exact absurd rfl (ho _)
    | streamStart hgen =>
      refine ⟨fun _ _ => TaskPc.noConfusion, ?_⟩
      obtain rfl | rfl := generate_cases hgen
      · exact .nothing
      · exact .generate
    | loopEnd _ _ | loopCall _ _ | awaitReturned _ | awaitRaised | gatherRaised
    | gatherReturned _ _ => exact absurd rfl (hpc _ _)

/-- **Inversion**: the calls of a mining run. -/
theorem miningCall_of_called (hns : s.NoSwitching) (hok : s.Mining l) : MiningCall s l (s.called l) := by
  cases l with
  | task j o =>
    by_cases hcalls : s.called (.task j o) = .nothing
    · rw [hcalls]
      exact .nothing
    · obtain ⟨task, slice, htask, hslice, hsame⟩ := called_task_cases rfl hcalls
      rw [← hsame]
      refine (notSwitching_of_step htask (hns j task htask) ?_ hslice).2
      rintro path rfl
      exact hok
  | start path =>
    simp only [called, callsOf]
    split
    · exact .startFirst
    · exact .start
  | resume =>
    simp only [called, callsOf]
    split
    · next hmode => exact .resume hmode
    · exact .nothing
  | pause urgency => exact .pause
  | _ => exact .nothing

theorem noSwitching_of_step (hns : s.NoSwitching) (hok : s.Mining l) (h : s.step l = some t) :
    t.NoSwitching := by
  intro j task' hj path pc
  cases taskMove_of_step h hj with
  | same hold => exact hns j task' hold path pc
  | request hlen | resume hlen _ => exact TaskPc.noConfusion
  | run hold hslice =>
    refine (notSwitching_of_step hold (hns j _ hold) ?_ hslice).1 path pc
    rintro path rfl
    exact hok

/-- **Step lemma**. -/
theorem sound_of_move (hns : s.NoSwitching) (hok : s.Mining l) (he : s.engines[i]? = some e)
    (hs : e.Sound) (hm : Move s i e l e') : e'.Sound := by
  have hcalled := miningCall_of_called hns hok
  cases hm with
  | same => exact hs
  | startPaused => exact absurd hok id
  | spawn hspawn =>
    rw [hspawn] at hcalled
    cases hcalled with
    | start => exact hs.spawn rfl fun _ => hok e (List.mem_of_getElem? he)
    | pause | resume _ => exact hs.spawn rfl fun hop => by cases hop
  | call hcall hstep =>
    rw [hcall] at hcalled
    cases hcalled with
    | startFirst => exact hs.call rfl (fun _ => hok e (List.mem_of_getElem? he)) hstep
    | resumeNext _ _ _ | generate => exact hs.call rfl (fun hop => by cases hop) hstep
  | run hrun => exact hs.run hok.1 hrun

theorem sound_of_threads (hnone : e.threads = []) (hfree : e.engine.transitionLock = {})
    (hstate : e.engine.state.mining) (hholds : Holding e.engine none) : e.Sound := by
  have hpc (k : Nat) : e.pcAt k = none := by simp [EngineSys.pcAt, hnone]
  have hat (P : Pc → Bool) (k : Nat) : ¬ e.At P k := by simp [EngineSys.At, hpc]
  refine ⟨?_, ⟨?_, ?_, ?_, ?_, fun _ => hholds⟩, ?_, ?_, hstate, ?_, ?_⟩
  · show e.engine.transitionLock.Agrees _ _
    rw [hfree]
    exact ⟨List.nodup_nil, fun k => by simp [hat], by simp [hat], fun j k hj => absurd hj (hat _ j)⟩
  · simp [hnone]
  · simp [hpc]
  · exact fun j k hj => absurd hj (hat _ j)
  · simp [hpc]
  · intro th hth
    simp [hnone] at hth
  · simp [hnone]
  · simp [hnone]
  · simp [hnone]

theorem sound_of_leaves {up : StartUp} {mode : Mode} (h : up.Leaves mode i e) : e.Sound := by
  have hfresh : Holding {} none := ⟨⟨rfl, rfl⟩, .inl rfl, .inl rfl⟩
  cases up with
  | constructed =>
    obtain rfl : e = {} := h
    exact sound_of_threads rfl rfl rfl hfresh
  | started model path =>
    simp only [StartUp.Leaves] at h
    split_ifs at h
    · obtain rfl := h
      exact sound_of_threads rfl rfl rfl hfresh
    · obtain ⟨pids, rfl⟩ := h
      exact sound_of_threads rfl rfl rfl ⟨⟨rfl, List.Subset.refl pids⟩, .inl rfl, .inl rfl⟩
  | startedPaused model path =>
    obtain rfl := h
    exact sound_of_threads rfl rfl rfl ⟨⟨rfl, rfl⟩, .inl rfl, .inl rfl⟩

/-- **Run lemma**: in every mining run the invariants of the engine hold on every engine. -/
theorem sound_of_reach {ok : Pool → PoolLabel → Prop} (hle : ∀ s l, ok s l → s.Mining l)
    (h : system.Reach ok s) :
    s.NoSwitching ∧ ∀ (i : Nat) (e : EngineSys), s.engines[i]? = some e → e.Sound := by
  refine h.invariant (I := fun s => s.NoSwitching ∧ ∀ (i : Nat) (e : EngineSys),
    s.engines[i]? = some e → e.Sound) ?_ fun s l t hs hok hstep => ?_
  · rintro s ⟨up, hup, hs⟩
    refine ⟨fun j task hj => ?_, fun i e he => sound_of_leaves (hup i e he)⟩
    rw [hs] at hj
    cases hj
  · refine ⟨noSwitching_of_step hs.1 (hle s l hok) hstep, fun i e' he' => ?_⟩
    obtain ⟨e, he, hm⟩ := move_of_step hstep he'
    exact sound_of_move hs.1 (hle s l hok) he (hs.2 i e he) hm

end Pool

end OpenModel.Inference
