import OpenModel.Inference.FailedSwitch
import OpenModel.Inference.KeptPause

/-!
# The last resume

A `resume` that looks at an engine brings it up: it loads a PAUSED engine, leaves a note
for a teardown, and otherwise relies on the load that is under way (`Resumed`). An older
pause can still undo this, if it looks at the engine later, if it is waiting in its drain, or
if it left `_pending_pause` to the load that the resume relies on.

In `multi_instance` mode the engines are resumed one after the other, and the invariant
holds for those that the loop has reached.

## Main results

- `EngineSys.Resumed.settle`: what keeps a resumed engine on its way up
- `Pool.resumeKept_of_reach`: in the runs in which no older pause comes later, every engine
  comes up
-/

namespace OpenModel.Inference

open Transition (System)

/-- After a creation that raised. -/
def Pc.failed : Pc → Bool
  | retrySleep _ | lock (.reloadGiveUp _) | lock .startFailed | exitSleep => true
  | _ => false

/-- Past the look at the state. -/
def Pc.hasLooked (pc : Pc) : Bool := pc != created && pc.look.isNone

namespace VLLMEngine

variable {e : VLLMEngine} {k : Nat} {op : Op} {pc : Pc} {o : Outcome} {slice : Slice}

/-- A slice after which the state still says who is at work; it does not stop the engine. -/
structure Staffs (e : VLLMEngine) (pc : Pc) (slice : Slice) : Prop where
  unfailed : slice.pc.failed = false
  staffed : (slice.engine.state = e.state ∧ slice.pc.role = pc.role) ∨
    (slice.engine.state ≠ .stopped ∧
      ∀ ρ : Role, ρ.allows slice.engine.state → slice.pc.role = some ρ)

theorem staffs_idle (hun : slice.pc.failed = false) (hne : slice.engine.state ≠ .stopped)
    (hs : ∀ ρ : Role, ρ.allows slice.engine.state = false) : Staffs e pc slice :=
  ⟨hun, .inr ⟨hne, fun ρ hρ => by cases (hs ρ).symm.trans hρ⟩⟩

theorem staffs_pauseReturn {e' : VLLMEngine} {c : Caller} (hs : e'.state = e.state)
    (hrole : pc.role = none) : Staffs e pc (e'.pauseReturn c) := by
  rw [pauseReturn_eq]
  exact ⟨by cases c <;> rfl, .inl ⟨hs, Caller.afterPause_role.trans hrole.symm⟩⟩

theorem staffs_reloadReturn {e' : VLLMEngine} {c : ReloadCaller} (hne : e'.state ≠ .stopped)
    (hs : ∀ ρ : Role, ρ.allows e'.state = false) : Staffs e pc (e'.reloadReturn c) := by
  rw [reloadReturn_eq]
  refine staffs_idle ?_ hne hs
  cases c with
  | pause c => cases c <;> rfl
  | resume c | recover => rfl

theorem running_idle (ρ : Role) : ρ.allows .running = false := by cases ρ <;> rfl

theorem paused_idle (ρ : Role) : ρ.allows .paused = false := by cases ρ <;> rfl

theorem critical_staffs {block : Critical} (hblock : (Pc.lock block).failed = false)
    (hstop : block ≠ .stopBegin) (hdead : e.state ≠ .dead) :
    Staffs e (.lock block) (e.critical block) := by
  cases block with
  | startBegin modelPath =>
    refine ⟨rfl, .inr ⟨EngineState.noConfusion, fun ρ hρ => ?_⟩⟩
    cases ρ <;> first | rfl | cases hρ
  | startFinish =>
    simp only [critical]
    split_ifs
    · exact ⟨by simp only [beginDestroy]; rfl, .inl ⟨rfl, rfl⟩⟩
    · exact staffs_idle rfl EngineState.noConfusion running_idle
  | pauseLook u c =>
    simp only [critical]
    split_ifs with hl hr hu
    · exact staffs_pauseReturn rfl rfl
    · exact staffs_pauseReturn rfl rfl
    · exact ⟨rfl, .inl ⟨rfl, rfl⟩⟩
    · refine ⟨rfl, .inr ⟨EngineState.noConfusion, fun ρ hρ => ?_⟩⟩
      cases ρ <;> first | rfl | cases hρ
  | pauseTakeover c =>
    simp only [critical]
    split_ifs with hr
    · exact staffs_pauseReturn rfl rfl
    · refine ⟨rfl, .inr ⟨EngineState.noConfusion, fun ρ hρ => ?_⟩⟩
      cases ρ <;> first | rfl | cases hρ
  | pauseDestroy c => exact ⟨rfl, .inl ⟨rfl, rfl⟩⟩
  | resumeLook c =>
    simp only [critical, resumeReturn_eq, hdead, if_false]
    split_ifs
    · exact ⟨rfl, .inl ⟨rfl, rfl⟩⟩
    · exact ⟨rfl, .inl ⟨rfl, rfl⟩⟩
    · refine ⟨rfl, .inr ⟨EngineState.noConfusion, fun ρ hρ => ?_⟩⟩
      cases ρ <;> first | rfl | cases hρ
  | reloadFinish r =>
    simp only [critical]
    split_ifs
    · exact ⟨rfl, .inl ⟨rfl, rfl⟩⟩
    · exact staffs_reloadReturn EngineState.noConfusion running_idle
  | recoverBegin =>
    simp only [critical, hdead, ne_eq, not_false_eq_true, if_true]
    exact ⟨rfl, .inl ⟨rfl, rfl⟩⟩
  | stopBegin => exact absurd rfl hstop
  | startFailed | reloadGiveUp r => cases hblock

theorem destroyStep_staffs {t : Teardown} {phase : Phase} (ht : t ≠ .stop) (ho : o ≠ .cudaError)
    (h : e.destroyStep t phase o = some slice) : Staffs e (.destroy t phase) slice := by
  cases phase with
  | abort | exitWait | killWait =>
    cases o <;> cases h
    exact ⟨rfl, .inl ⟨rfl, rfl⟩⟩
  | release =>
    cases o <;> cases h
    · cases t with
      | start => exact staffs_idle rfl EngineState.noConfusion paused_idle
      | pause c =>
        simp only [destroyed]
        split_ifs
        · refine ⟨rfl, .inr ⟨EngineState.noConfusion, fun ρ hρ => ?_⟩⟩
          cases ρ <;> first | rfl | cases hρ
        · rw [pauseReturn_eq]
          exact staffs_idle (by cases c <;> rfl) EngineState.noConfusion paused_idle
      | reload r => exact staffs_reloadReturn EngineState.noConfusion paused_idle
      | recover =>
        refine ⟨rfl, .inr ⟨EngineState.noConfusion, fun ρ hρ => ?_⟩⟩
        cases ρ <;> first | rfl | cases hρ
      | stop => exact absurd rfl ht
    · exact absurd rfl ho

theorem enter_staffs (hop : op ≠ .stop) : Staffs e .created (e.enter op) := by
  cases op with
  | stop => exact absurd rfl hop
  | switchModel new =>
    simp only [enter, switchEnter]
    split_ifs <;> exact ⟨rfl, .inl ⟨rfl, rfl⟩⟩
  | generate requested =>
    simp only [enter, beginGenerate]
    split <;> exact ⟨rfl, .inl ⟨rfl, rfl⟩⟩
  | _ => exact ⟨rfl, .inl ⟨rfl, rfl⟩⟩

/-- **One thread**: whoever gets the engine into a state of a role takes up the role. -/
theorem runPc_staffs (ho : o ≠ .coreDead) (ho' : o ≠ .cudaError)
    (ho'' : ∀ orphans, o ≠ .createFailed orphans) (hstop : pc ≠ .lock .stopBegin)
    (hstop' : ∀ phase, pc ≠ .destroy .stop phase) (hop : op ≠ .stop) (hdead : e.state ≠ .dead)
    (hpc : pc.failed = false) (h : e.runPc k op pc o = some slice) : Staffs e pc slice := by
  cases pc with
  | created =>
    cases o <;> cases h
    exact enter_staffs hop
  | lock block =>
    obtain ⟨l, -, rfl⟩ := runPc_block h
    have hs : Staffs { e with transitionLock := l } (.lock block)
        ({ e with transitionLock := l }.critical block) :=
      critical_staffs hpc (fun hblock => hstop (hblock ▸ rfl)) hdead
    exact ⟨hs.unfailed, hs.staffed⟩
  | destroy t phase => exact destroyStep_staffs (fun ht => hstop' phase (ht ▸ rfl)) ho' h
  | drain d =>
    obtain rfl := runPc_drain h
    cases d <;> exact ⟨rfl, .inl ⟨rfl, rfl⟩⟩
  | load r =>
    cases o <;> cases h
    · exact ⟨rfl, .inl ⟨rfl, rfl⟩⟩
    · exact absurd rfl (ho'' _)
  | startCreate =>
    cases o <;> cases h
    · exact ⟨rfl, .inl ⟨rfl, rfl⟩⟩
    · exact absurd rfl (ho'' _)
  | generating weights hasOutput =>
    cases o with
    | output =>
      simp only [runPc, generateStep] at h
      split_ifs at h <;> cases h <;> exact ⟨rfl, .inl ⟨rfl, rfl⟩⟩
    | coreDead => exact absurd rfl ho
    | _ => cases h <;> exact ⟨rfl, .inl ⟨rfl, rfl⟩⟩
  | aborting =>
    cases o <;> cases h
    exact ⟨rfl, .inl ⟨rfl, rfl⟩⟩
  | retrySleep r | exitSleep => cases hpc
  | finished result => cases o <;> cases h

end VLLMEngine

/-- RUNNING, or on the way there. -/
def EngineState.up (state : EngineState) : Bool := state.isLoading || state == .running

/-- A pause that stands here would take the engine down again. -/
def Pc.undoes (state : EngineState) : Pc → Bool
  | lock (.pauseLook _ _) => state.up
  | lock (.pauseTakeover _) => state == .running
  | _ => false

namespace EngineSys

variable {s t : EngineSys} {j k : Nat} {o : Outcome} {op : Op} {th : Thread} {slice : Slice}

/-- An engine that nobody starts, with the threads that its state speaks of. -/
structure Working (s : EngineSys) : Prop where
  sound : s.Sound
  noStart : ∀ th ∈ s.threads, th.op.isStart = false
  unfailed : ∀ th ∈ s.threads, th.pc.failed = false
  staffed : ∀ ρ : Role, ρ.allows s.engine.state → ∃ k pc, s.pcAt k = some pc ∧ pc.role = some ρ

/-- An outcome of a run in which every creation and every teardown succeeds. -/
def Succeeds (o : Outcome) : Prop :=
  o ≠ .coreDead ∧ o ≠ .cudaError ∧ ∀ orphans, o ≠ .createFailed orphans

instance (o : Outcome) : Decidable (Succeeds o) :=
  match o with
  | .coreDead => .isFalse fun h => h.1 rfl
  | .cudaError => .isFalse fun h => h.2.1 rfl
  | .createFailed _ => .isFalse fun h => h.2.2 _ rfl
  | .go | .drainTimeout | .created _ | .output | .ended | .failed | .stalled =>
    .isTrue ⟨Outcome.noConfusion, Outcome.noConfusion, by simp⟩

theorem Working.spawn (h : s.Working) (hop : op.mining) (hstart : op.isStart = false) :
    (s.spawn op).Working := by
  refine ⟨h.sound.spawn hop fun h => ?_, fun x hx => ?_, fun x hx => ?_, fun ρ hρ => ?_⟩
  · cases hstart.symm.trans h
  · obtain hx | hx := List.mem_append.mp hx
    · exact h.noStart x hx
    · obtain rfl := List.mem_singleton.mp hx
      exact hstart
  · obtain hx | hx := List.mem_append.mp hx
    · exact h.unfailed x hx
    · obtain rfl := List.mem_singleton.mp hx
      rfl
  · obtain ⟨k, pc, hpc, hrole⟩ := h.staffed ρ hρ
    refine ⟨k, pc, ?_, hrole⟩
    rw [pcAt_spawn, if_neg (lt_of_pcAt hpc).ne]
    exact hpc

theorem Working.staffs (h : s.Working) (ho : Succeeds o) (hth : s.threads[k]? = some th)
    (hslice : s.engine.runPc k th.op th.pc o = some slice) :
    VLLMEngine.Staffs s.engine th.pc slice := by
  have hmem := List.mem_of_getElem? hth
  refine VLLMEngine.runPc_staffs ho.1 ho.2.1 ho.2.2 (h.sound.not_stopBegin hth) ?_
    (h.sound.own.ops th hmem) h.sound.state_ne_dead (h.unfailed th hmem) hslice
  intro phase hpc
  have := h.sound.own.allows k th.pc .stopper (pcAt_of_threads hth) (by rw [hpc]; rfl)
  cases this

theorem Working.settle (h : s.Working) (ho : Succeeds o) (hth : s.threads[k]? = some th)
    (hslice : s.engine.runPc k th.op th.pc o = some slice)
    (hsound : (s.settle k th slice).Sound) : (s.settle k th slice).Working := by
  have hmem := List.mem_of_getElem? hth
  have hspawn := VLLMEngine.runPc_spawn ho.1 hslice
  have hstaffs := h.staffs ho hth hslice
  have hself := Ownership.settle_self hth slice
  refine ⟨hsound, fun x hx => ?_, fun x hx => ?_, fun ρ hρ => ?_⟩
  · obtain ⟨j, hj⟩ := List.mem_iff_getElem?.mp hx
    obtain ⟨-, hop, -⟩ | ⟨-, hold⟩ := thread_of_settle hth hspawn hj
    · exact hop ▸ h.noStart th hmem
    · exact h.noStart x (List.mem_of_getElem? hold)
  · obtain ⟨j, hj⟩ := List.mem_iff_getElem?.mp hx
    obtain ⟨-, -, hpc⟩ | ⟨-, hold⟩ := thread_of_settle hth hspawn hj
    · exact hpc ▸ hstaffs.unfailed
    · exact h.unfailed x (List.mem_of_getElem? hold)
  · obtain ⟨hstate, hrole⟩ | hnew := hstaffs.staffed
    · obtain ⟨j, pc, hpc, hpcrole⟩ := h.staffed ρ (hstate ▸ hρ)
      by_cases hjk : j = k
      · subst hjk
        obtain rfl := Option.some.inj ((pcAt_of_threads hth).symm.trans hpc)
        exact ⟨j, slice.pc, hself, hrole.trans hpcrole⟩
      · refine ⟨j, pc, ?_, hpcrole⟩
        rw [pcAt_settle hth, if_neg hjk]
        simpa [hspawn] using hpc
    · exact ⟨k, slice.pc, hself, hnew.2 ρ hρ⟩

theorem Working.call (h : s.Working) (hop : op.mining) (hstart : op.isStart = false)
    (hstep : s.step (.call op) = some t) : t.Working := by
  have hsound := h.sound.call hop (fun h => by cases hstart.symm.trans h) hstep
  obtain ⟨th, slice, hth, hslice, rfl⟩ := runThread_eq_some.mp (runThread_of_call hstep)
  refine (h.spawn hop hstart).settle ⟨?_, ?_, ?_⟩ hth hslice hsound <;> simp

theorem Working.run (h : s.Working) (ho : Succeeds o) (hstep : s.step (.run k o) = some t) :
    t.Working := by
  have hsound := h.sound.run ho.1 hstep
  obtain ⟨th, slice, hth, hslice, rfl⟩ := runThread_eq_some.mp (runThread_of_run hstep)
  exact h.settle ho hth hslice hsound

/-- Only an engine that was never started is STOPPED. -/
theorem Working.stopped_of_run (h : s.Working) (ho : Succeeds o) (hstep : s.step (.run k o) = some t)
    (hs : t.engine.state = .stopped) : s.engine.state = .stopped := by
  obtain ⟨th, slice, hth, hslice, rfl⟩ := runThread_eq_some.mp (runThread_of_run hstep)
  obtain ⟨hstate, -⟩ | ⟨hne, -⟩ := (h.staffs ho hth hslice).staffed
  · exact hstate.symm.trans hs
  · exact absurd hs hne

-- ════════════════════════════════════════════════════════════════════════
-- After the last resume has looked
-- ════════════════════════════════════════════════════════════════════════

/-- The engine is up or comes up, unless it was never started. -/
inductive Resumed (s : EngineSys) : Prop
  | stopped (h : s.engine.state = .stopped)
  | running (h : s.engine.state = .running)
  | loading (h : s.engine.state.isLoading) (hp : s.engine.pendingPause = none)
      (hundo : ∀ k, ¬ s.At Pc.undoesLoad k)
  | unloading (h : s.engine.state = .unloading) (hr : s.engine.pendingResume)

/-- A step that keeps the engine on its way up. -/
structure Rises (s t : EngineSys) : Prop where
  resumed : t.Resumed
  up : s.engine.state.up → t.engine.state.up

/-- A slice that changes nothing that `Resumed` depends on. -/
theorem Resumed.of_frames (h : s.Resumed) (hth : s.threads[k]? = some th)
    (hstate : slice.engine.state = s.engine.state)
    (hpp : slice.engine.pendingPause = s.engine.pendingPause)
    (hpr : slice.engine.pendingResume = s.engine.pendingResume)
    (hundo : slice.pc.undoesLoad = false) : Rises s (s.settle k th slice) := by
  refine ⟨?_, fun hup => hstate ▸ hup⟩
  cases h with
  | stopped h => exact .stopped (hstate.trans h)
  | running h => exact .running (hstate.trans h)
  | loading h hp hnone =>
    refine .loading (hstate ▸ h) (hpp.trans hp) fun j hj => ?_
    obtain ⟨-, hpc⟩ | ⟨-, hj⟩ := (at_settle rfl hth).mp hj
    · cases hundo.symm.trans hpc
    · exact hnone j hj
  | unloading h hr => exact .unloading (hstate.trans h) (hpr ▸ hr)

theorem enter_undoesLoad {e : VLLMEngine} : (e.enter op).pc.undoesLoad = false := by
  cases op with
  | switchModel new =>
    simp only [VLLMEngine.enter, VLLMEngine.switchEnter]
    split_ifs <;> rfl
  | generate requested =>
    simp only [VLLMEngine.enter, VLLMEngine.beginGenerate]
    split <;> rfl
  | _ => rfl

theorem Resumed.state_ne_paused (h : s.Resumed) : s.engine.state ≠ .paused := by
  intro hp
  cases h with
  | stopped h | running h | unloading h _ => simp [hp] at h
  | loading h _ _ => simp [hp, EngineState.isLoading] at h

/-- A load that ends is not undone. -/
theorem Resumed.loading_of_loader (h : s.Resumed) (hl : Role.loader.allows s.engine.state) :
    s.engine.pendingPause = none ∧ ∀ k, ¬ s.At Pc.undoesLoad k := by
  have hs := loader_state hl
  cases h with
  | stopped h | running h | unloading h _ => simp [h] at hs
  | loading _ hp hundo => exact ⟨hp, hundo⟩

theorem Resumed.pendingResume_of_unloader (h : s.Resumed)
    (hu : Role.unloader.allows s.engine.state) : s.engine.pendingResume := by
  have hs := VLLMEngine.unloader_state hu
  cases h with
  | stopped h | running h => simp [h] at hs
  | loading h _ _ => simp [hs, EngineState.isLoading] at h
  | unloading _ hr => exact hr

/-- The blocks under the lock. -/
theorem Resumed.critical (h : s.Resumed) (hw : s.Working) (hth : s.threads[k]? = some th)
    {block : Critical} (hblock : th.pc = .lock block)
    (hsafe : th.pc.undoes s.engine.state = false)
    (hslice : s.engine.runPc k th.op (.lock block) o = some slice) :
    Rises s (s.settle k th slice) := by
  have hmem := List.mem_of_getElem? hth
  have hrole (ρ : Role) (hρ : block.role = some ρ) : ρ.allows s.engine.state :=
    hw.sound.own.allows k th.pc ρ (pcAt_of_threads hth) (hblock ▸ hρ)
  have hunfailed := hw.unfailed th hmem
  obtain ⟨l, -, rfl⟩ := VLLMEngine.runPc_block hslice
  rw [hblock] at hsafe hunfailed
  cases block with
  | startBegin modelPath =>
    cases (hw.noStart th hmem).symm.trans (isStart_of_startBegin hw.sound.belongs hth hblock)
  | startFailed | reloadGiveUp r => cases hunfailed
  | startFinish =>
    have hp := (h.loading_of_loader (hrole _ rfl)).1
    simp only [VLLMEngine.critical, hp, Option.isSome_none, Bool.false_eq_true, if_false]
    exact ⟨.running rfl, fun _ => rfl⟩
  | pauseLook u c =>
    have hup : s.engine.state.isLoading = false ∧ s.engine.state ≠ .running := by
      simpa [Pc.undoes, EngineState.up] using hsafe
    have hl : ¬ (s.engine.state = .loading ∨ s.engine.state = .starting) := by
      rintro (hs | hs) <;> simp [hs, EngineState.isLoading] at hup
    simp only [VLLMEngine.critical, hl, hup.2, ne_eq, not_false_eq_true, if_true, if_false,
      VLLMEngine.pauseReturn_eq]
    exact h.of_frames hth rfl rfl rfl (by cases c <;> rfl)
  | pauseTakeover c =>
    have hr : s.engine.state ≠ .running := by simpa [Pc.undoes] using hsafe
    simp only [VLLMEngine.critical, hr, ne_eq, not_false_eq_true, if_true,
      VLLMEngine.pauseReturn_eq]
    exact h.of_frames hth rfl rfl rfl (by cases c <;> rfl)
  | pauseDestroy c => exact h.of_frames hth rfl rfl rfl rfl
  | resumeLook c =>
    simp only [VLLMEngine.critical, h.state_ne_paused, hw.sound.state_ne_dead, ne_eq,
      not_false_eq_true, if_true, if_false, VLLMEngine.resumeReturn_eq]
    split_ifs with hu
    · refine ⟨.unloading hu rfl, fun hup => ?_⟩
      simp [hu, EngineState.up, EngineState.isLoading] at hup
    · exact h.of_frames hth rfl rfl rfl rfl
  | reloadFinish r =>
    have hp := (h.loading_of_loader (hrole _ rfl)).1
    simp only [VLLMEngine.critical, hp, Option.isSome_none, Bool.false_eq_true, if_false,
      VLLMEngine.reloadReturn_eq]
    exact ⟨.running rfl, fun _ => rfl⟩
  | recoverBegin =>
    simp only [VLLMEngine.critical, hw.sound.state_ne_dead, ne_eq, not_false_eq_true, if_true]
    exact h.of_frames hth rfl rfl rfl rfl
  | stopBegin => exact absurd hblock (hw.sound.not_stopBegin hth)

theorem owns_of_undoesLoad (h : s.At Pc.undoesLoad j) : s.At Pc.owns j := by
  obtain ⟨pc, hpc, hundo⟩ := h
  exact ⟨pc, hpc, by simp [Pc.owns, Pc.role_of_undoesLoad hundo]⟩

/-- Teardowns. -/
theorem Resumed.destroy (h : s.Resumed) (hw : s.Working) (ho : Succeeds o)
    (hth : s.threads[k]? = some th) {teardown : Teardown} {phase : Phase}
    (hp : th.pc = .destroy teardown phase)
    (hslice : s.engine.destroyStep teardown phase o = some slice) :
    Rises s (s.settle k th slice) := by
  have hat := pcAt_of_threads hth
  have hrole : teardown.role.allows s.engine.state :=
    hw.sound.own.allows k th.pc _ hat (by rw [hp]; rfl)
  have hundo (hl : teardown.role = .loader) : False := by
    refine (h.loading_of_loader (hl ▸ hrole)).2 k ((at_of_pcAt hat).mpr ?_)
    rw [hp]
    cases teardown <;> first | rfl | cases hl
  cases teardown with
  | start | reload r => exact (hundo rfl).elim
  | recover => exact absurd (VLLMEngine.recoverer_state hrole) hw.sound.state_ne_dead
  | stop => exact absurd hrole (by simp [Teardown.role, Role.allows])
  | pause c =>
    have hr := h.pendingResume_of_unloader hrole
    cases phase with
    | abort | exitWait | killWait =>
      cases o <;> cases hslice
      exact h.of_frames hth rfl rfl rfl rfl
    | release =>
      cases o <;> cases hslice
      · -- the teardown goes on to the load that the resume asked for
        simp only [VLLMEngine.destroyed, hr, if_true]
        have howned : Holding s.engine (Pc.destroy (.pause c) .release).owner :=
          hw.sound.own.owned k _ (hp ▸ hat) rfl
        refine ⟨.loading rfl (howned.pause_of_destroy :) fun j hj => ?_, fun _ => rfl⟩
        obtain ⟨-, hpc⟩ | ⟨hjk, hj⟩ := (at_settle rfl hth).mp hj
        · cases hpc
        · exact hjk (hw.sound.own.unique j k (owns_of_undoesLoad hj) ⟨_, hat, by rw [hp]; rfl⟩)
      · exact absurd rfl ho.2.1

/-- **No older pause interferes**: what keeps a resumed engine on its way up. -/
theorem Resumed.settle (h : s.Resumed) (hw : s.Working) (ho : Succeeds o)
    (hth : s.threads[k]? = some th) (hsafe : th.pc.undoes s.engine.state = false)
    (hslice : s.engine.runPc k th.op th.pc o = some slice) : Rises s (s.settle k th slice) := by
  cases hp : th.pc with
  | created =>
    rw [hp] at hslice
    cases o <;> cases hslice
    have hframes : Frames s.engine .created (s.engine.enter th.op) :=
      frames_enter (noSwitch hw.sound hth)
        (hw.sound.own.ops th (List.mem_of_getElem? hth))
    exact h.of_frames hth hframes.state hframes.pendingPause hframes.pendingResume enter_undoesLoad
  | lock block => exact h.critical hw hth hp hsafe (hp ▸ hslice)
  | destroy teardown phase =>
    rw [hp] at hslice
    exact h.destroy hw ho hth hp hslice
  | drain d =>
    rw [hp] at hslice
    obtain rfl : slice = s.engine.drained d := by cases o <;> simp_all [VLLMEngine.runPc]
    cases d <;> exact h.of_frames hth rfl rfl rfl rfl
  | load r =>
    rw [hp] at hslice
    cases o <;> cases hslice
    · exact h.of_frames hth rfl rfl rfl rfl
    · exact absurd rfl (ho.2.2 _)
  | startCreate =>
    rw [hp] at hslice
    cases o <;> cases hslice
    · exact h.of_frames hth rfl rfl rfl rfl
    · exact absurd rfl (ho.2.2 _)
  | generating weights hasOutput =>
    rw [hp] at hslice
    cases o with
    | output =>
      simp only [VLLMEngine.runPc, VLLMEngine.generateStep] at hslice
      split_ifs at hslice <;> cases hslice <;> exact h.of_frames hth rfl rfl rfl rfl
    | coreDead => exact absurd rfl ho.1
    | _ => cases hslice <;> exact h.of_frames hth rfl rfl rfl rfl
  | aborting =>
    rw [hp] at hslice
    cases o <;> cases hslice
    exact h.of_frames hth rfl rfl rfl rfl
  | retrySleep r | exitSleep | finished result =>
    rw [hp] at hslice
    cases o <;> cases hslice
    try exact h.of_frames hth rfl rfl rfl rfl

theorem Resumed.spawn (h : s.Resumed) : (s.spawn op).Resumed := by
  cases h with
  | stopped h => exact .stopped h
  | running h => exact .running h
  | loading h hp hundo => exact .loading h hp fun j hj => hundo j ((at_spawn rfl).mp hj)
  | unloading h hr => exact .unloading h hr

/-- **The last resume looks** at the engine, and finds no load that will be undone. -/
theorem resumed_of_resumeLook (hw : s.Working) (ho : Succeeds o) (hth : s.threads[k]? = some th)
    {c : Caller} (hp : th.pc = .lock (.resumeLook c))
    (hheed : s.engine.state.isLoading → s.engine.pendingPause = none)
    (hslice : s.engine.runPc k th.op th.pc o = some slice) : (s.settle k th slice).Resumed := by
  have hfree := Ownership.not_holds_of_waits hw.sound.lock hslice (by rw [hp]; rfl)
  have hundo (j : Nat) : ¬ s.At Pc.undoesLoad j := by
    rintro ⟨pc, hpc, hundo⟩
    refine hfree j ⟨pc, hpc, ?_⟩
    cases pc <;> first | rfl | cases hundo
  by_cases hpaused : s.engine.state = .paused
  · rw [hp] at hslice
    obtain ⟨l, -, rfl⟩ := VLLMEngine.runPc_block hslice
    obtain ⟨owner, hholding⟩ := hw.sound.own.exists_holding
    simp only [VLLMEngine.critical, hpaused, reduceCtorEq, ne_eq, not_true, if_false]
    refine .loading rfl ?_ fun j hj => ?_
    · exact hholding.pendingPause.resolve_right (by simp [hpaused])
    · obtain ⟨-, hpc⟩ | ⟨-, hj⟩ := (at_settle rfl hth).mp hj
      · cases hpc
      · exact hundo j hj
  by_cases hunloading : s.engine.state = .unloading
  · rw [hp] at hslice
    obtain ⟨l, -, rfl⟩ := VLLMEngine.runPc_block hslice
    simp only [VLLMEngine.critical, hunloading, if_true, VLLMEngine.resumeReturn_eq]
    exact .unloading rfl rfl
  have hresumed : s.Resumed := by
    have hstate := hw.sound.state
    cases hs : s.engine.state with
    | stopped => exact .stopped hs
    | running => exact .running hs
    | starting | loading => exact .loading (by rw [hs]; rfl) (hheed (by rw [hs]; rfl)) hundo
    | unloading => exact absurd hs hunloading
    | paused => exact absurd hs hpaused
    | stopping | dead =>
      rw [hs] at hstate
      cases hstate
  exact (hresumed.settle hw ho hth (by rw [hp]; rfl) hslice).resumed

-- ════════════════════════════════════════════════════════════════════════
-- The thread of the last resume
-- ════════════════════════════════════════════════════════════════════════

/-- Thread `k` is a resume, and since it looked at the engine the engine comes up. -/
structure Wakes (s : EngineSys) (k : Nat) : Prop where
  isResume : ∃ th, s.threads[k]? = some th ∧ th.op = .resume ∧ th.pc ≠ .finished .raised
  resumed : s.At Pc.hasLooked k → s.Resumed

/-- A resume that has not looked stands in front of its look. -/
theorem resumeLook_of_not_hasLooked (hb : s.Belongs) (hth : s.threads[k]? = some th)
    (hop : th.op = .resume) (hcreated : th.pc ≠ .created) (hlooked : th.pc.hasLooked = false) :
    ∃ c, th.pc = .lock (.resumeLook c) := by
  have hbelongs := hb th (List.mem_of_getElem? hth)
  rw [hop] at hbelongs
  cases hp : th.pc with
  | created => exact absurd hp hcreated
  | lock block =>
    rw [hp] at hbelongs hlooked
    cases block with
    | resumeLook c => exact ⟨c, rfl⟩
    | pauseLook u c => cases c <;> cases hbelongs
    | _ => simp [Pc.hasLooked, Pc.look] at hlooked
  | _ => simp [hp, Pc.hasLooked, Pc.look] at hlooked

/-- **Step lemma**. -/
theorem Wakes.settle (h : s.Wakes k) (hw : s.Working) (ho : Succeeds o)
    (hth : s.threads[j]? = some th) (hslice : s.engine.runPc j th.op th.pc o = some slice)
    (hsafe : s.At Pc.hasLooked k → th.pc.undoes s.engine.state = false)
    (hheed : j = k → th.pc.look = some .resume → s.engine.state.isLoading →
      s.engine.pendingPause = none) : (s.settle j th slice).Wakes k := by
  have hspawn := VLLMEngine.runPc_spawn ho.1 hslice
  obtain ⟨x, hx, hop, hraised⟩ := h.isResume
  by_cases hjk : j = k
  · subst hjk
    obtain rfl := Option.some.inj (hth.symm.trans hx)
    have hbelongs := hw.sound.belongs th (List.mem_of_getElem? hth)
    refine ⟨⟨_, settle_thread hth, hop, ?_⟩, fun hlooked => ?_⟩
    · exact VLLMEngine.runPc_not_raised hbelongs (by simp [hop]) (by simp [hop]) ho.2.1 hslice
    · cases hold : th.pc.hasLooked with
      | true =>
        have hat : s.At Pc.hasLooked j := ⟨_, pcAt_of_threads hth, hold⟩
        exact ((h.resumed hat).settle hw ho hth (hsafe hat) hslice).resumed
      | false =>
        have hcreated : th.pc ≠ .created := by
          intro hc
          rw [hop, hc] at hslice
          cases o <;> cases hslice
          simp [at_of_pcAt (Ownership.settle_self hth _), VLLMEngine.enter, Pc.hasLooked,
            Pc.look] at hlooked
        obtain ⟨c, hp⟩ := resumeLook_of_not_hasLooked hw.sound.belongs hth hop hcreated hold
        exact resumed_of_resumeLook hw ho hth hp (hheed rfl (by rw [hp]; rfl)) hslice
  · refine ⟨⟨x, ?_, hop, hraised⟩, fun hlooked => ?_⟩
    · simpa [EngineSys.settle, hspawn, List.getElem?_set_ne hjk] using hx
    · obtain ⟨hkj, -⟩ | ⟨-, hat⟩ := (at_settle rfl hth).mp hlooked
      · exact absurd hkj.symm hjk
      · exact ((h.resumed hat).settle hw ho hth (hsafe hat) hslice).resumed

theorem Wakes.spawn (h : s.Wakes k) : (s.spawn op).Wakes k := by
  obtain ⟨x, hx, hop⟩ := h.isResume
  have hlt := (List.getElem?_eq_some_iff.mp hx).1
  exact ⟨⟨x, (List.getElem?_append_left hlt).trans hx, hop⟩,
    fun hlooked => (h.resumed ((at_spawn rfl).mp hlooked)).spawn⟩

theorem Resumed.run (h : s.Resumed) (hw : s.Working) (ho : Succeeds o)
    (hsafe : ∀ pc, s.pcAt k = some pc → pc.undoes s.engine.state = false)
    (hstep : s.step (.run k o) = some t) : Rises s t := by
  obtain ⟨th, slice, hth, hslice, rfl⟩ := runThread_eq_some.mp (runThread_of_run hstep)
  exact h.settle hw ho hth (hsafe _ (pcAt_of_threads hth)) hslice

theorem Wakes.run (h : s.Wakes k) (hw : s.Working) (ho : Succeeds o)
    (hsafe : s.At Pc.hasLooked k → ∀ pc, s.pcAt j = some pc → pc.undoes s.engine.state = false)
    (hheed : j = k → ∀ pc, s.pcAt j = some pc → pc.look = some .resume →
      s.engine.state.isLoading → s.engine.pendingPause = none)
    (hstep : s.step (.run j o) = some t) : t.Wakes k := by
  obtain ⟨th, slice, hth, hslice, rfl⟩ := runThread_eq_some.mp (runThread_of_run hstep)
  have hat := pcAt_of_threads hth
  exact h.settle hw ho hth hslice (fun hlooked => hsafe hlooked _ hat) fun hjk => hheed hjk _ hat

theorem succeeds_go : Succeeds .go := ⟨Outcome.noConfusion, Outcome.noConfusion, by simp⟩

theorem Resumed.call (h : s.Resumed) (hw : s.Working) (hop : op.mining)
    (hstart : op.isStart = false) (hstep : s.step (.call op) = some t) : Rises s t := by
  obtain ⟨slice, hth, hslice, rfl⟩ := thread_of_call hstep
  have hrises := h.spawn.settle (hw.spawn hop hstart) succeeds_go hth rfl hslice
  exact ⟨hrises.resumed, hrises.up⟩

theorem Wakes.call (h : s.Wakes k) (hw : s.Working) (hop : op.mining)
    (hstart : op.isStart = false) (hstep : s.step (.call op) = some t) : t.Wakes k := by
  obtain ⟨slice, hth, hslice, rfl⟩ := thread_of_call hstep
  exact h.spawn.settle (hw.spawn hop hstart) succeeds_go hth hslice (fun _ => rfl)
    fun _ => by rintro ⟨⟩

/-- The resume that was just called. -/
theorem wakes_of_call (hstep : s.step (.call .resume) = some t) : t.Wakes s.threads.length := by
  obtain ⟨slice, hth, hslice, rfl⟩ := thread_of_call hstep
  cases hslice
  refine ⟨⟨_, settle_thread hth, rfl, Pc.noConfusion⟩, fun hlooked => ?_⟩
  simp [at_of_pcAt (Ownership.settle_self hth _), VLLMEngine.enter, Pc.hasLooked, Pc.look] at hlooked

theorem wakes_of_spawn : (s.spawn .resume).Wakes s.threads.length := by
  refine ⟨⟨{ op := .resume }, by simp [EngineSys.spawn], rfl, Pc.noConfusion⟩, fun hlooked => ?_⟩
  rw [at_of_pcAt (show _ = some Pc.created by rw [pcAt_spawn, if_pos rfl])] at hlooked
  cases hlooked

/-- A thread that has ended has looked. -/
theorem hasLooked_of_quiet (h : s.Quiet) (hk : ∃ th, s.threads[k]? = some th) :
    s.At Pc.hasLooked k := by
  obtain ⟨th, hth⟩ := hk
  refine ⟨th.pc, pcAt_of_threads hth, ?_⟩
  obtain hserves | ⟨r, hr⟩ := h k _ (pcAt_of_threads hth)
  · obtain ⟨weights, hasOutput, hpc⟩ | hpc := Pc.serves_cases hserves
    · rw [hpc]
      rfl
    · rw [hpc]
      rfl
  · rw [hr]
    rfl

/-- A resumed engine that comes to rest is RUNNING. -/
theorem Resumed.running_of_quiet (h : s.Resumed) (hw : s.Working) (hquiet : s.Quiet)
    (hne : s.engine.state ≠ .stopped) : s.engine.state = .running := by
  have hidle (ρ : Role) (hρ : ρ.allows s.engine.state) : False := by
    obtain ⟨k, pc, hpc, hrole⟩ := hw.staffed ρ hρ
    obtain hserves | ⟨r, rfl⟩ := hquiet k pc hpc
    · cases (Pc.role_of_serves hserves).symm.trans hrole
    · cases hrole
  cases h with
  | stopped h => exact absurd h hne
  | running h => exact h
  | loading h _ _ =>
    refine (hidle .loader ?_).elim
    cases hs : s.engine.state <;> simp_all [EngineState.isLoading, Role.allows]
  | unloading h _ => exact (hidle .unloader (by simp [Role.allows, h])).elim

end EngineSys

-- ════════════════════════════════════════════════════════════════════════
-- The pool
-- ════════════════════════════════════════════════════════════════════════

namespace Pool

variable {p q s t : Pool} {l : PoolLabel} {i j k : Nat} {e e' : EngineSys}

/-- The steps of a run of pauses and resumes in which every creation and every teardown
succeeds. -/
def Yielding (s : Pool) (l : PoolLabel) : Prop :=
  s.Mining l ∧ match l with
    | .start _ => False
    | .engine _ _ o => EngineSys.Succeeds o
    | _ => True

/-- The steps of such a run after its last command. -/
def Settling (s : Pool) (l : PoolLabel) : Prop :=
  s.Yielding l ∧ l.isCommand = false ∧ l ≠ .requestPause

instance (s : Pool) (l : PoolLabel) : Decidable (s.Yielding l) :=
  match l with
  | .start _ => .isFalse And.right
  | .engine _ _ _ => inferInstanceAs (Decidable (_ ∧ EngineSys.Succeeds _))
  | .startPaused _ | .requestPause | .pause _ | .resume | .request _ _ | .task _ _ =>
    inferInstanceAs (Decidable (_ ∧ True))

instance (s : Pool) (l : PoolLabel) : Decidable (s.Settling l) :=
  inferInstanceAs (Decidable (_ ∧ _ ∧ _))

/-- Thread `k` of engine `i` belongs to the resume that was called in `p`. -/
def IsResume (p s : Pool) (i k : Nat) : Prop :=
  match s.mode with
  | .tensorParallel => ∃ e ∈ p.engines[i]?, k = e.threads.length
  | .multiInstance => ∃ task ∈ s.tasks[p.tasks.length]?, task.pc = .resumeAwait i k

/-- The resume that was called in `p` has looked at engine `i`. -/
def Reached (p s : Pool) (i : Nat) : Prop :=
  match s.mode with
  | .tensorParallel =>
    ∃ e₀ ∈ p.engines[i]?, ∃ e ∈ s.engines[i]?, e.At Pc.hasLooked e₀.threads.length
  | .multiInstance => ∃ task ∈ s.tasks[p.tasks.length]?,
    match task.pc with
    | .resumeLoop i' => i < i'
    | .resumeAwait i' k => i < i' ∨ i = i' ∧ ∃ e ∈ s.engines[i]?, e.At Pc.hasLooked k
    | _ => True

/-- No older pause looks at an engine, or takes it over after its drain, once the resume of
`p` has looked at it; and that resume finds no load that a pause is waiting for. -/
def Undisturbed (p s : Pool) : PoolLabel → Prop
  | .engine i k _ => ∀ e ∈ s.engines[i]?, ∀ pc ∈ e.pcAt k,
      (Reached p s i → pc.undoes e.engine.state = false) ∧
      (IsResume p s i k → pc.look = some .resume → e.engine.state.isLoading →
        e.engine.pendingPause = none)
  | _ => True

-- ════════════════════════════════════════════════════════════════════════
-- One step
-- ════════════════════════════════════════════════════════════════════════

theorem working_of_leaves {up : StartUp} {mode : Mode} (h : up.Leaves mode i e) : e.Working := by
  have hnone := threads_of_leaves h
  refine ⟨sound_of_leaves h, by simp [hnone], by simp [hnone], fun ρ hρ => ?_⟩
  have hidle : ρ.allows e.engine.state = false := by
    cases up with
    | constructed =>
      obtain rfl : e = {} := h
      cases ρ <;> rfl
    | started model path =>
      simp only [StartUp.Leaves] at h
      split_ifs at h
      · obtain rfl := h
        cases ρ <;> rfl
      · obtain ⟨pids, rfl⟩ := h
        cases ρ <;> rfl
    | startedPaused model path =>
      obtain rfl := h
      cases ρ <;> rfl
  cases hidle.symm.trans hρ

/-- What such a run calls. -/
theorem call_of_yielding (hns : s.NoSwitching) (hok : s.Yielding l) {op : Op}
    (h : s.called l = .engine i op ∨ s.called l = .gather op) :
    op.mining ∧ op.isStart = false := by
  have hcalled := miningCall_of_called hns hok.1
  obtain h | h := h <;> rw [h] at hcalled <;> cases hcalled <;>
    first | exact ⟨rfl, rfl⟩ | exact hok.2.elim

theorem working_of_move (hns : s.NoSwitching) (hok : s.Yielding l) (hw : e.Working)
    (hm : Move s i e l e') : e'.Working := by
  cases hm with
  | same => exact hw
  | startPaused => exact absurd hok.1 id
  | spawn hspawn =>
    obtain ⟨hop, hstart⟩ := call_of_yielding (i := i) hns hok (.inr hspawn)
    exact hw.spawn hop hstart
  | call hcall hstep =>
    obtain ⟨hop, hstart⟩ := call_of_yielding hns hok (.inl hcall)
    exact hw.call hop hstart hstep
  | run hrun => exact hw.run hok.2 hrun

theorem working_of_reach (h : system.Reach Yielding s) :
    s.NoSwitching ∧ ∀ (i : Nat) (e : EngineSys), s.engines[i]? = some e → e.Working := by
  refine ⟨(sound_of_reach (fun _ _ hok => hok.1) h).1, ?_⟩
  refine h.invariant_of (I := fun s => ∀ (i : Nat) (e : EngineSys), s.engines[i]? = some e →
    e.Working) (fun s hs => (sound_of_reach (fun _ _ hok => hok.1) hs).1) ?_ ?_
  · rintro s ⟨up, hup, -⟩ i e he
    exact working_of_leaves (hup i e he)
  · intro s l t hns hI hok hstep i e' he'
    obtain ⟨e, he, hm⟩ := move_of_step hstep he'
    exact working_of_move hns hok (hI i e he) hm

theorem resumed_of_move (hns : s.NoSwitching) (hok : s.Yielding l) (hw : e.Working)
    (hsafe : ∀ k o, l = .engine i k o → ∀ pc, e.pcAt k = some pc →
      pc.undoes e.engine.state = false) (hm : Move s i e l e') (h : e.Resumed) : e.Rises e' := by
  cases hm with
  | same => exact ⟨h, id⟩
  | startPaused => exact absurd hok.1 id
  | spawn _ => exact ⟨h.spawn, id⟩
  | call hcall hstep =>
    obtain ⟨hop, hstart⟩ := call_of_yielding hns hok (.inl hcall)
    exact h.call hw hop hstart hstep
  | run hrun => exact h.run hw hok.2 (hsafe _ _ rfl) hrun

theorem wakes_of_move (hns : s.NoSwitching) (hok : s.Yielding l) (hw : e.Working)
    (hsafe : ∀ j o, l = .engine i j o → e.At Pc.hasLooked k → ∀ pc, e.pcAt j = some pc →
      pc.undoes e.engine.state = false)
    (hheed : ∀ o, l = .engine i k o → ∀ pc, e.pcAt k = some pc → pc.look = some .resume →
      e.engine.state.isLoading → e.engine.pendingPause = none)
    (hm : Move s i e l e') (h : e.Wakes k) : e'.Wakes k := by
  cases hm with
  | same => exact h
  | startPaused => exact absurd hok.1 id
  | spawn _ => exact h.spawn
  | call hcall hstep =>
    obtain ⟨hop, hstart⟩ := call_of_yielding hns hok (.inl hcall)
    exact h.call hw hop hstart hstep
  | run hrun =>
    refine h.run hw hok.2 (hsafe _ _ rfl) ?_ hrun
    rintro rfl
    exact hheed _ rfl

/-- How far the loop of the last resume has come, in `multi_instance` mode. -/
def Cursor (s : Pool) : TaskPc → Prop
  | .resumeLoop i => ∀ (j : Nat) (e : EngineSys), j < i → s.engines[j]? = some e → e.Resumed
  | .resumeAwait i k =>
    (∀ (j : Nat) (e : EngineSys), j < i → s.engines[j]? = some e → e.Resumed) ∧
      ∀ e, s.engines[i]? = some e → e.Wakes k
  | .done => ∀ (j : Nat) (e : EngineSys), s.engines[j]? = some e → e.Resumed
  | _ => False

/-- The invariant after the resume that was called in `p`. -/
structure Rising (p s : Pool) : Prop where
  flag : s.pauseRequested = false
  started : ∀ (i : Nat) (e : EngineSys), s.engines[i]? = some e → e.engine.state = .stopped →
    ∃ e₀, p.engines[i]? = some e₀ ∧ e₀.engine.state = .stopped
  gathered : s.mode = .tensorParallel → ∀ (i : Nat) (e : EngineSys), s.engines[i]? = some e →
    ∃ e₀, p.engines[i]? = some e₀ ∧ e.Wakes e₀.threads.length
  loop : s.mode = .multiInstance → ∃ task, s.tasks[p.tasks.length]? = some task ∧
    task.op = .resume ∧ s.Cursor task.pc

theorem Rising.resumed_of_reached (h : Rising p s) (hr : Reached p s i)
    (he : s.engines[i]? = some e) : e.Resumed := by
  unfold Reached at hr
  cases hmode : s.mode with
  | tensorParallel =>
    simp only [hmode] at hr
    obtain ⟨e₀, he₀, e₁, he₁, hlooked⟩ := hr
    obtain rfl := Option.some.inj (he.symm.trans he₁)
    obtain ⟨e₂, he₂, hwakes⟩ := h.gathered hmode i e he
    obtain rfl := Option.some.inj (he₂.symm.trans he₀)
    exact hwakes.resumed hlooked
  | multiInstance =>
    simp only [hmode] at hr
    obtain ⟨task, htask, hpc⟩ := hr
    obtain ⟨task', htask', -, hcursor⟩ := h.loop hmode
    obtain rfl := Option.some.inj (htask'.symm.trans htask)
    cases hp : task'.pc with
    | resumeLoop i' =>
      rw [hp] at hpc hcursor
      exact hcursor i e hpc he
    | resumeAwait i' k =>
      rw [hp] at hpc hcursor
      obtain hlt | ⟨rfl, e₁, he₁, hlooked⟩ := hpc
      · exact hcursor.1 i e hlt he
      · obtain rfl := Option.some.inj (he.symm.trans he₁)
        exact (hcursor.2 e he).resumed hlooked
    | done =>
      rw [hp] at hcursor
      exact hcursor i e he
    | _ =>
      rw [hp] at hcursor
      exact hcursor.elim

/-- What the step leaves of an engine that the resume has looked at. -/
theorem Rising.kept (h : Rising p s) (hns : s.NoSwitching)
    (hw : ∀ (i : Nat) (e : EngineSys), s.engines[i]? = some e → e.Working) (hok : s.Settling l)
    (hsafe : Undisturbed p s l) (hr : Reached p s i) (he : s.engines[i]? = some e)
    (hm : Move s i e l e') : e.Rises e' := by
  refine resumed_of_move hns hok.1 (hw i e he) ?_ hm (h.resumed_of_reached hr he)
  rintro k o rfl pc hpc
  exact (hsafe e he pc hpc).1 hr

theorem reached_of_cursor (hmode : s.mode = .multiInstance) {task : Task}
    (htask : s.tasks[p.tasks.length]? = some task) (hpc : match task.pc with
      | .resumeLoop i' => i < i'
      | .resumeAwait i' k => i < i' ∨ i = i' ∧ ∃ e ∈ s.engines[i]?, e.At Pc.hasLooked k
      | _ => True) : Reached p s i := by
  simp only [Reached, hmode]
  exact ⟨task, htask, hpc⟩

/-- The loop stays where it is while something else runs. -/
theorem Rising.cursor_of_same (h : Rising p s) (hns : s.NoSwitching)
    (hw : ∀ (i : Nat) (e : EngineSys), s.engines[i]? = some e → e.Working) (hok : s.Settling l)
    (hsafe : Undisturbed p s l) (hmode : s.mode = .multiInstance) {task : Task}
    (htask : s.tasks[p.tasks.length]? = some task) (hcursor : s.Cursor task.pc)
    (hstep : s.step l = some t) : t.Cursor task.pc := by
  have hkept (i : Nat) (e' : EngineSys) (he' : t.engines[i]? = some e') (hr : Reached p s i) :
      e'.Resumed := by
    obtain ⟨e, he, hm⟩ := move_of_step hstep he'
    exact (h.kept hns hw hok hsafe hr he hm).resumed
  have hreached {i : Nat} := reached_of_cursor (i := i) hmode htask
  cases hp : task.pc with
  | resumeLoop i =>
    simp only [hp] at hreached
    exact fun j e' hji he' => hkept j e' he' (hreached hji)
  | resumeAwait i k =>
    simp only [hp] at hreached hcursor
    refine ⟨fun j e' hji he' => hkept j e' he' (hreached (.inl hji)), fun e' he' => ?_⟩
    obtain ⟨e, he, hm⟩ := move_of_step hstep he'
    refine wakes_of_move hns hok.1 (hw i e he) ?_ ?_ hm (hcursor.2 e he)
    · rintro j o rfl hlooked pc hpc
      exact (hsafe e he pc hpc).1 (hreached (.inr ⟨rfl, e, he, hlooked⟩))
    · rintro o rfl pc hpc
      refine (hsafe e he pc hpc).2 ?_
      simp only [IsResume, hmode]
      exact ⟨task, htask, hp⟩
  | done =>
    simp only [hp] at hreached
    exact fun j e' he' => hkept j e' he' (hreached trivial)
  | _ =>
    rw [hp] at hcursor
    exact hcursor.elim

/-- The loop goes on. -/
theorem Rising.cursor_of_run (h : Rising p s) {task : Task} {o : TaskOutcome} {slice : TaskSlice}
    (htask : s.tasks[p.tasks.length]? = some task) (hop : task.op = .resume)
    (hcursor : s.Cursor task.pc) (hslice : s.taskStep p.tasks.length task o = some slice)
    (hstep : s.step (.task p.tasks.length o) = some t) : t.Cursor slice.pc := by
  have hengines := engines_of_task hstep htask hslice
  simp only [taskStep, hop] at hslice
  obtain ⟨i, hp, hend, rfl⟩ | ⟨i, e, hp, he, hpause, rfl⟩ | ⟨i, k, hp, hret, rfl⟩ |
    ⟨i, k, hp, hraised, rfl⟩ := resumeStep_cases hslice
  · rw [hp] at hcursor
    obtain hnone | hpause := hend
    · have hsame : s.engines = t.engines := Option.some.inj hengines
      intro j e' he'
      rw [← hsame] at he'
      have hji : j < i := by
        have hlen := List.getElem?_eq_none_iff.mp hnone
        exact (List.getElem?_eq_some_iff.mp he').1.trans_le hlen
      exact hcursor j e' hji he'
    · cases h.flag.symm.trans hpause
  · rw [hp] at hcursor
    simp only [perform, he, Option.bind_some, Option.map_eq_some_iff] at hengines
    obtain ⟨e₁, hcall, hset⟩ := hengines
    refine ⟨fun j e' hji he' => ?_, fun e' he' => ?_⟩
    · rw [← hset] at he'
      obtain ⟨hj, -⟩ | ⟨-, hold⟩ := getElem?_set_cases he'
      · omega
      · exact hcursor j e' hji hold
    · rw [← hset] at he'
      obtain ⟨-, rfl⟩ | ⟨hne, -⟩ := getElem?_set_cases he'
      · exact EngineSys.wakes_of_call hcall
      · exact absurd rfl hne
  · have hsame : s.engines = t.engines := Option.some.inj hengines
    rw [hp] at hcursor
    intro j e' hji he'
    rw [← hsame] at he'
    obtain hlt | rfl := Nat.lt_or_eq_of_le (Nat.lt_succ_iff.mp hji)
    · exact hcursor.1 j e' hlt he'
    · rw [he'] at hret
      exact (hcursor.2 e' he').resumed ⟨.finished .returned, hret, rfl⟩
  · rw [hp] at hcursor
    obtain ⟨e, he, hpc⟩ := Option.bind_eq_some_iff.mp hraised
    obtain ⟨th, hth, -, hne⟩ := (hcursor.2 e he).isResume
    exact absurd (Option.some.inj ((EngineSys.pcAt_of_threads hth).symm.trans hpc)) hne

/-- **Step lemma**. -/
theorem Rising.step (h : Rising p s) (hns : s.NoSwitching)
    (hw : ∀ (i : Nat) (e : EngineSys), s.engines[i]? = some e → e.Working) (hok : s.Settling l)
    (hsafe : Undisturbed p s l) (hstep : s.step l = some t) : Rising p t := by
  obtain ⟨hmode, hflag⟩ := flag_of_step hstep
  refine ⟨?_, fun i e' he' hs => ?_, fun htp i e' he' => ?_, fun hmulti => ?_⟩
  · obtain hsame | rfl | rfl | ⟨urgency, rfl⟩ := hflag
    · exact hsame.trans h.flag
    · exact absurd rfl hok.2.2
    · cases hok.2.1
    · cases hok.2.1
  · obtain ⟨e, he, hm⟩ := move_of_step hstep he'
    refine h.started i e he ?_
    cases hm with
    | same => exact hs
    | startPaused => exact absurd hok.1.1 id
    | spawn _ => exact hs
    | call _ hcall => exact (EngineSys.state_of_call hcall).symm.trans hs
    | run hrun => exact (hw i e he).stopped_of_run hok.1.2 hrun hs
  · rw [hmode] at htp
    obtain ⟨e, he, hm⟩ := move_of_step hstep he'
    obtain ⟨e₀, he₀, hwakes⟩ := h.gathered htp i e he
    refine ⟨e₀, he₀, wakes_of_move hns hok.1 (hw i e he) ?_ ?_ hm hwakes⟩
    · rintro j o rfl hlooked pc hpc
      refine (hsafe e he pc hpc).1 ?_
      simp only [Reached, htp]
      exact ⟨e₀, he₀, e, he, hlooked⟩
    · rintro o rfl pc hpc
      refine (hsafe e he pc hpc).2 ?_
      simp only [IsResume, htp]
      exact ⟨e₀, he₀, rfl⟩
  · rw [hmode] at hmulti
    obtain ⟨task, htask, hop, hcursor⟩ := h.loop hmulti
    obtain hsame | ⟨o, slice, rfl, hslice, htask'⟩ := task_of_step hstep htask
    · exact ⟨task, hsame, hop, h.cursor_of_same hns hw hok hsafe hmulti htask hcursor hstep⟩
    · exact ⟨_, htask', hop, h.cursor_of_run htask hop hcursor hslice hstep⟩

theorem rising_of_resume (h : p.step .resume = some q) : Rising p q := by
  cases stepped_of_step h with
  | resume hmode hes =>
    cases hes
    have hold (i : Nat) (e : EngineSys) (he : (p.engines.map (·.spawn .resume))[i]? = some e) :
        ∃ e₀, p.engines[i]? = some e₀ ∧ e₀.spawn .resume = e := by
      simpa only [List.getElem?_map, Option.map_eq_some_iff] using he
    refine ⟨rfl, fun i e he hs => ?_, fun _ i e he => ?_, fun hmulti => ?_⟩
    · obtain ⟨e₀, he₀, rfl⟩ := hold i e he
      exact ⟨e₀, he₀, hs⟩
    · obtain ⟨e₀, he₀, rfl⟩ := hold i e he
      exact ⟨e₀, he₀, EngineSys.wakes_of_spawn⟩
    · cases hmode.symm.trans hmulti
  | resumeLoop hmode =>
    refine ⟨rfl, fun i e he hs => ⟨e, he, hs⟩, fun htp => ?_, fun _ => ?_⟩
    · cases hmode.symm.trans htp
    · exact ⟨⟨.resume, .resumeLoop 0⟩, by simp [begin], rfl, fun j e hj => absurd hj (Nat.not_lt_zero j)⟩

/-- **Run lemma**. -/
theorem rising_of_reach (hp : system.Reach Yielding p) (hresume : p.step .resume = some q)
    (hs : (system.startingAt q).Reach (fun s l => s.Settling l ∧ Undisturbed p s l) s) :
    system.Reach Yielding s ∧ Rising p s := by
  have hok : p.Yielding .resume := ⟨trivial, trivial⟩
  have hq : system.Reach Yielding q := .step hp hok hresume
  have hreach {s : Pool}
      (hs : (system.startingAt q).Reach (fun s l => s.Settling l ∧ Undisturbed p s l) s) :
      system.Reach Yielding s := hq.trans (fun _ _ hok => hok.1.1) hs
  refine ⟨hreach hs, ?_⟩
  refine hs.invariant_of (J := system.Reach Yielding) (fun _ => hreach) ?_ ?_
  · rintro s rfl
    exact rising_of_resume hresume
  · intro s l t hs hI hok hstep
    obtain ⟨hns, hw⟩ := working_of_reach hs
    exact hI.step hns hw hok.1 hok.2 hstep

/-- What the resume that was called in `p` means in `s`: at rest every engine that had been
started is RUNNING, and an engine that it found up or has brought up is not taken down. -/
structure ResumeKept (p s : Pool) : Prop where
  atRest : s.Quiet → ∀ (i : Nat) (e₀ e : EngineSys), p.engines[i]? = some e₀ →
    e₀.engine.state ≠ .stopped → s.engines[i]? = some e → e.engine.state = .running
  keptUp : ∀ (i : Nat) (e : EngineSys), Reached p s i → s.engines[i]? = some e →
    e.engine.state.up → ∀ (l : PoolLabel) (t : Pool) (e' : EngineSys), s.Settling l →
      Undisturbed p s l → s.step l = some t → t.engines[i]? = some e' → e'.engine.state.up

/-- **A resume is kept**, in every run in which no older pause comes after it. -/
theorem resumeKept_of_reach (hp : system.Reach Yielding p) (hresume : p.step .resume = some q)
    (hs : (system.startingAt q).Reach (fun s l => s.Settling l ∧ Undisturbed p s l) s) :
    ResumeKept p s := by
  obtain ⟨hreach, hrising⟩ := rising_of_reach hp hresume hs
  obtain ⟨hns, hw⟩ := working_of_reach hreach
  refine ⟨fun hquiet i e₀ e he₀ hne he => ?_, fun i e hr he hup l t e' hok hsafe hstep he' => ?_⟩
  · have hq := hquiet.engines i e he
    have hstarted : e.engine.state ≠ .stopped := by
      intro hs
      obtain ⟨e₁, he₁, hstopped⟩ := hrising.started i e he hs
      obtain rfl := Option.some.inj (he₀.symm.trans he₁)
      exact hne hstopped
    suffices hresumed : e.Resumed from hresumed.running_of_quiet (hw i e he) hq hstarted
    cases hmode : s.mode with
    | tensorParallel =>
      obtain ⟨e₀, -, hwakes⟩ := hrising.gathered hmode i e he
      obtain ⟨th, hth, -⟩ := hwakes.isResume
      exact hwakes.resumed (EngineSys.hasLooked_of_quiet hq ⟨th, hth⟩)
    | multiInstance =>
      obtain ⟨task, htask, hop, hcursor⟩ := hrising.loop hmode
      rw [hquiet.tasks _ task htask hop] at hcursor
      exact hcursor i e he
  · obtain ⟨e₁, he₁, hm⟩ := move_of_step hstep he'
    obtain rfl := Option.some.inj (he.symm.trans he₁)
    exact (hrising.kept hns hw hok hsafe hr he hm).up hup

/-- `Undisturbed` by any pause, as a check of a given run. -/
def undisturbed (s : Pool) : PoolLabel → Bool
  | .engine i k _ => s.engines[i]?.all fun e => (e.pcAt k).all fun pc =>
      !pc.undoes e.engine.state &&
        (pc.look != some .resume || !e.engine.state.isLoading || e.engine.pendingPause.isNone)
  | _ => true

theorem undisturbed_of_check (h : s.undisturbed l) : Undisturbed p s l := by
  cases l with
  | engine i k o =>
    intro e he pc hpc
    obtain ⟨hundo, hlook⟩ : pc.undoes e.engine.state = false ∧ ((pc.look ≠ some .resume ∨
        e.engine.state.isLoading = false) ∨ e.engine.pendingPause = none) := by
      simpa [undisturbed, Option.mem_def.mp he, Option.mem_def.mp hpc] using h
    refine ⟨fun _ => hundo, fun _ hresume hloading => ?_⟩
    obtain (hno | hno) | hnone := hlook
    · exact absurd hresume hno
    · cases hno.symm.trans hloading
    · exact hnone
  | _ => trivial

/-- A pause tears the engine down, and another one waits behind it. -/
def twoPauses : List PoolLabel :=
  [.pause .immediate] ++ List.replicate 3 (.engine 0 0 .go) ++ [.pause .immediate, .engine 0 1 .go]

/-- A resume that was called meanwhile joins the queue, and both pauses end before its turn. -/
def resumeBehindPauses : List PoolLabel :=
  [.engine 0 2 .go] ++ List.replicate 4 (.engine 0 0 .go) ++
    [.engine 0 1 .go, .engine 0 2 .go, .engine 0 2 (.created [2]), .engine 0 2 .go]

/-- The older pauses leave the engine PAUSED, and the resume brings it up. -/
theorem resumeKept_behindPauses :
    ∃ p q s, system.execGuarded Yielding runningPool twoPauses = some p ∧
      p.engines.map (·.engine.state) = [.unloading] ∧ p.step .resume = some q ∧
      (system.startingAt q).execGuarded (fun s l => s.Settling l ∧ s.undisturbed l) q
        resumeBehindPauses = some s ∧
      s.engines.map (·.engine.loads) = [2] ∧ s.Quiet ∧ ResumeKept p s := by
  let unloading : EngineSys :=
    { engine :=
        { state := .unloading, core := some ⟨"a"⟩, model := "a", transitionLock := ⟨true, [1]⟩,
          childPids := [1], live := [1], loads := 1 }
      threads :=
        [⟨.pause .immediate, .destroy (.pause .external) .abort, 1⟩,
          ⟨.pause .immediate, .lock (.pauseLook .immediate .external), 0⟩]
      lastCommand := some .pause }
  let running : EngineSys :=
    { engine :=
        { state := .running, core := some ⟨"a"⟩, model := "a", childPids := [2], live := [2],
          loads := 2 }
      threads :=
        [⟨.pause .immediate, .finished .returned, 1⟩, ⟨.pause .immediate, .finished .returned, 1⟩,
          ⟨.resume, .finished .returned, 0⟩]
      lastCommand := some .resume }
  let p : Pool :=
    { runningPool with engines := [unloading], pauseRequested := true, yielded := true }
  let s : Pool := { runningPool with engines := [running] }
  have hp : system.execGuarded Yielding runningPool twoPauses = some p := by decide +kernel
  obtain ⟨q, hq, hs⟩ : ∃ q, p.step .resume = some q ∧
      (system.startingAt q).execGuarded (fun s l => s.Settling l ∧ s.undisturbed l) q
        resumeBehindPauses = some s :=
    ⟨_, rfl, by decide +kernel⟩
  have hreach : (system.startingAt q).Reach (fun s l => s.Settling l ∧ Undisturbed p s l) s :=
    .execGuarded_of (.init rfl) (fun l _ s h => ⟨h.1, undisturbed_of_check h.2⟩) hs
  exact ⟨p, q, s, hp, rfl, hq, hs, rfl, quiet_of_single rfl rfl rfl,
    resumeKept_of_reach (.execGuarded (.init init_runningPool) hp) hq hreach⟩

/-- A resume loads the engine, and a pause comes during the load. -/
def pauseDuringLoad : List PoolLabel :=
  [.resume, .task 0 (.go 0), .engine 0 0 .go, .pause .immediate, .engine 0 1 .go, .engine 0 1 .go]

/-- After one more resume: it finds the engine LOADING and returns, the load ends. -/
def resumeDuringLoad : List PoolLabel :=
  [.task 1 (.go 0), .engine 0 2 .go, .task 1 (.go 0), .task 1 (.go 0), .engine 0 0 (.created [1])] ++
    List.replicate 5 (.engine 0 0 .go) ++ [.task 0 (.go 0), .task 0 (.go 0)]

/-- The last resume is lost: at rest the engine is PAUSED. -/
theorem resumeDuringLoad_not_resumeKept :
    ∃ p q s, system.Reach Yielding p ∧ p.step .resume = some q ∧
      (system.startingAt q).Reach Settling s ∧ ¬ ResumeKept p s := by
  let loading : EngineSys :=
    { engine := { state := .loading, model := "a", pendingPause := some .immediate, loads := 1 }
      threads :=
        [⟨.resume, .load ⟨1, .resume .external⟩, 0⟩, ⟨.pause .immediate, .finished .returned, 1⟩]
      lastCommand := some .pause }
  let paused : EngineSys :=
    { engine := { state := .paused, model := "a", loads := 1 }
      threads :=
        [⟨.resume, .finished .returned, 0⟩, ⟨.pause .immediate, .finished .returned, 1⟩,
          ⟨.resume, .finished .returned, 0⟩]
      lastCommand := some .resume }
  let p : Pool :=
    { pausedPool with
      engines := [loading], pauseRequested := true, tasks := [⟨.resume, .resumeAwait 0 0⟩] }
  let s : Pool :=
    { pausedPool with
      engines := [paused], yielded := false, tasks := [⟨.resume, .done⟩, ⟨.resume, .done⟩] }
  have hp : system.execGuarded Yielding pausedPool pauseDuringLoad = some p := by decide +kernel
  obtain ⟨q, hq, hs⟩ : ∃ q, p.step .resume = some q ∧
      (system.startingAt q).execGuarded Settling q resumeDuringLoad = some s :=
    ⟨_, rfl, by decide +kernel⟩
  refine ⟨p, q, s, .execGuarded (.init init_pausedPool) hp, hq, .execGuarded (.init rfl) hs,
    fun hkept => ?_⟩
  have hrunning := hkept.atRest (quiet_of_single rfl rfl rfl) 0 loading paused rfl
    EngineState.noConfusion rfl
  cases hrunning

end Pool

end OpenModel.Inference
