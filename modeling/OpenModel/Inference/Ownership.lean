import OpenModel.Inference.TransitionLock

/-!
# Ownership of the engine

A load, a teardown and the start of a recovery each belong to one thread, the owner of
the engine; which threads can own it is read off the program counter (`Pc.role`). While
there is an owner the state is one of its role's, and nobody else changes the state, the
core or the processes. The state STOPPING is left out: these results are about runs
without `stop`, in which `start` finds a STOPPED engine and a core is reported dead only
while the engine is RUNNING (`EngineSys.regular`).

## Main results

- `VLLMEngine.runPc_regular`: what one thread can do to the engine
- `EngineSys.ownership_of_reach`: at most one owner, and what the engine holds
-/

namespace OpenModel.Inference

-- ════════════════════════════════════════════════════════════════════════
-- Roles
-- ════════════════════════════════════════════════════════════════════════

inductive Role
  | loader
  | unloader
  | recoverer
  | stopper
  deriving DecidableEq, Repr

/-- The states in which a role can be at work. -/
def Role.allows : Role → EngineState → Bool
  | loader, state => state == .loading || state == .starting
  | unloader, state => state == .unloading
  | recoverer, state => state == .dead
  | stopper, _ => false

def Critical.role : Critical → Option Role
  | startFailed | startFinish | reloadFinish _ | reloadGiveUp _ => some .loader
  | pauseDestroy _ => some .unloader
  | stopBegin => some .stopper
  | _ => none

def Teardown.role : Teardown → Role
  | start | reload _ => .loader
  | pause _ => .unloader
  | recover => .recoverer
  | stop => .stopper

namespace Pc

def role : Pc → Option Role
  | lock block => block.role
  | destroy t _ => some t.role
  | load _ | startCreate | retrySleep _ => some .loader
  | _ => none

def owns (pc : Pc) : Bool := pc.role.isSome

/-- The owner has a core. -/
def hasCore : Pc → Bool
  | lock (.pauseDestroy _) | lock (.reloadFinish _) | lock .startFinish | destroy _ .abort => true
  | _ => false

theorem holds_of_recoverer {pc : Pc} (h : pc.role = some .recoverer) : pc.holds = true := by
  cases pc with
  | lock block => cases block <;> simp [role, Critical.role] at h
  | destroy t phase => rfl
  | _ => simp [role] at h

end Pc

-- ════════════════════════════════════════════════════════════════════════
-- What the engine holds
-- ════════════════════════════════════════════════════════════════════════

/-- The GPU is free. -/
def VLLMEngine.Empty (e : VLLMEngine) : Prop := e.core = none ∧ e.live = []

/-- There is a core, and a teardown would find all its processes. -/
def VLLMEngine.Loaded (e : VLLMEngine) : Prop := e.core.isSome ∧ e.live ⊆ e.childPids

/-- What is on the GPU of an engine with this owner. -/
def VLLMEngine.GpuFor (e : VLLMEngine) : Option Pc → Prop
  | some (.destroy _ (.exitWait childPids)) =>
    e.core = none ∧ e.live ⊆ e.childPids ∧ childPids = e.childPids
  | some pc => bif pc.hasCore then e.Loaded else e.Empty
  | none =>
    match e.state with
    | .running => e.Loaded
    | .dead => e.Loaded ∨ e.Empty
    | _ => e.Empty

/-- What an engine with this owner holds. -/
structure Holding (e : VLLMEngine) (owner : Option Pc) : Prop where
  gpu : e.GpuFor owner
  pendingPause : e.pendingPause = none ∨
    (e.state = .loading ∨ e.state = .starting) ∧ ∀ pc, owner = some pc → pc.holds = false
  pendingResume : e.pendingResume = false ∨ e.state = .unloading

/-- The owner, if a thread at `pc` is the only candidate. -/
def Pc.owner (pc : Pc) : Option Pc := bif pc.owns then some pc else none

theorem Pc.owner_eq_none {pc : Pc} (h : pc.role = none) : pc.owner = none := by
  simp [owner, owns, h]

theorem Pc.owner_eq_some {pc : Pc} {ρ : Role} (h : pc.role = some ρ) : pc.owner = some pc := by
  simp [owner, owns, h]

theorem VLLMEngine.GpuFor.congr {e e' : VLLMEngine} {owner : Option Pc} (h : e.GpuFor owner)
    (hstate : e'.state = e.state) (hcore : e'.core = e.core) (hlive : e'.live = e.live)
    (hpids : e'.childPids = e.childPids) : e'.GpuFor owner := by
  simpa only [GpuFor, Loaded, Empty, hstate, hcore, hlive, hpids] using h

/-- The fields that `Holding` speaks about agree. -/
theorem Holding.congr {e e' : VLLMEngine} {owner : Option Pc} (h : Holding e owner)
    (hstate : e'.state = e.state) (hcore : e'.core = e.core) (hlive : e'.live = e.live)
    (hpids : e'.childPids = e.childPids) (hpp : e'.pendingPause = e.pendingPause)
    (hpr : e'.pendingResume = e.pendingResume) : Holding e' owner where
  gpu := h.gpu.congr hstate hcore hlive hpids
  pendingPause := by rw [hpp, hstate]; exact h.pendingPause
  pendingResume := by rw [hpr, hstate]; exact h.pendingResume

/-- No role is at work in this state, but perhaps a recoverer, which holds the lock. -/
def Unowned (e : VLLMEngine) (pc : Pc) : Prop :=
  ∀ ρ : Role, ρ.allows e.state → ρ = .recoverer ∧ pc.waits

/-- A slice that leaves the owner and what it holds alone. A block under the lock never
meets an owner that holds it. -/
structure Bystander (e : VLLMEngine) (pc : Pc) (slice : Slice) : Prop where
  role : pc.role = none
  role' : slice.pc.role = none
  state : slice.engine.state = e.state
  holding : ∀ owner, (pc.waits → ∀ pc', owner = some pc' → pc'.holds = false) →
    Holding e owner → Holding slice.engine owner

/-- A slice of the owner, or one that finds no owner. -/
structure Actor (e : VLLMEngine) (pc : Pc) (slice : Slice) : Prop where
  owns : pc.owns ∨ Unowned e pc
  allows : ∀ ρ, slice.pc.role = some ρ → ρ.allows slice.engine.state
  holding : Holding e pc.owner → Holding slice.engine slice.pc.owner

-- ════════════════════════════════════════════════════════════════════════
-- Returns touch none of it
-- ════════════════════════════════════════════════════════════════════════

namespace Caller

/-- The path that `switch_model` records when its pause returns. -/
def recorded (model : ModelPath) : Caller → ModelPath
  | external => model
  | switchModel new => new

def afterPause : Caller → Pc
  | external => .finished .returned
  | switchModel new => .lock (.resumeLook (.switchModel new))

/-- `_accepting` after the `finally` of `switch_model`. -/
def rearmed (accepting : Bool) : Caller → Bool
  | external => accepting
  | switchModel _ => true

@[simp] theorem afterPause_role {c : Caller} : c.afterPause.role = none := by cases c <;> rfl

@[simp] theorem afterPause_holds {c : Caller} : c.afterPause.holds = false := by cases c <;> rfl

end Caller

namespace ReloadCaller

def recorded (model : ModelPath) : ReloadCaller → ModelPath
  | pause c => c.recorded model
  | _ => model

def rearmed (accepting : Bool) : ReloadCaller → Bool
  | resume c => c.rearmed accepting
  | _ => accepting

def recovering (recovering : Bool) : ReloadCaller → Bool
  | recover => false
  | _ => recovering

def after : ReloadCaller → Pc
  | pause c => c.afterPause
  | _ => .finished .returned

@[simp] theorem after_role {c : ReloadCaller} : c.after.role = none := by
  cases c with
  | pause c => exact Caller.afterPause_role
  | _ => rfl

@[simp] theorem after_holds {c : ReloadCaller} : c.after.holds = false := by
  cases c with
  | pause c => exact Caller.afterPause_holds
  | _ => rfl

end ReloadCaller

namespace VLLMEngine

variable {e : VLLMEngine}

theorem pauseReturn_eq {c : Caller} :
    e.pauseReturn c = ⟨{ e with model := c.recorded e.model }, c.afterPause, false⟩ := by
  cases c <;> rfl

theorem pauseRaise_eq {c : Caller} :
    e.pauseRaise c = ⟨{ e with accepting := c.rearmed e.accepting }, .finished .raised, false⟩ := by
  cases c <;> rfl

theorem resumeReturn_eq {c : Caller} :
    e.resumeReturn c =
      ⟨{ e with accepting := c.rearmed e.accepting }, .finished .returned, false⟩ := by
  cases c <;> rfl

theorem reloadReturn_eq {c : ReloadCaller} :
    e.reloadReturn c =
      ⟨{ e with
          model := c.recorded e.model
          accepting := c.rearmed e.accepting
          recovering := c.recovering e.recovering }, c.after, false⟩ := by
  cases c with
  | pause c => exact pauseReturn_eq
  | resume c => exact resumeReturn_eq
  | recover => rfl

end VLLMEngine

/-- What a slice may do. -/
def Regular (e : VLLMEngine) (pc : Pc) (slice : Slice) : Prop :=
  Bystander e pc slice ∨ Actor e pc slice

theorem loader_state {e : VLLMEngine} (h : Role.loader.allows e.state) :
    e.state = .loading ∨ e.state = .starting := by
  simpa [Role.allows] using h

theorem Holding.resume_of_loader {e : VLLMEngine} {owner : Option Pc} (h : Holding e owner)
    (hs : Role.loader.allows e.state) : e.pendingResume = false :=
  h.pendingResume.resolve_right (by rcases loader_state hs with hs | hs <;> simp [hs])

/-- A teardown reads the pending pause only once, before it starts. -/
theorem Holding.pause_of_destroy {e : VLLMEngine} {t : Teardown} {phase : Phase}
    (h : Holding e (Pc.destroy t phase).owner) : e.pendingPause = none := by
  refine h.pendingPause.resolve_right fun hp => ?_
  exact Bool.noConfusion (hp.2 (.destroy t phase) rfl)

-- ════════════════════════════════════════════════════════════════════════
-- The blocks under the lock
-- ════════════════════════════════════════════════════════════════════════

namespace VLLMEngine

variable {e : VLLMEngine}

theorem GpuFor.empty (h : e.GpuFor none) (hr : e.state ≠ .running) (hd : e.state ≠ .dead) :
    e.Empty := by
  cases hs : e.state <;> simp_all [GpuFor]

theorem GpuFor.loaded (h : e.GpuFor none) (hr : e.state = .running) : e.Loaded := by
  simpa [GpuFor, hr] using h

theorem GpuFor.loaded_or_empty (h : e.GpuFor none) (hd : e.state = .dead) :
    e.Loaded ∨ e.Empty := by
  simpa [GpuFor, hd] using h

/-- An owner that has no core leaves none behind. -/
theorem GpuFor.core_eq_none {pc : Pc} (h : e.GpuFor (some pc)) (hcore : pc.hasCore = false) :
    e.core = none := by
  unfold GpuFor at h
  split at h
  · exact h.1
  · next heq =>
    cases heq
    rw [hcore] at h
    exact h.1
  · next heq => cases heq

theorem unowned_of_state {pc : Pc}
    (h : e.state = .running ∨ e.state = .paused ∨ e.state = .stopped) : Unowned e pc := by
  intro ρ hρ
  rcases h with h | h | h <;> cases ρ <;> simp [Role.allows, h] at hρ

theorem unowned_of_dead {block : Critical} (h : e.state = .dead) : Unowned e (.lock block) := by
  intro ρ hρ
  cases ρ <;> simp [Role.allows, h, Pc.waits] at hρ ⊢

theorem unloader_state (h : Role.unloader.allows e.state) : e.state = .unloading := by
  simpa [Role.allows] using h

theorem recoverer_state (h : Role.recoverer.allows e.state) : e.state = .dead := by
  simpa [Role.allows] using h

/-- Whether there is a core to shut down decides where a teardown starts. -/
theorem gpuFor_beginDestroy {t : Teardown} (h : e.Loaded ∨ e.Empty) :
    e.GpuFor (some (e.beginDestroy t).pc) := by
  rcases h with h | h
  · simpa [beginDestroy, h.1, GpuFor, Pc.hasCore] using h
  · simpa [beginDestroy, h.1, GpuFor, Pc.hasCore] using h

theorem startBegin_regular {modelPath : ModelPath} (hs : e.state = .stopped) :
    Regular e (.lock (.startBegin modelPath)) (e.critical (.startBegin modelPath)) := by
  refine .inr ⟨.inr (unowned_of_state (by simp [hs])), ?_, fun h =>
    ⟨?_, .inr ⟨.inr rfl, by rintro pc ⟨⟩; rfl⟩, .inl ?_⟩⟩
  · rintro ρ ⟨⟩
    rfl
  · show e.Empty
    exact GpuFor.empty h.gpu (by simp [hs]) (by simp [hs])
  · exact h.pendingResume.resolve_right (by simp [hs])

theorem startFailed_regular (hs : Role.loader.allows e.state) :
    Regular e (.lock .startFailed) (e.critical .startFailed) :=
  .inr ⟨.inl rfl, by rintro ρ ⟨⟩, fun h => ⟨h.gpu, .inl rfl, .inl (h.resume_of_loader hs)⟩⟩

theorem startFinish_regular (hs : Role.loader.allows e.state) :
    Regular e (.lock .startFinish) (e.critical .startFinish) := by
  simp only [critical]
  split_ifs with hp
  · refine .inr ⟨.inl rfl, ?_, fun h => ⟨?_, .inl rfl, .inl (h.resume_of_loader hs)⟩⟩
    · rintro ρ ⟨⟩
      exact hs
    · exact gpuFor_beginDestroy (e := { e with pendingPause := none }) (.inl h.gpu)
  · refine .inr ⟨.inl rfl, by rintro ρ ⟨⟩, fun h => ⟨h.gpu, .inl ?_, .inl (h.resume_of_loader hs)⟩⟩
    show e.pendingPause = none
    simpa using hp

/-- A pause that goes on to the teardown. -/
theorem unloading_regular {block : Critical} {c : Caller} (hrole : block.role = none)
    (hs : e.state = .running) :
    Regular e (.lock block)
      ⟨{ e with state := .unloading }.release, .lock (.pauseDestroy c), false⟩ := by
  have howner : (Pc.lock block).owner = none := Pc.owner_eq_none hrole
  refine .inr ⟨.inr (unowned_of_state (.inl hs)), ?_, fun h => ?_⟩
  · rintro ρ ⟨⟩
    rfl
  · rw [howner] at h
    exact ⟨h.gpu.loaded hs, .inl (h.pendingPause.resolve_right (by simp [hs])), .inr rfl⟩

theorem pauseLook_regular {urgency : YieldUrgency} {c : Caller} :
    Regular e (.lock (.pauseLook urgency c)) (e.critical (.pauseLook urgency c)) := by
  simp only [critical]
  split_ifs with hl hr hu
  · rw [pauseReturn_eq]
    refine .inl ⟨rfl, Caller.afterPause_role, rfl, fun owner hfree h => ?_⟩
    exact ⟨h.gpu.congr rfl rfl rfl rfl, .inr ⟨hl, hfree rfl⟩, h.pendingResume⟩
  · rw [pauseReturn_eq]
    exact .inl ⟨rfl, Caller.afterPause_role, rfl, fun owner _ h => h.congr rfl rfl rfl rfl rfl rfl⟩
  · exact .inl ⟨rfl, rfl, rfl, fun owner _ h => h.congr rfl rfl rfl rfl rfl rfl⟩
  · exact unloading_regular rfl (not_not.mp hr)

theorem pauseTakeover_regular {c : Caller} :
    Regular e (.lock (.pauseTakeover c)) (e.critical (.pauseTakeover c)) := by
  simp only [critical]
  split_ifs with hr
  · rw [pauseReturn_eq]
    exact .inl ⟨rfl, Caller.afterPause_role, rfl, fun owner _ h => h.congr rfl rfl rfl rfl rfl rfl⟩
  · exact unloading_regular rfl (not_not.mp hr)

theorem pauseDestroy_regular {c : Caller} (hs : Role.unloader.allows e.state) :
    Regular e (.lock (.pauseDestroy c)) (e.critical (.pauseDestroy c)) := by
  refine .inr ⟨.inl rfl, ?_, fun h => ⟨gpuFor_beginDestroy (.inl h.gpu), .inl ?_, h.pendingResume⟩⟩
  · rintro ρ ⟨⟩
    exact hs
  · exact h.pendingPause.resolve_right (by simp [unloader_state hs])

theorem resumeLook_regular {c : Caller} :
    Regular e (.lock (.resumeLook c)) (e.critical (.resumeLook c)) := by
  simp only [critical]
  split_ifs with hu hd hp
  · rw [resumeReturn_eq]
    refine .inl ⟨rfl, rfl, rfl, fun owner _ h => ?_⟩
    exact ⟨h.gpu.congr rfl rfl rfl rfl, h.pendingPause, .inr hu⟩
  · rw [resumeReturn_eq]
    exact .inl ⟨rfl, rfl, rfl, fun owner _ h => h.congr rfl rfl rfl rfl rfl rfl⟩
  · rw [resumeReturn_eq]
    exact .inl ⟨rfl, rfl, rfl, fun owner _ h => h.congr rfl rfl rfl rfl rfl rfl⟩
  · have hs : e.state = .paused := not_not.mp hp
    refine .inr ⟨.inr (unowned_of_state (by simp [hs])), ?_, fun h =>
      ⟨?_, .inr ⟨.inl rfl, by rintro pc ⟨⟩; rfl⟩, .inl ?_⟩⟩
    · rintro ρ ⟨⟩
      rfl
    · show e.Empty
      exact GpuFor.empty h.gpu (by simp [hs]) hd
    · exact h.pendingResume.resolve_right hu

theorem reloadFinish_regular {r : Reload} (hs : Role.loader.allows e.state) :
    Regular e (.lock (.reloadFinish r)) (e.critical (.reloadFinish r)) := by
  simp only [critical]
  split_ifs with hp
  · refine .inr ⟨.inl rfl, ?_, fun h => ⟨?_, .inl rfl, .inl (h.resume_of_loader hs)⟩⟩
    · rintro ρ ⟨⟩
      exact hs
    · exact gpuFor_beginDestroy (e := { e with pendingPause := none }) (.inl h.gpu)
  · rw [reloadReturn_eq]
    refine .inr ⟨.inl rfl, by simp, fun h => ?_⟩
    rw [Pc.owner_eq_none ReloadCaller.after_role]
    refine ⟨h.gpu, .inl ?_, .inl (h.resume_of_loader hs)⟩
    show e.pendingPause = none
    simpa using hp

theorem reloadGiveUp_regular {r : Reload} (hs : Role.loader.allows e.state) :
    Regular e (.lock (.reloadGiveUp r)) (e.critical (.reloadGiveUp r)) :=
  .inr ⟨.inl rfl, by rintro ρ ⟨⟩, fun h => ⟨h.gpu, .inl rfl, .inl (h.resume_of_loader hs)⟩⟩

theorem recoverBegin_regular :
    Regular e (.lock .recoverBegin) (e.critical .recoverBegin) := by
  simp only [critical]
  split_ifs with hd
  · exact .inl ⟨rfl, rfl, rfl, fun owner _ h => h.congr rfl rfl rfl rfl rfl rfl⟩
  · have hs : e.state = .dead := not_not.mp hd
    refine .inr ⟨.inr (unowned_of_dead hs), ?_, fun h => ?_⟩
    · rintro ρ ⟨⟩
      simp [Role.allows, Teardown.role, beginDestroy, hs]
    · refine ⟨gpuFor_beginDestroy (GpuFor.loaded_or_empty h.gpu hs), .inl ?_, h.pendingResume⟩
      exact h.pendingPause.resolve_right (by simp [hs])

theorem critical_regular {block : Critical}
    (hallows : ∀ ρ, block.role = some ρ → ρ.allows e.state)
    (hstart : ∀ modelPath, block = .startBegin modelPath → e.state = .stopped) :
    Regular e (.lock block) (e.critical block) := by
  cases block with
  | startBegin modelPath => exact startBegin_regular (hstart _ rfl)
  | startFailed => exact startFailed_regular (hallows _ rfl)
  | startFinish => exact startFinish_regular (hallows _ rfl)
  | pauseLook urgency c => exact pauseLook_regular
  | pauseTakeover c => exact pauseTakeover_regular
  | pauseDestroy c => exact pauseDestroy_regular (hallows _ rfl)
  | resumeLook c => exact resumeLook_regular
  | reloadFinish r => exact reloadFinish_regular (hallows _ rfl)
  | reloadGiveUp r => exact reloadGiveUp_regular (hallows _ rfl)
  | recoverBegin => exact recoverBegin_regular
  | stopBegin => exact absurd (hallows _ rfl) (by simp [Role.allows])


-- ════════════════════════════════════════════════════════════════════════
-- Teardown, loads and requests
-- ════════════════════════════════════════════════════════════════════════

theorem destroyed_regular {t : Teardown} (hs : t.role.allows e.state) :
    Regular e (.destroy t .release) (e.destroyed t) := by
  cases t with
  | start =>
    refine .inr ⟨.inl rfl, by rintro ρ ⟨⟩, fun h => ⟨h.gpu, .inl ?_, .inl ?_⟩⟩
    · exact (h.pause_of_destroy :)
    · exact h.resume_of_loader hs
  | pause c =>
    simp only [destroyed]
    split_ifs with hp
    · refine .inr ⟨.inl rfl, ?_, fun h => ⟨h.gpu, .inl ?_, .inl rfl⟩⟩
      · rintro ρ ⟨⟩
        rfl
      · exact (h.pause_of_destroy :)
    · rw [pauseReturn_eq]
      refine .inr ⟨.inl rfl, by simp, fun h => ?_⟩
      rw [Pc.owner_eq_none Caller.afterPause_role]
      refine ⟨h.gpu, .inl (h.pause_of_destroy :), .inl ?_⟩
      show e.pendingResume = false
      simpa using hp
  | reload r =>
    simp only [destroyed, reloadReturn_eq]
    refine .inr ⟨.inl rfl, by simp, fun h => ?_⟩
    rw [Pc.owner_eq_none ReloadCaller.after_role]
    exact ⟨h.gpu, .inl (h.pause_of_destroy :), .inl (h.resume_of_loader hs)⟩
  | recover =>
    refine .inr ⟨.inl rfl, ?_, fun h => ⟨h.gpu, .inl ?_, .inl ?_⟩⟩
    · rintro ρ ⟨⟩
      rfl
    · exact (h.pause_of_destroy :)
    · exact h.pendingResume.resolve_right (by simp [recoverer_state hs])
  | stop => exact absurd hs (by simp [Teardown.role, Role.allows])

/-- The owner gives up on an engine without a core. -/
theorem gpuFor_none_of_empty (h : e.Empty) (hs : e.state ≠ .running) : e.GpuFor none := by
  cases he : e.state <;> simp_all [GpuFor]

theorem destroyRaised_regular {t : Teardown} (hs : t.role.allows e.state) :
    Regular e (.destroy t .release) (e.destroyRaised t) := by
  cases t with
  | start =>
    refine .inr ⟨.inl rfl, by rintro ρ ⟨⟩, fun h => ⟨?_, .inl ?_, h.pendingResume⟩⟩
    · refine gpuFor_none_of_empty (e := e.release) h.gpu ?_
      rcases loader_state hs with hs | hs <;> simp [release, hs]
    · exact (h.pause_of_destroy :)
  | pause c =>
    simp only [destroyRaised, pauseRaise_eq]
    refine .inr ⟨.inl rfl, by rintro ρ ⟨⟩, fun h => ⟨?_, .inl ?_, h.pendingResume⟩⟩
    · exact gpuFor_none_of_empty h.gpu (by simp [release, unloader_state hs])
    · exact (h.pause_of_destroy :)
  | reload r =>
    simp only [destroyRaised, reloadFailed]
    split_ifs with hr
    · refine .inr ⟨.inl rfl, ?_, fun h => ⟨⟨rfl, h.gpu.2⟩, .inl ?_, h.pendingResume⟩⟩
      · rintro ρ ⟨⟩
        exact hs
      · exact (h.pause_of_destroy :)
    · refine .inr ⟨.inl rfl, ?_, fun h => ⟨h.gpu, .inl ?_, h.pendingResume⟩⟩
      · rintro ρ ⟨⟩
        exact hs
      · exact (h.pause_of_destroy :)
  | recover =>
    refine .inr ⟨.inl rfl, by rintro ρ ⟨⟩, fun h => ⟨?_, .inl ?_, h.pendingResume⟩⟩
    · exact gpuFor_none_of_empty (e := e.release) h.gpu (by simp [release, recoverer_state hs])
    · exact (h.pause_of_destroy :)
  | stop => exact absurd hs (by simp [Teardown.role, Role.allows])

theorem destroyStep_regular {t : Teardown} {phase : Phase} {o : Outcome} {slice : Slice}
    (hs : t.role.allows e.state) (h : e.destroyStep t phase o = some slice) :
    Regular e (.destroy t phase) slice := by
  cases phase with
  | abort =>
    cases o <;> simp [destroyStep] at h
    subst h
    refine .inr ⟨.inl rfl, ?_, fun h => ⟨?_, .inl ?_, h.pendingResume⟩⟩
    · rintro ρ ⟨⟩
      exact hs
    · have hl : e.Loaded := h.gpu
      show GpuFor _ (some (.destroy t (if e.childPids = [] then .release else .exitWait e.childPids)))
      split_ifs with hpids
      · exact ⟨rfl, List.subset_nil.mp (hpids ▸ hl.2)⟩
      · exact ⟨rfl, hl.2, rfl⟩
    · exact (h.pause_of_destroy :)
  | exitWait childPids =>
    cases o <;> simp [destroyStep] at h
    subst h
    refine .inr ⟨.inl rfl, ?_, fun h => ⟨?_, .inl ?_, h.pendingResume⟩⟩
    · rintro ρ ⟨⟩
      exact hs
    · obtain ⟨hcore, hlive, rfl⟩ : e.core = none ∧ e.live ⊆ e.childPids ∧ childPids = e.childPids :=
        h.gpu
      refine ⟨hcore, ?_⟩
      simpa using fun pid hpid => hlive hpid
    · exact (h.pause_of_destroy :)
  | killWait =>
    cases o <;> simp [destroyStep] at h
    subst h
    refine .inr ⟨.inl rfl, ?_, fun h => ⟨h.gpu, .inl ?_, h.pendingResume⟩⟩
    · rintro ρ ⟨⟩
      exact hs
    · exact (h.pause_of_destroy :)
  | release =>
    cases o with
    | go =>
      cases h
      exact destroyed_regular hs
    | cudaError =>
      cases h
      exact destroyRaised_regular hs
    | _ => cases h

/-- A load that goes on. -/
theorem loader_regular {pc pc' : Pc} {e' : VLLMEngine} (hs : Role.loader.allows e.state)
    (hrole : pc.role = some .loader) (hrole' : pc'.role = some .loader) (hholds : pc'.holds = false)
    (hgpu : e.GpuFor (some pc) → e'.GpuFor (some pc')) (hstate : e'.state = e.state)
    (hpp : e'.pendingPause = e.pendingPause) (hpr : e'.pendingResume = e.pendingResume) :
    Regular e pc ⟨e', pc', false⟩ := by
  refine .inr ⟨.inl ?_, fun ρ hρ => ?_, fun h => ?_⟩
  · simp [Pc.owns, hrole]
  · obtain rfl := Option.some.inj (hrole'.symm.trans hρ)
    exact hstate ▸ hs
  · rw [Pc.owner_eq_some hrole] at h
    rw [Pc.owner_eq_some hrole']
    refine ⟨hgpu h.gpu, ?_, ?_⟩
    · rw [hpp, hstate]
      exact h.pendingPause.imp_right fun hp => ⟨hp.1, by rintro pc ⟨⟩; exact hholds⟩
    · rw [hpr, hstate]
      exact h.pendingResume

theorem loaded_createEngine {pids : List Pid} (h : e.Empty) : (e.createEngine pids).Loaded :=
  ⟨rfl, by simp [createEngine, h.2]⟩

/-- Requests, drains and first stretches. -/
theorem bystander_regular {pc pc' : Pc} {e' : VLLMEngine} {b : Bool} (hrole : pc.role = none)
    (hrole' : pc'.role = none) (hstate : e'.state = e.state) (hcore : e'.core = e.core)
    (hlive : e'.live = e.live) (hpids : e'.childPids = e.childPids)
    (hpp : e'.pendingPause = e.pendingPause) (hpr : e'.pendingResume = e.pendingResume) :
    Regular e pc ⟨e', pc', b⟩ :=
  .inl ⟨hrole, hrole', hstate, fun _ _ h => h.congr hstate hcore hlive hpids hpp hpr⟩

theorem generateStep_regular {weights : ModelPath} {hasOutput : Bool} {o : Outcome} {slice : Slice}
    (hdead : o = .coreDead → e.state = .running)
    (h : e.generateStep weights hasOutput o = some slice) :
    Regular e (.generating weights hasOutput) slice := by
  cases o with
  | output =>
    simp only [generateStep] at h
    split_ifs at h
    all_goals
      cases h
      exact bystander_regular rfl rfl rfl rfl rfl rfl rfl rfl
  | ended | failed | stalled =>
    cases h
    exact bystander_regular rfl rfl rfl rfl rfl rfl rfl rfl
  | coreDead =>
    cases h
    have hs := hdead rfl
    refine .inr ⟨.inr (unowned_of_state (.inl hs)), by rintro ρ ⟨⟩, fun h => ⟨?_, .inl ?_, .inl ?_⟩⟩
    · have hloaded : e.Loaded := GpuFor.loaded h.gpu hs
      exact .inl hloaded
    · exact (h.pendingPause.resolve_right (by simp [hs]) :)
    · exact (h.pendingResume.resolve_right (by simp [hs]) :)
  | _ => cases h

theorem enter_regular {op : Op} (hop : op ≠ .stop) : Regular e .created (e.enter op) := by
  cases op with
  | stop => exact absurd rfl hop
  | switchModel new =>
    simp only [enter, switchEnter]
    split_ifs
    all_goals exact bystander_regular rfl rfl rfl rfl rfl rfl rfl rfl
  | generate requested =>
    simp only [enter, beginGenerate]
    split
    all_goals exact bystander_regular rfl rfl rfl rfl rfl rfl rfl rfl
  | _ => exact bystander_regular rfl rfl rfl rfl rfl rfl rfl rfl

/-- The conditions on one step of a thread: `start` finds a STOPPED engine, and a core is
reported dead only while the engine is RUNNING. -/
def regularRun (e : VLLMEngine) (pc : Pc) (o : Outcome) : Bool :=
  match pc, o with
  | .lock (.startBegin _), _ => e.state == .stopped
  | .generating _ _, .coreDead => e.state == .running
  | _, _ => true

/-- **One thread**: it is a bystander, or it is the owner, or there is no owner. -/
theorem runPc_regular {k : Nat} {op : Op} {pc : Pc} {o : Outcome} {slice : Slice}
    (hop : op ≠ .stop) (hallows : ∀ ρ, pc.role = some ρ → ρ.allows e.state)
    (hok : e.regularRun pc o) (h : e.runPc k op pc o = some slice) : Regular e pc slice := by
  cases pc with
  | created =>
    cases o <;> cases h
    exact enter_regular hop
  | lock block =>
    obtain ⟨l, -, rfl⟩ := runPc_block h
    have hreg : Regular { e with transitionLock := l } (.lock block)
        ({ e with transitionLock := l }.critical block) := by
      refine critical_regular hallows ?_
      rintro modelPath rfl
      simpa [regularRun] using hok
    refine hreg.imp (fun hb => ⟨hb.role, hb.role', hb.state, fun owner hfree h => ?_⟩)
      fun ha => ⟨ha.owns, ha.allows, fun h => ?_⟩
    · exact hb.holding owner hfree (h.congr rfl rfl rfl rfl rfl rfl)
    · exact ha.holding (h.congr rfl rfl rfl rfl rfl rfl)
  | destroy t phase => exact destroyStep_regular (hallows _ rfl) h
  | drain d =>
    obtain rfl := runPc_drain h
    cases d <;> exact bystander_regular rfl rfl rfl rfl rfl rfl rfl rfl
  | load r =>
    cases o <;> try cases h
    · exact loader_regular (hallows _ rfl) rfl rfl rfl loaded_createEngine rfl rfl rfl
    · simp only [reloadFailed]
      split_ifs
      · exact loader_regular (hallows _ rfl) rfl rfl rfl (fun hg => ⟨rfl, hg.2⟩) rfl rfl rfl
      · exact loader_regular (hallows _ rfl) rfl rfl rfl id rfl rfl rfl
  | startCreate =>
    cases o <;> try cases h
    · exact loader_regular (hallows _ rfl) rfl rfl rfl loaded_createEngine rfl rfl rfl
    · exact loader_regular (hallows _ rfl) rfl rfl rfl id rfl rfl rfl
  | retrySleep r =>
    cases o <;> cases h
    exact loader_regular (hallows _ rfl) rfl rfl rfl id rfl rfl rfl
  | generating weights hasOutput =>
    refine generateStep_regular ?_ h
    rintro rfl
    simpa [regularRun] using hok
  | aborting => 
    cases o <;> cases h
    exact bystander_regular rfl rfl rfl rfl rfl rfl rfl rfl
  | exitSleep | finished result => cases o <;> cases h

end VLLMEngine

-- ════════════════════════════════════════════════════════════════════════
-- Every run
-- ════════════════════════════════════════════════════════════════════════

namespace EngineSys

variable {s t : EngineSys} {k : Nat} {o : Outcome}

/-- At most one thread owns the engine, in a state of its role, and the engine holds what
its owner says. -/
structure Ownership (s : EngineSys) : Prop where
  ops : ∀ th ∈ s.threads, th.op ≠ .stop
  allows : ∀ k pc ρ, s.pcAt k = some pc → pc.role = some ρ → ρ.allows s.engine.state
  unique : ∀ j k, s.At Pc.owns j → s.At Pc.owns k → j = k
  owned : ∀ k pc, s.pcAt k = some pc → pc.owns → Holding s.engine (some pc)
  unowned : (∀ k, ¬ s.At Pc.owns k) → Holding s.engine none

/-- The steps without `stop` in which `regularRun` holds. -/
def regular (s : EngineSys) : Label → Bool
  | .spawn op | .call op => op != .stop
  | .run k o => (s.pcAt k).all fun pc => s.engine.regularRun pc o

namespace Ownership

theorem exists_holding (h : s.Ownership) : ∃ owner, Holding s.engine owner := by
  by_cases hnone : ∀ k, ¬ s.At Pc.owns k
  · exact ⟨none, h.unowned hnone⟩
  · obtain ⟨k, pc, hpc, hown⟩ := not_forall_not.mp hnone
    exact ⟨some pc, h.owned k pc hpc hown⟩

theorem holding_owner (h : s.Ownership) {pc : Pc} (hpc : s.pcAt k = some pc)
    (hothers : ∀ j, j ≠ k → ¬ s.At Pc.owns j) : Holding s.engine pc.owner := by
  by_cases hown : pc.owns
  · have : pc.owner = some pc := by simp [Pc.owner, hown]
    exact this ▸ h.owned k pc hpc hown
  · have : pc.owner = none := by simp [Pc.owner, hown]
    refine this ▸ h.unowned fun j hj => ?_
    by_cases hjk : j = k
    · subst hjk
      exact hown ((at_of_pcAt hpc).mp hj)
    · exact hothers j hjk hj

theorem spawn (h : s.Ownership) {op : Op} (hop : op ≠ .stop) : (s.spawn op).Ownership := by
  have hat (j : Nat) : (s.spawn op).At Pc.owns j ↔ s.At Pc.owns j := at_spawn rfl
  have hpc {j : Nat} {pc : Pc} (hj : (s.spawn op).pcAt j = some pc) :
      s.pcAt j = some pc ∨ pc = .created := by
    rw [pcAt_spawn] at hj
    split_ifs at hj
    · exact .inr (Option.some.inj hj).symm
    · exact .inl hj
  refine ⟨?_, ?_, ?_, ?_, ?_⟩
  · intro th hth
    rcases List.mem_append.mp hth with hth | hth
    · exact h.ops th hth
    · obtain rfl := List.mem_singleton.mp hth
      exact hop
  · intro j pc ρ hj hρ
    rcases hpc hj with hj | rfl
    · exact h.allows j pc ρ hj hρ
    · cases hρ
  · intro i j hi hj
    exact h.unique i j ((hat i).mp hi) ((hat j).mp hj)
  · intro j pc hj hown
    rcases hpc hj with hj | rfl
    · exact h.owned j pc hj hown
    · cases hown
  · intro hnone
    exact h.unowned fun j hj => hnone j ((hat j).mpr hj)

/-- Nobody holds the lock that a thread is about to take. -/
theorem not_holds_of_waits (hlock : s.LockAgrees) {th : Thread} {slice : Slice}
    (hrun : s.engine.runPc k th.op th.pc o = some slice) (hw : th.pc.waits) (j : Nat) :
    ¬ s.At Pc.holds j := by
  obtain ⟨block, hblock⟩ := Pc.exists_block hw
  rw [hblock] at hrun
  obtain ⟨l, hl, -⟩ := VLLMEngine.runPc_block hrun
  exact (AsyncLock.Agrees.of_grant hlock hl).2 j

/-- Nobody else owns the engine while an actor moves. -/
theorem not_owns_of_actor (h : s.Ownership) (hlock : s.LockAgrees) {th : Thread} {slice : Slice}
    (hth : s.threads[k]? = some th) (hrun : s.engine.runPc k th.op th.pc o = some slice)
    (ha : Actor s.engine th.pc slice) : ∀ j, j ≠ k → ¬ s.At Pc.owns j := by
  intro j hjk hj
  rcases ha.owns with hk | hun
  · exact hjk (h.unique j k hj ((at_of_pcAt (pcAt_of_threads hth)).mpr hk))
  · obtain ⟨pc, hpc, hown⟩ := hj
    obtain ⟨ρ, hρ⟩ := Option.isSome_iff_exists.mp hown
    obtain ⟨rfl, hw⟩ := hun ρ (h.allows j pc ρ hpc hρ)
    exact not_holds_of_waits hlock hrun hw j ⟨pc, hpc, Pc.holds_of_recoverer hρ⟩

theorem settle_ops (h : ∀ th ∈ s.threads, th.op ≠ .stop) {th : Thread} {slice : Slice}
    (hth : s.threads[k]? = some th) : ∀ x ∈ (s.settle k th slice).threads, x.op ≠ .stop := by
  intro x hx
  simp only [EngineSys.settle] at hx
  rcases List.mem_append.mp hx with hx | hx
  · rcases List.mem_or_eq_of_mem_set hx with hx | rfl
    · exact h x hx
    · exact h th (List.mem_of_getElem? hth)
  · split_ifs at hx
    · obtain rfl := List.mem_singleton.mp hx
      exact Op.noConfusion
    · cases hx

/-- A thread other than `k` stands where it stood, or was created just now. -/
theorem pcAt_of_settle {th : Thread} {slice : Slice} {j : Nat} {pc : Pc}
    (hth : s.threads[k]? = some th) (hjk : j ≠ k) (h : (s.settle k th slice).pcAt j = some pc) :
    s.pcAt j = some pc ∨ pc = .created := by
  rw [pcAt_settle hth, if_neg hjk] at h
  split_ifs at h
  · exact .inr (Option.some.inj h).symm
  · exact .inl h

theorem settle_self {th : Thread} (hth : s.threads[k]? = some th) (slice : Slice) :
    (s.settle k th slice).pcAt k = some slice.pc := by
  rw [pcAt_settle hth, if_pos rfl]

/-- A thread that owns nothing, before and after, leaves the owner where it was. -/
theorem owns_settle {th : Thread} {slice : Slice} (hth : s.threads[k]? = some th)
    (hrole : th.pc.role = none) (hrole' : slice.pc.role = none) (j : Nat) :
    (s.settle k th slice).At Pc.owns j ↔ s.At Pc.owns j := by
  rw [at_settle rfl hth]
  constructor
  · rintro (⟨-, hj⟩ | ⟨-, hj⟩)
    · simp [Pc.owns, hrole'] at hj
    · exact hj
  · intro hj
    refine .inr ⟨?_, hj⟩
    rintro rfl
    simp [at_of_pcAt (pcAt_of_threads hth), Pc.owns, hrole] at hj

theorem pcAt_of_settle_owns {th : Thread} {slice : Slice} (hth : s.threads[k]? = some th)
    (hrole' : slice.pc.role = none) {j : Nat} {pc : Pc}
    (hj : (s.settle k th slice).pcAt j = some pc) (hown : pc.owns) : s.pcAt j = some pc := by
  by_cases hjk : j = k
  · subst hjk
    obtain rfl := Option.some.inj ((settle_self hth slice).symm.trans hj)
    simp [Pc.owns, hrole'] at hown
  · rcases pcAt_of_settle hth hjk hj with hj | rfl
    · exact hj
    · cases hown

/-- A thread that moves while nobody else owns the engine is the only candidate afterwards. -/
theorem eq_of_settle_owns {th : Thread} {slice : Slice} (hth : s.threads[k]? = some th)
    (hothers : ∀ j, j ≠ k → ¬ s.At Pc.owns j) {j : Nat} {pc : Pc}
    (hj : (s.settle k th slice).pcAt j = some pc) (hown : pc.owns) : j = k ∧ pc = slice.pc := by
  rcases (at_settle rfl hth).mp ⟨pc, hj, hown⟩ with ⟨rfl, -⟩ | ⟨hjk, hj⟩
  · exact ⟨rfl, Option.some.inj (hj.symm.trans (settle_self hth slice))⟩
  · exact absurd hj (hothers j hjk)

theorem settle_holding {th : Thread} {slice : Slice} {owner : Option Pc} :
    Holding (s.settle k th slice).engine owner ↔ Holding slice.engine owner :=
  ⟨fun h => h.congr rfl rfl rfl rfl rfl rfl, fun h => h.congr rfl rfl rfl rfl rfl rfl⟩

theorem settle_bystander (h : s.Ownership) (hlock : s.LockAgrees) {th : Thread} {slice : Slice}
    (hth : s.threads[k]? = some th) (hrun : s.engine.runPc k th.op th.pc o = some slice)
    (hb : Bystander s.engine th.pc slice) : (s.settle k th slice).Ownership := by
  have howns := owns_settle hth hb.role hb.role'
  refine ⟨settle_ops h.ops hth, ?_, ?_, ?_, ?_⟩
  · intro j pc ρ hj hρ
    show ρ.allows slice.engine.state
    rw [hb.state]
    exact h.allows j pc ρ (pcAt_of_settle_owns hth hb.role' hj (by simp [Pc.owns, hρ])) hρ
  · intro i j hi hj
    exact h.unique i j ((howns i).mp hi) ((howns j).mp hj)
  · intro j pc hj hown
    have hj := pcAt_of_settle_owns hth hb.role' hj hown
    refine settle_holding.mpr (hb.holding (some pc) ?_ (h.owned j pc hj hown))
    rintro hw pc' ⟨⟩
    have := not_holds_of_waits hlock hrun hw j
    simpa [at_of_pcAt hj] using this
  · intro hnone
    refine settle_holding.mpr (hb.holding none (fun _ _ hpc => by cases hpc) (h.unowned ?_))
    exact fun j hj => hnone j ((howns j).mpr hj)

theorem settle_actor (h : s.Ownership) (hlock : s.LockAgrees) {th : Thread} {slice : Slice}
    (hth : s.threads[k]? = some th) (hrun : s.engine.runPc k th.op th.pc o = some slice)
    (ha : Actor s.engine th.pc slice) : (s.settle k th slice).Ownership := by
  have hothers := h.not_owns_of_actor hlock hth hrun ha
  have hholding := ha.holding (h.holding_owner (pcAt_of_threads hth) hothers)
  refine ⟨settle_ops h.ops hth, ?_, ?_, ?_, ?_⟩
  · intro j pc ρ hj hρ
    obtain ⟨rfl, rfl⟩ := eq_of_settle_owns hth hothers hj (by simp [Pc.owns, hρ])
    exact ha.allows ρ hρ
  · rintro i j ⟨pc, hi, hown⟩ ⟨pc', hj, hown'⟩
    exact (eq_of_settle_owns hth hothers hi hown).1.trans
      (eq_of_settle_owns hth hothers hj hown').1.symm
  · intro j pc hj hown
    obtain ⟨rfl, rfl⟩ := eq_of_settle_owns hth hothers hj hown
    exact settle_holding.mpr (by simpa [Pc.owner, hown] using hholding)
  · intro hnone
    have hnot : slice.pc.owns = false := by simpa [at_of_pcAt (settle_self hth slice)] using hnone k
    exact settle_holding.mpr (by simpa [Pc.owner, hnot] using hholding)

theorem runThread (h : s.Ownership) (hlock : s.LockAgrees)
    (hok : ∀ pc, s.pcAt k = some pc → s.engine.regularRun pc o)
    (hrun : s.runThread k o = some t) : t.Ownership := by
  obtain ⟨th, slice, hth, hpc, rfl⟩ := runThread_eq_some.mp hrun
  have hat := pcAt_of_threads hth
  rcases VLLMEngine.runPc_regular (h.ops th (List.mem_of_getElem? hth))
    (fun ρ hρ => h.allows k th.pc ρ hat hρ) (hok _ hat) hpc with hb | ha
  · exact h.settle_bystander hlock hth hpc hb
  · exact h.settle_actor hlock hth hpc ha

/-- **Step lemma**. -/
theorem step (h : s.Ownership) (hlock : s.LockAgrees) {l : Label} (hok : s.regular l)
    (hstep : s.step l = some t) : t.Ownership := by
  obtain ⟨op, -, rfl, rfl⟩ | ⟨op, -, rfl, hrun⟩ | ⟨k, o, rfl, hrun⟩ := step_cases hstep
  · exact h.spawn (bne_iff_ne.mp hok)
  · refine (h.spawn (bne_iff_ne.mp hok)).runThread hlock.spawn (fun pc hpc => ?_) hrun
    rw [pcAt_spawn, if_pos rfl] at hpc
    cases hpc
    rfl
  · refine h.runThread hlock (fun pc hpc => ?_) hrun
    simpa [regular, hpc] using hok

theorem of_init (h : s.init) : s.Ownership := by
  rcases h with rfl | ⟨modelPath, rfl⟩
  all_goals
    refine ⟨by simp, by simp [pcAt], by simp [At, pcAt], by simp [pcAt], fun _ => ?_⟩
    exact ⟨⟨rfl, rfl⟩, .inl rfl, .inl rfl⟩

end Ownership

/-- **Run lemma**: ownership holds in every regular run. -/
theorem ownership_of_reach {ok : EngineSys → Label → Prop} (hle : ∀ s l, ok s l → s.regular l)
    (h : system.Reach ok s) : s.Ownership :=
  h.invariant_of (fun _ => lockAgrees_of_reach) (fun _ => Ownership.of_init)
    fun _ _ _ hlock hs hok hstep => hs.step hlock (hle _ _ hok) hstep

end EngineSys

end OpenModel.Inference
