import OpenModel.Inference.ReturnedPause

/-!
# Custody of the core processes

A core may be reported dead at any time: by a request of an earlier core, while nothing is
loaded, or while a teardown is on its way. What must not happen is that the report meets an
owner of the engine that does not hold the lock (`Pc.exposed`): the recovery would then work
beside it. In the runs of `orderly` there is at most one owner, in a state of its role or
under a report that it will overwrite, and `_child_pids` names every process that lives.

## Main results

- `VLLMEngine.runPc_kept`: what one thread can do to the engine
- `EngineSys.custody_of_reach`: at most one owner, and what is on the GPU
- `EngineSys.accounted_of_reach`: an engine at rest without a core left no process behind
- `EngineSys.failedStart_orphans`: a construction that fails leaves its processes behind
-/

namespace OpenModel.Inference

namespace Pc

/-- Owning the engine while others can take the lock. -/
def exposed (pc : Pc) : Bool := pc.owns && !pc.holds

/-- The state is one of the role's, or a report came while the thread held the lock. -/
def InCharge (pc : Pc) (e : VLLMEngine) : Prop :=
  ∀ ρ, pc.role = some ρ → ρ.allows e.state ∨ e.state = .dead ∧ pc.holds

theorem inCharge_of_role {pc : Pc} {e : VLLMEngine} (h : pc.role = none) : pc.InCharge e := by
  intro ρ hρ
  cases h.symm.trans hρ

/-- A request that was admitted. -/
def serves : Pc → Bool
  | generating _ _ | aborting => true
  | _ => false

theorem serves_cases {pc : Pc} (h : pc.serves) :
    (∃ weights hasOutput, pc = .generating weights hasOutput) ∨ pc = .aborting := by
  cases pc with
  | generating weights hasOutput => exact .inl ⟨weights, hasOutput, rfl⟩
  | aborting => exact .inr rfl
  | _ => cases h

theorem role_of_serves {pc : Pc} (h : pc.serves) : pc.role = none := by
  obtain ⟨weights, hasOutput, rfl⟩ | rfl := serves_cases h
  · rfl
  · rfl

theorem not_owns_of_serves {pc : Pc} (h : pc.serves) : pc.owns = false := by
  rw [owns, role_of_serves h]
  rfl

theorem not_waits_of_serves {pc : Pc} (h : pc.serves) : pc.waits = false := by
  obtain ⟨weights, hasOutput, rfl⟩ | rfl := serves_cases h
  · rfl
  · rfl

end Pc

-- ════════════════════════════════════════════════════════════════════════
-- One thread
-- ════════════════════════════════════════════════════════════════════════

/-- A slice of a thread that owns nothing. A report of a dead core finds no exposed owner
(`sheltered`). -/
structure Onlooker (e : VLLMEngine) (sheltered : Prop) (pc : Pc) (slice : Slice) : Prop where
  role : pc.role = none
  role' : slice.pc.role = none
  state : slice.engine.state = e.state ∨ slice.engine.state = .dead ∧ sheltered
  gpu : ∀ owner, e.GpuFor owner → slice.engine.GpuFor owner

/-- A slice of the owner, or one that finds no owner. -/
structure Custodian (e : VLLMEngine) (nobody : Prop) (pc : Pc) (slice : Slice) : Prop where
  owns : pc.owns ∨ nobody ∨ pc.waits ∧ Unowned e pc
  inCharge : slice.pc.InCharge slice.engine
  gpu : e.GpuFor pc.owner → slice.engine.GpuFor slice.pc.owner

/-- What a slice may do. -/
def Kept (e : VLLMEngine) (nobody sheltered : Prop) (pc : Pc) (slice : Slice) : Prop :=
  Onlooker e sheltered pc slice ∨ Custodian e nobody pc slice

namespace VLLMEngine

variable {e : VLLMEngine} {nobody sheltered : Prop} {slice : Slice} {o : Outcome}

theorem GpuFor.empty_of_core (h : e.GpuFor none) (hcore : e.core = none) : e.Empty := by
  cases hs : e.state <;> simp_all [GpuFor, Loaded, Empty]

/-- Whatever is on the GPU, `_child_pids` names it. -/
theorem GpuFor.live_subset {owner : Option Pc} (h : e.GpuFor owner) : e.live ⊆ e.childPids := by
  have hempty (h : e.Empty) : e.live ⊆ e.childPids := by simp [h.2]
  unfold GpuFor at h
  split at h
  · exact h.2.1
  · next pc _ =>
    cases hcore : pc.hasCore with
    | true => exact (by simpa [hcore] using h : e.Loaded).2
    | false => exact hempty (by simpa [hcore] using h)
  · split at h
    · exact h.2
    · exact h.elim (·.2) hempty
    · exact hempty h

/-- No role is at work while the engine is RUNNING. -/
theorem state_ne_running {pc : Pc} {ρ : Role} (h : pc.InCharge e) (hρ : pc.role = some ρ) :
    e.state ≠ .running := by
  intro hs
  rcases h ρ hρ with hallows | ⟨hdead, -⟩
  · cases ρ <;> simp [Role.allows, hs] at hallows
  · simp [hs] at hdead

/-- A thread that changes nothing on the GPU and is no owner. -/
theorem onlooker_kept {pc pc' : Pc} {e' : VLLMEngine} {b : Bool} (hrole : pc.role = none)
    (hrole' : pc'.role = none) (hstate : e'.state = e.state) (hcore : e'.core = e.core)
    (hlive : e'.live = e.live) (hpids : e'.childPids = e.childPids) :
    Kept e nobody sheltered pc ⟨e', pc', b⟩ :=
  .inl ⟨hrole, hrole', .inl hstate, fun _ h => h.congr hstate hcore hlive hpids⟩

/-- A pause that goes on to the teardown. -/
theorem unloading_kept {block : Critical} {c : Caller} (hrole : block.role = none)
    (hs : e.state = .running) :
    Kept e nobody sheltered (.lock block)
      ⟨{ e with state := .unloading }.release, .lock (.pauseDestroy c), false⟩ := by
  refine .inr ⟨.inr (.inr ⟨rfl, unowned_of_state (.inl hs)⟩), ?_, fun h => ?_⟩
  · rintro ρ ⟨⟩
    exact .inl rfl
  · have howner : (Pc.lock block).owner = none := Pc.owner_eq_none hrole
    exact (howner ▸ h).loaded hs

theorem pauseLook_kept {urgency : YieldUrgency} {c : Caller} :
    Kept e nobody sheltered (.lock (.pauseLook urgency c)) (e.critical (.pauseLook urgency c)) := by
  simp only [critical, pauseReturn_eq]
  split_ifs with hl hr hu
  · exact onlooker_kept rfl Caller.afterPause_role rfl rfl rfl rfl
  · exact onlooker_kept rfl Caller.afterPause_role rfl rfl rfl rfl
  · exact onlooker_kept rfl rfl rfl rfl rfl rfl
  · exact unloading_kept rfl (not_not.mp hr)

theorem resumeLook_kept {c : Caller} :
    Kept e nobody sheltered (.lock (.resumeLook c)) (e.critical (.resumeLook c)) := by
  simp only [critical, resumeReturn_eq]
  split_ifs with hu hd hp
  · exact onlooker_kept rfl rfl rfl rfl rfl rfl
  · exact onlooker_kept rfl rfl rfl rfl rfl rfl
  · exact onlooker_kept rfl rfl rfl rfl rfl rfl
  · have hs : e.state = .paused := not_not.mp hp
    refine .inr ⟨.inr (.inr ⟨rfl, unowned_of_state (by simp [hs])⟩), ?_, fun h => ?_⟩
    · rintro ρ ⟨⟩
      exact .inl rfl
    · show e.Empty
      exact GpuFor.empty h (by simp [hs]) hd

/-- Blocks under the lock, which no teardown holds. -/
theorem critical_kept {block : Critical} (hallows : ∀ ρ, block.role = some ρ → ρ.allows e.state)
    (hstart : ∀ modelPath, block = .startBegin modelPath → nobody ∧ e.core = none) :
    Kept e nobody sheltered (.lock block) (e.critical block) := by
  cases block with
  | startBegin modelPath =>
    obtain ⟨hnobody, hcore⟩ := hstart _ rfl
    refine .inr ⟨.inr (.inl hnobody), ?_, fun h => ?_⟩
    · rintro ρ ⟨⟩
      exact .inl rfl
    · show e.Empty
      exact GpuFor.empty_of_core h hcore
  | startFailed | reloadGiveUp r => exact .inr ⟨.inl rfl, Pc.inCharge_of_role rfl, id⟩
  | startFinish =>
    simp only [critical]
    split_ifs with hp
    · refine .inr ⟨.inl rfl, ?_, fun h => gpuFor_beginDestroy (.inl h)⟩
      rintro ρ ⟨⟩
      exact .inl (hallows _ rfl)
    · exact .inr ⟨.inl rfl, Pc.inCharge_of_role rfl, id⟩
  | pauseLook urgency c => exact pauseLook_kept
  | pauseTakeover c =>
    simp only [critical, pauseReturn_eq]
    split_ifs with hr
    · exact onlooker_kept rfl Caller.afterPause_role rfl rfl rfl rfl
    · exact unloading_kept rfl (not_not.mp hr)
  | pauseDestroy c =>
    refine .inr ⟨.inl rfl, ?_, fun h => gpuFor_beginDestroy (.inl h)⟩
    rintro ρ ⟨⟩
    exact .inl (hallows _ rfl)
  | resumeLook c => exact resumeLook_kept
  | reloadFinish r =>
    simp only [critical, reloadReturn_eq]
    split_ifs with hp
    · refine .inr ⟨.inl rfl, ?_, fun h => gpuFor_beginDestroy (.inl h)⟩
      rintro ρ ⟨⟩
      exact .inl (hallows _ rfl)
    · refine .inr ⟨.inl rfl, Pc.inCharge_of_role ReloadCaller.after_role, fun h => ?_⟩
      rw [Pc.owner_eq_none ReloadCaller.after_role]
      exact h
  | recoverBegin =>
    simp only [critical]
    split_ifs with hd
    · exact onlooker_kept rfl rfl rfl rfl rfl rfl
    · have hs : e.state = .dead := not_not.mp hd
      refine .inr ⟨.inr (.inr ⟨rfl, unowned_of_dead hs⟩), fun ρ _ => .inr ⟨hs, rfl⟩, fun h => ?_⟩
      exact gpuFor_beginDestroy (GpuFor.loaded_or_empty h hs)
  | stopBegin => exact absurd (hallows _ rfl) (by simp [Role.allows])

/-- A teardown that ends leaves an empty GPU to a load or to nobody. -/
theorem destroyed_kept {t : Teardown} :
    Kept e nobody sheltered (.destroy t .release) (e.destroyed t) := by
  cases t with
  | start | stop => exact .inr ⟨.inl rfl, Pc.inCharge_of_role rfl, id⟩
  | pause c =>
    simp only [destroyed, pauseReturn_eq]
    split_ifs
    · refine .inr ⟨.inl rfl, ?_, id⟩
      rintro ρ ⟨⟩
      exact .inl rfl
    · refine .inr ⟨.inl rfl, Pc.inCharge_of_role Caller.afterPause_role, fun h => ?_⟩
      rw [Pc.owner_eq_none Caller.afterPause_role]
      exact h
  | reload r =>
    simp only [destroyed, reloadReturn_eq]
    refine .inr ⟨.inl rfl, Pc.inCharge_of_role ReloadCaller.after_role, fun h => ?_⟩
    rw [Pc.owner_eq_none ReloadCaller.after_role]
    exact h
  | recover =>
    refine .inr ⟨.inl rfl, ?_, id⟩
    rintro ρ ⟨⟩
    exact .inl rfl

/-- A teardown that raises leaves the state to nobody, or to the next attempt of its load. -/
theorem destroyRaised_kept {t : Teardown} (hcharge : (Pc.destroy t .release).InCharge e)
    (hraise : ∀ r, t = .reload r → e.state ≠ .dead) :
    Kept e nobody sheltered (.destroy t .release) (e.destroyRaised t) := by
  have hs : e.state ≠ .running := state_ne_running hcharge rfl
  cases t with
  | start | recover | stop =>
    exact .inr ⟨.inl rfl, Pc.inCharge_of_role rfl, fun h => gpuFor_none_of_empty (e := e.release) h hs⟩
  | pause c =>
    simp only [destroyRaised, pauseRaise_eq]
    refine .inr ⟨.inl rfl, Pc.inCharge_of_role rfl, fun h => ?_⟩
    exact gpuFor_none_of_empty h (by simpa [release] using hs)
  | reload r =>
    have hloader : Role.loader.allows e.state :=
      (hcharge _ rfl).resolve_right fun h => hraise r rfl h.1
    simp only [destroyRaised, reloadFailed]
    split_ifs with hr
    · refine .inr ⟨.inl rfl, ?_, fun h => ⟨rfl, h.2⟩⟩
      rintro ρ ⟨⟩
      exact .inl hloader
    · refine .inr ⟨.inl rfl, ?_, id⟩
      rintro ρ ⟨⟩
      exact .inl hloader

theorem destroyStep_kept {t : Teardown} {phase : Phase} (hcharge : (Pc.destroy t phase).InCharge e)
    (hraise : ∀ r, t = .reload r → o = .cudaError → e.state ≠ .dead)
    (h : e.destroyStep t phase o = some slice) :
    Kept e nobody sheltered (.destroy t phase) slice := by
  cases phase with
  | abort =>
    cases o <;> cases h
    refine .inr ⟨.inl rfl, hcharge, fun h => ?_⟩
    have hl : e.Loaded := h
    show GpuFor _ (some (.destroy t (if e.childPids = [] then .release else .exitWait e.childPids)))
    split_ifs with hpids
    · exact ⟨rfl, List.subset_nil.mp (hpids ▸ hl.2)⟩
    · exact ⟨rfl, hl.2, rfl⟩
  | exitWait childPids =>
    cases o <;> cases h
    refine .inr ⟨.inl rfl, hcharge, ?_⟩
    rintro ⟨hcore, hlive, rfl⟩
    exact ⟨hcore, by simpa using fun pid hpid => hlive hpid⟩
  | killWait =>
    cases o <;> cases h
    exact .inr ⟨.inl rfl, hcharge, id⟩
  | release =>
    cases o <;> cases h
    · exact destroyed_kept
    · exact destroyRaised_kept hcharge fun r hr => hraise r hr rfl

/-- A load that goes on. -/
theorem loader_kept {pc pc' : Pc} {e' : VLLMEngine} (hcharge : pc.InCharge e)
    (hholds : pc.holds = false) (hrole : pc.role = some .loader) (hrole' : pc'.role = some .loader)
    (hstate : e'.state = e.state) (hgpu : e.GpuFor (some pc) → e'.GpuFor (some pc')) :
    Kept e nobody sheltered pc ⟨e', pc', false⟩ := by
  refine .inr ⟨.inl (by simp [Pc.owns, hrole]), fun ρ hρ => ?_, fun h => ?_⟩
  · obtain rfl := Option.some.inj (hrole'.symm.trans hρ)
    refine .inl (hstate ▸ (hcharge _ hrole).resolve_right ?_)
    simp [hholds]
  · rw [Pc.owner_eq_some hrole] at h
    rw [Pc.owner_eq_some hrole']
    exact hgpu h

/-- A report of a dead core leaves what is on the GPU. -/
theorem gpuFor_markDead {owner : Option Pc} (h : e.GpuFor owner) :
    e.markDead.requestDone.GpuFor owner := by
  cases owner with
  | some pc =>
    cases pc with
    | destroy t phase => cases phase <;> exact h
    | _ => exact h
  | none =>
    show e.Loaded ∨ e.Empty
    by_cases hr : e.state = .running
    · exact .inl (GpuFor.loaded h hr)
    · by_cases hd : e.state = .dead
      · exact GpuFor.loaded_or_empty h hd
      · exact .inr (GpuFor.empty h hr hd)

theorem generateStep_kept {weights : ModelPath} {hasOutput : Bool}
    (hdead : o = .coreDead → sheltered) (h : e.generateStep weights hasOutput o = some slice) :
    Kept e nobody sheltered (.generating weights hasOutput) slice := by
  cases o with
  | output =>
    simp only [generateStep] at h
    split_ifs at h <;> cases h
    all_goals exact onlooker_kept rfl rfl rfl rfl rfl rfl
  | ended | failed | stalled =>
    cases h
    exact onlooker_kept rfl rfl rfl rfl rfl rfl
  | coreDead =>
    cases h
    exact .inl ⟨rfl, rfl, .inr ⟨rfl, hdead rfl⟩, fun _ h => gpuFor_markDead h⟩
  | _ => cases h

theorem enter_kept {op : Op} (hop : op ≠ .stop) :
    Kept e nobody sheltered .created (e.enter op) := by
  cases op with
  | stop => exact absurd rfl hop
  | switchModel new =>
    simp only [enter, switchEnter]
    split_ifs <;> exact onlooker_kept rfl rfl rfl rfl rfl rfl
  | generate requested =>
    simp only [enter, beginGenerate]
    split <;> exact onlooker_kept rfl rfl rfl rfl rfl rfl
  | _ => exact onlooker_kept rfl rfl rfl rfl rfl rfl

/-- **One thread**: it is an onlooker, or it is the owner, or there is no owner. -/
theorem runPc_kept {k : Nat} {op : Op} {pc : Pc} (hop : op ≠ .stop) (hcharge : pc.InCharge e)
    (hstart : ∀ modelPath, pc = .lock (.startBegin modelPath) → nobody ∧ e.core = none)
    (hdead : ∀ weights hasOutput, pc = .generating weights hasOutput → o = .coreDead → sheltered)
    (hraise : ∀ r, pc = .destroy (.reload r) .release → o = .cudaError → e.state ≠ .dead)
    (h : e.runPc k op pc o = some slice) : Kept e nobody sheltered pc slice := by
  cases pc with
  | created =>
    cases o <;> cases h
    exact enter_kept hop
  | lock block =>
    obtain ⟨l, -, rfl⟩ := runPc_block h
    have hkept : Kept { e with transitionLock := l } nobody sheltered (.lock block)
        ({ e with transitionLock := l }.critical block) := by
      refine critical_kept (fun ρ hρ => (hcharge ρ hρ).resolve_right (by simp [Pc.holds])) ?_
      rintro modelPath rfl
      exact hstart modelPath rfl
    refine hkept.imp (fun ho => ⟨ho.role, ho.role', ho.state, fun owner h => ?_⟩)
      fun hc => ⟨hc.owns, hc.inCharge, fun h => ?_⟩
    · exact ho.gpu owner (h.congr rfl rfl rfl rfl)
    · exact hc.gpu (h.congr rfl rfl rfl rfl)
  | destroy t phase =>
    refine destroyStep_kept hcharge ?_ h
    rintro r rfl rfl
    cases phase with
    | release => exact hraise r rfl rfl
    | _ => cases h
  | drain d =>
    obtain rfl := runPc_drain h
    cases d <;> exact onlooker_kept rfl rfl rfl rfl rfl rfl
  | load r =>
    cases o <;> cases h
    · exact loader_kept hcharge rfl rfl rfl rfl loaded_createEngine
    · simp only [reloadFailed]
      split_ifs
      · exact loader_kept hcharge rfl rfl rfl rfl fun hg => ⟨rfl, hg.2⟩
      · exact loader_kept hcharge rfl rfl rfl rfl id
  | startCreate =>
    cases o <;> cases h
    · exact loader_kept hcharge rfl rfl rfl rfl loaded_createEngine
    · exact loader_kept hcharge rfl rfl rfl rfl id
  | retrySleep r =>
    cases o <;> cases h
    exact loader_kept hcharge rfl rfl rfl rfl id
  | generating weights hasOutput => exact generateStep_kept (hdead weights hasOutput rfl) h
  | aborting =>
    cases o <;> cases h
    exact onlooker_kept rfl rfl rfl rfl rfl rfl
  | exitSleep | finished result => cases o <;> cases h

end VLLMEngine

-- ════════════════════════════════════════════════════════════════════════
-- Every run
-- ════════════════════════════════════════════════════════════════════════

namespace EngineSys

variable {s t : EngineSys} {k : Nat} {o : Outcome} {l : Label}

/-- At most one thread owns the engine, and the GPU holds what that owner says. -/
structure Custody (s : EngineSys) : Prop where
  ops : ∀ th ∈ s.threads, th.op ≠ .stop
  inCharge : ∀ k pc, s.pcAt k = some pc → pc.InCharge s.engine
  unique : ∀ j k, s.At Pc.owns j → s.At Pc.owns k → j = k
  owned : ∀ k pc, s.pcAt k = some pc → pc.owns → s.engine.GpuFor (some pc)
  unowned : (∀ k, ¬ s.At Pc.owns k) → s.engine.GpuFor none

/-- The conditions on one step of a thread: `start` finds nobody at work and no core, a core
is reported dead while every owner of the engine holds the lock, and the teardown that a
load owes does not raise after such a report. -/
def orderlyRun (s : EngineSys) (pc : Pc) (o : Outcome) : Bool :=
  match pc, o with
  | .lock (.startBegin _), _ => s.engine.core.isNone && s.threads.all fun th => !th.pc.owns
  | .generating _ _, .coreDead => s.threads.all fun th => !th.pc.exposed
  | .destroy (.reload _) .release, .cudaError => s.engine.state != .dead
  | _, _ => true

/-- The steps without `stop` in which `orderlyRun` holds. -/
def orderly (s : EngineSys) : Label → Bool
  | .spawn op | .call op => op != .stop
  | .run k o => (s.pcAt k).all fun pc => s.orderlyRun pc o

theorem pcAt_of_all {P : Pc → Bool} (h : s.threads.all fun th => P th.pc) {j : Nat} {pc : Pc}
    (hpc : s.pcAt j = some pc) : P pc := by
  obtain ⟨th, hth, rfl⟩ := Option.map_eq_some_iff.mp hpc
  exact List.all_eq_true.mp h th (List.mem_of_getElem? hth)

/-- Ownership is custody in the runs without late reports. -/
theorem Ownership.custody (h : s.Ownership) : s.Custody where
  ops := h.ops
  inCharge := fun k pc hpc ρ hρ => .inl (h.allows k pc ρ hpc hρ)
  unique := h.unique
  owned := fun k pc hpc hown => (h.owned k pc hpc hown).gpu
  unowned := fun hnone => (h.unowned hnone).gpu

namespace Custody

theorem exists_gpu (h : s.Custody) : ∃ owner, s.engine.GpuFor owner := by
  by_cases hnone : ∀ k, ¬ s.At Pc.owns k
  · exact ⟨none, h.unowned hnone⟩
  · obtain ⟨k, pc, hpc, hown⟩ := not_forall_not.mp hnone
    exact ⟨some pc, h.owned k pc hpc hown⟩

theorem gpu_owner (h : s.Custody) {pc : Pc} (hpc : s.pcAt k = some pc)
    (hothers : ∀ j, j ≠ k → ¬ s.At Pc.owns j) : s.engine.GpuFor pc.owner := by
  cases hown : pc.owns with
  | true =>
    have : pc.owner = some pc := by simp [Pc.owner, hown]
    exact this ▸ h.owned k pc hpc hown
  | false =>
    have : pc.owner = none := by simp [Pc.owner, hown]
    refine this ▸ h.unowned fun j hj => ?_
    by_cases hjk : j = k
    · subst hjk
      simp [at_of_pcAt hpc, hown] at hj
    · exact hothers j hjk hj

theorem spawn (h : s.Custody) {op : Op} (hop : op ≠ .stop) : (s.spawn op).Custody := by
  have hat (j : Nat) : (s.spawn op).At Pc.owns j ↔ s.At Pc.owns j := at_spawn rfl
  have hpc {j : Nat} {pc : Pc} (hj : (s.spawn op).pcAt j = some pc) :
      s.pcAt j = some pc ∨ pc = .created := by
    rw [pcAt_spawn] at hj
    split_ifs at hj
    · exact .inr (Option.some.inj hj).symm
    · exact .inl hj
  refine ⟨?_, ?_, ?_, ?_, ?_⟩
  · intro th hth
    rcases List.mem_append.mp hth with hth | hth
    · exact h.ops th hth
    · obtain rfl := List.mem_singleton.mp hth
      exact hop
  · intro j pc hj
    rcases hpc hj with hj | rfl
    · exact h.inCharge j pc hj
    · exact Pc.inCharge_of_role rfl
  · intro i j hi hj
    exact h.unique i j ((hat i).mp hi) ((hat j).mp hj)
  · intro j pc hj hown
    rcases hpc hj with hj | rfl
    · exact h.owned j pc hj hown
    · cases hown
  · intro hnone
    exact h.unowned fun j hj => hnone j ((hat j).mpr hj)

/-- Nobody else owns the engine while a custodian moves. -/
theorem not_owns_of_custodian (h : s.Custody) (hlock : s.LockAgrees) {th : Thread} {slice : Slice}
    (hth : s.threads[k]? = some th) (hrun : s.engine.runPc k th.op th.pc o = some slice)
    (hc : Custodian s.engine (∀ j, ¬ s.At Pc.owns j) th.pc slice) :
    ∀ j, j ≠ k → ¬ s.At Pc.owns j := by
  intro j hjk hj
  rcases hc.owns with hk | hnobody | ⟨hw, hun⟩
  · exact hjk (h.unique j k hj ((at_of_pcAt (pcAt_of_threads hth)).mpr hk))
  · exact hnobody j hj
  · obtain ⟨pc, hpc, hown⟩ := hj
    obtain ⟨ρ, hρ⟩ := Option.isSome_iff_exists.mp hown
    refine Ownership.not_holds_of_waits hlock hrun hw j ⟨pc, hpc, ?_⟩
    rcases h.inCharge j pc hpc ρ hρ with hallows | ⟨-, hholds⟩
    · obtain ⟨rfl, -⟩ := hun ρ hallows
      exact Pc.holds_of_recoverer hρ
    · exact hholds

theorem settle_onlooker (h : s.Custody) {th : Thread} {slice : Slice}
    (hth : s.threads[k]? = some th)
    (ho : Onlooker s.engine (∀ j pc, s.pcAt j = some pc → pc.exposed = false) th.pc slice) :
    (s.settle k th slice).Custody := by
  have howns := Ownership.owns_settle hth ho.role ho.role'
  refine ⟨Ownership.settle_ops h.ops hth, ?_, ?_, ?_, ?_⟩
  · intro j pc hj ρ hρ
    have hown : pc.owns := by simp [Pc.owns, hρ]
    have hj := Ownership.pcAt_of_settle_owns hth ho.role' hj hown
    show ρ.allows slice.engine.state ∨ slice.engine.state = .dead ∧ pc.holds
    rcases ho.state with hstate | ⟨hdead, hsheltered⟩
    · exact hstate ▸ h.inCharge j pc hj ρ hρ
    · have hexposed := hsheltered j pc hj
      simp only [Pc.exposed, hown, Bool.true_and, Bool.not_eq_false'] at hexposed
      exact .inr ⟨hdead, hexposed⟩
  · intro i j hi hj
    exact h.unique i j ((howns i).mp hi) ((howns j).mp hj)
  · intro j pc hj hown
    exact (ho.gpu _ (h.owned j pc (Ownership.pcAt_of_settle_owns hth ho.role' hj hown) hown)).congr
      rfl rfl rfl rfl
  · intro hnone
    refine (ho.gpu none (h.unowned fun j hj => ?_)).congr rfl rfl rfl rfl
    exact hnone j ((howns j).mpr hj)

theorem settle_custodian (h : s.Custody) (hlock : s.LockAgrees) {th : Thread} {slice : Slice}
    (hth : s.threads[k]? = some th) (hrun : s.engine.runPc k th.op th.pc o = some slice)
    (hc : Custodian s.engine (∀ j, ¬ s.At Pc.owns j) th.pc slice) :
    (s.settle k th slice).Custody := by
  have hothers := h.not_owns_of_custodian hlock hth hrun hc
  have hgpu : (s.settle k th slice).engine.GpuFor slice.pc.owner :=
    (hc.gpu (h.gpu_owner (pcAt_of_threads hth) hothers)).congr rfl rfl rfl rfl
  refine ⟨Ownership.settle_ops h.ops hth, ?_, ?_, ?_, ?_⟩
  · intro j pc hj ρ hρ
    obtain ⟨rfl, rfl⟩ := Ownership.eq_of_settle_owns hth hothers hj (by simp [Pc.owns, hρ])
    exact hc.inCharge ρ hρ
  · rintro i j ⟨pc, hi, hown⟩ ⟨pc', hj, hown'⟩
    exact (Ownership.eq_of_settle_owns hth hothers hi hown).1.trans
      (Ownership.eq_of_settle_owns hth hothers hj hown').1.symm
  · intro j pc hj hown
    obtain ⟨rfl, rfl⟩ := Ownership.eq_of_settle_owns hth hothers hj hown
    simpa [Pc.owner, hown] using hgpu
  · intro hnone
    have hnot : slice.pc.owns = false := by
      simpa [at_of_pcAt (Ownership.settle_self hth slice)] using hnone k
    simpa [Pc.owner, hnot] using hgpu

theorem runThread (h : s.Custody) (hlock : s.LockAgrees)
    (hok : ∀ pc, s.pcAt k = some pc → s.orderlyRun pc o)
    (hrun : s.runThread k o = some t) : t.Custody := by
  obtain ⟨th, slice, hth, hpc, rfl⟩ := runThread_eq_some.mp hrun
  have hat := pcAt_of_threads hth
  have hsafe := hok _ hat
  have hkept : Kept s.engine (∀ j, ¬ s.At Pc.owns j)
      (∀ j pc, s.pcAt j = some pc → pc.exposed = false) th.pc slice := by
    refine VLLMEngine.runPc_kept (h.ops th (List.mem_of_getElem? hth)) (h.inCharge k th.pc hat)
      ?_ ?_ ?_ hpc
    · intro modelPath hstart
      simp only [hstart, orderlyRun, Bool.and_eq_true, Option.isNone_iff_eq_none] at hsafe
      refine ⟨?_, hsafe.1⟩
      rintro j ⟨pc, hj, hown⟩
      have := pcAt_of_all (P := fun pc => !pc.owns) hsafe.2 hj
      simp [hown] at this
    · intro weights hasOutput hgen ho j pc hj
      simp only [hgen, ho, orderlyRun] at hsafe
      simpa using pcAt_of_all (P := fun pc => !pc.exposed) hsafe hj
    · intro r hdestroy ho
      simpa [hdestroy, ho, orderlyRun] using hsafe
  rcases hkept with ho | hc
  · exact h.settle_onlooker hth ho
  · exact h.settle_custodian hlock hth hpc hc

/-- **Step lemma**. -/
theorem step (h : s.Custody) (hlock : s.LockAgrees) (hok : s.orderly l)
    (hstep : s.step l = some t) : t.Custody := by
  obtain ⟨op, -, rfl, rfl⟩ | ⟨op, -, rfl, hrun⟩ | ⟨k, o, rfl, hrun⟩ := step_cases hstep
  · exact h.spawn (bne_iff_ne.mp hok)
  · refine (h.spawn (bne_iff_ne.mp hok)).runThread hlock.spawn (fun pc hpc => ?_) hrun
    rw [pcAt_spawn, if_pos rfl] at hpc
    cases hpc
    rfl
  · refine h.runThread hlock (fun pc hpc => ?_) hrun
    simpa [orderly, hpc] using hok

theorem of_init (h : s.init) : s.Custody := by
  rcases h with rfl | ⟨modelPath, rfl⟩
  all_goals
    refine ⟨by simp, by simp [pcAt], by simp [At, pcAt], by simp [pcAt], fun _ => ?_⟩
    exact ⟨rfl, rfl⟩

end Custody

/-- **Run lemma**: custody holds in every orderly run. -/
theorem custody_of_reach {ok : EngineSys → Label → Prop} (hle : ∀ s l, ok s l → s.orderly l)
    (h : system.Reach ok s) : s.Custody :=
  h.invariant_of (fun _ => lockAgrees_of_reach) (fun _ => Custody.of_init)
    fun _ _ _ hlock hs hok hstep => hs.step hlock (hle _ _ hok) hstep

-- ════════════════════════════════════════════════════════════════════════
-- No process is left behind
-- ════════════════════════════════════════════════════════════════════════

/-- No operation is in flight; admitted requests may still be served. -/
def Quiet (s : EngineSys) : Prop :=
  ∀ k pc, s.pcAt k = some pc → pc.serves ∨ ∃ result, pc = .finished result

/-- No thread of an engine at rest is on its way anywhere. -/
theorem Quiet.not_at (h : s.Quiet) {P : Pc → Bool} (hserves : ∀ pc : Pc, pc.serves → P pc = false)
    (hfinished : ∀ result, P (.finished result) = false) (k : Nat) : ¬ s.At P k := by
  rintro ⟨pc, hpc, hP⟩
  rcases h k pc hpc with hs | ⟨result, rfl⟩
  · simp [hserves pc hs] at hP
  · simp [hfinished] at hP

/-- Nobody owns an engine at rest. -/
theorem Quiet.not_owns (h : s.Quiet) (k : Nat) : ¬ s.At Pc.owns k :=
  h.not_at (fun _ => Pc.not_owns_of_serves) (fun _ => rfl) k

/-- A construction that fails leaves no process behind. -/
def cleanRun : Outcome → Bool
  | .createFailed orphans => orphans.isEmpty
  | _ => true

/-- The orderly steps in which a failed construction has spawned nothing. -/
def reaping (s : EngineSys) (l : Label) : Bool :=
  s.orderly l && match l with
    | .run _ o => cleanRun o
    | _ => true

/-- Every core process that lives is in `_child_pids`, none was left behind, and an engine at
rest in PAUSED or STOPPED has none. -/
structure Accounted (s : EngineSys) : Prop where
  recorded : s.engine.live ⊆ s.engine.childPids
  orphans : s.engine.orphans = []
  reaped : s.Quiet → s.engine.state = .paused ∨ s.engine.state = .stopped → s.engine.live = []

section Orphans

variable {e : VLLMEngine} {slice : Slice}

theorem critical_orphans {block : Critical} :
    (e.critical block).engine.orphans = e.orphans := by
  cases block with
  | startBegin | startFailed | pauseDestroy | reloadGiveUp | stopBegin => rfl
  | _ =>
    simp only [VLLMEngine.critical, VLLMEngine.pauseReturn_eq, VLLMEngine.resumeReturn_eq,
      VLLMEngine.reloadReturn_eq]
    split_ifs <;> rfl

theorem destroyStep_orphans {t : Teardown} {phase : Phase}
    (h : e.destroyStep t phase o = some slice) : slice.engine.orphans = e.orphans := by
  cases phase <;> cases o <;> cases h <;> try rfl
  · cases t with
    | pause c =>
      simp only [VLLMEngine.destroyed, VLLMEngine.pauseReturn_eq]
      split_ifs <;> rfl
    | reload r =>
      rw [VLLMEngine.destroyed, VLLMEngine.reloadReturn_eq]
      rfl
    | _ => rfl
  · cases t with
    | pause c =>
      rw [VLLMEngine.destroyRaised, VLLMEngine.pauseRaise_eq]
      rfl
    | reload r =>
      simp only [VLLMEngine.destroyRaised, VLLMEngine.reloadFailed]
      split_ifs <;> rfl
    | _ => rfl

/-- Only a failed construction leaves processes behind. -/
theorem runPc_orphans {op : Op} {pc : Pc} (ho : cleanRun o)
    (h : e.runPc k op pc o = some slice) : slice.engine.orphans = e.orphans := by
  cases pc with
  | created =>
    cases o <;> cases h
    cases op with
    | switchModel new =>
      simp only [VLLMEngine.enter, VLLMEngine.switchEnter]
      split_ifs <;> rfl
    | generate requested =>
      simp only [VLLMEngine.enter, VLLMEngine.beginGenerate]
      split <;> rfl
    | _ => rfl
  | lock block =>
    obtain ⟨l, -, rfl⟩ := VLLMEngine.runPc_block h
    exact critical_orphans
  | destroy t phase => exact destroyStep_orphans h
  | drain d =>
    obtain rfl := VLLMEngine.runPc_drain h
    cases d <;> rfl
  | load r =>
    cases o <;> cases h
    · rfl
    · obtain rfl := List.isEmpty_iff.mp ho
      simp only [VLLMEngine.reloadFailed]
      split_ifs <;> exact List.append_nil _
  | startCreate =>
    cases o <;> cases h
    · rfl
    · obtain rfl := List.isEmpty_iff.mp ho
      exact List.append_nil _
  | generating weights hasOutput =>
    cases o with
    | output =>
      simp only [VLLMEngine.runPc, VLLMEngine.generateStep] at h
      split_ifs at h <;> cases h <;> rfl
    | _ => cases h <;> rfl
  | _ => cases o <;> cases h <;> rfl

end Orphans

theorem orphans_of_reach (h : system.Reach (reaping · ·) s) : s.engine.orphans = [] := by
  have hthread {s t : EngineSys} {k : Nat} {o : Outcome} (hs : s.engine.orphans = [])
      (ho : cleanRun o) (hrun : s.runThread k o = some t) : t.engine.orphans = [] := by
    obtain ⟨th, slice, -, hpc, rfl⟩ := runThread_eq_some.mp hrun
    exact (runPc_orphans ho hpc).trans hs
  refine h.invariant (I := fun s => s.engine.orphans = []) (fun s hs => ?_)
    fun s l t hs hok hstep => ?_
  · rcases hs with rfl | ⟨modelPath, rfl⟩ <;> rfl
  · obtain ⟨op, -, rfl, rfl⟩ | ⟨op, -, rfl, hrun⟩ | ⟨k, o, rfl, hrun⟩ := step_cases hstep
    · exact hs
    · exact hthread (s := s.spawn op) hs rfl hrun
    · exact hthread hs ((Bool.and_eq_true _ _ ▸ hok : _ ∧ _).2) hrun

/-- **No orphaned core**: in the orderly runs in which a failed construction has spawned
nothing, every process that a construction spawned is in `_child_pids` until it was shut down
or killed, and none lives when the engine is at rest in PAUSED or STOPPED. -/
theorem accounted_of_reach (h : system.Reach (reaping · ·) s) : s.Accounted := by
  have hcustody : s.Custody := by
    refine custody_of_reach (fun s l hok => ?_) h
    exact ((Bool.and_eq_true _ _ ▸ hok : _ ∧ _).1)
  obtain ⟨owner, hgpu⟩ := hcustody.exists_gpu
  refine ⟨hgpu.live_subset, orphans_of_reach h, fun hquiet hstate => ?_⟩
  have hnone : s.engine.GpuFor none := hcustody.unowned hquiet.not_owns
  exact (hnone.empty (by rcases hstate with h | h <;> simp [h])
    (by rcases hstate with h | h <;> simp [h])).2

/-- A load, a pause whose teardown the core does not survive, a resume that needs two attempts,
and a pause again. -/
def pausedTwice : List Label :=
  [.call (.start "m"), .run 0 .go, .run 0 (.created [1]), .run 0 .go, .call (.generate "m"),
    .call (.pause .immediate), .run 2 .go, .run 2 .go, .run 1 .coreDead, .run 2 .go, .run 2 .go,
    .run 2 .go, .run 2 .go, .run 3 .go, .run 3 .go, .call .resume, .run 4 .go,
    .run 4 (.createFailed []), .run 4 .go, .run 4 (.created [2]), .run 4 .go,
    .call (.pause .immediate)] ++ List.replicate 6 (.run 5 .go)

theorem accounted_pausedTwice :
    ∃ s, system.exec {} pausedTwice = some s ∧ s.Accounted ∧ s.Quiet ∧
      s.engine.state = .paused ∧ s.engine.loads = 2 := by
  let s : EngineSys :=
    { engine := { state := .paused, model := "m", loads := 2 }
      threads :=
        [⟨.start "m", .finished .returned, 0⟩, ⟨.generate "m", .finished .raised, 0⟩,
          ⟨.pause .immediate, .finished .returned, 1⟩, ⟨.recover, .finished .returned, 0⟩,
          ⟨.resume, .finished .returned, 0⟩, ⟨.pause .immediate, .finished .returned, 2⟩]
      lastCommand := some .pause }
  have hrun : system.execGuarded (reaping · ·) {} pausedTwice = some s := by decide +kernel
  have hquiet : s.Quiet := by
    rintro (_ | _ | _ | _ | _ | _ | k) pc ⟨⟩ <;> exact .inr ⟨_, rfl⟩
  exact ⟨s, by decide +kernel, accounted_of_reach
    (Transition.System.Reach.execGuarded (.init (.inl rfl)) hrun), hquiet, rfl, rfl⟩

/-- A failed `start` leaves the processes that it spawned behind. -/
theorem failedStart_orphans :
    ∃ s, system.Reach Transition.System.anyStep s ∧ s.Quiet ∧ s.engine.state = .stopped ∧
      ¬ s.Accounted := by
  let s : EngineSys :=
    { engine := { model := "m", orphans := [7], loads := 1 }
      threads := [⟨.start "m", .finished .raised, 0⟩] }
  have hrun : system.exec {} [.call (.start "m"), .run 0 .go, .run 0 (.createFailed [7]), .run 0 .go] =
      some s := rfl
  refine ⟨s, Transition.System.reach_of_exec (.inl rfl) hrun, ?_, rfl, fun h => ?_⟩
  · rintro (_ | k) pc ⟨⟩
    exact .inr ⟨_, rfl⟩
  · cases h.orphans

end EngineSys

end OpenModel.Inference
