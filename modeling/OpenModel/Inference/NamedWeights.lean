import OpenModel.Inference.MiningRun

/-!
# The weights behind the recorded model

An engine builds its core from the path that it has recorded by then. `switch_model` records
its path when its pause has returned, whatever that pause did: if a load was on its way, its
core may already be there with the weights of the old path. Such a core serves under the new
name, unless the load was told to undo itself.

In the runs of `truthfulRun` this does not happen, and the core of an engine that serves has
the weights of the recorded path (`Truthful`). The path itself is changed by switches only, and
a switch that returns has recorded its own (`Follows`).

## Main results

- `VLLMEngine.runPc_truthful`: a slice leaves a core of the recorded path
- `VLLMEngine.runPc_hasRecorded`: a switch that is past its pause stays with its path
- `EngineSys.Follows.runThread`: a switch that runs alone decides the path
-/

namespace OpenModel.Inference

/-- The states in which a core serves, or will when its load is over. -/
def EngineState.keepsCore : EngineState → Bool
  | running | loading | starting => true
  | _ => false

/-- The path of this `switch_model` is recorded. -/
def Pc.hasRecorded : Pc → Bool
  | lock (.resumeLook _) | finished .returned => true
  | load r | retrySleep r | lock (.reloadFinish r) | lock (.reloadGiveUp r)
  | destroy (.reload r) _ => r.caller.isResume
  | _ => false

/-- The weights that a request is served with. -/
def Pc.servedBy : Pc → Option ModelPath
  | generating weights _ | finished (.served weights) => some weights
  | _ => none

-- ════════════════════════════════════════════════════════════════════════
-- One thread
-- ════════════════════════════════════════════════════════════════════════

namespace VLLMEngine

variable {e e' : VLLMEngine} {undone : Prop} {slice : Slice} {o : Outcome}

/-- A core that is not about to be destroyed has the weights of the recorded path. -/
def Truthful (e : VLLMEngine) (undone : Prop) : Prop :=
  ∀ c ∈ e.core, c.model = e.model ∨ e.pendingPause.isSome ∨ undone ∨ e.state.keepsCore = false

/-- A switch that finds a load it did not begin, or whose teardown was turned into a load by a
pending resume, records the path of the core; and a core is reported dead only while the engine
is RUNNING. -/
def truthfulRun (e : VLLMEngine) (pc : Pc) (o : Outcome) : Bool :=
  match pc, o with
  | .lock (.pauseTakeover (.switchModel new)), _ =>
    !e.state.isLoading || e.pendingPause.isSome || e.core.isNone || e.model == new
  | .lock (.reloadFinish ⟨_, .pause (.switchModel new)⟩), _ =>
    e.pendingPause.isSome || e.model == new
  | .generating _ _, .coreDead => e.state == .running
  | _, _ => true

theorem truthful_of_core (h : e.core = none) : e.Truthful undone := by
  simp [Truthful, h]

theorem truthful_of_state (h : e.state.keepsCore = false) : e.Truthful undone :=
  fun _ _ => .inr (.inr (.inr h))

namespace Truthful

theorem mono {undone' : Prop} (h : e.Truthful undone) (himp : undone → undone') :
    e.Truthful undone' :=
  fun c hc => (h c hc).imp_right fun h => h.imp_right fun h => h.imp_left himp

/-- The fields that `Truthful` speaks about agree. -/
theorem congr (h : e.Truthful undone) (hcore : e'.core = e.core) (hmodel : e'.model = e.model)
    (hpp : e'.pendingPause = e.pendingPause) (hstate : e'.state = e.state) :
    e'.Truthful undone := by
  simpa only [Truthful, hcore, hmodel, hpp, hstate] using h

theorem release (h : e.Truthful undone) : e.release.Truthful undone := h

/-- A switch records its path. -/
theorem pauseReturn {c : Caller} (h : e.Truthful undone)
    (hnew : ∀ new, c = .switchModel new → e.pendingPause.isSome ∨ e.state.keepsCore = false ∨
      e.core = none ∨ e.model = new) : (e.pauseReturn c).engine.Truthful undone := by
  cases c with
  | external => exact h
  | switchModel new =>
    obtain hpp | hoff | hnone | rfl := hnew new rfl
    · exact fun _ _ => .inr (.inl hpp)
    · exact truthful_of_state hoff
    · exact truthful_of_core hnone
    · exact h

/-- A load that ends has built the core of the recorded path. -/
theorem model_of_loading (h : e.Truthful False) (hs : Role.loader.allows e.state)
    (hpp : ¬ e.pendingPause.isSome) : ∀ c ∈ e.core, c.model = e.model := by
  intro c hc
  obtain hmodel | hsome | hfalse | hoff := h c hc
  · exact hmodel
  · exact absurd hsome hpp
  · exact hfalse.elim
  · obtain hs | hs := loader_state hs <;> simp [hs, EngineState.keepsCore] at hoff

end Truthful

theorem pauseLook_truthful {urgency : YieldUrgency} {c : Caller} (h : e.Truthful False) :
    (e.critical (.pauseLook urgency c)).engine.Truthful False := by
  simp only [critical]
  split_ifs with hl hr hu
  · refine Truthful.pauseReturn (fun _ _ => .inr (.inl rfl)) fun _ _ => .inl rfl
  · refine h.release.pauseReturn fun _ _ => .inr (.inl ?_)
    show e.state.keepsCore = false
    cases hs : e.state <;> simp_all [EngineState.keepsCore]
  · exact h
  · exact truthful_of_state rfl

theorem pauseTakeover_truthful {c : Caller} (h : e.Truthful False)
    (hok : e.truthfulRun (.lock (.pauseTakeover c)) o) :
    (e.critical (.pauseTakeover c)).engine.Truthful False := by
  simp only [critical]
  split_ifs with hr
  · refine h.release.pauseReturn ?_
    rintro new rfl
    show e.pendingPause.isSome ∨ e.state.keepsCore = false ∨ e.core = none ∨ e.model = new
    simp only [truthfulRun, Bool.or_eq_true, Option.isNone_iff_eq_none, beq_iff_eq] at hok
    obtain ((hstate | hpp) | hnone) | hnew := hok
    · refine .inr (.inl ?_)
      cases hs : e.state <;> simp_all [EngineState.keepsCore, EngineState.isLoading]
    · exact .inl hpp
    · exact .inr (.inr (.inl hnone))
    · exact .inr (.inr (.inr hnew))
  · exact truthful_of_state rfl

theorem reloadFinish_truthful {r : Reload} (h : e.Truthful False)
    (hs : Role.loader.allows e.state) (hok : e.truthfulRun (.lock (.reloadFinish r)) o) :
    (e.critical (.reloadFinish r)).engine.Truthful
      ((e.critical (.reloadFinish r)).pc.undoesLoad) := by
  simp only [critical]
  split_ifs with hpp
  · exact fun _ _ => .inr (.inr (.inl rfl))
  · have hmodel := h.model_of_loading hs hpp
    have hrunning : { e with state := .running }.release.Truthful False :=
      fun c hc => .inl (hmodel c hc)
    refine Truthful.mono (?_ : Truthful _ False) False.elim
    obtain ⟨attempt, caller⟩ := r
    cases caller with
    | pause c =>
      refine hrunning.pauseReturn ?_
      rintro new rfl
      simp only [truthfulRun, Bool.or_eq_true, beq_iff_eq] at hok
      exact .inr (.inr (.inr (hok.resolve_left hpp)))
    | resume c =>
      rw [reloadReturn_eq]
      exact hrunning
    | recover => exact hrunning

/-- The blocks under the lock, which no teardown holds. -/
theorem critical_truthful {block : Critical} (h : e.Truthful False)
    (hallows : ∀ ρ, block.role = some ρ → ρ.allows e.state)
    (hstart : ∀ modelPath, block = .startBegin modelPath → e.core = none)
    (hpaused : e.state = .paused → e.core = none) (hok : e.truthfulRun (.lock block) o) :
    (e.critical block).engine.Truthful ((e.critical block).pc.undoesLoad) := by
  cases block with
  | startBegin modelPath => exact truthful_of_core (hstart modelPath rfl)
  | startFailed | reloadGiveUp r => exact truthful_of_state rfl
  | startFinish =>
    simp only [critical]
    split_ifs with hpp
    · exact fun _ _ => .inr (.inr (.inl rfl))
    · exact fun c hc => .inl (h.model_of_loading (hallows _ rfl) hpp c hc)
  | pauseLook urgency c => exact (pauseLook_truthful h).mono False.elim
  | pauseTakeover c => exact (pauseTakeover_truthful h hok).mono False.elim
  | pauseDestroy c =>
    refine truthful_of_state ?_
    show e.state.keepsCore = false
    rw [unloader_state (hallows _ rfl)]
    rfl
  | resumeLook c =>
    simp only [critical, resumeReturn_eq]
    split_ifs with hu hd hp
    · exact truthful_of_state (by show e.state.keepsCore = false; rw [hu]; rfl)
    · exact h.mono False.elim
    · exact h.mono False.elim
    · exact truthful_of_core (hpaused (not_not.mp hp))
  | reloadFinish r => exact reloadFinish_truthful h (hallows _ rfl) hok
  | recoverBegin =>
    simp only [critical]
    split_ifs with hd
    · exact h.mono False.elim
    · refine truthful_of_state ?_
      show e.state.keepsCore = false
      rw [not_not.mp hd]
      rfl
  | stopBegin => exact absurd (hallows _ rfl) (by simp [Role.allows])

/-- A teardown that has begun leaves no core. -/
theorem destroyStep_core {t : Teardown} {phase : Phase} (hcore : phase ≠ .abort → e.core = none)
    (h : e.destroyStep t phase o = some slice) : slice.engine.core = none := by
  cases phase with
  | abort =>
    cases o <;> cases h
    rfl
  | exitWait | killWait =>
    cases o <;> cases h
    exact hcore Phase.noConfusion
  | release =>
    have hnone := hcore Phase.noConfusion
    cases o <;> cases h
    · cases t with
      | pause c =>
        simp only [destroyed, pauseReturn_eq]
        split_ifs <;> exact hnone
      | reload r =>
        rw [destroyed, reloadReturn_eq]
        exact hnone
      | _ => exact hnone
    · cases t with
      | pause c =>
        rw [destroyRaised, pauseRaise_eq]
        exact hnone
      | reload r =>
        simp only [destroyRaised, reloadFailed]
        split_ifs
        · rfl
        · exact hnone
      | _ => exact hnone

/-- **One thread**: the core it leaves has the weights of the recorded path. -/
theorem runPc_truthful {k : Nat} {op : Op} {pc : Pc} (h : e.Truthful (pc.undoesLoad ∨ undone))
    (hfree : pc.waits → ¬ undone) (hallows : pc.waits → ∀ ρ, pc.role = some ρ → ρ.allows e.state)
    (hstart : ∀ modelPath, pc = .lock (.startBegin modelPath) → e.core = none)
    (hempty : e.state = .paused ∨ (pc.owns ∧ pc.hasCore = false) → e.core = none)
    (hok : pc.waits → e.truthfulRun pc o) (hs : e.runPc k op pc o = some slice) :
    slice.engine.Truthful (slice.pc.undoesLoad ∨ undone) := by
  have hother (hundo : pc.undoesLoad = false) : e.Truthful (slice.pc.undoesLoad ∨ undone) :=
    h.mono fun h => .inr (h.resolve_left (by simp [hundo]))
  cases pc with
  | created =>
    have h := hother rfl
    cases o <;> cases hs
    cases op with
    | switchModel new =>
      simp only [enter, switchEnter] at h ⊢
      split_ifs at h ⊢ <;> exact h
    | generate requested =>
      simp only [enter, beginGenerate] at h ⊢
      split at h <;> exact h
    | _ => exact h
  | lock block =>
    obtain ⟨l, -, rfl⟩ := runPc_block hs
    have hfalse : e.Truthful False := h.mono fun h => h.elim (by simp [Pc.undoesLoad]) (hfree rfl)
    refine Truthful.mono ?_ Or.inl
    refine critical_truthful (e := { e with transitionLock := l }) hfalse (hallows rfl) ?_
      (fun hp => hempty (.inl hp)) (hok rfl)
    rintro modelPath rfl
    exact hstart modelPath rfl
  | destroy t phase =>
    refine truthful_of_core (destroyStep_core (fun hphase => hempty (.inr ⟨rfl, ?_⟩)) hs)
    cases phase <;> first | exact absurd rfl hphase | rfl
  | drain d =>
    have h := hother rfl
    obtain rfl := VLLMEngine.runPc_drain hs
    cases d <;> exact h
  | load r =>
    cases o <;> cases hs
    · rintro c ⟨⟩
      exact .inl rfl
    · refine truthful_of_core ?_
      have hnone := hempty (.inr ⟨rfl, rfl⟩)
      unfold reloadFailed
      split_ifs
      · rfl
      · exact hnone
  | startCreate =>
    cases o <;> cases hs
    · rintro c ⟨⟩
      exact .inl rfl
    · exact truthful_of_core (hempty (.inr ⟨rfl, rfl⟩))
  | retrySleep r =>
    have h := hother rfl
    cases o <;> cases hs
    exact h
  | generating weights hasOutput =>
    have h := hother rfl
    cases o with
    | output =>
      simp only [runPc, generateStep] at hs
      split_ifs at hs <;> cases hs <;> exact h
    | coreDead =>
      cases hs
      exact truthful_of_state rfl
    | _ => cases hs <;> exact h
  | aborting =>
    have h := hother rfl
    cases o <;> cases hs
    exact h
  | exitSleep | finished result => cases o <;> cases hs

-- ════════════════════════════════════════════════════════════════════════
-- The recorded path
-- ════════════════════════════════════════════════════════════════════════

theorem recorded_of_inPause {c : Caller} {op : Op} {model : ModelPath} (h : c.inPause op)
    (hop : op.isSwitch = false) : c.recorded model = model := by
  cases c with
  | external => rfl
  | switchModel new => cases op <;> first | cases h | cases hop

theorem recorded_of_belongs {c : ReloadCaller} {op : Op} {model : ModelPath} (h : c.belongs op)
    (hop : op.isSwitch = false) : c.recorded model = model := by
  cases c with
  | pause c => exact recorded_of_inPause h hop
  | resume c | recover => rfl

theorem reloadFailed_model {r : Reload} : (e.reloadFailed r).engine.model = e.model := by
  unfold reloadFailed
  split_ifs <;> rfl

theorem critical_model {block : Critical} {op : Op} (hb : block.belongs op)
    (hswitch : op.isSwitch = false) (hstart : op.isStart = false) :
    (e.critical block).engine.model = e.model := by
  cases block with
  | startBegin modelPath => cases op <;> first | cases hb | cases hstart
  | startFailed | pauseDestroy c | reloadGiveUp r | stopBegin => rfl
  | startFinish | recoverBegin =>
    simp only [critical]
    split_ifs <;> rfl
  | pauseLook urgency c | pauseTakeover c =>
    simp only [critical, pauseReturn_eq]
    split_ifs <;> first | rfl | exact recorded_of_inPause hb hswitch
  | resumeLook c =>
    simp only [critical, resumeReturn_eq]
    split_ifs <;> rfl
  | reloadFinish r =>
    simp only [critical, reloadReturn_eq]
    split_ifs
    · rfl
    · exact recorded_of_belongs hb hswitch

theorem destroyStep_model {t : Teardown} {phase : Phase} {op : Op} (hb : t.belongs op)
    (hswitch : op.isSwitch = false) (h : e.destroyStep t phase o = some slice) :
    slice.engine.model = e.model := by
  cases phase <;> cases o <;> cases h
  · rfl
  · rfl
  · rfl
  · cases t with
    | pause c =>
      simp only [destroyed, pauseReturn_eq]
      split_ifs
      · rfl
      · exact recorded_of_inPause hb hswitch
    | reload r =>
      rw [destroyed, reloadReturn_eq]
      exact recorded_of_belongs hb hswitch
    | _ => rfl
  · cases t with
    | pause c =>
      rw [destroyRaised, pauseRaise_eq]
      rfl
    | reload r => exact reloadFailed_model
    | _ => rfl

theorem enter_model {op : Op} : (e.enter op).engine.model = e.model := by
  cases op with
  | switchModel new =>
    simp only [enter, switchEnter]
    split_ifs <;> rfl
  | generate requested =>
    simp only [enter, beginGenerate]
    split <;> rfl
  | _ => rfl

/-- Without `start`, only a switch records a path. -/
theorem runPc_model {k : Nat} {op : Op} {pc : Pc} (hb : pc.belongs op)
    (hswitch : op.isSwitch = false) (hstart : op.isStart = false)
    (h : e.runPc k op pc o = some slice) : slice.engine.model = e.model := by
  cases pc with
  | created =>
    cases o <;> cases h
    exact enter_model
  | lock block =>
    obtain ⟨l, -, rfl⟩ := runPc_block h
    exact critical_model (e := { e with transitionLock := l }) hb hswitch hstart
  | destroy t phase => exact destroyStep_model hb hswitch h
  | drain d =>
    obtain rfl := VLLMEngine.runPc_drain h
    cases d <;> rfl
  | load r =>
    cases o <;> cases h
    · rfl
    · exact reloadFailed_model
  | generating weights hasOutput =>
    cases o with
    | output =>
      simp only [runPc, generateStep] at h
      split_ifs at h <;> cases h <;> rfl
    | _ => cases h <;> rfl
  | _ => cases o <;> cases h <;> rfl

section Switch

variable {path : ModelPath}

theorem recorded_of_switch {c : Caller} {model : ModelPath} (h : c.inPause (.switchModel path)) :
    c.recorded model = path := by
  cases c with
  | external => cases h
  | switchModel new => exact (beq_iff_eq.mp h :)

/-- A load of the switch ends: the path was recorded before a resume, and is now recorded after
a pause. -/
theorem reloadReturn_recorded {c : ReloadCaller} (hb : c.belongs (.switchModel path))
    (hpath : c.isResume → e.model = path) : (e.reloadReturn c).engine.model = path := by
  rw [reloadReturn_eq]
  cases c with
  | pause c => exact recorded_of_switch hb
  | resume c => exact hpath rfl
  | recover => cases hb

theorem reloadFailed_recorded {r : Reload} (hpath : r.caller.isResume → e.model = path)
    (hpc : (e.reloadFailed r).pc.hasRecorded) : (e.reloadFailed r).engine.model = path := by
  rw [reloadFailed_model]
  refine hpath ?_
  unfold reloadFailed at hpc
  split_ifs at hpc <;> exact hpc

theorem critical_recorded {block : Critical} (hb : block.belongs (.switchModel path))
    (hpath : (Pc.lock block).hasRecorded → e.model = path)
    (hpc : (e.critical block).pc.hasRecorded) : (e.critical block).engine.model = path := by
  cases block with
  | pauseLook urgency c | pauseTakeover c =>
    simp only [critical, pauseReturn_eq] at hpc ⊢
    split_ifs at hpc ⊢ <;> first | exact recorded_of_switch hb | cases hpc
  | resumeLook c =>
    simp only [critical, resumeReturn_eq]
    split_ifs <;> exact hpath rfl
  | reloadFinish r =>
    simp only [critical] at hpc ⊢
    split_ifs at hpc ⊢
    · exact hpath hpc
    · exact reloadReturn_recorded hb hpath
  | pauseDestroy c | reloadGiveUp r => cases hpc
  | _ => cases hb

theorem destroyStep_recorded {t : Teardown} {phase : Phase} (hb : t.belongs (.switchModel path))
    (hpath : (Pc.destroy t phase).hasRecorded → e.model = path)
    (h : e.destroyStep t phase o = some slice) (hpc : slice.pc.hasRecorded) :
    slice.engine.model = path := by
  cases t with
  | pause c =>
    cases phase <;> cases o <;> cases h <;> try cases hpc
    · simp only [destroyed, pauseReturn_eq] at hpc ⊢
      split_ifs at hpc ⊢
      · cases hpc
      · exact recorded_of_switch hb
    · rw [destroyRaised, pauseRaise_eq] at hpc
      cases hpc
  | reload r =>
    cases phase <;> cases o <;> cases h
    · exact hpath (by revert hpc; dsimp only; split_ifs <;> exact id)
    · exact hpath hpc
    · exact hpath hpc
    · exact reloadReturn_recorded hb hpath
    · exact reloadFailed_recorded hpath hpc
  | _ => cases hb

/-- **A switch** that has returned from its pause stays with its path. -/
theorem runPc_hasRecorded {k : Nat} {pc : Pc} (hb : pc.belongs (.switchModel path))
    (hpath : pc.hasRecorded → e.model = path)
    (h : e.runPc k (.switchModel path) pc o = some slice) (hpc : slice.pc.hasRecorded) :
    slice.engine.model = path := by
  cases pc with
  | created =>
    cases o <;> cases h
    simp only [enter, switchEnter] at hpc ⊢
    split_ifs at hpc ⊢ with hsame
    · exact hsame.1
    · cases hpc
  | lock block =>
    obtain ⟨l, -, rfl⟩ := runPc_block h
    exact critical_recorded (e := { e with transitionLock := l }) hb hpath hpc
  | destroy t phase => exact destroyStep_recorded hb hpath h hpc
  | drain d =>
    obtain rfl := VLLMEngine.runPc_drain h
    cases d <;> cases hpc
  | load r =>
    cases o <;> cases h
    · exact hpath hpc
    · exact reloadFailed_recorded hpath hpc
  | retrySleep r =>
    cases o <;> cases h
    exact hpath hpc
  | exitSleep | finished result => cases o <;> cases h
  | startCreate | generating weights hasOutput | aborting => cases hb

end Switch

-- ════════════════════════════════════════════════════════════════════════
-- The weights of a request
-- ════════════════════════════════════════════════════════════════════════

theorem critical_servedBy {block : Critical} : (e.critical block).pc.servedBy = none := by
  cases block with
  | pauseLook urgency c | pauseTakeover c =>
    simp only [critical, pauseReturn_eq]
    split_ifs <;> first | rfl | (cases c <;> rfl)
  | resumeLook c =>
    simp only [critical, resumeReturn_eq]
    split_ifs <;> rfl
  | reloadFinish r =>
    simp only [critical, reloadReturn_eq]
    split_ifs
    · rfl
    · cases r.caller with
      | pause c => cases c <;> rfl
      | _ => rfl
  | startFinish | recoverBegin =>
    simp only [critical]
    split_ifs <;> rfl
  | _ => rfl

theorem destroyStep_servedBy {t : Teardown} {phase : Phase}
    (h : e.destroyStep t phase o = some slice) : slice.pc.servedBy = none := by
  cases phase <;> cases o <;> cases h
  · rfl
  · rfl
  · rfl
  · cases t with
    | pause c =>
      simp only [destroyed, pauseReturn_eq]
      split_ifs <;> first | rfl | (cases c <;> rfl)
    | reload r =>
      rw [destroyed, reloadReturn_eq]
      cases r.caller with
      | pause c => cases c <;> rfl
      | _ => rfl
    | _ => rfl
  · cases t with
    | pause c => cases c <;> rfl
    | reload r =>
      simp only [destroyRaised, reloadFailed]
      split_ifs <;> rfl
    | _ => rfl

/-- A request keeps the core that it began with. -/
theorem runPc_servedBy {k : Nat} {op : Op} {pc : Pc} {weights : ModelPath} (hpc : pc ≠ .created)
    (h : e.runPc k op pc o = some slice) (hw : slice.pc.servedBy = some weights) :
    pc.servedBy = some weights := by
  cases pc with
  | created => exact absurd rfl hpc
  | lock block =>
    obtain ⟨l, -, rfl⟩ := runPc_block h
    cases critical_servedBy.symm.trans hw
  | destroy t phase => cases (destroyStep_servedBy h).symm.trans hw
  | drain d =>
    obtain rfl := VLLMEngine.runPc_drain h
    cases d <;> cases hw
  | load r =>
    cases o <;> cases h
    · cases hw
    · unfold reloadFailed at hw
      split_ifs at hw <;> cases hw
  | generating weights' hasOutput =>
    cases o with
    | output =>
      simp only [runPc, generateStep] at h
      split_ifs at h <;> cases h <;> first | exact hw | cases hw
    | ended =>
      cases h
      cases hasOutput
      · cases hw
      · exact hw
    | _ => cases h <;> cases hw
  | _ => cases o <;> cases h <;> cases hw

/-- A request begins with the core of an available engine. -/
theorem enter_servedBy {op : Op} {weights : ModelPath}
    (hw : (e.enter op).pc.servedBy = some weights) :
    e.isAvailable ∧ ∃ c ∈ e.core, c.model = weights := by
  cases op with
  | switchModel new =>
    simp only [enter, switchEnter] at hw
    split_ifs at hw <;> cases hw
  | generate requested =>
    simp only [enter, beginGenerate] at hw
    split at hw
    · next core hav hcore =>
      refine ⟨hav, core, hcore, ?_⟩
      exact Option.some.inj hw
    · cases hw
  | _ => cases hw

end VLLMEngine

-- ════════════════════════════════════════════════════════════════════════
-- One engine
-- ════════════════════════════════════════════════════════════════════════

namespace EngineSys

variable {s t : EngineSys} {j k : Nat} {o : Outcome} {op : Op} {path : ModelPath}

/-- What the runs of `truthfulRun` keep. -/
structure Tracked (s : EngineSys) : Prop where
  lock : s.LockAgrees
  own : s.Ownership
  belongs : s.Belongs
  ops : ∀ th ∈ s.threads, th.op.isStart = false
  truthful : s.engine.Truthful (∃ k, s.At Pc.undoesLoad k)

/-- Every switch of this engine is over. -/
def SwitchesOver (s : EngineSys) : Prop := ∀ th ∈ s.threads, th.op.isSwitch → th.pc.isFinished

/-- Thread `k` is a switch to `path`, and every other switch is over. -/
structure Follows (s : EngineSys) (k : Nat) (path : ModelPath) : Prop where
  thread : ∃ th, s.threads[k]? = some th ∧ th.op = .switchModel path ∧
    (th.pc.hasRecorded → s.engine.model = path)
  others : ∀ (j : Nat) (th : Thread), s.threads[j]? = some th → j ≠ k → th.op.isSwitch →
    th.pc.isFinished

/-- Every request for `model` that was sent to a core with some weights is in the relation. -/
def Serves (s : EngineSys) (R : String → ModelPath → Prop) : Prop :=
  ∀ (k : Nat) (th : Thread), s.threads[k]? = some th → ∀ model, th.op = .generate model →
    th.pc ≠ .created ∧ ∀ weights, th.pc.servedBy = some weights → R model weights

/-- A thread leaves a core of the recorded path. The teardowns of loads on the other threads go
on; a block runs while there are none. -/
theorem truthful_settle (hlock : s.LockAgrees)
    (h : s.engine.Truthful (∃ j, s.At Pc.undoesLoad j)) {th : Thread} {slice : Slice}
    (hth : s.threads[k]? = some th)
    (hallows : th.pc.waits → ∀ ρ, th.pc.role = some ρ → ρ.allows s.engine.state)
    (hstart : ∀ modelPath, th.pc = .lock (.startBegin modelPath) → s.engine.core = none)
    (hempty : s.engine.state = .paused ∨ (th.pc.owns ∧ th.pc.hasCore = false) →
      s.engine.core = none)
    (hok : th.pc.waits → s.engine.truthfulRun th.pc o)
    (hslice : s.engine.runPc k th.op th.pc o = some slice) :
    (s.settle k th slice).engine.Truthful (∃ j, (s.settle k th slice).At Pc.undoesLoad j) := by
  have hat := pcAt_of_threads hth
  have hsplit : s.engine.Truthful (th.pc.undoesLoad ∨ ∃ j, j ≠ k ∧ s.At Pc.undoesLoad j) := by
    refine h.mono ?_
    rintro ⟨j, hj⟩
    by_cases hjk : j = k
    · subst hjk
      exact .inl ((at_of_pcAt hat).mp hj)
    · exact .inr ⟨j, hjk, hj⟩
  have htruthful := VLLMEngine.runPc_truthful hsplit ?_ hallows hstart hempty hok hslice
  · refine htruthful.mono ?_
    rintro (hundo | ⟨j, hjk, hj⟩)
    · exact ⟨k, (at_settle rfl hth).mpr (.inl ⟨rfl, hundo⟩)⟩
    · exact ⟨j, (at_settle rfl hth).mpr (.inr ⟨hjk, hj⟩)⟩
  · rintro hw ⟨j, -, pc, hpc, hundo⟩
    refine Ownership.not_holds_of_waits hlock hslice hw j ⟨pc, hpc, ?_⟩
    cases pc <;> first | rfl | cases hundo

namespace Tracked

theorem not_startBegin (h : s.Tracked) {th : Thread} (hth : s.threads[k]? = some th)
    (modelPath : ModelPath) : th.pc ≠ .lock (.startBegin modelPath) := by
  intro hpc
  have hop := isStart_of_startBegin h.belongs hth hpc
  rw [h.ops th (List.mem_of_getElem? hth)] at hop
  cases hop

theorem core_eq_none (h : s.Tracked) {pc : Pc} (hpc : s.pcAt k = some pc)
    (hempty : s.engine.state = .paused ∨ (pc.owns ∧ pc.hasCore = false)) : s.engine.core = none := by
  obtain hpaused | ⟨howns, hcore⟩ := hempty
  · refine (h.own.unowned fun j hj => ?_).gpu.empty (by simp [hpaused]) (by simp [hpaused]) |>.1
    obtain ⟨pc, hpc, howns⟩ := hj
    obtain ⟨ρ, hρ⟩ := Option.isSome_iff_exists.mp howns
    have hallows := h.own.allows j pc ρ hpc hρ
    cases ρ <;> simp [Role.allows, hpaused] at hallows
  · exact (h.own.owned k pc hpc howns).gpu.core_eq_none hcore

/-- The core that an available engine serves with. -/
theorem model_of_running (h : s.Tracked) (hs : s.engine.state = .running) :
    ∀ c ∈ s.engine.core, c.model = s.engine.model := by
  intro c hc
  obtain hmodel | hpp | ⟨k, pc, hpc, hundo⟩ | hoff := h.truthful c hc
  · exact hmodel
  · obtain ⟨owner, hholding⟩ := h.own.exists_holding
    obtain hnone | ⟨hloading, -⟩ := hholding.pendingPause
    · simp [hnone] at hpp
    · simp [hs] at hloading
  · have hallows := h.own.allows k pc _ hpc (Pc.role_of_undoesLoad hundo)
    simp [Role.allows, hs] at hallows
  · rw [hs] at hoff
    cases hoff

theorem spawn (h : s.Tracked) (hop : op ≠ .stop) (hstart : op.isStart = false) :
    (s.spawn op).Tracked := by
  refine ⟨h.lock.spawn, h.own.spawn hop, h.belongs.spawn, fun th hth => ?_, ?_⟩
  · obtain hth | hth := List.mem_append.mp hth
    · exact h.ops th hth
    · obtain rfl := List.mem_singleton.mp hth
      exact hstart
  · exact h.truthful.mono fun ⟨k, hk⟩ => ⟨k, (at_spawn rfl).mpr hk⟩

/-- **Step lemma**. -/
theorem runThread (h : s.Tracked) (hok : ∀ pc, s.pcAt k = some pc → s.engine.truthfulRun pc o)
    (hrun : s.runThread k o = some t) : t.Tracked := by
  have hregular (pc : Pc) (hpc : s.pcAt k = some pc) : s.engine.regularRun pc o := by
    obtain ⟨th, hth, rfl⟩ := Option.map_eq_some_iff.mp hpc
    have htruthful := hok _ hpc
    unfold VLLMEngine.regularRun
    split
    · next path hstart => exact absurd hstart (h.not_startBegin hth path)
    · next hgen =>
      rw [hgen] at htruthful
      exact htruthful
    · rfl
  have hlock := h.lock.runThread hrun
  have hown := h.own.runThread h.lock hregular hrun
  have hbelongs := h.belongs.runThread hrun
  obtain ⟨th, slice, hth, hslice, rfl⟩ := runThread_eq_some.mp hrun
  have hat := pcAt_of_threads hth
  refine ⟨hlock, hown, hbelongs, fun x hx => ?_, ?_⟩
  · obtain hx | ⟨hop, -⟩ | rfl := mem_settle hx
    · exact h.ops x hx
    · exact hop ▸ h.ops th (List.mem_of_getElem? hth)
    · rfl
  · exact truthful_settle h.lock h.truthful hth (fun _ ρ => h.own.allows k th.pc ρ hat)
      (fun path hstart => absurd hstart (h.not_startBegin hth path)) (h.core_eq_none hat)
      (fun _ => hok _ hat) hslice

theorem call (h : s.Tracked) (hop : op ≠ .stop) (hstart : op.isStart = false)
    (hstep : s.step (.call op) = some t) : t.Tracked := by
  refine (h.spawn hop hstart).runThread (fun pc hpc => ?_) (runThread_of_call hstep)
  rw [pcAt_spawn, if_pos rfl] at hpc
  cases hpc
  rfl

end Tracked

-- ════════════════════════════════════════════════════════════════════════
-- Switches
-- ════════════════════════════════════════════════════════════════════════

theorem SwitchesOver.spawn (h : s.SwitchesOver) (hop : op.isSwitch = false) :
    (s.spawn op).SwitchesOver := by
  intro th hth hswitch
  obtain hth | hth := List.mem_append.mp hth
  · exact h th hth hswitch
  · obtain rfl := List.mem_singleton.mp hth
    cases hop.symm.trans hswitch

theorem not_finished_of_runPc {e : VLLMEngine} {pc : Pc} {slice : Slice}
    (h : e.runPc k op pc o = some slice) : pc.isFinished = false := by
  cases pc <;> first | rfl | (cases o <;> cases h)

/-- Without a switch the recorded path stays. -/
theorem SwitchesOver.runThread (h : s.SwitchesOver) (hs : s.Tracked)
    (hrun : s.runThread k o = some t) : t.SwitchesOver ∧ t.engine.model = s.engine.model := by
  obtain ⟨th, slice, hth, hslice, rfl⟩ := runThread_eq_some.mp hrun
  have hmem := List.mem_of_getElem? hth
  have hop : th.op.isSwitch = false := by
    by_contra hswitch
    have hfinished := h th hmem (by simpa using hswitch)
    cases hfinished.symm.trans (not_finished_of_runPc hslice)
  refine ⟨fun x hx hswitch => ?_, ?_⟩
  · obtain hx | ⟨hxop, -⟩ | rfl := mem_settle hx
    · exact h x hx hswitch
    · cases hop.symm.trans (hxop ▸ hswitch)
    · cases hswitch
  · exact VLLMEngine.runPc_model (hs.belongs th hmem) hop (hs.ops th hmem) hslice

namespace Follows

/-- A switch begins. -/
theorem of_spawn (h : s.SwitchesOver) :
    (s.spawn (.switchModel path)).Follows s.threads.length path := by
  refine ⟨⟨{ op := .switchModel path }, by simp [EngineSys.spawn], rfl, fun h => by cases h⟩,
    fun j th hth hj hswitch => ?_⟩
  obtain hth | ⟨hlen, -⟩ := thread_of_spawn hth
  · exact h th (List.mem_of_getElem? hth) hswitch
  · exact absurd hlen hj

theorem spawn (h : s.Follows k path) (hop : op.isSwitch = false) : (s.spawn op).Follows k path := by
  obtain ⟨th, hth, hthread⟩ := h.thread
  have hlt := (List.getElem?_eq_some_iff.mp hth).1
  refine ⟨⟨th, (List.getElem?_append_left hlt).trans hth, hthread⟩, fun j x hx hj hswitch => ?_⟩
  obtain hx | ⟨-, rfl⟩ := thread_of_spawn hx
  · exact h.others j x hx hj hswitch
  · cases hop.symm.trans hswitch

/-- **Step lemma**: the switch goes on, or another thread leaves the path alone. -/
theorem runThread (h : s.Follows k path) (hs : s.Tracked) (hrun : s.runThread j o = some t) :
    t.Follows k path := by
  obtain ⟨th, slice, hth, hslice, rfl⟩ := runThread_eq_some.mp hrun
  have hbelongs := hs.belongs th (List.mem_of_getElem? hth)
  obtain ⟨x, hx, hop, hpath⟩ := h.thread
  refine ⟨?_, fun i y hy hik hswitch => ?_⟩
  · by_cases hjk : j = k
    · subst hjk
      obtain rfl := Option.some.inj (hth.symm.trans hx)
      rw [hop] at hslice hbelongs
      exact ⟨_, settle_thread hth, hop, VLLMEngine.runPc_hasRecorded hbelongs hpath hslice⟩
    · have hother : th.op.isSwitch = false := by
        by_contra hswitch
        have hfinished := h.others j th hth hjk (by simpa using hswitch)
        cases hfinished.symm.trans (not_finished_of_runPc hslice)
      have hmodel := VLLMEngine.runPc_model hbelongs hother
        (hs.ops th (List.mem_of_getElem? hth)) hslice
      refine ⟨x, ?_, hop, fun hrec => hmodel.trans (hpath hrec)⟩
      have hlt := (List.getElem?_eq_some_iff.mp hx).1
      simp only [EngineSys.settle]
      rw [List.getElem?_append_left (by simpa using hlt), List.getElem?_set_ne hjk, hx]
  · obtain ⟨rfl, hyop, -⟩ | ⟨-, hy⟩ | ⟨-, rfl⟩ := thread_cases_of_settle hth hy
    · have hfinished := h.others i th hth hik (hyop ▸ hswitch)
      cases hfinished.symm.trans (not_finished_of_runPc hslice)
    · exact h.others i y hy hik hswitch
    · cases hswitch

theorem switchesOver (h : s.Follows k path) {pc : Pc} (hpc : s.pcAt k = some pc) (hend : pc.isFinished) :
    s.SwitchesOver := by
  intro x hx hswitch
  obtain ⟨j, hj⟩ := List.mem_iff_getElem?.mp hx
  by_cases hjk : j = k
  · subst hjk
    obtain rfl := Option.some.inj ((pcAt_of_threads hj).symm.trans hpc)
    exact hend
  · exact h.others j x hj hjk hswitch

/-- A switch that returned leaves its path behind. -/
theorem returned (h : s.Follows k path) (hpc : s.pcAt k = some (.finished .returned)) :
    s.SwitchesOver ∧ s.engine.model = path := by
  obtain ⟨th, hth, -, hpath⟩ := h.thread
  have hfinished : th.pc = .finished .returned :=
    Option.some.inj ((pcAt_of_threads hth).symm.trans hpc)
  exact ⟨h.switchesOver hpc rfl, hpath (by rw [hfinished]; rfl)⟩

end Follows

-- ════════════════════════════════════════════════════════════════════════
-- Requests
-- ════════════════════════════════════════════════════════════════════════

namespace Serves

variable {R R' : String → ModelPath → Prop}

theorem mono (h : s.Serves R) (himp : ∀ model weights, R model weights → R' model weights) :
    s.Serves R' := by
  intro k th hth model hop
  obtain ⟨hcreated, hserved⟩ := h k th hth model hop
  exact ⟨hcreated, fun weights hw => himp model weights (hserved weights hw)⟩

theorem spawn (h : s.Serves R) (hop : ∀ model, op ≠ .generate model) : (s.spawn op).Serves R := by
  intro k th hth model hgen
  obtain hth | ⟨-, rfl⟩ := thread_of_spawn hth
  · exact h k th hth model hgen
  · exact absurd hgen (hop model)

theorem runThread (h : s.Serves R) (hrun : s.runThread k o = some t) : t.Serves R := by
  obtain ⟨th, slice, hth, hslice, rfl⟩ := runThread_eq_some.mp hrun
  intro j x hx model hop
  obtain ⟨-, hxop, hxpc⟩ | ⟨-, hx⟩ | ⟨-, rfl⟩ := thread_cases_of_settle hth hx
  · obtain ⟨hcreated, hserved⟩ := h k th hth model (hxop ▸ hop)
    rw [hxpc]
    exact ⟨VLLMEngine.runPc_ne_created hslice,
      fun weights hw => hserved weights (VLLMEngine.runPc_servedBy hcreated hslice hw)⟩
  · exact h j x hx model hop
  · cases hop

/-- A request is admitted. -/
theorem call (h : s.Serves R) (hop : ∀ model, op = .generate model → s.engine.isAvailable →
    ∀ c ∈ s.engine.core, R model c.model) (hstep : s.step (.call op) = some t) : t.Serves R := by
  obtain ⟨slice, hth, hslice, rfl⟩ := thread_of_call hstep
  cases hslice
  intro j x hx model hgen
  obtain ⟨-, hxop, hxpc⟩ | ⟨hj, hx⟩ | ⟨-, rfl⟩ := thread_cases_of_settle hth hx
  · rw [hxpc]
    obtain rfl : op = .generate model := hxop.symm.trans hgen
    refine ⟨VLLMEngine.enter_ne_created, fun weights hw => ?_⟩
    obtain ⟨hav, c, hc, rfl⟩ := VLLMEngine.enter_servedBy hw
    exact hop model rfl hav c hc
  · obtain hx | ⟨hlen, -⟩ := thread_of_spawn hx
    · exact h j x hx model hgen
    · exact absurd hlen hj
  · cases hgen

end Serves

end EngineSys

end OpenModel.Inference
