import OpenModel.Inference.Coroutine

/-!
# What a returned pause means

`pause` has one way to return for five situations. When it returns, the GPU is free, or
the engine is being loaded and the pause is recorded for the loader, or another pause is
tearing the engine down, or the core is dead, or a load was begun after the pause first
looked at the state. No step takes an engine with a recorded pause to RUNNING.

## Main results

- `EngineSys.pauseSettled_of_returns`: the five situations, in every regular run
- `EngineSys.deferredPause_not_gpuFree`: a pause during a load returns before the load ends
-/

namespace OpenModel.Inference

/-- A load has the engine. -/
def EngineState.isLoading : EngineState → Bool
  | loading | starting => true
  | _ => false

namespace Pc

/-- Constructing a core, or bound to do so. -/
def loadsCore (pc : Pc) : Bool := pc.role == some .loader || pc.role == some .recoverer

/-- Tearing the engine down for a pause. -/
def unloads (pc : Pc) : Bool := pc.role == some .unloader

/-- In `_do_reload`. -/
def reloads : Pc → Bool
  | load _ | retrySleep _ | lock (.reloadFinish _) | lock (.reloadGiveUp _)
  | destroy (.reload _) _ => true
  | _ => false

/-- A pause that stands here has seen a load begin. -/
def sawLoad (state : EngineState) : Pc → Bool
  | drain _ | lock (.pauseTakeover _) => state.isLoading
  | pc => pc.reloads

end Pc

/-- Where a call of `pause` can stand. -/
inductive PausePc : Pc → Prop
  | created : PausePc .created
  | look (urgency : YieldUrgency) : PausePc (.lock (.pauseLook urgency .external))
  | drain : PausePc (.drain (.pause .external))
  | takeover : PausePc (.lock (.pauseTakeover .external))
  | destroyLock : PausePc (.lock (.pauseDestroy .external))
  | destroying (phase : Phase) : PausePc (.destroy (.pause .external) phase)
  | reloading {pc : Pc} (h : pc.reloads) : PausePc pc
  | exitSleep : PausePc .exitSleep
  | finished (result : Result) : PausePc (.finished result)

theorem Caller.eq_external_of_inPause {c : Caller} {urgency : YieldUrgency}
    (h : c.inPause (.pause urgency)) : c = .external := by
  cases c with
  | external => rfl
  | switchModel new => cases h

theorem Caller.inResume_pause {c : Caller} {urgency : YieldUrgency} :
    c.inResume (.pause urgency) = false := by
  cases c <;> rfl

theorem pausePc_of_belongs {pc : Pc} {urgency : YieldUrgency} (h : pc.belongs (.pause urgency)) :
    PausePc pc := by
  cases pc with
  | created => exact .created
  | lock block =>
    cases block with
    | pauseLook u c =>
      obtain rfl := Caller.eq_external_of_inPause h
      exact .look u
    | pauseTakeover c =>
      obtain rfl := Caller.eq_external_of_inPause h
      exact .takeover
    | pauseDestroy c =>
      obtain rfl := Caller.eq_external_of_inPause h
      exact .destroyLock
    | resumeLook c => simp [Pc.belongs, Critical.belongs, Caller.inResume_pause] at h
    | reloadFinish r | reloadGiveUp r => exact .reloading rfl
    | _ => cases h
  | destroy t phase =>
    cases t with
    | pause c =>
      obtain rfl := Caller.eq_external_of_inPause h
      exact .destroying phase
    | reload r => exact .reloading rfl
    | _ => cases h
  | drain d =>
    cases d with
    | pause c =>
      obtain rfl := Caller.eq_external_of_inPause h
      exact .drain
    | switchModel new => cases h
  | load r | retrySleep r => exact .reloading rfl
  | exitSleep => exact .exitSleep
  | finished r => exact .finished r
  | _ => cases h

-- ════════════════════════════════════════════════════════════════════════
-- Loads begun
-- ════════════════════════════════════════════════════════════════════════

namespace VLLMEngine

variable {e : VLLMEngine} {k : Nat} {op : Op} {pc : Pc} {o : Outcome} {slice : Slice}

/-- The count of loads grows, and it grows when a load gets the engine. Only a load that
finds no recorded pause moves the engine to RUNNING. -/
structure Moves (e : VLLMEngine) (slice : Slice) : Prop where
  le : e.loads ≤ slice.engine.loads
  lt : slice.engine.state.isLoading → e.state.isLoading ∨ e.loads < slice.engine.loads
  running : slice.engine.state = .running → e.state = .running ∨ e.pendingPause = none

theorem moves_of_eq {e' : VLLMEngine} {pc' : Pc} {b : Bool} (hloads : e'.loads = e.loads)
    (hstate : e'.state = e.state) : Moves e ⟨e', pc', b⟩ :=
  ⟨Nat.le_of_eq hloads.symm, fun h => .inl (hstate ▸ h), fun h => .inl (hstate ▸ h)⟩

theorem moves_of_not_loading {e' : VLLMEngine} {pc' : Pc} {b : Bool} (hloads : e'.loads = e.loads)
    (hl : e'.state.isLoading = false) (hr : e'.state ≠ .running) : Moves e ⟨e', pc', b⟩ :=
  ⟨Nat.le_of_eq hloads.symm, fun h => absurd (hl.symm.trans h) Bool.false_ne_true,
    fun h => absurd h hr⟩

theorem moves_of_running {e' : VLLMEngine} {pc' : Pc} {b : Bool} (hloads : e'.loads = e.loads)
    (hr : e'.state = .running) (hp : ¬ e.pendingPause.isSome) : Moves e ⟨e', pc', b⟩ := by
  refine ⟨Nat.le_of_eq hloads.symm, fun h => ?_, fun _ => .inr (by simpa using hp)⟩
  rw [show Slice.engine ⟨e', pc', b⟩ = e' from rfl, hr] at h
  cases h

theorem moves_succ {e' : VLLMEngine} {pc' : Pc} {b : Bool} (h : e'.loads = e.loads + 1)
    (hr : e'.state ≠ .running) : Moves e ⟨e', pc', b⟩ :=
  ⟨h ▸ Nat.le_succ _, fun _ => .inr (h ▸ Nat.lt_succ_self _), fun h => absurd h hr⟩

theorem critical_moves {block : Critical} : Moves e (e.critical block) := by
  cases block with
  | startBegin modelPath => exact moves_succ rfl EngineState.noConfusion
  | startFailed | reloadGiveUp r | stopBegin => exact moves_of_not_loading rfl rfl EngineState.noConfusion
  | pauseDestroy c => exact moves_of_eq rfl rfl
  | startFinish =>
    simp only [critical]
    split_ifs with hp
    · exact moves_of_eq rfl rfl
    · exact moves_of_running rfl rfl hp
  | pauseLook urgency c =>
    simp only [critical, pauseReturn_eq]
    split_ifs
    · exact moves_of_eq rfl rfl
    · exact moves_of_eq rfl rfl
    · exact moves_of_eq rfl rfl
    · exact moves_of_not_loading rfl rfl EngineState.noConfusion
  | pauseTakeover c =>
    simp only [critical, pauseReturn_eq]
    split_ifs
    · exact moves_of_eq rfl rfl
    · exact moves_of_not_loading rfl rfl EngineState.noConfusion
  | resumeLook c =>
    simp only [critical, resumeReturn_eq]
    split_ifs
    · exact moves_of_eq rfl rfl
    · exact moves_of_eq rfl rfl
    · exact moves_of_eq rfl rfl
    · exact moves_succ rfl EngineState.noConfusion
  | reloadFinish r =>
    simp only [critical, reloadReturn_eq]
    split_ifs with hp
    · exact moves_of_eq rfl rfl
    · exact moves_of_running rfl rfl hp
  | recoverBegin =>
    simp only [critical]
    split_ifs <;> exact moves_of_eq rfl rfl

theorem destroyStep_moves {t : Teardown} {phase : Phase}
    (h : e.destroyStep t phase o = some slice) : Moves e slice := by
  cases phase <;> cases o <;> cases h
  · exact moves_of_eq rfl rfl
  · exact moves_of_eq rfl rfl
  · exact moves_of_eq rfl rfl
  · cases t with
    | start | stop => exact moves_of_not_loading rfl rfl EngineState.noConfusion
    | pause c =>
      simp only [destroyed, pauseReturn_eq]
      split_ifs
      · exact moves_succ rfl EngineState.noConfusion
      · exact moves_of_not_loading rfl rfl EngineState.noConfusion
    | reload r =>
      simp only [destroyed, reloadReturn_eq]
      exact moves_of_not_loading rfl rfl EngineState.noConfusion
    | recover => exact moves_succ rfl EngineState.noConfusion
  · cases t with
    | pause c =>
      simp only [destroyRaised, pauseRaise_eq]
      exact moves_of_eq rfl rfl
    | reload r =>
      simp only [destroyRaised, reloadFailed]
      split_ifs <;> exact moves_of_eq rfl rfl
    | start | recover | stop => exact moves_of_eq rfl rfl

theorem enter_moves : Moves e (e.enter op) := by
  cases op with
  | switchModel new =>
    simp only [enter, switchEnter]
    split_ifs <;> exact moves_of_eq rfl rfl
  | generate requested =>
    simp only [enter, beginGenerate]
    split <;> exact moves_of_eq rfl rfl
  | _ => exact moves_of_eq rfl rfl

theorem generateStep_moves {weights : ModelPath} {hasOutput : Bool}
    (h : e.generateStep weights hasOutput o = some slice) : Moves e slice := by
  cases o with
  | output =>
    simp only [generateStep] at h
    split_ifs at h <;> cases h <;> exact moves_of_eq rfl rfl
  | coreDead =>
    cases h
    exact moves_of_not_loading rfl rfl EngineState.noConfusion
  | ended | failed | stalled =>
    cases h
    exact moves_of_eq rfl rfl
  | _ => cases h

theorem runPc_moves (h : e.runPc k op pc o = some slice) : Moves e slice := by
  cases pc with
  | created =>
    cases o <;> cases h
    exact enter_moves
  | lock block =>
    obtain ⟨l, -, rfl⟩ := runPc_block h
    have hc : Moves { e with transitionLock := l }
        ({ e with transitionLock := l }.critical block) := critical_moves
    exact ⟨hc.le, hc.lt, hc.running⟩
  | destroy t phase => exact destroyStep_moves h
  | drain d =>
    obtain rfl := runPc_drain h
    cases d <;> exact moves_of_eq rfl rfl
  | load r =>
    cases o <;> cases h
    · exact moves_of_eq rfl rfl
    · simp only [reloadFailed]
      split_ifs <;> exact moves_of_eq rfl rfl
  | generating weights hasOutput => exact generateStep_moves h
  | _ => cases o <;> cases h <;> exact moves_of_eq rfl rfl

-- ════════════════════════════════════════════════════════════════════════
-- The threads of a pause
-- ════════════════════════════════════════════════════════════════════════

theorem sawLoad_of_reloads {state : EngineState} (h : pc.reloads) : pc.sawLoad state := by
  cases pc with
  | lock block => cases block <;> first | exact h | cases h
  | drain d => cases h
  | _ => exact h

/-- A call of `pause` that has seen a load begin saw it before, or begins it now. -/
theorem runPc_sawLoad {urgency : YieldUrgency} (hpc : PausePc pc)
    (h : e.runPc k (.pause urgency) pc o = some slice)
    (hsaw : slice.pc.sawLoad slice.engine.state) :
    (pc.sawLoad e.state ∧ pc.atPauseLook = false) ∨ e.loads < slice.engine.loads := by
  cases hpc with
  | created =>
    cases o <;> cases h
    cases hsaw
  | look u =>
    obtain ⟨l, -, rfl⟩ := runPc_block h
    simp only [critical] at hsaw
    split_ifs at hsaw with hl hr hu
    · cases hsaw
    · cases hsaw
    · have hstate : e.state.isLoading := hsaw
      rw [not_not.mp hr] at hstate
      cases hstate
    · cases hsaw
  | drain =>
    obtain rfl : slice = e.drained (.pause .external) := by cases o <;> simp_all [runPc]
    exact .inl ⟨hsaw, rfl⟩
  | takeover =>
    obtain ⟨l, -, rfl⟩ := runPc_block h
    simp only [critical] at hsaw
    split_ifs at hsaw <;> cases hsaw
  | destroyLock =>
    obtain ⟨l, -, rfl⟩ := runPc_block h
    cases hsaw
  | destroying phase =>
    cases phase <;> cases o <;> cases h
    · cases hsaw
    · cases hsaw
    · cases hsaw
    · simp only [destroyed] at hsaw ⊢
      split_ifs at hsaw ⊢
      · exact .inr (Nat.lt_succ_self _)
      · cases hsaw
    · cases hsaw
  | reloading hr =>
    refine .inl ⟨sawLoad_of_reloads hr, ?_⟩
    cases pc with
    | lock block => cases block <;> first | rfl | cases hr
    | _ => rfl
  | exitSleep | finished result => cases o <;> cases h

/-- A call of `pause` returns because it saw a load begin, or leaves its pause to the
loader, or leaves the engine neither RUNNING nor loading. -/
theorem runPc_returned {urgency : YieldUrgency} (hpc : PausePc pc)
    (h : e.runPc k (.pause urgency) pc o = some slice) (hret : slice.pc = .finished .returned) :
    (pc.sawLoad e.state ∧ pc.atPauseLook = false) ∨
    (slice.engine.state.isLoading ∧ slice.engine.pendingPause.isSome) ∨
    (slice.engine.state ≠ .running ∧ slice.engine.state.isLoading = false) := by
  cases hpc with
  | created =>
    cases o <;> cases h
    cases hret
  | look u =>
    obtain ⟨l, -, rfl⟩ := runPc_block h
    simp only [critical] at hret ⊢
    split_ifs at hret ⊢ with hl hr hu
    · refine .inr (.inl ⟨?_, rfl⟩)
      rcases hl with hl | hl <;> simp [pauseReturn, release, hl, EngineState.isLoading]
    · refine .inr (.inr ⟨hr, ?_⟩)
      show e.state.isLoading = false
      cases hs : e.state <;> simp_all [EngineState.isLoading]
  | takeover =>
    obtain ⟨l, -, rfl⟩ := runPc_block h
    simp only [critical] at hret ⊢
    split_ifs at hret ⊢ with hr
    · cases hl : e.state.isLoading with
      | true => exact .inl ⟨hl, rfl⟩
      | false => exact .inr (.inr ⟨hr, hl⟩)
  | drain =>
    obtain rfl : slice = e.drained (.pause .external) := by cases o <;> simp_all [runPc]
    cases hret
  | destroyLock =>
    obtain ⟨l, -, rfl⟩ := runPc_block h
    cases hret
  | destroying phase =>
    cases phase <;> cases o <;> cases h
    · cases hret
    · cases hret
    · cases hret
    · simp only [destroyed] at hret ⊢
      split_ifs at hret ⊢
      exact .inr (.inr ⟨EngineState.noConfusion, rfl⟩)
    · cases hret
  | reloading hr =>
    refine .inl ⟨sawLoad_of_reloads hr, ?_⟩
    cases pc with
    | lock block => cases block <;> first | rfl | cases hr
    | _ => rfl
  | exitSleep | finished result => cases o <;> cases h

end VLLMEngine

namespace EngineSys

variable {s t : EngineSys} {k : Nat} {o : Outcome} {l : Label}

-- ════════════════════════════════════════════════════════════════════════
-- Loads seen by a pause
-- ════════════════════════════════════════════════════════════════════════

/-- A pause that stands where a load has begun was marked before it. -/
structure Marked (s : EngineSys) : Prop where
  le : ∀ th ∈ s.threads, th.mark ≤ s.engine.loads
  lt : ∀ th ∈ s.threads, ∀ u, th.op = .pause u → th.pc.sawLoad s.engine.state →
    th.mark < s.engine.loads

/-- A load that a pause sees was begun before, or begins now. -/
theorem sawLoad_mono {e : VLLMEngine} {slice : Slice} {pc : Pc}
    (hc : VLLMEngine.Moves e slice) (h : pc.sawLoad slice.engine.state) :
    pc.sawLoad e.state ∨ e.loads < slice.engine.loads := by
  cases pc with
  | drain d => exact hc.lt h
  | lock block =>
    cases block with
    | pauseTakeover c => exact hc.lt h
    | _ => exact .inl h
  | _ => exact .inl h

theorem Marked.spawn (h : s.Marked) {op : Op} : (s.spawn op).Marked := by
  refine ⟨fun th hth => ?_, fun th hth u hop hsaw => ?_⟩
  · rcases List.mem_append.mp hth with hth | hth
    · exact h.le th hth
    · obtain rfl := List.mem_singleton.mp hth
      exact Nat.zero_le _
  · rcases List.mem_append.mp hth with hth | hth
    · exact h.lt th hth u hop hsaw
    · obtain rfl := List.mem_singleton.mp hth
      cases hsaw

theorem Marked.runThread (h : s.Marked) (hb : s.Belongs) (hrun : s.runThread k o = some t) :
    t.Marked := by
  obtain ⟨th, slice, hth, hpc, rfl⟩ := runThread_eq_some.mp hrun
  have hmem := List.mem_of_getElem? hth
  have hmoves := VLLMEngine.runPc_moves hpc
  have hcases {x : Thread} (hx : x ∈ (s.settle k th slice).threads) :
      x ∈ s.threads ∨ x = { op := .recover } ∨
      x = ⟨th.op, slice.pc, if th.pc.atPauseLook then s.engine.loads else th.mark⟩ := by
    simp only [settle] at hx
    rcases List.mem_append.mp hx with hx | hx
    · rcases List.mem_or_eq_of_mem_set hx with hx | rfl
      · exact .inl hx
      · exact .inr (.inr rfl)
    · split_ifs at hx
      · exact .inr (.inl (List.mem_singleton.mp hx))
      · cases hx
  constructor
  · intro x hx
    rcases hcases hx with hx | rfl | rfl
    · exact Nat.le_trans (h.le x hx) hmoves.le
    · exact Nat.zero_le _
    · show (if th.pc.atPauseLook then s.engine.loads else th.mark) ≤ slice.engine.loads
      split_ifs
      · exact hmoves.le
      · exact Nat.le_trans (h.le th hmem) hmoves.le
  · intro x hx u hop hsaw
    show x.mark < slice.engine.loads
    rcases hcases hx with hx | rfl | rfl
    · rcases sawLoad_mono hmoves hsaw with hsaw | hlt
      · exact Nat.lt_of_lt_of_le (h.lt x hx u hop hsaw) hmoves.le
      · exact Nat.lt_of_le_of_lt (h.le x hx) hlt
    · cases hop
    · have hop' : th.op = .pause u := hop
      rw [hop'] at hpc
      have hpause := pausePc_of_belongs (hop' ▸ hb th hmem)
      show (if th.pc.atPauseLook then s.engine.loads else th.mark) < slice.engine.loads
      rcases VLLMEngine.runPc_sawLoad hpause hpc hsaw with ⟨hsaw, hlook⟩ | hlt
      · rw [hlook]
        exact Nat.lt_of_lt_of_le (h.lt th hmem u hop' hsaw) hmoves.le
      · split_ifs
        · exact hlt
        · exact Nat.lt_of_le_of_lt (h.le th hmem) hlt

theorem marked_of_reach {ok : EngineSys → Label → Prop} (h : system.Reach ok s) : s.Marked := by
  refine h.invariant_of (fun _ => belongs_of_reach) (fun s hs => ?_) fun s l t hb hs _ hstep => ?_
  · rcases hs with rfl | ⟨modelPath, rfl⟩ <;> constructor <;> simp
  · obtain ⟨op, -, -, rfl⟩ | ⟨op, -, -, hrun⟩ | ⟨k, o, -, hrun⟩ := step_cases hstep
    · exact hs.spawn
    · exact hs.spawn.runThread hb.spawn hrun
    · exact hs.runThread hb hrun

-- ════════════════════════════════════════════════════════════════════════
-- The return of a pause
-- ════════════════════════════════════════════════════════════════════════

/-- The engine holds nothing, and no load is in progress or will come by itself. -/
structure GpuFree (s : EngineSys) : Prop where
  empty : s.engine.Empty
  noLoad : ∀ k, ¬ s.At Pc.loadsCore k
  noResume : s.engine.pendingResume = false
  alive : s.engine.state ≠ .dead

/-- Thread `k`, a call of `pause`, returns normally in the step from `s` to `t`. -/
def PauseReturns (s t : EngineSys) (k : Nat) : Prop :=
  ∃ th th' u, s.threads[k]? = some th ∧ th.op = .pause u ∧ (∀ r, th.pc ≠ .finished r) ∧
    t.threads[k]? = some th' ∧ th'.pc = .finished .returned

/-- What the returned pause `k` can rely on. -/
def PauseSettled (t : EngineSys) (k : Nat) : Prop :=
  GpuFree t ∨
  (t.engine.state.isLoading ∧ t.engine.pendingPause.isSome) ∨
  (t.engine.state = .unloading ∧ (t.engine.Empty ∨ ∃ j, t.At Pc.unloads j)) ∨
  t.engine.state = .dead ∨
  ∃ th, t.threads[k]? = some th ∧ th.mark < t.engine.loads

/-- Without an owner and with the core down the GPU is free. -/
theorem gpuFree_of_state (h : s.Ownership) (hr : s.engine.state ≠ .running)
    (hd : s.engine.state ≠ .dead) (hl : s.engine.state.isLoading = false)
    (hu : s.engine.state ≠ .unloading) : GpuFree s := by
  have hnone : ∀ k, ¬ s.At Pc.owns k := by
    rintro k ⟨pc, hpc, hown⟩
    obtain ⟨ρ, hρ⟩ := Option.isSome_iff_exists.mp hown
    have := h.allows k pc ρ hpc hρ
    cases ρ <;> cases hs : s.engine.state <;> simp_all [Role.allows, EngineState.isLoading]
  have hholding := h.unowned hnone
  refine ⟨hholding.gpu.empty hr hd, fun k hk => hnone k ?_, hholding.pendingResume.resolve_right hu, hd⟩
  obtain ⟨pc, hpc, hloads⟩ := hk
  refine ⟨pc, hpc, ?_⟩
  cases hrole : pc.role <;> simp_all [Pc.loadsCore, Pc.owns]

theorem pauseSettled_of_state (h : t.Ownership) (hr : t.engine.state ≠ .running)
    (hl : t.engine.state.isLoading → PauseSettled t k) : PauseSettled t k := by
  by_cases hd : t.engine.state = .dead
  · exact .inr (.inr (.inr (.inl hd)))
  by_cases hu : t.engine.state = .unloading
  · refine .inr (.inr (.inl ⟨hu, ?_⟩))
    by_cases hnone : ∀ j, ¬ t.At Pc.owns j
    · exact .inl ((h.unowned hnone).gpu.empty hr hd)
    · obtain ⟨j, pc, hpc, hown⟩ := not_forall_not.mp hnone
      obtain ⟨ρ, hρ⟩ := Option.isSome_iff_exists.mp hown
      have hallows := h.allows j pc ρ hpc hρ
      refine .inr ⟨j, pc, hpc, ?_⟩
      cases ρ <;> simp_all [Role.allows, Pc.unloads]
  cases hloading : t.engine.state.isLoading with
  | true => exact hl hloading
  | false => exact .inl (gpuFree_of_state h hr hd hloading hu)

/-- Only the thread that runs can return. -/
theorem runThread_of_pauseReturns (hstep : s.step l = some t) (hret : PauseReturns s t k) :
    ∃ o, l = .run k o ∧ s.runThread k o = some t := by
  obtain ⟨th, th', u, hth, -, hunfinished, hth', hreturned⟩ := hret
  have hk : k < s.threads.length := (List.getElem?_eq_some_iff.mp hth).1
  have hsame (h : t.pcAt k = s.pcAt k) : False := by
    rw [pcAt_of_threads hth, pcAt_of_threads hth', hreturned] at h
    exact hunfinished _ (Option.some.inj h).symm
  obtain ⟨op, -, -, rfl⟩ | ⟨op, -, -, hrun⟩ | ⟨j, o, hl, hrun⟩ := step_cases hstep
  · refine (hsame ?_).elim
    rw [pcAt_spawn, if_neg (by omega)]
  · refine (hsame ?_).elim
    obtain ⟨th₀, slice, hth₀, -, rfl⟩ := runThread_eq_some.mp hrun
    have hlen : (s.spawn op).threads.length = s.threads.length + 1 := by simp [EngineSys.spawn]
    rw [pcAt_settle hth₀, if_neg (by omega), if_neg (by omega), pcAt_spawn, if_neg (by omega)]
  · by_cases hjk : k = j
    · subst hjk
      exact ⟨o, hl, hrun⟩
    · refine (hsame ?_).elim
      obtain ⟨th₀, slice, hth₀, -, rfl⟩ := runThread_eq_some.mp hrun
      rw [pcAt_settle hth₀, if_neg hjk, if_neg (by omega)]

theorem pauseSettled_of_runThread (hown : t.Ownership) (hb : s.Belongs) (hm : s.Marked)
    (hrun : s.runThread k o = some t) (hret : PauseReturns s t k) : PauseSettled t k := by
  obtain ⟨th, th', u, hth, hop, -, hth', hreturned⟩ := hret
  obtain ⟨th₀, slice, hth₀, hpc, rfl⟩ := runThread_eq_some.mp hrun
  obtain rfl := Option.some.inj (hth.symm.trans hth₀)
  obtain rfl := Option.some.inj (hth'.symm.trans (settle_thread hth))
  have hmem := List.mem_of_getElem? hth
  have hpause : PausePc th.pc := pausePc_of_belongs (hop ▸ hb th hmem)
  rcases VLLMEngine.runPc_returned hpause (hop ▸ hpc) hreturned with
    ⟨hsaw, hlook⟩ | hdeferred | ⟨hr, hl⟩
  · refine .inr (.inr (.inr (.inr ⟨_, hth', ?_⟩)))
    show (if th.pc.atPauseLook then s.engine.loads else th.mark) < slice.engine.loads
    rw [hlook]
    exact Nat.lt_of_lt_of_le (hm.lt th hmem u hop hsaw) (VLLMEngine.runPc_moves hpc).le
  · exact .inr (.inl hdeferred)
  · refine pauseSettled_of_state hown hr fun hloading => ?_
    exact absurd (hl.symm.trans hloading) Bool.false_ne_true

theorem Ownership.isLoading_of_pendingPause (h : s.Ownership) (hp : s.engine.pendingPause.isSome) :
    s.engine.state = .loading ∨ s.engine.state = .starting := by
  obtain ⟨owner, hholding⟩ := h.exists_holding
  exact (hholding.pendingPause.resolve_left (Option.isSome_iff_ne_none.mp hp)).1

/-- The load that finds a recorded pause does not end in RUNNING. -/
theorem state_ne_running_of_pendingPause (h : s.Ownership) (hstep : s.step l = some t)
    (hp : s.engine.pendingPause.isSome) : t.engine.state ≠ .running := by
  have hne : s.engine.state ≠ .running := by
    rcases h.isLoading_of_pendingPause hp with hs | hs <;> simp [hs]
  have hthread {s : EngineSys} {k : Nat} {o : Outcome} (hne : s.engine.state ≠ .running)
      (hp : s.engine.pendingPause.isSome) (hrun : s.runThread k o = some t) :
      t.engine.state ≠ .running := by
    intro hr
    obtain ⟨th, slice, -, hpc, rfl⟩ := runThread_eq_some.mp hrun
    rcases (VLLMEngine.runPc_moves hpc).running hr with hs | hs
    · exact hne hs
    · simp [hs] at hp
  obtain ⟨op, -, -, rfl⟩ | ⟨op, -, -, hrun⟩ | ⟨k, o, -, hrun⟩ := step_cases hstep
  · exact hne
  · exact hthread (s := s.spawn op) hne hp hrun
  · exact hthread hne hp hrun

/-- **A returned pause**: in every regular run, whenever a call of `pause` returns the GPU
is free, or the pause is recorded for the load in progress, or another pause is tearing the
engine down, or the core is dead, or a load was begun since; and a recorded pause keeps the
engine from RUNNING. -/
theorem pauseSettled_of_returns (h : system.Reach (regular · ·) s) (hok : s.regular l)
    (hstep : s.step l = some t) :
    (∀ k, PauseReturns s t k → PauseSettled t k) ∧
    (s.engine.pendingPause.isSome → t.engine.state ≠ .running) := by
  have hown := ownership_of_reach (fun _ _ hok => hok) h
  have hlock := lockAgrees_of_reach h
  refine ⟨fun k hret => ?_, fun hp => ?_⟩
  · obtain ⟨o, rfl, hrun⟩ := runThread_of_pauseReturns hstep hret
    exact pauseSettled_of_runThread (hown.step hlock hok hstep) (belongs_of_reach h)
      (marked_of_reach h) hrun hret
  · exact state_ne_running_of_pendingPause hown hstep hp

/-- `start`, then an immediate pause up to the end of its teardown. -/
def startThenPause : List Label :=
  [.call (.start "m"), .run 0 .go, .run 0 (.created [1]), .run 0 .go, .call (.pause .immediate)] ++
    List.replicate 5 (.run 1 .go)

/-- The teardown of a pause of a RUNNING engine. -/
theorem pauseSettled_startThenPause :
    ∃ s t, system.exec {} startThenPause = some s ∧ s.step (.run 1 .go) = some t ∧
      PauseReturns s t 1 ∧ PauseSettled t 1 := by
  let s : EngineSys :=
    { engine :=
        { state := .unloading, model := "m", transitionLock := ⟨true, []⟩, loads := 1 }
      threads :=
        [⟨.start "m", .finished .returned, 0⟩,
          ⟨.pause .immediate, .destroy (.pause .external) .release, 1⟩]
      cur := some 1
      lastCommand := some .pause }
  let t : EngineSys :=
    { engine := { state := .paused, model := "m", loads := 1 }
      threads :=
        [⟨.start "m", .finished .returned, 0⟩, ⟨.pause .immediate, .finished .returned, 1⟩]
      lastCommand := some .pause }
  have hrun : system.execGuarded (regular · ·) {} startThenPause = some s := rfl
  have hstep : s.step (.run 1 .go) = some t := rfl
  have hret : PauseReturns s t 1 := ⟨_, _, _, rfl, rfl, fun _ => Pc.noConfusion, rfl, rfl⟩
  have hreach : system.Reach (regular · ·) s :=
    Transition.System.Reach.execGuarded (.init (.inl rfl)) hrun
  exact ⟨s, t, rfl, hstep, hret, (pauseSettled_of_returns hreach rfl hstep).1 1 hret⟩

/-- A pause that finds the engine LOADING returns at once, with the load still to come. -/
theorem deferredPause_not_gpuFree :
    ∃ s l t k, system.Reach Transition.System.anyStep s ∧ s.step l = some t ∧ PauseReturns s t k ∧
      ¬ GpuFree t := by
  let s₀ : EngineSys := { engine := { state := .paused, model := "m" } }
  let loading : VLLMEngine := { state := .loading, model := "m", loads := 1 }
  let load : Pc := .load ⟨1, .resume .external⟩
  let s : EngineSys :=
    { engine := { loading with transitionLock := ⟨false, [1]⟩ }
      threads := [⟨.resume, load, 0⟩, ⟨.pause .immediate, .lock (.pauseLook .immediate .external), 0⟩]
      cur := some 1
      lastCommand := some .pause }
  let t : EngineSys :=
    { engine := { loading with pendingPause := some .immediate }
      threads := [⟨.resume, load, 0⟩, ⟨.pause .immediate, .finished .returned, 1⟩]
      lastCommand := some .pause }
  have hrun : system.exec s₀ [.call .resume, .run 0 .go, .call (.pause .immediate)] = some s := rfl
  refine ⟨s, .run 1 .go, t, 1, Transition.System.reach_of_exec (.inr ⟨"m", rfl⟩) hrun, rfl, ?_, ?_⟩
  · exact ⟨_, _, _, rfl, rfl, fun _ => Pc.noConfusion, rfl, rfl⟩
  · intro h
    exact h.noLoad 0 ⟨load, rfl, rfl⟩

end EngineSys

end OpenModel.Inference
