import OpenModel.Inference.Custody
import OpenModel.Inference.NamedWeights

/-!
# The representation invariant of an engine

At most one load is in progress. An engine that is RUNNING has a core, and the core was built
from the recorded path; an engine at rest in PAUSED has none. This holds in the runs of
`orderly` in which no switch records its path over a core that is about to serve
(`truthfulRun`, for the blocks under the lock).

## Main results

- `VLLMEngine.runPc_taken`: a RUNNING engine has no pause left over
- `EngineSys.represented_of_reach`: the three parts, in every such run
- `EngineSys.reportDuringLoad_two_loads`: a report of an earlier core starts a second load
-/

namespace OpenModel.Inference

/-- In `start` or `_do_reload`. -/
def Pc.loading (pc : Pc) : Bool := pc.role == some .loader

namespace VLLMEngine

variable {e e' : VLLMEngine} {slice : Slice} {o : Outcome}

/-- An engine that came up has taken the pause that was left to its load. -/
def Taken (e : VLLMEngine) : Prop := e.state = .running → e.pendingPause = none

theorem Taken.congr (h : e.Taken) (hstate : e'.state = e.state)
    (hpp : e'.pendingPause = e.pendingPause) : e'.Taken := by
  intro hs
  rw [hpp]
  exact h (hstate ▸ hs)

theorem taken_of_state (h : e.state ≠ .running) : e.Taken := fun hs => absurd hs h

theorem critical_taken {block : Critical} (h : e.Taken) : (e.critical block).engine.Taken := by
  cases block with
  | startBegin | startFailed | reloadGiveUp | stopBegin =>
    exact taken_of_state EngineState.noConfusion
  | startFinish =>
    simp only [critical]
    split_ifs with hp
    · exact fun _ => rfl
    · intro _
      show e.pendingPause = none
      simpa using hp
  | pauseLook urgency c =>
    simp only [critical, pauseReturn_eq]
    split_ifs with hl
    · refine taken_of_state ?_
      show e.state ≠ .running
      rcases hl with hs | hs <;> simp [hs]
    · exact h.congr rfl rfl
    · exact h.congr rfl rfl
    · exact taken_of_state EngineState.noConfusion
  | pauseTakeover c =>
    simp only [critical, pauseReturn_eq]
    split_ifs
    · exact h.congr rfl rfl
    · exact taken_of_state EngineState.noConfusion
  | pauseDestroy c => exact h
  | resumeLook c =>
    simp only [critical, resumeReturn_eq]
    split_ifs
    · exact h.congr rfl rfl
    · exact h.congr rfl rfl
    · exact h.congr rfl rfl
    · exact taken_of_state EngineState.noConfusion
  | reloadFinish r =>
    simp only [critical, reloadReturn_eq]
    split_ifs with hp
    · exact fun _ => rfl
    · intro _
      show e.pendingPause = none
      simpa using hp
  | recoverBegin =>
    simp only [critical]
    split_ifs
    · exact h.congr rfl rfl
    · exact h

theorem reloadFailed_taken {r : Reload} (h : e.Taken) : (e.reloadFailed r).engine.Taken := by
  simp only [reloadFailed]
  split_ifs
  · exact h.congr rfl rfl
  · exact h

theorem destroyStep_taken {t : Teardown} {phase : Phase} (h : e.Taken)
    (hs : e.destroyStep t phase o = some slice) : slice.engine.Taken := by
  cases phase <;> cases o <;> cases hs
  · exact h.congr rfl rfl
  · exact h.congr rfl rfl
  · exact h.congr rfl rfl
  · cases t with
    | pause c =>
      simp only [destroyed, pauseReturn_eq]
      split_ifs <;> exact taken_of_state EngineState.noConfusion
    | reload r =>
      rw [destroyed, reloadReturn_eq]
      exact taken_of_state EngineState.noConfusion
    | _ => exact taken_of_state EngineState.noConfusion
  · cases t with
    | pause c =>
      rw [destroyRaised, pauseRaise_eq]
      exact h.congr rfl rfl
    | reload r => exact reloadFailed_taken (e := e.release) h
    | _ => exact h.congr rfl rfl

/-- **One thread**: only a load that finds no recorded pause ends in RUNNING. -/
theorem runPc_taken {k : Nat} {op : Op} {pc : Pc} (h : e.Taken)
    (hs : e.runPc k op pc o = some slice) : slice.engine.Taken := by
  cases pc with
  | created =>
    cases o <;> cases hs
    cases op with
    | switchModel new =>
      simp only [enter, switchEnter]
      split_ifs
      · exact h
      · exact h.congr rfl rfl
    | generate requested =>
      simp only [enter, beginGenerate]
      split
      · exact h.congr rfl rfl
      · exact h
    | _ => exact h
  | lock block =>
    obtain ⟨l, -, rfl⟩ := runPc_block hs
    exact critical_taken (e := { e with transitionLock := l }) h
  | destroy t phase => exact destroyStep_taken h hs
  | drain d =>
    obtain rfl := runPc_drain hs
    cases d <;> exact h
  | load r =>
    cases o <;> cases hs
    · exact h.congr rfl rfl
    · exact reloadFailed_taken (e := e.createEngineFailed _) h
  | generating weights hasOutput =>
    cases o with
    | output =>
      simp only [runPc, generateStep] at hs
      split_ifs at hs <;> cases hs
      · exact h
      · exact h
      · exact h.congr rfl rfl
    | coreDead =>
      cases hs
      exact taken_of_state EngineState.noConfusion
    | _ => cases hs <;> exact h.congr rfl rfl
  | _ => cases o <;> cases hs <;> exact h.congr rfl rfl

end VLLMEngine

namespace EngineSys

variable {s t : EngineSys} {k : Nat} {o : Outcome} {l : Label}

/-- The orderly steps in which no switch records its path over a core that is about to
serve. -/
def representing (s : EngineSys) (l : Label) : Bool :=
  s.orderly l && match l with
    | .run k o => (s.pcAt k).all fun pc => !pc.waits || s.engine.truthfulRun pc o
    | _ => true

/-- What these runs keep. -/
structure Records (s : EngineSys) : Prop where
  lock : s.LockAgrees
  custody : s.Custody
  taken : s.engine.Taken
  truthful : s.engine.Truthful (∃ k, s.At Pc.undoesLoad k)

/-- At most one load is in progress, a RUNNING engine has a core of the recorded path, and an
engine at rest in PAUSED has none. -/
structure Represented (s : EngineSys) : Prop where
  loads : ∀ j k, s.At Pc.loading j → s.At Pc.loading k → j = k
  running : s.engine.state = .running → s.engine.core = some ⟨s.engine.model⟩
  paused : s.Quiet → s.engine.state = .paused → s.engine.core = none

theorem Custody.not_owns_of_state (h : s.Custody)
    (hs : s.engine.state = .running ∨ s.engine.state = .paused) (k : Nat) :
    ¬ s.At Pc.owns k := by
  rintro ⟨pc, hpc, hown⟩
  obtain ⟨ρ, hρ⟩ := Option.isSome_iff_exists.mp hown
  rcases h.inCharge k pc hpc ρ hρ with hallows | ⟨hdead, -⟩
  · rcases hs with hs | hs <;> cases ρ <;> simp [Role.allows, hs] at hallows
  · simp [hdead] at hs

namespace Records

theorem core_eq_none (h : s.Records) {pc : Pc} (hpc : s.pcAt k = some pc)
    (hempty : s.engine.state = .paused ∨ (pc.owns ∧ pc.hasCore = false)) :
    s.engine.core = none := by
  rcases hempty with hpaused | ⟨howns, hcore⟩
  · have hgpu := h.custody.unowned (h.custody.not_owns_of_state (.inr hpaused))
    exact (hgpu.empty (by simp [hpaused]) (by simp [hpaused])).1
  · exact (h.custody.owned k pc hpc howns).core_eq_none hcore

theorem runThread (h : s.Records) (hok : ∀ pc, s.pcAt k = some pc → s.orderlyRun pc o)
    (htruthful : ∀ pc, s.pcAt k = some pc → pc.waits → s.engine.truthfulRun pc o)
    (hrun : s.runThread k o = some t) : t.Records := by
  have hlock := h.lock.runThread hrun
  have hcustody := h.custody.runThread h.lock hok hrun
  obtain ⟨th, slice, hth, hslice, rfl⟩ := runThread_eq_some.mp hrun
  have hat := pcAt_of_threads hth
  refine ⟨hlock, hcustody, (VLLMEngine.runPc_taken h.taken hslice).congr rfl rfl, ?_⟩
  refine truthful_settle h.lock h.truthful hth (fun hw ρ hρ => ?_) (fun modelPath hstart => ?_)
    (h.core_eq_none hat) (htruthful _ hat) hslice
  · refine (h.custody.inCharge k th.pc hat ρ hρ).resolve_right ?_
    obtain ⟨block, hblock⟩ := Pc.exists_block hw
    simp [hblock, Pc.holds]
  · have hsafe := hok _ hat
    simp only [hstart, orderlyRun, Bool.and_eq_true, Option.isNone_iff_eq_none] at hsafe
    exact hsafe.1

/-- **Step lemma**. -/
theorem step (h : s.Records) (hok : s.representing l) (hstep : s.step l = some t) : t.Records := by
  obtain ⟨horderly, htruthful⟩ := (Bool.and_eq_true _ _ ▸ hok : _ ∧ _)
  have hspawn {op : Op} (hop : op ≠ .stop) : (s.spawn op).Records := by
    refine ⟨h.lock.spawn, h.custody.spawn hop, h.taken, h.truthful.mono ?_⟩
    exact fun ⟨k, hk⟩ => ⟨k, (at_spawn rfl).mpr hk⟩
  obtain ⟨op, -, rfl, rfl⟩ | ⟨op, -, rfl, hrun⟩ | ⟨k, o, rfl, hrun⟩ := step_cases hstep
  · exact hspawn (bne_iff_ne.mp horderly)
  · refine (hspawn (bne_iff_ne.mp horderly)).runThread (fun pc hpc => ?_) (fun pc hpc hw => ?_) hrun
    all_goals
      rw [pcAt_spawn, if_pos rfl] at hpc
      cases hpc
      rfl
  · refine h.runThread (fun pc hpc => ?_) (fun pc hpc hw => ?_) hrun
    · simpa [orderly, hpc] using horderly
    · simpa [hpc, hw] using htruthful

theorem of_init (h : s.init) : s.Records := by
  refine ⟨lockAgrees_init h, Custody.of_init h, ?_, ?_⟩
  · rcases h with rfl | ⟨modelPath, rfl⟩ <;> exact VLLMEngine.taken_of_state EngineState.noConfusion
  · rcases h with rfl | ⟨modelPath, rfl⟩ <;> exact VLLMEngine.truthful_of_core rfl

theorem core_of_running (h : s.Records) (hs : s.engine.state = .running) :
    s.engine.core = some ⟨s.engine.model⟩ := by
  have hnot := h.custody.not_owns_of_state (.inl hs)
  have hloaded : s.engine.Loaded := (h.custody.unowned hnot).loaded hs
  obtain ⟨c, hc⟩ := Option.isSome_iff_exists.mp hloaded.1
  obtain hmodel | hpp | ⟨k, pc, hpc, hundo⟩ | hoff := h.truthful c hc
  · rw [hc, ← hmodel]
  · simp [h.taken hs] at hpp
  · refine absurd ⟨pc, hpc, ?_⟩ (hnot k)
    simp [Pc.owns, Pc.role_of_undoesLoad hundo]
  · rw [hs] at hoff
    cases hoff

end Records

/-- **The representation invariant**: in the orderly runs in which no switch records its path
over a core that is about to serve, at most one load is in progress, a RUNNING engine has a
core of the recorded path, and an engine at rest in PAUSED has none. -/
theorem represented_of_reach (h : system.Reach (representing · ·) s) : s.Represented := by
  have hrecords : s.Records :=
    h.invariant (fun _ => Records.of_init) fun _ _ _ hs hok hstep => hs.step hok hstep
  have howns {j : Nat} (hj : s.At Pc.loading j) : s.At Pc.owns j := by
    obtain ⟨pc, hpc, hload⟩ := hj
    refine ⟨pc, hpc, ?_⟩
    simp [Pc.owns, beq_iff_eq.mp hload]
  refine ⟨fun j k hj hk => ?_, hrecords.core_of_running, fun hquiet hpaused => ?_⟩
  · exact hrecords.custody.unique j k (howns hj) (howns hk)
  · have hgpu := hrecords.custody.unowned hquiet.not_owns
    exact (hgpu.empty (by simp [hpaused]) (by simp [hpaused])).1

/-- A load, and then a switch of the RUNNING engine. -/
def loadThenSwitch : List Label :=
  [.call (.start "m"), .run 0 .go, .run 0 (.created [1]), .run 0 .go, .call (.switchModel "n")] ++
    List.replicate 10 (.run 1 .go) ++ [.run 1 (.created [2]), .run 1 .go]

theorem represented_loadThenSwitch :
    ∃ s, system.exec {} loadThenSwitch = some s ∧ s.Represented ∧ s.engine.state = .running ∧
      s.engine.core = some ⟨"n"⟩ := by
  let s : EngineSys :=
    { engine :=
        { state := .running, core := some ⟨"n"⟩, model := "n", childPids := [2], live := [2],
          loads := 2 }
      threads := [⟨.start "m", .finished .returned, 0⟩, ⟨.switchModel "n", .finished .returned, 1⟩] }
  have hrun : system.execGuarded (representing · ·) {} loadThenSwitch = some s := by decide +kernel
  exact ⟨s, by decide +kernel, represented_of_reach
    (Transition.System.Reach.execGuarded (.init (.inl rfl)) hrun), rfl, rfl⟩

/-- A load, a pause that a request outlives, and a resume during which the request reports the
first core dead. -/
def reportDuringLoad : List Label :=
  [.call (.start "m"), .run 0 .go, .run 0 (.created [1]), .run 0 .go, .call (.generate "m"),
    .call (.pause .immediate)] ++ List.replicate 6 (.run 2 .go) ++
    [.call .resume, .run 3 .go, .run 1 .coreDead, .run 4 .go, .run 4 .go, .run 4 .go]

/-- The recovery then loads beside the resume. -/
theorem reportDuringLoad_two_loads :
    ∃ s, system.Reach Transition.System.anyStep s ∧ ¬ s.Represented := by
  have hfinal : (system.exec {} reportDuringLoad).any (fun s =>
      s.pcAt 3 = some (.load ⟨1, .resume .external⟩) ∧ s.pcAt 4 = some (.load ⟨1, .recover⟩)) =
      true := by decide +kernel
  obtain ⟨s, hrun, hs⟩ := (Option.any_eq_true _ _).mp hfinal
  obtain ⟨h3, h4⟩ := of_decide_eq_true hs
  refine ⟨s, Transition.System.reach_of_exec (.inl rfl) hrun, fun h => ?_⟩
  have : (3 : Nat) = 4 := h.loads 3 4 ⟨_, h3, rfl⟩ ⟨_, h4, rfl⟩
  contradiction

end EngineSys

end OpenModel.Inference
