import OpenModel.Inference.CoreCrash
import OpenModel.Inference.FailedSwitch
import OpenModel.Inference.Pool

/-!
# Stranded engines

UNLOADING, LOADING, STARTING and STOPPING are left by the thread that entered them, and DEAD by
the recovery. A thread gives that task up only by moving the engine on (`Attends`), unless a
teardown raises: its caller leaves the state as it is. The one teardown that may raise is that
of the last attempt of a reload, which goes on to PAUSED.

## Main results

- `VLLMEngine.runPc_attends`, `runPc_recovers`: what a slice leaves to be done
- `EngineSys.unstranded_of_reach`: no engine is left in one of these states
- `EngineSys.raisingPause_stranded`: a pause whose teardown raises leaves it UNLOADING
-/

namespace OpenModel.Inference

/-- Somebody is about to move an engine out of this state. -/
def EngineState.transitional : EngineState → Bool
  | unloading | loading | starting | stopping => true
  | _ => false

namespace Pc

/-- The thread will move the engine out of this state. -/
def moves : EngineState → Pc → Bool
  | .unloading, lock (.pauseDestroy _) | .unloading, destroy (.pause _) _ => true
  | .loading, pc => pc.reloads
  | .starting, startCreate | .starting, lock .startFailed | .starting, lock .startFinish
  | .starting, destroy .start _ => true
  | .stopping, destroy .stop _ => true
  | _, _ => false

/-- A load that took up the pause that was left to it. -/
def takesUp : Pc → Bool
  | destroy (.reload _) _ | lock (.reloadGiveUp _) => true
  | _ => false

/-- The teardown of the last attempt of a reload. -/
def lastAttempt : Pc → Bool
  | destroy (.reload r) _ => 3 ≤ r.attempt
  | _ => false

theorem created_moves {state : EngineState} : Pc.created.moves state = false := by
  cases state <;> rfl

end Pc

-- ════════════════════════════════════════════════════════════════════════
-- One thread
-- ════════════════════════════════════════════════════════════════════════

/-- A slice leaves the state to whom it was left before, takes it over, or settles it. -/
inductive Attends (e : VLLMEngine) (pc : Pc) (slice : Slice) : Prop
  | leaves (hstate : slice.engine.state = e.state)
      (hmoves : pc.moves e.state → slice.pc.moves e.state)
  | takes (h : slice.pc.moves slice.engine.state)
  | settles (h : slice.engine.state.transitional = false)

/-- What a slice does to `_recovering`: nothing, or the recovery is over, or it is asked for. -/
inductive Recovers (e : VLLMEngine) (slice : Slice) : Prop
  | keeps (h : slice.engine.recovering = e.recovering)
      (hdead : slice.engine.state = .dead → e.state = .dead)
  | ended (h : slice.engine.recovering = false) (hdead : slice.engine.state ≠ .dead)
  | asks (h : slice.engine.recovering = true) (hspawn : e.recovering = false → slice.spawn = true)

namespace VLLMEngine

variable {e : VLLMEngine} {op : Op} {pc : Pc} {slice : Slice} {o : Outcome}

/-- A thread that leaves the state alone. -/
theorem attends_of_state {e' : VLLMEngine} {pc' : Pc} {b : Bool} (hstate : e'.state = e.state)
    (hmoves : ∀ state, pc.moves state → pc'.moves state) : Attends e pc ⟨e', pc', b⟩ :=
  .leaves hstate (hmoves _)

theorem critical_attends {block : Critical} : Attends e (.lock block) (e.critical block) := by
  have hnot (block : Critical) (h : ∀ state, (Pc.lock block).moves state = false)
      (pc' : Pc) (state : EngineState) (hmoves : (Pc.lock block).moves state) : pc'.moves state := by
    simp [h] at hmoves
  cases block with
  | startBegin | stopBegin => exact .takes rfl
  | startFailed | reloadGiveUp => exact .settles rfl
  | startFinish =>
    simp only [critical]
    split_ifs
    · refine attends_of_state rfl fun state h => ?_
      cases state <;> first | rfl | cases h
    · exact .settles rfl
  | pauseLook urgency c =>
    simp only [critical, pauseReturn_eq]
    split_ifs
    · exact attends_of_state rfl (hnot _ (by rintro ⟨⟩ <;> rfl) _)
    · exact attends_of_state rfl (hnot _ (by rintro ⟨⟩ <;> rfl) _)
    · exact attends_of_state rfl (hnot _ (by rintro ⟨⟩ <;> rfl) _)
    · exact .takes rfl
  | pauseTakeover c =>
    simp only [critical, pauseReturn_eq]
    split_ifs
    · exact attends_of_state rfl (hnot _ (by rintro ⟨⟩ <;> rfl) _)
    · exact .takes rfl
  | pauseDestroy c =>
    refine attends_of_state rfl fun state h => ?_
    cases state <;> first | rfl | cases h
  | resumeLook c =>
    simp only [critical, resumeReturn_eq]
    split_ifs
    · exact attends_of_state rfl (hnot _ (by rintro ⟨⟩ <;> rfl) _)
    · exact attends_of_state rfl (hnot _ (by rintro ⟨⟩ <;> rfl) _)
    · exact attends_of_state rfl (hnot _ (by rintro ⟨⟩ <;> rfl) _)
    · exact .takes rfl
  | reloadFinish r =>
    simp only [critical, reloadReturn_eq]
    split_ifs
    · refine attends_of_state rfl fun state h => ?_
      cases state <;> first | rfl | cases h
    · exact .settles rfl
  | recoverBegin =>
    simp only [critical]
    split_ifs
    · exact attends_of_state rfl (hnot _ (by rintro ⟨⟩ <;> rfl) _)
    · exact attends_of_state rfl (hnot _ (by rintro ⟨⟩ <;> rfl) _)

theorem reloadFailed_attends {e' : VLLMEngine} {r : Reload} (hstate : e'.state = e.state)
    (hmoves : ∀ state, pc.moves state → state = .loading) : Attends e pc (e'.reloadFailed r) := by
  simp only [reloadFailed]
  split_ifs
  all_goals
    refine attends_of_state hstate fun state h => ?_
    obtain rfl := hmoves state h
    rfl

/-- Only the teardown of the last attempt of a reload may raise. -/
theorem destroyStep_attends {t : Teardown} {phase : Phase}
    (hlate : o = .cudaError → (Pc.destroy t phase).lastAttempt)
    (h : e.destroyStep t phase o = some slice) : Attends e (.destroy t phase) slice := by
  have hphase (phase' : Phase) (state : EngineState) (hmoves : (Pc.destroy t phase).moves state) :
      (Pc.destroy t phase').moves state := by
    cases t <;> cases state <;> first | rfl | cases hmoves
  cases phase with
  | abort | exitWait | killWait =>
    cases o <;> cases h
    exact attends_of_state rfl (hphase _)
  | release =>
    cases o <;> cases h
    · cases t with
      | pause c =>
        simp only [destroyed, pauseReturn_eq]
        split_ifs
        · exact .takes rfl
        · exact .settles rfl
      | reload r =>
        rw [destroyed, reloadReturn_eq]
        exact .settles rfl
      | recover => exact .takes rfl
      | start | stop => exact .settles rfl
    · have hlast := hlate rfl
      cases t with
      | reload r =>
        refine reloadFailed_attends rfl fun state hmoves => ?_
        cases state <;> first | rfl | cases hmoves
      | _ => cases hlast

/-- **One thread**: it gives up the task of moving the engine on only by moving it on. -/
theorem runPc_attends {k : Nat} (hlate : o = .cudaError → pc.lastAttempt)
    (h : e.runPc k op pc o = some slice) : Attends e pc slice := by
  cases pc with
  | created =>
    cases o <;> cases h
    have hcreated (pc' : Pc) (state : EngineState) (hmoves : Pc.created.moves state) :
        pc'.moves state := by
      simp [Pc.created_moves] at hmoves
    cases op with
    | switchModel new =>
      simp only [enter, switchEnter]
      split_ifs <;> exact attends_of_state rfl (hcreated _)
    | generate requested =>
      simp only [enter, beginGenerate]
      split <;> exact attends_of_state rfl (hcreated _)
    | _ => exact attends_of_state rfl (hcreated _)
  | lock block =>
    obtain ⟨l, -, rfl⟩ := runPc_block h
    have hattends : Attends { e with transitionLock := l } (.lock block)
        ({ e with transitionLock := l }.critical block) := critical_attends
    cases hattends with
    | leaves hstate hmoves => exact .leaves hstate hmoves
    | takes hmoves => exact .takes hmoves
    | settles hstate => exact .settles hstate
  | destroy t phase => exact destroyStep_attends hlate h
  | drain d =>
    obtain rfl := runPc_drain h
    cases d <;> exact attends_of_state rfl fun state hmoves => by cases state <;> cases hmoves
  | load r =>
    cases o <;> cases h
    · refine attends_of_state rfl fun state hmoves => ?_
      cases state <;> first | rfl | cases hmoves
    · refine reloadFailed_attends rfl fun state hmoves => ?_
      cases state <;> first | rfl | cases hmoves
  | startCreate | retrySleep =>
    cases o <;> cases h
    all_goals
      refine attends_of_state rfl fun state hmoves => ?_
      cases state <;> first | rfl | cases hmoves
  | generating weights hasOutput =>
    have hgenerating (pc' : Pc) (state : EngineState)
        (hmoves : (Pc.generating weights hasOutput).moves state) : pc'.moves state := by
      cases state <;> cases hmoves
    cases o with
    | output =>
      simp only [runPc, generateStep] at h
      split_ifs at h <;> cases h
      all_goals exact attends_of_state rfl (hgenerating _)
    | coreDead =>
      cases h
      exact .settles rfl
    | _ => cases h <;> exact attends_of_state rfl (hgenerating _)
  | aborting =>
    cases o <;> cases h
    exact attends_of_state rfl fun state hmoves => by cases state <;> cases hmoves
  | exitSleep | finished => cases o <;> cases h

theorem recovers_of_eq {e' : VLLMEngine} {pc' : Pc} {b : Bool}
    (hrecovering : e'.recovering = e.recovering) (hstate : e'.state = e.state) :
    Recovers e ⟨e', pc', b⟩ :=
  .keeps hrecovering fun hdead => hstate ▸ hdead

/-- The engine is moved to a state that is not DEAD. -/
theorem recovers_of_state {e' : VLLMEngine} {pc' : Pc} {b : Bool}
    (hrecovering : e'.recovering = e.recovering) (hstate : e'.state ≠ .dead) :
    Recovers e ⟨e', pc', b⟩ :=
  .keeps hrecovering fun hdead => absurd hdead hstate

theorem reloadReturn_recovers {e' : VLLMEngine} {c : ReloadCaller}
    (hrecovering : e'.recovering = e.recovering) (hstate : e'.state ≠ .dead) :
    Recovers e (e'.reloadReturn c) := by
  rw [reloadReturn_eq]
  cases c with
  | recover => exact .ended rfl hstate
  | _ => exact recovers_of_state hrecovering hstate

theorem critical_recovers {block : Critical} : Recovers e (e.critical block) := by
  cases block with
  | startBegin | startFailed | reloadGiveUp | stopBegin =>
    exact recovers_of_state rfl EngineState.noConfusion
  | startFinish =>
    simp only [critical]
    split_ifs
    · exact recovers_of_eq rfl rfl
    · exact recovers_of_state rfl EngineState.noConfusion
  | pauseLook urgency c =>
    simp only [critical, pauseReturn_eq]
    split_ifs
    · exact recovers_of_eq rfl rfl
    · exact recovers_of_eq rfl rfl
    · exact recovers_of_eq rfl rfl
    · exact recovers_of_state rfl EngineState.noConfusion
  | pauseTakeover c =>
    simp only [critical, pauseReturn_eq]
    split_ifs
    · exact recovers_of_eq rfl rfl
    · exact recovers_of_state rfl EngineState.noConfusion
  | pauseDestroy c => exact recovers_of_eq rfl rfl
  | resumeLook c =>
    simp only [critical, resumeReturn_eq]
    split_ifs
    · exact recovers_of_eq rfl rfl
    · exact recovers_of_eq rfl rfl
    · exact recovers_of_eq rfl rfl
    · exact recovers_of_state rfl EngineState.noConfusion
  | reloadFinish r =>
    simp only [critical]
    split_ifs
    · exact recovers_of_eq rfl rfl
    · exact reloadReturn_recovers rfl EngineState.noConfusion
  | recoverBegin =>
    simp only [critical]
    split_ifs with hd
    · exact .ended rfl hd
    · exact recovers_of_eq rfl rfl

theorem reloadFailed_recovers {e' : VLLMEngine} {r : Reload}
    (hrecovering : e'.recovering = e.recovering) (hstate : e'.state = e.state) :
    Recovers e (e'.reloadFailed r) := by
  simp only [reloadFailed]
  split_ifs <;> exact recovers_of_eq hrecovering hstate

theorem destroyStep_recovers {t : Teardown} {phase : Phase}
    (hlate : o = .cudaError → (Pc.destroy t phase).lastAttempt)
    (h : e.destroyStep t phase o = some slice) : Recovers e slice := by
  cases phase with
  | abort | exitWait | killWait =>
    cases o <;> cases h
    exact recovers_of_eq rfl rfl
  | release =>
    cases o <;> cases h
    · cases t with
      | pause c =>
        simp only [destroyed, pauseReturn_eq]
        split_ifs <;> exact recovers_of_state rfl EngineState.noConfusion
      | reload r => exact reloadReturn_recovers rfl EngineState.noConfusion
      | _ => exact recovers_of_state rfl EngineState.noConfusion
    · have hlast := hlate rfl
      cases t with
      | reload r => exact reloadFailed_recovers rfl rfl
      | _ => cases hlast

/-- **One thread**: it drops `_recovering` only when the engine is not DEAD, and makes it DEAD
only when a recovery is on its way. -/
theorem runPc_recovers {k : Nat} (hlate : o = .cudaError → pc.lastAttempt)
    (h : e.runPc k op pc o = some slice) : Recovers e slice := by
  cases pc with
  | created =>
    cases o <;> cases h
    cases op with
    | switchModel new =>
      simp only [enter, switchEnter]
      split_ifs <;> exact recovers_of_eq rfl rfl
    | generate requested =>
      simp only [enter, beginGenerate]
      split <;> exact recovers_of_eq rfl rfl
    | _ => exact recovers_of_eq rfl rfl
  | lock block =>
    obtain ⟨l, -, rfl⟩ := runPc_block h
    have hrecovers : Recovers { e with transitionLock := l }
        ({ e with transitionLock := l }.critical block) := critical_recovers
    cases hrecovers with
    | keeps hrecovering hdead => exact .keeps hrecovering hdead
    | ended hrecovering hdead => exact .ended hrecovering hdead
    | asks hrecovering hspawn => exact .asks hrecovering hspawn
  | destroy t phase => exact destroyStep_recovers hlate h
  | drain d =>
    obtain rfl := runPc_drain h
    cases d <;> exact recovers_of_eq rfl rfl
  | load r =>
    cases o <;> cases h
    · exact recovers_of_eq rfl rfl
    · exact reloadFailed_recovers rfl rfl
  | generating weights hasOutput =>
    cases o with
    | output =>
      simp only [runPc, generateStep] at h
      split_ifs at h <;> cases h
      all_goals exact recovers_of_eq rfl rfl
    | coreDead =>
      cases h
      exact .asks rfl fun hrecovering => by simp [hrecovering]
    | _ => cases h <;> exact recovers_of_eq rfl rfl
  | _ => cases o <;> cases h <;> exact recovers_of_eq rfl rfl

theorem not_inPause_recover {c : Caller} : c.inPause .recover = false := by
  cases c <;> rfl

theorem not_inResume_recover {c : Caller} : c.inResume .recover = false := by
  cases c <;> rfl

theorem reloadReturn_recovering {e' : VLLMEngine} {c : ReloadCaller} (h : c.belongs .recover) :
    (e'.reloadReturn c).engine.recovering = false := by
  cases c with
  | recover => rfl
  | pause c => simp [ReloadCaller.belongs, not_inPause_recover] at h
  | resume c => simp [ReloadCaller.belongs, not_inResume_recover] at h

theorem reloadFailed_isFinished {r : Reload} : (e.reloadFailed r).pc.isFinished = false := by
  simp only [reloadFailed]
  split_ifs <;> rfl

/-- The blocks of a recovery. -/
theorem critical_recovering {block : Critical} (hb : block.belongs .recover)
    (hf : (e.critical block).pc.isFinished) : (e.critical block).engine.recovering = false := by
  cases block with
  | recoverBegin =>
    simp only [critical] at hf ⊢
    split_ifs at hf ⊢
    · rfl
    · cases hf
  | reloadFinish r =>
    simp only [critical] at hf ⊢
    split_ifs at hf ⊢
    · cases hf
    · exact reloadReturn_recovering hb
  | reloadGiveUp r => cases hf
  | pauseLook | pauseTakeover | pauseDestroy =>
    simp [Critical.belongs, not_inPause_recover] at hb
  | resumeLook => simp [Critical.belongs, not_inResume_recover] at hb
  | _ => cases hb

theorem destroyStep_recovering {t : Teardown} {phase : Phase} (hb : t.belongs .recover)
    (h : e.destroyStep t phase o = some slice) (hf : slice.pc.isFinished) :
    slice.engine.recovering = false := by
  cases phase with
  | abort | exitWait | killWait =>
    cases o <;> cases h
    cases hf
  | release =>
    cases t with
    | reload r =>
      cases o <;> cases h
      · exact reloadReturn_recovering hb
      · simp [destroyRaised, reloadFailed_isFinished] at hf
    | recover =>
      cases o <;> cases h
      · cases hf
      · rfl
    | pause c => simp [Teardown.belongs, not_inPause_recover] at hb
    | start | stop => cases hb

/-- A recovery that ends says so. -/
theorem recovering_of_finished {k : Nat} (hb : pc.belongs .recover)
    (h : e.runPc k .recover pc o = some slice) (hf : slice.pc.isFinished) :
    slice.engine.recovering = false := by
  cases pc with
  | created =>
    cases o <;> cases h
    cases hf
  | lock block =>
    obtain ⟨l, -, rfl⟩ := runPc_block h
    exact critical_recovering hb hf
  | destroy t phase => exact destroyStep_recovering hb h hf
  | drain d =>
    cases d with
    | pause c => simp [Pc.belongs, Drain.belongs, not_inPause_recover] at hb
    | switchModel new => cases hb
  | load r =>
    cases o <;> cases h
    · cases hf
    · simp [reloadFailed_isFinished] at hf
  | retrySleep r =>
    cases o <;> cases h
    cases hf
  | exitSleep | finished => cases o <;> cases h
  | _ => cases hb

/-- No pause raises, since its own teardown does not. -/
theorem pause_not_raised {k : Nat} {urgency : YieldUrgency} (hb : pc.belongs (.pause urgency))
    (hlate : o = .cudaError → pc.lastAttempt)
    (h : e.runPc k (.pause urgency) pc o = some slice) : slice.pc ≠ .finished .raised := by
  by_cases ho : o = .cudaError
  · subst ho
    have hlast := hlate rfl
    cases pc with
    | destroy t phase =>
      cases t with
      | reload r =>
        cases phase <;> cases h
        exact reloadFailed_not_raised
      | _ => cases hlast
    | _ => cases hlast
  · exact runPc_not_raised hb (fun _ => Op.noConfusion) (fun _ => Op.noConfusion) ho h

/-- A load that took up its pause ends in PAUSED. -/
theorem runPc_takesUp {k : Nat} (hp : pc.takesUp) (hlate : o = .cudaError → pc.lastAttempt)
    (h : e.runPc k op pc o = some slice) : slice.pc.takesUp ∨ slice.engine.state = .paused := by
  cases pc with
  | lock block =>
    obtain ⟨l, -, rfl⟩ := runPc_block h
    cases block with
    | reloadGiveUp r => exact .inr rfl
    | _ => cases hp
  | destroy t phase =>
    cases t with
    | reload r =>
      cases phase <;> cases o <;> cases h
      · exact .inl rfl
      · exact .inl rfl
      · exact .inl rfl
      · refine .inr ?_
        rw [destroyed, reloadReturn_eq]
        rfl
      · have hlast : 3 ≤ r.attempt := by simpa [Pc.lastAttempt] using hlate rfl
        simp [destroyRaised, reloadFailed, Nat.not_lt.mpr hlast, Pc.takesUp]
    | _ => cases hp
  | _ => cases hp

end VLLMEngine

-- ════════════════════════════════════════════════════════════════════════
-- Every run
-- ════════════════════════════════════════════════════════════════════════

namespace EngineSys

variable {s t : EngineSys} {k : Nat} {o : Outcome} {l : Label}

/-- A teardown raises only in the last attempt of a reload. -/
def lateRaise (s : EngineSys) : Label → Bool
  | .run k .cudaError => (s.pcAt k).all Pc.lastAttempt
  | _ => true

/-- A recovery is on its way. -/
def Recovering (s : EngineSys) : Prop :=
  ∃ (k : Nat) (th : Thread),
    s.threads[k]? = some th ∧ th.op = .recover ∧ th.pc.isFinished = false

/-- Whatever has to move the engine on is there. -/
structure Attended (s : EngineSys) : Prop where
  moved : s.engine.state.transitional → ∃ k, s.At (Pc.moves s.engine.state) k
  dead : s.engine.state = .dead → s.engine.recovering
  recovering : s.engine.recovering → s.Recovering

theorem Recovering.spawn (h : s.Recovering) {op : Op} : (s.spawn op).Recovering := by
  obtain ⟨k, th, hth, hrecover⟩ := h
  have hk := (List.getElem?_eq_some_iff.mp hth).1
  exact ⟨k, th, by simpa [EngineSys.spawn, List.getElem?_append, hk] using hth, hrecover⟩

theorem Attended.spawn (h : s.Attended) {op : Op} : (s.spawn op).Attended := by
  refine ⟨fun hs => ?_, h.dead, fun hr => (h.recovering hr).spawn⟩
  obtain ⟨k, hk⟩ := h.moved hs
  exact ⟨k, (at_spawn Pc.created_moves).mpr hk⟩

/-- The other threads, and those that were created. -/
theorem getElem?_settle {th x : Thread} {slice : Slice} {j : Nat} (hjk : j ≠ k)
    (hx : s.threads[j]? = some x) : (s.settle k th slice).threads[j]? = some x := by
  have hj := (List.getElem?_eq_some_iff.mp hx).1
  rw [EngineSys.settle, List.getElem?_append_left (by simpa using hj),
    List.getElem?_set_ne (Ne.symm hjk)]
  exact hx

theorem Recovering.settle (h : s.Recovering) (hb : s.Belongs) {th : Thread} {slice : Slice}
    (hth : s.threads[k]? = some th) (hpc : s.engine.runPc k th.op th.pc o = some slice)
    (hr : slice.engine.recovering) : (s.settle k th slice).Recovering := by
  obtain ⟨j, x, hx, hop, hunfinished⟩ := h
  by_cases hjk : j = k
  · subst hjk
    obtain rfl := Option.some.inj (hx.symm.trans hth)
    refine ⟨j, _, settle_thread hth, hop, ?_⟩
    by_contra hf
    have hbelongs := hb x (List.mem_of_getElem? hx)
    rw [hop] at hpc hbelongs
    rw [VLLMEngine.recovering_of_finished hbelongs hpc (by simpa using hf)] at hr
    cases hr
  · exact ⟨j, x, getElem?_settle hjk hx, hop, hunfinished⟩

/-- The recovery that a slice created. -/
theorem recovering_of_spawn {th : Thread} {slice : Slice} (h : slice.spawn) :
    (s.settle k th slice).Recovering := by
  refine ⟨s.threads.length, { op := .recover }, ?_, rfl, rfl⟩
  simp [settle, h]

theorem Attended.runThread (h : s.Attended) (hb : s.Belongs)
    (hlate : o = .cudaError → ∀ pc, s.pcAt k = some pc → pc.lastAttempt)
    (hrun : s.runThread k o = some t) : t.Attended := by
  obtain ⟨th, slice, hth, hpc, rfl⟩ := runThread_eq_some.mp hrun
  have hlast (ho : o = .cudaError) : th.pc.lastAttempt := hlate ho _ (pcAt_of_threads hth)
  refine ⟨fun hs => ?_, ?_, ?_⟩
  · have hself := Ownership.settle_self hth slice
    cases VLLMEngine.runPc_attends hlast hpc with
    | leaves hstate hmoves =>
      have hs : slice.engine.state.transitional := hs
      rw [hstate] at hs
      obtain ⟨j, hj⟩ := h.moved hs
      show ∃ j, (s.settle k th slice).At (Pc.moves slice.engine.state) j
      rw [hstate]
      exact ⟨j, at_settle_of Pc.created_moves hth hmoves hj⟩
    | takes hmoves => exact ⟨k, _, hself, hmoves⟩
    | settles hstate => cases hstate.symm.trans hs
  · show slice.engine.state = .dead → slice.engine.recovering
    intro hdead
    cases VLLMEngine.runPc_recovers hlast hpc with
    | keeps hr hkeeps => exact hr ▸ h.dead (hkeeps hdead)
    | ended hr hnot => exact absurd hdead hnot
    | asks hr hspawn => exact hr
  · show slice.engine.recovering → (s.settle k th slice).Recovering
    intro hr
    cases hold : s.engine.recovering with
    | true => exact (h.recovering hold).settle hb hth hpc hr
    | false =>
      cases VLLMEngine.runPc_recovers hlast hpc with
      | keeps hkeeps _ => cases (hold ▸ hkeeps ▸ hr :)
      | ended hover _ => cases (hover ▸ hr :)
      | asks _ hspawn => exact recovering_of_spawn (hspawn hold)

/-- **Step lemma**. -/
theorem Attended.step (h : s.Attended) (hb : s.Belongs) (hok : s.lateRaise l)
    (hstep : s.step l = some t) : t.Attended := by
  obtain ⟨op, -, rfl, rfl⟩ | ⟨op, -, rfl, hrun⟩ | ⟨k, o, rfl, hrun⟩ := step_cases hstep
  · exact h.spawn
  · exact h.spawn.runThread hb.spawn (fun ho => by cases ho) hrun
  · refine h.runThread hb ?_ hrun
    rintro rfl pc hpc
    simpa [lateRaise, hpc] using hok

theorem Attended.of_init (h : s.init) : s.Attended := by
  rcases h with rfl | ⟨modelPath, rfl⟩
  all_goals
    refine ⟨?_, ?_, ?_⟩ <;>
    · intro h
      cases h

/-- **Run lemma**: whatever has to move the engine on is there. -/
theorem attended_of_reach (h : system.Reach (lateRaise · ·) s) : s.Attended :=
  h.invariant_of (fun _ => belongs_of_reach) (fun _ => Attended.of_init)
    fun _ _ _ hb hs hok hstep => hs.step hb hok hstep

/-- A pause that looks at the state now does not return at once. -/
def Retriable (e : VLLMEngine) : Prop :=
  ∀ urgency, (e.critical (.pauseLook urgency .external)).pc ≠ .finished .returned

/-- At rest the engine is STOPPED, PAUSED or RUNNING; and in the next step, a pause that raises
can be retried, and a load that took up a pause keeps to it. -/
structure Unstranded (s : EngineSys) : Prop where
  settled : s.Quiet → s.engine.state = .stopped ∨ s.engine.state = .paused ∨
    s.engine.state = .running
  retried : ∀ k o t th urgency, s.lateRaise (.run k o) → s.step (.run k o) = some t →
    t.threads[k]? = some th → th.op = .pause urgency → th.pc = .finished .raised →
    Retriable t.engine
  honoured : ∀ k o t, s.lateRaise (.run k o) → s.step (.run k o) = some t → s.At Pc.takesUp k →
    t.At Pc.takesUp k ∨ t.engine.state = .paused

theorem Quiet.settled (h : s.Quiet) (ha : s.Attended) (hb : s.Belongs) :
    s.engine.state = .stopped ∨ s.engine.state = .paused ∨ s.engine.state = .running := by
  have hnot (hs : s.engine.state.transitional) : False := by
    obtain ⟨k, hk⟩ := ha.moved hs
    refine h.not_at (fun pc hserves => ?_) (fun result => ?_) k hk
    · obtain ⟨weights, hasOutput, rfl⟩ | rfl := Pc.serves_cases hserves
      · cases s.engine.state <;> rfl
      · cases s.engine.state <;> rfl
    · cases s.engine.state <;> rfl
  cases hs : s.engine.state with
  | stopped => exact .inl rfl
  | paused => exact .inr (.inl rfl)
  | running => exact .inr (.inr rfl)
  | dead =>
    obtain ⟨k, th, hth, hop, hunfinished⟩ := ha.recovering (ha.dead hs)
    rcases h k th.pc (pcAt_of_threads hth) with hserves | ⟨result, hresult⟩
    · have hbelongs := hb th (List.mem_of_getElem? hth)
      obtain ⟨weights, hasOutput, hpc⟩ | hpc := Pc.serves_cases hserves
      · simp [hpc, hop, Pc.belongs] at hbelongs
      · simp [hpc, hop, Pc.belongs] at hbelongs
    · simp [hresult, Pc.isFinished] at hunfinished
  | unloading | loading | starting | stopping => exact (hnot (by rw [hs]; rfl)).elim

/-- **No stranded engine**: in the runs in which a teardown raises only in the last attempt of
a reload, an engine at rest is STOPPED, PAUSED or RUNNING, no pause raises without a chance of
being retried, and a load that took up a pause keeps to it. -/
theorem unstranded_of_reach (h : system.Reach (lateRaise · ·) s) : s.Unstranded := by
  have hb := belongs_of_reach h
  refine ⟨fun hquiet => hquiet.settled (attended_of_reach h) hb, ?_, ?_⟩
  · intro k o t x urgency hok hstep hx hop hraised
    obtain ⟨th, slice, hth, hpc, rfl⟩ := runThread_eq_some.mp (runThread_of_run hstep)
    obtain rfl := Option.some.inj ((settle_thread hth).symm.trans hx)
    have hpause : th.op = .pause urgency := hop
    have hbelongs := hb th (List.mem_of_getElem? hth)
    rw [hpause] at hpc hbelongs
    refine absurd hraised (VLLMEngine.pause_not_raised hbelongs ?_ hpc)
    rintro rfl
    simpa [lateRaise, pcAt_of_threads hth] using hok
  · intro k o t hok hstep hk
    obtain ⟨th, slice, hth, hpc, rfl⟩ := runThread_eq_some.mp (runThread_of_run hstep)
    have htakes := (at_of_pcAt (pcAt_of_threads hth)).mp hk
    refine (VLLMEngine.runPc_takesUp htakes ?_ hpc).imp_left fun htakes =>
      ⟨_, Ownership.settle_self hth slice, htakes⟩
    rintro rfl
    simpa [lateRaise, pcAt_of_threads hth] using hok

/-- A core that dies while the engine is PAUSED, and a recovery with a failed construction. -/
def deadWhilePaused : List Label :=
  [.call (.start "m"), .run 0 .go, .run 0 (.created [1]), .run 0 .go, .call (.generate "m"),
    .call (.pause .immediate)] ++ List.replicate 6 (.run 2 .go) ++
    [.run 1 .coreDead] ++ List.replicate 3 (.run 3 .go) ++
    [.run 3 (.createFailed [2]), .run 3 .go, .run 3 (.created [3]), .run 3 .go]

theorem unstranded_deadWhilePaused :
    ∃ s, system.exec {} deadWhilePaused = some s ∧ s.Unstranded ∧ s.Quiet ∧
      s.engine.state = .running := by
  let s : EngineSys :=
    { engine :=
        { state := .running, core := some ⟨"m"⟩, model := "m", childPids := [3], live := [3],
          orphans := [2], loads := 2 }
      threads :=
        [⟨.start "m", .finished .returned, 0⟩, ⟨.generate "m", .finished .raised, 0⟩,
          ⟨.pause .immediate, .finished .returned, 1⟩, ⟨.recover, .finished .returned, 0⟩]
      lastCommand := some .pause }
  have hrun : system.execGuarded (lateRaise · ·) {} deadWhilePaused = some s := by decide +kernel
  have hquiet : s.Quiet := by
    rintro (_ | _ | _ | _ | k) pc ⟨⟩ <;> exact .inr ⟨_, rfl⟩
  exact ⟨s, by decide +kernel, unstranded_of_reach
    (Transition.System.Reach.execGuarded (.init (.inl rfl)) hrun), hquiet, rfl⟩

/-- A pause whose teardown raises. -/
def raisingPause : List Label :=
  [.call (.start "m"), .run 0 .go, .run 0 (.created [1]), .run 0 .go, .call (.pause .immediate)] ++
    List.replicate 5 (.run 1 .go) ++ [.run 1 .cudaError]

/-- It leaves the engine UNLOADING, where the next pause returns at once. -/
theorem raisingPause_stranded :
    ∃ s, system.Reach Transition.System.anyStep s ∧ ¬ s.Unstranded := by
  let s : EngineSys :=
    { engine := { state := .unloading, model := "m", loads := 1 }
      threads := [⟨.start "m", .finished .returned, 0⟩, ⟨.pause .immediate, .finished .raised, 1⟩]
      lastCommand := some .pause }
  have hrun : system.exec {} raisingPause = some s := by decide +kernel
  have hquiet : s.Quiet := by
    rintro (_ | _ | k) pc ⟨⟩ <;> exact .inr ⟨_, rfl⟩
  refine ⟨s, Transition.System.reach_of_exec (.inl rfl) hrun, fun h => ?_⟩
  rcases h.settled hquiet with hs | hs | hs <;> cases hs

end EngineSys

end OpenModel.Inference
