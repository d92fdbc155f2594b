import OpenModel.Inference.Engine

/-!
# The transition lock

The FIFO queue of `_transition_lock` and its holder, read off the program counters.
A block under the lock gives it back when it ends, unless it goes on to tear the engine
down; nothing outside the blocks touches the lock.

## Main results

- `VLLMEngine.critical_releases`, `destroyStep_releases`, `runPc_lock`: the lock after a
  slice
- `EngineSys.lockAgrees_of_reach`: in every run the lock agrees with the threads
-/

namespace OpenModel.Inference

/-- A slice that had the lock gives it back unless it tears down. -/
def KeepsOrReleases (l : AsyncLock Nat) (slice : Slice) : Prop :=
  slice.engine.transitionLock = bif slice.pc.holds then l else l.release

theorem KeepsOrReleases.waiters {l : AsyncLock Nat} {slice : Slice} (h : KeepsOrReleases l slice) :
    slice.engine.transitionLock.waiters = l.waiters := by
  rw [h]
  cases slice.pc.holds <;> rfl

namespace VLLMEngine

variable {e : VLLMEngine} {k : Nat} {op : Op} {pc : Pc} {o : Outcome} {slice : Slice}

theorem pauseReturn_releases {c : Caller} :
    KeepsOrReleases e.transitionLock (e.release.pauseReturn c) := by
  cases c <;> rfl

theorem resumeReturn_releases {c : Caller} :
    KeepsOrReleases e.transitionLock (e.release.resumeReturn c) := by
  cases c <;> rfl

theorem reloadReturn_releases {c : ReloadCaller} :
    KeepsOrReleases e.transitionLock (e.release.reloadReturn c) := by
  cases c with
  | pause c => exact pauseReturn_releases
  | resume c => exact resumeReturn_releases
  | recover => rfl

theorem critical_releases {block : Critical} :
    KeepsOrReleases e.transitionLock (e.critical block) := by
  cases block with
  | startBegin | startFailed | pauseDestroy | reloadGiveUp | stopBegin => rfl
  | startFinish =>
    simp only [critical]
    split_ifs <;> rfl
  | pauseLook u c =>
    simp only [critical]
    split_ifs
    · exact pauseReturn_releases (e := { e with pendingPause := some u })
    · exact pauseReturn_releases
    · rfl
    · rfl
  | pauseTakeover c =>
    simp only [critical]
    split_ifs
    · exact pauseReturn_releases
    · rfl
  | resumeLook c =>
    simp only [critical]
    split_ifs
    · exact resumeReturn_releases (e := { e with pendingResume := true })
    · exact resumeReturn_releases
    · exact resumeReturn_releases
    · rfl
  | reloadFinish r =>
    simp only [critical]
    split_ifs
    · rfl
    · exact reloadReturn_releases (e := { e with state := .running })
  | recoverBegin =>
    simp only [critical]
    split_ifs <;> rfl

theorem destroyStep_releases {t : Teardown} {phase : Phase}
    (h : e.destroyStep t phase o = some slice) : KeepsOrReleases e.transitionLock slice := by
  cases phase <;> cases o <;> cases h <;> try rfl
  · cases t with
    | pause c =>
      simp only [destroyed]
      split_ifs
      · rfl
      · exact pauseReturn_releases (e := { e with accepting := true, state := .paused })
    | reload r => exact reloadReturn_releases (e := { e with state := .paused })
    | _ => rfl
  · cases t with
    | pause c => cases c <;> rfl
    | reload r =>
      simp only [destroyRaised, reloadFailed]
      split_ifs <;> rfl
    | _ => rfl

/-- Outside the lock nothing touches it. -/
theorem runPc_lock (hw : pc.waits = false) (hh : pc.holds = false)
    (h : e.runPc k op pc o = some slice) :
    slice.engine.transitionLock = e.transitionLock ∧ slice.pc.holds = false := by
  cases pc with
  | created =>
    cases o <;> cases h
    cases op with
    | switchModel new =>
      simp only [enter, switchEnter]
      split_ifs <;> exact ⟨rfl, rfl⟩
    | generate requested =>
      simp only [enter, beginGenerate]
      split <;> exact ⟨rfl, rfl⟩
    | _ => exact ⟨rfl, rfl⟩
  | lock block => cases hw
  | destroy t phase => cases hh
  | drain d =>
    obtain rfl := runPc_drain h
    cases d <;> exact ⟨rfl, rfl⟩
  | load r =>
    cases o <;> cases h
    · exact ⟨rfl, rfl⟩
    · simp only [reloadFailed]
      split_ifs <;> exact ⟨rfl, rfl⟩
  | generating weights hasOutput =>
    cases o with
    | output =>
      simp only [runPc, generateStep] at h
      split_ifs at h <;> cases h <;> exact ⟨rfl, rfl⟩
    | _ => cases h <;> exact ⟨rfl, rfl⟩
  | _ => cases o <;> cases h <;> exact ⟨rfl, rfl⟩

end VLLMEngine

namespace EngineSys

variable {s t : EngineSys} {k : Nat} {o : Outcome}

/-- The lock knows who waits for it and who holds it. -/
def LockAgrees (s : EngineSys) : Prop :=
  s.engine.transitionLock.Agrees (s.At Pc.waits) (s.At Pc.holds)

/-- The running thread suspends. -/
theorem LockAgrees.settle {th : Thread} {slice : Slice} (hth : s.threads[k]? = some th)
    (h : slice.engine.transitionLock.AgreesBut (s.At Pc.waits) (s.At Pc.holds) k slice.pc.holds) :
    (s.settle k th slice).LockAgrees :=
  h.suspend (fun _ => at_settle rfl hth) fun _ => at_settle rfl hth

theorem LockAgrees.spawn (h : s.LockAgrees) {op : Op} : (s.spawn op).LockAgrees :=
  AsyncLock.Agrees.congr h (fun _ => at_spawn rfl) fun _ => at_spawn rfl

/-- The lock after a slice of the thread that has it. -/
theorem agreesBut_of_releases {slice : Slice} {l : AsyncLock Nat} {waits holds : Nat → Prop}
    (h : l.AgreesBut waits holds k True) (hrel : KeepsOrReleases l slice) :
    slice.engine.transitionLock.AgreesBut waits holds k slice.pc.holds := by
  rw [hrel]
  cases hh : slice.pc.holds with
  | true => simpa using h
  | false => simpa using h.release

theorem LockAgrees.runThread (h : s.LockAgrees) (hrun : s.runThread k o = some t) :
    t.LockAgrees := by
  obtain ⟨th, slice, hth, hpc, rfl⟩ := runThread_eq_some.mp hrun
  have hat := pcAt_of_threads hth
  have hwaits : s.At Pc.waits k ↔ th.pc.waits := at_of_pcAt hat
  have hholds : s.At Pc.holds k ↔ th.pc.holds := at_of_pcAt hat
  refine settle hth ?_
  cases hw : th.pc.waits with
  | true =>
    obtain ⟨block, hblock⟩ := Pc.exists_block hw
    rw [hblock] at hpc
    obtain ⟨l, hl, rfl⟩ := VLLMEngine.runPc_block hpc
    exact agreesBut_of_releases (h.take hl)
      (VLLMEngine.critical_releases (e := { s.engine with transitionLock := l }))
  | false =>
    have hnot : ¬ s.At Pc.waits k := by simp [hwaits, hw]
    cases hh : th.pc.holds with
    | true =>
      obtain ⟨teardown, phase, hp⟩ := Pc.exists_teardown hh
      rw [hp] at hpc
      refine agreesBut_of_releases (h.stay hnot ?_) (VLLMEngine.destroyStep_releases hpc)
      simp [hholds, hh]
    | false =>
      obtain ⟨hlock, hslice⟩ := VLLMEngine.runPc_lock hw hh hpc
      rw [hlock]
      refine h.stay hnot ?_
      simp [hholds, hh, hslice]

theorem settle_waiters {th : Thread} {slice : Slice} :
    (s.settle k th slice).engine.transitionLock.waiters =
      slice.engine.transitionLock.waiters ++ if slice.pc.waits then [k] else [] := by
  simp only [EngineSys.settle]
  split_ifs
  · rfl
  · exact (List.append_nil _).symm

/-- The queue that the lock is left with when thread `k` has run. -/
theorem waiters_of_runPc (h : s.LockAgrees) {th : Thread} {slice : Slice}
    (hth : s.threads[k]? = some th) (hpc : s.engine.runPc k th.op th.pc o = some slice) :
    s.engine.transitionLock.waiters =
        (if th.pc.waits then [k] else []) ++ slice.engine.transitionLock.waiters ∧
      k ∉ slice.engine.transitionLock.waiters := by
  have hwaits : k ∈ s.engine.transitionLock.waiters ↔ th.pc.waits :=
    (h.mem_waiters k).trans (at_of_pcAt (pcAt_of_threads hth))
  cases hw : th.pc.waits with
  | true =>
    obtain ⟨block, hblock⟩ := Pc.exists_block hw
    rw [hblock] at hpc
    obtain ⟨l, hl, rfl⟩ := VLLMEngine.runPc_block hpc
    have hrel : KeepsOrReleases l ({ s.engine with transitionLock := l }.critical block) :=
      VLLMEngine.critical_releases
    have hqueue := (AsyncLock.grant_eq_some.mp hl).2.1
    have hnodup := h.nodup
    rw [hqueue, List.nodup_cons] at hnodup
    rw [hrel.waiters, hqueue]
    exact ⟨rfl, hnodup.1⟩
  | false =>
    have hsame : slice.engine.transitionLock.waiters = s.engine.transitionLock.waiters := by
      cases hh : th.pc.holds with
      | true =>
        obtain ⟨teardown, phase, hp⟩ := Pc.exists_teardown hh
        rw [hp] at hpc
        exact (VLLMEngine.destroyStep_releases hpc).waiters
      | false => rw [(VLLMEngine.runPc_lock hw hh hpc).1]
    rw [hsame, hwaits, hw]
    exact ⟨rfl, Bool.false_ne_true⟩

theorem LockAgrees.step {l : Label} (h : s.LockAgrees) (hstep : s.step l = some t) :
    t.LockAgrees := by
  obtain ⟨op, -, -, rfl⟩ | ⟨op, -, -, hrun⟩ | ⟨k, o, -, hrun⟩ := step_cases hstep
  · exact h.spawn
  · exact h.spawn.runThread hrun
  · exact h.runThread hrun

theorem lockAgrees_init (h : s.init) : s.LockAgrees := by
  rcases h with rfl | ⟨modelPath, rfl⟩ <;>
    exact ⟨List.nodup_nil, by simp [At, pcAt], by simp [At, pcAt], by simp [At, pcAt]⟩

/-- **The lock**: in every run its queue and its holder are the threads that say so. -/
theorem lockAgrees_of_reach {ok : EngineSys → Label → Prop} (h : system.Reach ok s) :
    s.LockAgrees :=
  h.invariant (fun _ => lockAgrees_init) fun _ _ _ hs _ hstep => hs.step hstep

end EngineSys

end OpenModel.Inference
