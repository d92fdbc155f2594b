import OpenModel.Inference.ReturnedPause

/-!
# A model switch whose creations fail

`switch_model` rolls back when its `resume` raises. `resume` does not raise: `_do_reload`
catches the failure of a creation, tries again, and after the third attempt ends the
process. A switch can still raise out of its teardown, before anything is created; without
that its request never ends with an error.

## Main results

- `VLLMEngine.runPc_not_raised`: the slices of a switch
- `EngineSys.not_rolledBack`: no run of any switch rolls back
-/

namespace OpenModel.Inference

open Transition (System)

namespace VLLMEngine

variable {e : VLLMEngine}

theorem reloadFailed_not_raised {r : Reload} :
    (e.reloadFailed r).pc ≠ .finished .raised := by
  unfold reloadFailed
  split_ifs <;> exact Pc.noConfusion

theorem pauseReturn_not_raised {c : Caller} : (e.pauseReturn c).pc ≠ .finished .raised := by
  cases c <;> simp [pauseReturn]

theorem resumeReturn_not_raised {c : Caller} : (e.resumeReturn c).pc ≠ .finished .raised := by
  cases c <;> simp [resumeReturn]

theorem reloadReturn_not_raised {c : ReloadCaller} :
    (e.reloadReturn c).pc ≠ .finished .raised := by
  cases c with
  | pause c => exact pauseReturn_not_raised
  | resume c => exact resumeReturn_not_raised
  | recover => simp [reloadReturn]

theorem critical_not_raised {block : Critical} (h : block ≠ .startFailed) :
    (e.critical block).pc ≠ .finished .raised := by
  cases block with
  | startFailed => exact absurd rfl h
  | pauseLook urgency c =>
    simp only [critical]
    split_ifs
    · exact pauseReturn_not_raised
    · exact pauseReturn_not_raised
    · exact Pc.noConfusion
    · exact Pc.noConfusion
  | pauseTakeover c =>
    simp only [critical]
    split_ifs
    · exact pauseReturn_not_raised
    · exact Pc.noConfusion
  | resumeLook c =>
    simp only [critical]
    split_ifs
    · exact resumeReturn_not_raised
    · exact resumeReturn_not_raised
    · exact resumeReturn_not_raised
    · exact Pc.noConfusion
  | reloadFinish r =>
    simp only [critical]
    split_ifs
    · exact Pc.noConfusion
    · exact reloadReturn_not_raised
  | startFinish | recoverBegin =>
    simp only [critical]
    split_ifs <;> simp [beginDestroy]
  | startBegin modelPath | pauseDestroy c | reloadGiveUp r | stopBegin => exact Pc.noConfusion

theorem destroyStep_not_raised {t : Teardown} {phase : Phase} {o : Outcome} {slice : Slice}
    (ho : o ≠ .cudaError) (h : e.destroyStep t phase o = some slice) :
    slice.pc ≠ .finished .raised := by
  cases phase <;> cases o <;> cases h
  · exact Pc.noConfusion
  · exact Pc.noConfusion
  · exact Pc.noConfusion
  · cases t with
    | pause c =>
      simp only [destroyed]
      split_ifs
      · exact Pc.noConfusion
      · exact pauseReturn_not_raised
    | reload r => exact reloadReturn_not_raised
    | _ => simp [destroyed]
  · exact absurd rfl ho

/-- **Whoever starts nothing and serves nothing**, a switch for one, raises only out of a
teardown. -/
theorem runPc_not_raised {k : Nat} {op : Op} {pc : Pc} {o : Outcome} {slice : Slice}
    (hb : pc.belongs op) (hstart : ∀ modelPath, op ≠ .start modelPath)
    (hgenerate : ∀ requested, op ≠ .generate requested) (ho : o ≠ .cudaError)
    (h : e.runPc k op pc o = some slice) : slice.pc ≠ .finished .raised := by
  cases pc with
  | created =>
    cases o <;> cases h
    cases op with
    | switchModel new =>
      simp only [enter, switchEnter]
      split_ifs <;> simp
    | generate requested => exact absurd rfl (hgenerate requested)
    | _ => exact Pc.noConfusion
  | lock block =>
    obtain ⟨l, -, rfl⟩ := runPc_block h
    refine critical_not_raised ?_
    rintro rfl
    cases op <;> first | exact absurd rfl (hstart _) | cases hb
  | destroy t phase => exact destroyStep_not_raised ho h
  | drain d =>
    obtain rfl := runPc_drain h
    cases d <;> exact Pc.noConfusion
  | load r =>
    cases o <;> cases h
    · exact Pc.noConfusion
    · exact reloadFailed_not_raised
  | retrySleep r =>
    cases o <;> cases h
    exact Pc.noConfusion
  | startCreate => cases op <;> first | exact absurd rfl (hstart _) | cases hb
  | generating weights hasOutput | aborting =>
    cases op <;> first | exact absurd rfl (hgenerate _) | cases hb
  | exitSleep | finished result => cases o <;> cases h

end VLLMEngine

namespace EngineSys

variable {s t u : EngineSys} {k : Nat} {l : Label} {new old : ModelPath}

/-- The switch to `new` on thread `k` cannot create a core of `new`, and its own teardown
does not raise. -/
def failsOn (new : ModelPath) (k : Nat) (s : EngineSys) : Label → Bool
  | .run _ (.created _) => s.engine.model != new
  | .run j .cudaError => j != k
  | _ => true

/-- The request of thread `k` ended with an error, and the engine serves `old` again. -/
def RolledBack (old : ModelPath) (k : Nat) (s : EngineSys) : Prop :=
  s.pcAt k = some (.finished .raised) ∧ s.engine.state = .running ∧ s.engine.model = old ∧
    s.engine.core = some ⟨old⟩ ∧ ∀ j, s.pcAt j ≠ some .exitSleep

/-- Thread `k` is a switch to `new` that has not raised. -/
def Unraised (new : ModelPath) (k : Nat) (s : EngineSys) : Prop :=
  ∃ th, s.threads[k]? = some th ∧ th.op = .switchModel new ∧ th.pc ≠ .finished .raised

theorem Unraised.spawn (h : Unraised new k s) {op : Op} : Unraised new k (s.spawn op) := by
  obtain ⟨th, hth, hrest⟩ := h
  refine ⟨th, ?_, hrest⟩
  show (s.threads ++ [({ op } : Thread)])[k]? = some th
  rw [List.getElem?_append_left (List.getElem?_eq_some_iff.mp hth).1, hth]

theorem Unraised.runThread (h : Unraised new k s) (hb : s.Belongs) {j : Nat} {o : Outcome}
    (ho : j = k → o ≠ .cudaError) (hrun : s.runThread j o = some t) : Unraised new k t := by
  obtain ⟨th, hth, hop, hpc⟩ := h
  obtain ⟨th', slice, hth', hslice, rfl⟩ := runThread_eq_some.mp hrun
  by_cases hjk : j = k
  · subst hjk
    obtain rfl := Option.some.inj (hth.symm.trans hth')
    refine ⟨_, settle_thread hth, hop, ?_⟩
    have hbelongs := hb th (List.mem_of_getElem? hth)
    rw [hop] at hslice hbelongs
    exact VLLMEngine.runPc_not_raised hbelongs (by simp) (by simp) (ho rfl) hslice
  · refine ⟨th, ?_, hop, hpc⟩
    have hlt := (List.getElem?_eq_some_iff.mp hth).1
    simp only [EngineSys.settle]
    rw [List.getElem?_append_left (by simpa using hlt), List.getElem?_set_ne hjk, hth]

/-- **Step lemma**. -/
theorem Unraised.step (h : Unraised new k s) (hb : s.Belongs) (hok : failsOn new k s l)
    (hstep : s.step l = some t) : Unraised new k t := by
  obtain ⟨op, -, rfl, rfl⟩ | ⟨op, -, rfl, hrun⟩ | ⟨j, o, rfl, hrun⟩ := step_cases hstep
  · exact h.spawn
  · exact h.spawn.runThread hb.spawn (fun _ => Outcome.noConfusion) hrun
  · refine h.runThread hb ?_ hrun
    rintro hjk rfl
    simp [failsOn, hjk] at hok

/-- The call of a switch. -/
theorem unraised_of_call (hb : s.Belongs)
    (hl : l = .spawn (.switchModel new) ∨ l = .call (.switchModel new))
    (hstep : s.step l = some t) : Unraised new s.threads.length t := by
  have hspawn : Unraised new s.threads.length (s.spawn (.switchModel new)) :=
    ⟨_, List.getElem?_concat_length .., rfl, Pc.noConfusion⟩
  obtain ⟨op, -, rfl, rfl⟩ | ⟨op, -, rfl, hrun⟩ | ⟨j, o, rfl, hrun⟩ := step_cases hstep
  · obtain ⟨⟨⟩⟩ | hl := hl
    · exact hspawn
    · cases hl
  · obtain hl | ⟨⟨⟩⟩ := hl
    · cases hl
    · exact hspawn.runThread hb.spawn (fun _ => Outcome.noConfusion) hrun
  · obtain hl | hl := hl <;> cases hl

/-- **No rollback**: whatever an engine serves when a switch is called, in no run in which
the creations for the new model fail does the request end with an error and the engine
serve the old model again. -/
theorem not_rolledBack (hreach : system.Reach System.anyStep s)
    (hl : l = .spawn (.switchModel new) ∨ l = .call (.switchModel new))
    (hstep : s.step l = some t)
    (hrun : (system.startingAt t).Reach (failsOn new s.threads.length · ·) u) (old : ModelPath) :
    ¬ RolledBack old s.threads.length u := by
  have hreach' : system.Reach System.anyStep t := .step hreach trivial hstep
  have hunraised : Unraised new s.threads.length u := by
    refine hrun.invariant_of (J := Belongs) (fun v hv => ?_) ?_ fun v l w hb hv hok hstep => ?_
    · exact belongs_of_reach (hreach'.trans (fun _ _ _ => trivial) hv)
    · rintro v rfl
      exact unraised_of_call (belongs_of_reach hreach) hl hstep
    · exact hv.step hb hok hstep
  obtain ⟨th, hth, -, hpc⟩ := hunraised
  rintro ⟨hraised, -⟩
  rw [pcAt_of_threads hth] at hraised
  exact hpc (Option.some.inj hraised)

/-- An engine that came up serving "a". -/
def servingA : EngineSys where
  engine :=
    { state := .running, core := some ⟨"a"⟩, model := "a", childPids := [1], live := [1],
      loads := 1 }
  threads := [⟨.start "a", .finished .returned, 0⟩]

theorem reach_servingA : system.Reach System.anyStep servingA := by
  have hexec : system.exec {}
      [.call (.start "a"), .run 0 .go, .run 0 (.created [1]), .run 0 .go] = some servingA := rfl
  exact System.reach_of_exec (.inl rfl) hexec

/-- What is left of a switch of `servingA` to "b" once it was called: the drain and the
teardown, then three creations that fail. -/
def failingSwitch : List Label :=
  List.replicate 10 (.run 1 .go) ++
    (List.replicate 3 [.run 1 (.createFailed []), .run 1 .go]).flatten

/-- The switch waits for the requests in flight. -/
def switchCalled : EngineSys :=
  { servingA with
    engine := { servingA.engine with accepting := false }
    threads := servingA.threads ++ [⟨.switchModel "b", .drain (.switchModel "b"), 0⟩]
    cur := some 1 }

/-- The process is about to exit, and the engine holds no core. -/
def switchFailed : EngineSys where
  engine := { state := .paused, model := "b", loads := 2 }
  threads := servingA.threads ++ [⟨.switchModel "b", .exitSleep, 1⟩]

theorem step_switchCalled : servingA.step (.call (.switchModel "b")) = some switchCalled := by
  decide +kernel

theorem reach_switchFailed :
    (system.startingAt switchCalled).Reach (failsOn "b" 1 · ·) switchFailed := by
  have hexec : (system.startingAt switchCalled).execGuarded (failsOn "b" 1 · ·) switchCalled
      failingSwitch = some switchFailed := by
    decide +kernel
  exact .execGuarded (.init rfl) hexec

/-- The request of the failed switch got no error, and the engine does not serve "a". -/
theorem not_rolledBack_switchFailed : ¬ RolledBack "a" 1 switchFailed :=
  not_rolledBack reach_servingA (.inr rfl) step_switchCalled reach_switchFailed "a"

/-- The switch of an engine that serves "a" is over at the exit of the process. -/
theorem switchFailed_exits :
    ∃ s t u, system.Reach System.anyStep s ∧ s.engine.state = .running ∧
      s.engine.core = some ⟨"a"⟩ ∧ s.step (.call (.switchModel "b")) = some t ∧
      (system.startingAt t).Reach (failsOn "b" s.threads.length · ·) u ∧
      u.pcAt s.threads.length = some .exitSleep ∧ u.engine.core = none :=
  ⟨servingA, switchCalled, switchFailed, reach_servingA, rfl, rfl, step_switchCalled,
    reach_switchFailed, rfl, rfl⟩

end EngineSys

end OpenModel.Inference
