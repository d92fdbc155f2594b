import OpenModel.Inference.Pool

/-!
# The switch lock

The queue and the holder of the API's `_model_switch_lock`, read off the program counters of
the requests. A request holds the lock from the grant to the end of `ensure_model` and of
`switch_model`, so at most one switch of the pool runs at a time.

## Main results

- `Pool.agreesBut_of_taskStep`: the lock after a stretch of a task
- `Pool.switchLockAgrees_of_reach`: in every run the lock agrees with the tasks
-/

namespace OpenModel.Inference

namespace Pool

variable {s t : Pool} {l : PoolLabel} {j : Nat} {o : TaskOutcome} {task : Task} {slice : TaskSlice}

/-- Task `j` is at a program counter that satisfies `P`. -/
def TaskAt (s : Pool) (P : TaskPc → Bool) (j : Nat) : Prop :=
  ∃ task, s.tasks[j]? = some task ∧ P task.pc

/-- The lock knows who waits for it and who holds it. -/
def SwitchLockAgrees (s : Pool) : Prop :=
  s.switchLock.Agrees (s.TaskAt TaskPc.waits) (s.TaskAt TaskPc.holds)

theorem taskAt_of_tasks {P : TaskPc → Bool} (h : s.tasks[j]? = some task) :
    s.TaskAt P j ↔ P task.pc := by
  simp [TaskAt, h]

/-- A new task is nowhere yet. -/
theorem taskAt_append {P : TaskPc → Bool} {tasks : List Task} (htasks : t.tasks = s.tasks ++ tasks)
    (hP : ∀ task ∈ tasks, P task.pc = false) : t.TaskAt P j ↔ s.TaskAt P j := by
  simp only [TaskAt, htasks]
  by_cases hlt : j < s.tasks.length
  · rw [List.getElem?_append_left hlt]
  · rw [List.getElem?_append_right (Nat.le_of_not_lt hlt),
      List.getElem?_eq_none (Nat.le_of_not_lt hlt)]
    constructor
    · rintro ⟨task, htask, htrue⟩
      cases (hP task (List.mem_of_getElem? htask)).symm.trans htrue
    · rintro ⟨task, htask, -⟩
      cases htask

theorem taskAt_set {P : TaskPc → Bool} {i : Nat} {task' : Task} (hj : s.tasks[j]? = some task)
    (htasks : t.tasks = s.tasks.set j task') :
    t.TaskAt P i ↔ (i = j ∧ P task'.pc) ∨ (i ≠ j ∧ s.TaskAt P i) := by
  have hlt := (List.getElem?_eq_some_iff.mp hj).1
  by_cases hij : i = j
  · subst hij
    simp [TaskAt, htasks, hlt]
  · simp [TaskAt, htasks, List.getElem?_set_ne (Ne.symm hij), hij]

/-- An admission leaves the lock and the list of paths alone. -/
theorem admitRequest_frame {model : String} {stream : Bool} {pick : Nat} {slice₀ : TaskSlice}
    (h : s.admitRequest model stream pick slice₀ = some slice) :
    slice.switchLock = slice₀.switchLock ∧ slice.ensured = slice₀.ensured ∧
      slice.pc.holds = false := by
  obtain rfl | rfl | ⟨-, calls, -, rfl⟩ := admitRequest_cases h <;> exact ⟨rfl, rfl, rfl⟩

theorem stay_agreesBut (h : s.SwitchLockAgrees) (hj : s.tasks[j]? = some task)
    (hw : task.pc.waits = false) (hh : slice.pc.holds = task.pc.holds)
    (hlock : slice.switchLock = s.switchLock) :
    slice.switchLock.AgreesBut (s.TaskAt TaskPc.waits) (s.TaskAt TaskPc.holds) j slice.pc.holds := by
  rw [hlock]
  refine AsyncLock.Agrees.stay h ?_ ?_
  · simp [taskAt_of_tasks hj, hw]
  · rw [taskAt_of_tasks hj, hh]

/-- The end of the `async with` around the switch. -/
theorem leave_agreesBut (h : s.SwitchLockAgrees) (hj : s.tasks[j]? = some task)
    (hw : task.pc.waits = false) (hh : task.pc.holds) (hh' : slice.pc.holds = false)
    (hlock : slice.switchLock = s.switchLock.release) :
    slice.switchLock.AgreesBut (s.TaskAt TaskPc.waits) (s.TaskAt TaskPc.holds) j slice.pc.holds := by
  have hleave := AsyncLock.Agrees.leave (k := j) h (by simp [taskAt_of_tasks hj, hw])
    ((taskAt_of_tasks hj).mpr hh)
  rw [hlock, hh']
  simpa using hleave

/-- **One stretch**: the lock after a task has run. -/
theorem agreesBut_of_taskStep (h : s.SwitchLockAgrees) (hj : s.tasks[j]? = some task)
    (hslice : s.taskStep j task o = some slice) :
    slice.switchLock.AgreesBut (s.TaskAt TaskPc.waits) (s.TaskAt TaskPc.holds) j slice.pc.holds := by
  obtain ⟨op, pc⟩ := task
  cases op with
  | resume =>
    obtain ⟨i, rfl, -, rfl⟩ | ⟨i, e, rfl, -, -, rfl⟩ | ⟨i, k, rfl, -, rfl⟩ |
      ⟨i, k, rfl, -, rfl⟩ := resumeStep_cases hslice
    all_goals exact stay_agreesBut h hj rfl rfl rfl
  | request model stream =>
    cases requestSlice_of_step hslice with
    | check _ hadmit =>
      obtain ⟨hlock, -, hholds⟩ := admitRequest_frame hadmit
      exact stay_agreesBut h hj rfl hholds hlock
    | checkLock | ensured | streamStart _ | loopCall _ _ | awaitReturned _ =>
      exact stay_agreesBut h hj rfl (by first | rfl | (unfold beginSwitch; split <;> rfl))
        (by first | rfl | (unfold beginSwitch; split <;> rfl))
    | lock hl _ hadmit =>
      obtain ⟨hlock, -, hholds⟩ := admitRequest_frame hadmit
      rw [hlock, hholds]
      simpa using (AsyncLock.Agrees.take h hl).release
    | lockEnsure hl => simpa [TaskPc.holds, stay] using AsyncLock.Agrees.take h hl
    | loopEnd _ hadmit | gatherReturned _ hadmit =>
      obtain ⟨hlock, -, hholds⟩ := admitRequest_frame hadmit
      exact leave_agreesBut h hj rfl rfl hholds hlock
    | ensureFailed | awaitRaised | gatherRaised => exact leave_agreesBut h hj rfl rfl rfl rfl

/-- Whatever is not a task leaves the lock alone, and starts at most one task. -/
theorem switchLock_of_step (h : s.step l = some t) (hl : ∀ j o, l ≠ .task j o) :
    t.switchLock = s.switchLock ∧ t.ensured = s.ensured ∧ ∃ tasks, t.tasks = s.tasks ++ tasks ∧
      ∀ task ∈ tasks, task.pc.waits = false ∧ task.pc.holds = false := by
  cases stepped_of_step h with
  | task _ _ _ => exact absurd rfl (hl _ _)
  | request =>
    exact ⟨rfl, rfl, [⟨.request _ _, .check⟩], rfl, by simp [TaskPc.waits, TaskPc.holds]⟩
  | resumeLoop _ =>
    exact ⟨rfl, rfl, [⟨.resume, .resumeLoop 0⟩], rfl, by simp [TaskPc.waits, TaskPc.holds]⟩
  | _ => exact ⟨rfl, rfl, [], (List.append_nil _).symm, by simp⟩

/-- **Step lemma**. -/
theorem SwitchLockAgrees.step (h : s.SwitchLockAgrees) (hstep : s.step l = some t) :
    t.SwitchLockAgrees := by
  by_cases hl : ∃ j o, l = .task j o
  · obtain ⟨j, o, rfl⟩ := hl
    obtain ⟨-, hstep⟩ := Option.ite_none_right_eq_some.mp hstep
    obtain ⟨task, slice, engines, hj, hslice, -, ht⟩ := runTask_eq_some.mp hstep
    have htasks : t.tasks = s.tasks.set j ⟨task.op, slice.pc⟩ := by rw [← ht]
    have hlock : t.switchLock =
        if slice.pc.waits then slice.switchLock.acquire j else slice.switchLock := by rw [← ht]
    show t.switchLock.Agrees _ _
    rw [hlock]
    exact (agreesBut_of_taskStep h hj hslice).suspend (fun _ => taskAt_set hj htasks)
      fun _ => taskAt_set hj htasks
  · obtain ⟨hlock, -, tasks, htasks, hnew⟩ :=
      switchLock_of_step hstep fun j o hjo => hl ⟨j, o, hjo⟩
    show t.switchLock.Agrees _ _
    rw [hlock]
    exact AsyncLock.Agrees.congr h (fun _ => taskAt_append htasks fun task ht => (hnew task ht).1)
      fun _ => taskAt_append htasks fun task ht => (hnew task ht).2

/-- **The switch lock**: in every run its queue and its holder are the requests that say so. -/
theorem switchLockAgrees_of_reach {ok : Pool → PoolLabel → Prop} (h : system.Reach ok s) :
    s.SwitchLockAgrees := by
  refine h.invariant (fun s hs => ?_) fun s l t hs _ hstep => hs.step hstep
  obtain ⟨up, -, hs⟩ := hs
  have hnone (P : TaskPc → Bool) (j : Nat) : ¬ s.TaskAt P j := by
    rw [hs]
    simp [TaskAt]
  have hfree : s.switchLock = {} := by rw [hs]
  show s.switchLock.Agrees _ _
  rw [hfree]
  exact ⟨List.nodup_nil, fun k => by simp [hnone], by simp [hnone],
    fun i j hi => absurd hi (hnone _ i)⟩

end Pool

end OpenModel.Inference
