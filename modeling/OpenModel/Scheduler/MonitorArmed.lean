import OpenModel.Scheduler.ProofMonitor

/-!
# Every WINDOW_POST has its proof monitor

A poll launches a proof monitor when its decision takes the GPU into WINDOW_POST, so a
WINDOW_POST that was already there has none. Without the fail-safe this does not happen:
whoever wrote WINDOW_POST launches a monitor, and a monitor takes it back before it exits.
The fail-safe writes WINDOW_POST for no deadline at all; when Lotus recovers with an open
deadline the poll finds no edge.

## Main results

- `Sched.armed_of_reach`: in runs where no deciding poll finds WINDOW_POST, every answered
  poll that leaves WINDOW_POST has launched the monitor of its deadline
- `Sched.findsEdge_of_reach`: runs without the fail-safe are such runs
- `Sched.recovery_not_armed`: Lotus fails once, then answers
-/

namespace OpenModel.Scheduler

open Transition (System)

namespace PollPc

/-- Lotus has answered in this poll. -/
def answered : PollPc → Bool
  | idle | loadState | getProvingDeadline | failSafe _ => false
  | _ => true

/-- The deadline that this poll evaluates. -/
def deadline : PollPc → Option DeadlineInfo
  | evaluate info | loadPrevState info | applying info _ _ | setProofMonitorActive info
  | launchMonitor info => some info
  | _ => none

/-- A monitor is launched for a WINDOW_POST decision that the poll did not find. -/
theorem launchesMonitor_iff {cfg : Config} {d : YieldDecision} {prev : GpuState}
    (hcfg : cfg.proofMonitor = true) (hdetect : cfg.policy.windowPost.proofDetectionEnabled = true) :
    cfg.launchesMonitor d prev = true ↔ d.state = .windowPost ∧ prev ≠ .windowPost := by
  simp [Config.launchesMonitor, hcfg, hdetect]

end PollPc

/-- A goroutine other than the poll does not write WINDOW_POST. -/
theorem ApplyPc.windowPost_of_step {guarded : Bool} {d : YieldDecision} {c : Cells} {pc : ApplyPc}
    (hd : d.state ≠ .windowPost) (h : (pc.step guarded d c).1.current = .windowPost) :
    c.current = .windowPost := by
  rw [step_current] at h
  split at h
  · exact absurd h hd
  · exact h

/-- What remains of a call whose decision is not WINDOW_POST finds another state. -/
theorem ApplyPc.step_current_ne {d : YieldDecision} {c : Cells} (pc : ApplyPc)
    (hd : d.state ≠ .windowPost) (hc : pc ≠ .transition → c.current ≠ .windowPost) :
    (pc.step true d c).1.current ≠ .windowPost := by
  rw [step_current]
  split
  · exact hd
  · next hnot =>
    by_cases hpc : pc = .transition
    · intro hw
      exact hnot ⟨hpc, by simp [hw]⟩
    · exact hc hpc

namespace PollPc

/-- What a poll under way knows of the GPU state `g`. -/
def Knows (cfg : Config) (g : GpuState) : PollPc → Prop
  | stayAvailable d pc => d.state = .available ∧ (pc ≠ .transition → g ≠ .windowPost)
  | applying info prev pc =>
    ((cfg.policy.evaluateWindowPost info).state = .windowPost → prev ≠ .windowPost) ∧
      ((cfg.policy.evaluateWindowPost info).state ≠ .windowPost → pc ≠ .transition →
        g ≠ .windowPost)
  | _ => True

/-- A poll that decides WINDOW_POST does not find the GPU in WINDOW_POST. -/
def findsEdge (cfg : Config) (g : GpuState) : PollPc → Bool
  | loadPrevState info =>
    (cfg.policy.evaluateWindowPost info).state != .windowPost || g != .windowPost
  | _ => true

variable {cfg : Config} {answers : LotusAnswers} {c : Cells} {pc : PollPc} {g g' : GpuState}

/-- Other goroutines do not write WINDOW_POST. -/
theorem Knows.congr (h : pc.Knows cfg g) (hg : g' = .windowPost → g = .windowPost) :
    pc.Knows cfg g' := by
  cases pc with
  | stayAvailable d a => exact ⟨h.1, fun ha hw => h.2 ha (hg hw)⟩
  | applying info prev a => exact ⟨h.1, fun hd ha hw => h.2 hd ha (hg hw)⟩
  | _ => trivial

theorem knows_step (h : pc.Knows cfg c.current) (hedge : pc.findsEdge cfg c.current) :
    (pc.step cfg answers c).2.1.Knows cfg (pc.step cfg answers c).1.current := by
  cases pc with
  | idle | loadState => simp only [step]; split <;> trivial
  | getProvingDeadline => simp only [step]; split <;> [split; skip] <;> trivial
  | getSectors info =>
    simp only [step]
    split
    · exact ⟨rfl, fun hne => absurd rfl hne⟩
    · trivial
  | evaluate info =>
    simp only [step]
    split
    · exact ⟨rfl, fun hne => absurd rfl hne⟩
    · trivial
  | failSafe a =>
    simp only [step]
    cases (a.step false failSafeDecision c).2 <;> trivial
  | stayAvailable d a =>
    have hne := ApplyPc.step_current_ne a (d := d) (by simp [h.1]) h.2
    simp only [step]
    cases (a.step true d c).2 with
    | none => trivial
    | some a' => exact ⟨h.1, fun _ => hne⟩
  | loadPrevState info =>
    refine ⟨fun hd hprev => ?_, fun _ hne => absurd rfl hne⟩
    simp [findsEdge, hd, hprev] at hedge
  | applying info prev a =>
    have hne (hd : (cfg.policy.evaluateWindowPost info).state ≠ .windowPost) :=
      ApplyPc.step_current_ne a hd (h.2 hd)
    simp only [step]
    cases (a.step true (cfg.policy.evaluateWindowPost info) c).2 with
    | none =>
      show (afterApply cfg info prev).Knows cfg _
      unfold afterApply
      split <;> trivial
    | some a' => exact ⟨h.1, fun hd _ => hne hd⟩
  | setProofMonitorActive info | launchMonitor info => trivial

/-- **The end of an answered poll**: it leaves another state than WINDOW_POST, or it ends by
launching the monitor of its deadline. -/
theorem launched_of_idle (hcfg : cfg.proofMonitor = true)
    (hdetect : cfg.policy.windowPost.proofDetectionEnabled = true) (h : pc.Knows cfg c.current)
    (hanswered : pc.answered) (hidle : (pc.step cfg answers c).2.1 = idle)
    (hwin : (pc.step cfg answers c).1.current = .windowPost) :
    ∃ info, pc = launchMonitor info := by
  cases pc with
  | idle | loadState | getProvingDeadline | failSafe a => cases hanswered
  | getSectors info | evaluate info =>
    simp only [step] at hidle
    split at hidle <;> cases hidle
  | stayAvailable d a => exact absurd hwin (ApplyPc.step_current_ne a (by simp [h.1]) h.2)
  | loadPrevState info | setProofMonitorActive info => cases hidle
  | applying info prev a =>
    exfalso
    by_cases hd : (cfg.policy.evaluateWindowPost info).state = .windowPost
    · -- the decision launches a monitor, so the poll has not ended yet
      have hlaunch := (launchesMonitor_iff hcfg hdetect).mpr ⟨hd, h.1 hd⟩
      simp only [step] at hidle
      cases hrest : (a.step true (cfg.policy.evaluateWindowPost info) c).2 with
      | none => simp [hrest, afterApply, hlaunch] at hidle
      | some a' => simp [hrest] at hidle
    · exact ApplyPc.step_current_ne a hd (h.2 hd) hwin
  | launchMonitor info => exact ⟨info, rfl⟩

/-- A committed poll stays so until it has launched its monitor. -/
theorem committed_next (answers : LotusAnswers) (c : Cells) (h : pc.Committed cfg) :
    (pc.step cfg answers c).2.1.Committed cfg ∨ ∃ info, pc = launchMonitor info := by
  cases pc with
  | applying info prev a =>
    simp only [step]
    cases hrest : (a.step true (cfg.policy.evaluateWindowPost info) c).2 with
    | none =>
      left
      show (afterApply cfg info prev).Committed cfg
      rw [afterApply, if_pos h.2]
      trivial
    | some a' => exact .inl ⟨ApplyPc.step_ne_transition hrest, h.2⟩
  | setProofMonitorActive info => exact .inl trivial
  | launchMonitor info => exact .inr ⟨info, rfl⟩
  | _ => exact h.elim

/-- A poll other than the fail-safe that takes the GPU into WINDOW_POST is committed. -/
theorem committed_of_write (hcfg : cfg.proofMonitor = true)
    (hdetect : cfg.policy.windowPost.proofDetectionEnabled = true) (h : pc.Knows cfg c.current)
    (hfail : pc ≠ failSafe .transition) (hold : c.current ≠ .windowPost)
    (hwin : (pc.step cfg answers c).1.current = .windowPost) :
    (pc.step cfg answers c).2.1.Committed cfg := by
  cases pc with
  | idle | loadState | evaluate info | getSectors info =>
    simp only [step] at hwin
    split at hwin <;> exact absurd hwin hold
  | getProvingDeadline =>
    simp only [step] at hwin
    split at hwin <;> [split at hwin; skip] <;> exact absurd hwin hold
  | failSafe a =>
    have ha : a ≠ .transition := fun ha => hfail (by rw [ha])
    exact absurd ((ApplyPc.step_current_of_ne ha).symm.trans hwin) hold
  | stayAvailable d a => exact absurd hwin (ApplyPc.step_current_ne a (by simp [h.1]) h.2)
  | applying info prev a =>
    by_cases hd : (cfg.policy.evaluateWindowPost info).state = .windowPost
    · by_cases ha : a = .transition
      · subst ha
        simp only [step]
        cases hrest : (ApplyPc.step true (cfg.policy.evaluateWindowPost info) c .transition).2 with
        | none => exact absurd hrest ApplyPc.step_transition_ne_none
        | some a' =>
          exact ⟨ApplyPc.step_ne_transition hrest,
            (launchesMonitor_iff hcfg hdetect).mpr ⟨hd, h.1 hd⟩⟩
      · exact absurd ((ApplyPc.step_current_of_ne ha).symm.trans hwin) hold
    · exact absurd hwin (ApplyPc.step_current_ne a hd (h.2 hd))
  | loadPrevState info | setProofMonitorActive info | launchMonitor info =>
    exact absurd hwin hold

end PollPc

/-- A monitor that has not written its decision yet. -/
def MonitorPc.backs : MonitorPc → Bool
  | waiting _ | markCompleted _ => true
  | applying pc => pc == .transition
  | _ => false

namespace Sched

variable {cfg : Config} {s t : Sched} {l : Action}

/-- After an answered poll that leaves the GPU in WINDOW_POST, a monitor of exactly the
deadline it evaluated is running. -/
def ArmedAfter (s : Sched) (l : Action) (t : Sched) : Prop :=
  ∀ answers, l = .poll answers → s.poll.answered → t.poll = .idle →
    t.cells.current = .windowPost →
      ∃ info, s.poll.deadline = some info ∧ .waiting info ∈ t.monitors

/-- A deciding poll finds an edge into WINDOW_POST. -/
def findsEdge (cfg : Config) (s : Sched) : Action → Bool
  | .poll _ => s.poll.findsEdge cfg s.cells.current
  | _ => true

/-- Only the poll writes WINDOW_POST. -/
theorem windowPost_of_step (hstep : Sched.step cfg s l = some t) (hl : ∀ answers, l ≠ .poll answers)
    (hw : t.cells.current = .windowPost) : s.cells.current = .windowPost := by
  cases l with
  | poll answers => exact absurd rfl (hl answers)
  | monitor i =>
    obtain ⟨m, c, m', -, hm, rfl⟩ := monitorStep_eq_some.mp hstep
    cases m with
    | applying a =>
      cases hm
      exact ApplyPc.windowPost_of_step (by decide) hw
    | waiting info | markCompleted info | clearActive =>
      cases hm
      exact hw
    | exited => cases hm
  | trigger i =>
    obtain ⟨w, c, w', started, -, hs, rfl⟩ := triggerStep_eq_some.mp hstep
    obtain hcur | hcur := Trigger.step_current hs
    · exact absurd (hcur.symm.trans hw) (by decide)
    · exact hcur ▸ hw
  | timer i =>
    obtain ⟨r, c, pc', -, hs, rfl⟩ := timerStep_eq_some.mp hstep
    by_cases hpc : r.pc = .applying .transition
    · rw [hpc] at hs
      cases hs
      exact ApplyPc.windowPost_of_step (by decide) hw
    · exact TimerPc.step_current hs hpc ▸ hw
  | timerDone i =>
    obtain ⟨r, fireAt, -, -, -, rfl⟩ := timerDoneStep_eq_some.mp hstep
    exact hw
  | _ =>
    cases hstep
    exact hw

/-- A monitor backs WINDOW_POST until it writes AVAILABLE over it. -/
theorem backs_of_step (hstep : Sched.step cfg s l = some t) (hl : ∀ answers, l ≠ .poll answers)
    (hw : t.cells.current = .windowPost) (hm : ∃ m ∈ s.monitors, m.backs) :
    ∃ m ∈ t.monitors, m.backs := by
  obtain ⟨x, hx, hb⟩ := hm
  cases l with
  | poll answers => exact absurd rfl (hl answers)
  | monitor i =>
    obtain ⟨m, c, m', hm, hs, rfl⟩ := monitorStep_eq_some.mp hstep
    have hself : m' ∈ s.monitors.set i m' := List.mem_set (List.getElem?_eq_some_iff.mp hm).1 m'
    rcases mem_set_or_eq hm hx with rfl | hx
    · cases x with
      | waiting info | markCompleted info =>
        cases hs
        exact ⟨_, hself, rfl⟩
      | applying a =>
        obtain rfl : a = .transition := by simpa [MonitorPc.backs] using hb
        cases hs
        by_cases hwin : s.cells.current = .winningPost <;>
          simp [ApplyPc.step_current, hwin, proofCompleteDecision, resumeDecision] at hw
      | clearActive | exited => cases hb
    · exact ⟨x, hx, hb⟩
  | trigger i =>
    obtain ⟨w, c, w', started, -, -, rfl⟩ := triggerStep_eq_some.mp hstep
    exact ⟨x, hx, hb⟩
  | timer i =>
    obtain ⟨r, c, pc', -, -, rfl⟩ := timerStep_eq_some.mp hstep
    exact ⟨x, hx, hb⟩
  | timerDone i =>
    obtain ⟨r, fireAt, -, -, -, rfl⟩ := timerDoneStep_eq_some.mp hstep
    exact ⟨x, hx, hb⟩
  | _ =>
    cases hstep
    exact ⟨x, hx, hb⟩

/-- **Run lemma**. -/
theorem knows_of_reach (h : (system cfg).Reach (fun s l => s.findsEdge cfg l) s) :
    s.poll.Knows cfg s.cells.current := by
  refine h.invariant (I := fun s => s.poll.Knows cfg s.cells.current) ?_ fun s l t hs hok hstep => ?_
  · rintro s rfl
    trivial
  · by_cases hl : ∃ answers, l = .poll answers
    · obtain ⟨answers, rfl⟩ := hl
      cases hstep
      exact PollPc.knows_step hs hok
    · have hl := not_exists.mp hl
      rw [poll_of_step hstep hl]
      exact hs.congr (windowPost_of_step hstep hl)

-- ════════════════════════════════════════════════════════════════════════
-- Runs without the fail-safe
-- ════════════════════════════════════════════════════════════════════════

/-- The step is not a write of the fail-safe. -/
def NoFailSafe (s : Sched) (l : Action) : Prop :=
  ∀ answers, l = .poll answers → s.poll ≠ .failSafe .transition

/-- WINDOW_POST is backed by a poll that will launch a monitor, or by a monitor that has not
written its decision yet. -/
def Backed (cfg : Config) (s : Sched) : Prop :=
  s.cells.current = .windowPost → s.poll.Committed cfg ∨ ∃ m ∈ s.monitors, m.backs

theorem alive_of_backs {m : MonitorPc} (hm : m ∈ s.monitors) (hb : m.backs) : ∃ j, s.Alive j := by
  obtain ⟨j, hj⟩ := List.mem_iff_getElem?.mp hm
  refine ⟨j, m, hj, ?_⟩
  rintro rfl
  cases hb

/-- A deciding poll of a backed state finds an edge. -/
theorem Backed.findsEdge (h : s.Backed cfg) (hf : FlagInv s) : s.findsEdge cfg l := by
  cases l with
  | poll answers =>
    show s.poll.findsEdge cfg s.cells.current
    cases hp : s.poll with
    | loadPrevState info =>
      have hne : s.cells.current ≠ .windowPost := by
        intro hw
        rcases h hw with hc | ⟨m, hm, hb⟩
        · rw [hp] at hc
          exact hc
        · obtain ⟨j, hj⟩ := alive_of_backs hm hb
          exact hf.not_alive (by rw [hp]; exact PollPc.noConfusion) j hj
      simp [PollPc.findsEdge, hne]
    | _ => rfl
  | _ => rfl

theorem Backed.poll (h : s.Backed cfg) (hcfg : cfg.proofMonitor = true)
    (hdetect : cfg.policy.windowPost.proofDetectionEnabled = true)
    (hknows : s.poll.Knows cfg s.cells.current) {answers : LotusAnswers}
    (hok : s.NoFailSafe (.poll answers)) : (s.pollStep cfg answers).Backed cfg := by
  intro hwin
  by_cases hold : s.cells.current = .windowPost
  · rcases h hold with hc | ⟨m, hm, hb⟩
    · rcases PollPc.committed_next answers s.cells hc with hnext | ⟨info, hp⟩
      · exact .inl hnext
      · refine .inr ⟨.waiting info, ?_, rfl⟩
        simp [pollStep, hp, PollPc.step]
    · exact .inr ⟨m, List.mem_append_left _ hm, hb⟩
  · exact .inl (PollPc.committed_of_write hcfg hdetect hknows (hok answers rfl) hold hwin)

/-- **Run lemma**: without the fail-safe, WINDOW_POST is backed. -/
theorem backed_of_reach (hcfg : cfg.proofMonitor = true)
    (hdetect : cfg.policy.windowPost.proofDetectionEnabled = true)
    (h : (system cfg).Reach NoFailSafe s) : s.Backed cfg ∧ s.poll.Knows cfg s.cells.current := by
  refine h.invariant_of (I := fun s => s.Backed cfg ∧ s.poll.Knows cfg s.cells.current)
    (J := FlagInv) (fun s hs => flagInv_of_reach hs) ?_ fun s l t hf hs hok hstep => ?_
  · rintro s rfl
    exact ⟨GpuState.noConfusion, trivial⟩
  · by_cases hl : ∃ answers, l = .poll answers
    · obtain ⟨answers, rfl⟩ := hl
      have hedge : s.findsEdge cfg (.poll answers) := hs.1.findsEdge hf
      cases hstep
      exact ⟨hs.1.poll hcfg hdetect hs.2 hok, PollPc.knows_step hs.2 hedge⟩
    · have hl := not_exists.mp hl
      have hp := poll_of_step hstep hl
      have hw := windowPost_of_step hstep hl
      refine ⟨fun hwin => ?_, by rw [hp]; exact hs.2.congr hw⟩
      rw [hp]
      exact (hs.1 (hw hwin)).imp_right fun hm => backs_of_step hstep hl hwin hm

/-- **Runs without the fail-safe** find an edge at every deciding poll. -/
theorem findsEdge_of_reach (hcfg : cfg.proofMonitor = true)
    (hdetect : cfg.policy.windowPost.proofDetectionEnabled = true)
    (h : (system cfg).Reach NoFailSafe s) : s.findsEdge cfg l :=
  (backed_of_reach hcfg hdetect h).1.findsEdge (flagInv_of_reach h)

/-- **Proof detection is armed** after every answered poll that leaves WINDOW_POST, in every
run whose deciding polls find an edge. -/
theorem armed_of_reach (cfg : Config) (hcfg : cfg.proofMonitor = true)
    (hdetect : cfg.policy.windowPost.proofDetectionEnabled = true) {s t : Sched} {l : Action}
    (h : (system cfg).Reach (fun s l => s.findsEdge cfg l) s)
    (hstep : (system cfg).step s l = some t) : ArmedAfter s l t := by
  rintro answers rfl hanswered hidle hwin
  cases hstep
  obtain ⟨info, hpc⟩ := PollPc.launched_of_idle hcfg hdetect (knows_of_reach h) hanswered hidle hwin
  refine ⟨info, by rw [hpc]; rfl, ?_⟩
  simp [pollStep, hpc, PollPc.step]

/-- A poll finds deadline 0 open and launches its monitor. -/
theorem armed_openDeadline :
    ∃ s t, (system defaultConfig).exec {} (List.replicate 10 (.poll openDeadline)) = some s ∧
      (system defaultConfig).step s (.poll openDeadline) = some t ∧
      t.cells.current = .windowPost ∧ ArmedAfter s (.poll openDeadline) t := by
  let s : Sched :=
    { cells :=
        { current := .windowPost
          latestDecision := some (defaultPolicy.evaluateWindowPost (deadline0At 10))
          proofMonitorActive := true
          sectorCache := (SectorCache.lookAhead defaultPolicy {} (deadline0At 10) fun _ => some 1).2 }
      poll := .launchMonitor (deadline0At 10) }
  have hguarded : (system defaultConfig).execGuarded (fun s l => s.findsEdge defaultConfig l) {}
      (List.replicate 10 (.poll openDeadline)) = some s := rfl
  have hreach := (System.Reach.init (system_init defaultConfig)).execGuarded hguarded
  have hstep : (system defaultConfig).step s (.poll openDeadline) =
      some (s.pollStep defaultConfig openDeadline) := rfl
  exact ⟨s, _, rfl, hstep, rfl, armed_of_reach defaultConfig rfl rfl hreach hstep⟩

/-- Lotus fails once and the fail-safe writes WINDOW_POST; then Lotus answers with an open
deadline, and the poll launches nothing. -/
theorem recovery_not_armed :
    ∃ s t, (system defaultConfig).Reach System.anyStep s ∧
      (system defaultConfig).step s (.poll openDeadline) = some t ∧
      ¬ ArmedAfter s (.poll openDeadline) t := by
  let run : List Action := List.replicate 6 (.poll noAnswer) ++ List.replicate 8 (.poll openDeadline)
  let s : Sched :=
    { cells :=
        { current := .windowPost
          latestDecision := some failSafeDecision
          sectorCache := (SectorCache.lookAhead defaultPolicy {} (deadline0At 10) fun _ => some 1).2 }
      poll := .applying (deadline0At 10) .windowPost (.storeLatest false) }
  have hrun : (system defaultConfig).exec {} run = some s := rfl
  refine ⟨s, _, System.reach_of_exec (system_init _) hrun, rfl, fun h => ?_⟩
  obtain ⟨info, -, hmem⟩ := h openDeadline rfl rfl rfl rfl
  cases hmem

end Sched

end OpenModel.Scheduler
