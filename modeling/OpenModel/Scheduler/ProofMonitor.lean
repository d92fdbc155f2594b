import OpenModel.Scheduler.WinningPost

/-!
# Waiting for a WindowPoSt proof

From the store of `proofMonitorActive` until `WaitForProofComplete` returns the GPU
should be in WINDOW_POST or WINNING_POST. The poll sets the flag only after it has
applied its decision, and a resume timer writes AVAILABLE only after it has found the
flag clear; the property holds in every run in which no timer's write falls between
the two.

## Main results

- `FlagInv`, `flagInv_of_reach`: the flag is set exactly while a monitor is alive or
  about to start, and there is at most one
- `yielded_of_reach`: while a proof is awaited the GPU is yielded
-/

namespace OpenModel.Scheduler

open Transition (System)

/-- The poll has set the flag and is about to start the monitor. -/
def PollPc.Launching (pc : PollPc) : Prop := ∃ info, pc = .launchMonitor info

/-- The poll has applied the decision for which it will start a monitor. -/
def PollPc.Committed (cfg : Config) : PollPc → Prop
  | .applying info prevState pc =>
    pc ≠ .transition ∧ cfg.launchesMonitor (cfg.policy.evaluateWindowPost info) prevState = true
  | .setProofMonitorActive _ => True
  | .launchMonitor _ => True
  | _ => False

namespace PollPc

variable (cfg : Config) (answers : LotusAnswers) (c : Cells) (pc : PollPc)

/-- A monitor starts at the end of a poll that has set the flag, and nowhere else. -/
theorem step_launched : (pc.step cfg answers c).2.2 = match pc with
    | launchMonitor info => some info
    | _ => none := by
  cases pc with
  | idle | loadState | evaluate info => simp only [step]; split <;> rfl
  | getProvingDeadline => simp only [step]; split <;> [split; skip] <;> rfl
  | getSectors info => simp only [step]; split <;> rfl
  | _ => rfl

/-- The poll is about to start a monitor just after it has set the flag. -/
theorem step_launching :
    (pc.step cfg answers c).2.1.Launching ↔ ∃ info, pc = setProofMonitorActive info := by
  cases pc with
  | idle | loadState | evaluate info => simp only [step]; split <;> simp [Launching]
  | getProvingDeadline => simp only [step]; split <;> [split; skip] <;> simp [Launching]
  | getSectors info => simp only [step]; split <;> simp [Launching]
  | failSafe a =>
    simp only [step]
    cases (a.step false failSafeDecision c).2 <;> simp [Launching]
  | stayAvailable d a =>
    simp only [step]
    cases (a.step true d c).2 <;> simp [Launching]
  | applying info prev a =>
    simp only [step]
    cases (a.step true (cfg.policy.evaluateWindowPost info) c).2 with
    | none =>
      simp only [Option.elim_none, afterApply]
      split <;> simp [Launching]
    | some a' => simp [Launching]
  | _ => simp [step, Launching]

variable {cfg answers c pc}

/-- A monitor is launched for a WINDOW_POST decision only. -/
theorem evaluateWindowPost_of_launchesMonitor {info : DeadlineInfo} {prev : GpuState}
    (h : cfg.launchesMonitor (cfg.policy.evaluateWindowPost info) prev = true) :
    (cfg.policy.evaluateWindowPost info).state = .windowPost := by
  simp only [Config.launchesMonitor, Bool.and_eq_true, beq_iff_eq] at h
  exact h.1.1.1

/-- A poll becomes committed by its WINDOW_POST write, which finds or leaves the GPU
yielded, and stays committed without touching the GPU state. -/
theorem committed_step (h : (pc.step cfg answers c).2.1.Committed cfg) :
    (pc.Committed cfg ∧ (pc.step cfg answers c).1.current = c.current) ∨
      (pc.step cfg answers c).1.current = .windowPost ∨
        (pc.step cfg answers c).1.current = .winningPost := by
  cases pc with
  | idle | loadState | evaluate info =>
    simp only [step] at h
    split at h <;> exact h.elim
  | getProvingDeadline =>
    simp only [step] at h
    split at h <;> [split at h; skip] <;> exact h.elim
  | getSectors info =>
    simp only [step] at h
    split at h <;> exact h.elim
  | failSafe a =>
    simp only [step] at h
    cases hr : (a.step false failSafeDecision c).2 <;> rw [hr] at h <;> exact h.elim
  | stayAvailable d a =>
    simp only [step] at h
    cases hr : (a.step true d c).2 <;> rw [hr] at h <;> exact h.elim
  | applying info prev a =>
    have hlaunch : cfg.launchesMonitor (cfg.policy.evaluateWindowPost info) prev = true := by
      simp only [step] at h
      cases hr : (a.step true (cfg.policy.evaluateWindowPost info) c).2 with
      | none =>
        rw [hr] at h
        simp only [Option.elim_none, afterApply] at h
        split at h
        · assumption
        · exact h.elim
      | some a' =>
        rw [hr] at h
        exact h.2
    by_cases ha : a = .transition
    · -- the write itself
      right
      subst ha
      simp only [step, ApplyPc.step_current, evaluateWindowPost_of_launchesMonitor hlaunch]
      split
      · exact Or.inl rfl
      · next hw => exact Or.inr (by simpa using hw)
    · exact Or.inl ⟨⟨ha, hlaunch⟩, ApplyPc.step_current_of_ne ha⟩
  | loadPrevState info => exact absurd rfl h.1
  | setProofMonitorActive info => exact Or.inl ⟨trivial, rfl⟩
  | launchMonitor info => exact h.elim

end PollPc

namespace Sched

variable {cfg : Config} {s t : Sched} {l : Action}

/-- A proof is being awaited: the flag is set and `WaitForProofComplete` has not
returned. -/
def AwaitsProof (s : Sched) : Prop := s.poll.Launching ∨ ∃ info, .waiting info ∈ s.monitors

/-- WINDOW_POST or WINNING_POST. -/
def Yielded (s : Sched) : Prop := s.cells.current = .windowPost ∨ s.cells.current = .winningPost

/-- A resume timer that writes AVAILABLE still finds the flag clear, and the poll is
not between its WINDOW_POST decision and the store of the flag. -/
def FlagHeld (cfg : Config) (s : Sched) (l : Action) : Prop :=
  ∀ r, Resumes s l r → s.cells.proofMonitorActive = false ∧ ¬ s.poll.Committed cfg

-- ════════════════════════════════════════════════════════════════════════
-- The flag
-- ════════════════════════════════════════════════════════════════════════

/-- Monitor `j` has not exited. -/
def Alive (s : Sched) (j : Nat) : Prop := ∃ m, s.monitors[j]? = some m ∧ m ≠ MonitorPc.exited

/-- At most one monitor is alive or about to start, and the flag says whether there is
one; no poll is under way while a monitor is alive. -/
structure FlagInv (s : Sched) : Prop where
  flag_iff : s.cells.proofMonitorActive = true ↔ s.poll.Launching ∨ ∃ j, s.Alive j
  poll_idle : ∀ j, s.Alive j → s.poll = .idle
  unique : ∀ j k, s.Alive j → s.Alive k → j = k

namespace FlagInv

theorem not_alive (h : FlagInv s) (hp : s.poll ≠ .idle) (j : Nat) : ¬ s.Alive j :=
  fun hj => hp (h.poll_idle j hj)

/-- Steps that touch neither the flag, the poll nor the monitors. -/
theorem congr (h : FlagInv s) (hflag : t.cells.proofMonitorActive = s.cells.proofMonitorActive)
    (hp : t.poll = s.poll) (hm : t.monitors = s.monitors) : FlagInv t := by
  have halive : t.Alive = s.Alive := by
    funext j
    simp only [Alive, hm]
  exact ⟨by rw [hflag, hp, halive]; exact h.flag_iff, by rw [hp, halive]; exact h.poll_idle,
    by rw [halive]; exact h.unique⟩

/-- A step of the poll while no monitor is alive, which starts none. -/
theorem poll_of_not_alive (hno : ∀ j, ¬ s.Alive j) (answers : LotusAnswers)
    (hnone : (s.poll.step cfg answers s.cells).2.2 = none)
    (hflag : (s.poll.step cfg answers s.cells).1.proofMonitorActive = true ↔
      (s.poll.step cfg answers s.cells).2.1.Launching) :
    FlagInv (s.pollStep cfg answers) := by
  have hmon : (s.pollStep cfg answers).monitors = s.monitors := by simp [pollStep, hnone]
  have halive : ∀ j, ¬ (s.pollStep cfg answers).Alive j := by
    intro j
    simp only [Alive, hmon]
    exact hno j
  refine ⟨?_, fun j hj => absurd hj (halive j), fun j k hj _ => absurd hj (halive j)⟩
  simp only [halive, exists_false, or_false]
  exact hflag

theorem poll (h : FlagInv s) (answers : LotusAnswers) : FlagInv (s.pollStep cfg answers) := by
  have hlaunched := PollPc.step_launched cfg answers s.cells s.poll
  have hlaunching := PollPc.step_launching cfg answers s.cells s.poll
  by_cases hidle : s.poll = .idle
  · by_cases hflag : s.cells.proofMonitorActive = true
    · -- the flag is set: the poll ends at once
      refine h.congr ?_ ?_ ?_ <;> simp [pollStep, hidle, PollPc.step, hflag]
    · -- the flag is clear: the poll goes on, and no monitor is alive
      have hno : ∀ j, ¬ s.Alive j := fun j hj => hflag (h.flag_iff.mpr (Or.inr ⟨j, hj⟩))
      refine poll_of_not_alive hno answers (by rw [hlaunched, hidle]) ?_
      rw [hlaunching]
      simp [hidle, PollPc.step, hflag]
  · have hno := h.not_alive hidle
    by_cases hl : s.poll.Launching
    · -- the monitor starts, the only one alive
      obtain ⟨info, hl⟩ := hl
      have hflag := h.flag_iff.mpr (Or.inl ⟨info, hl⟩)
      have halive : ∀ j, (s.pollStep cfg answers).Alive j ↔ j = s.monitors.length := by
        intro j
        have hnew : (s.pollStep cfg answers).monitors = s.monitors ++ [.waiting info] := by
          simp [pollStep, hl, PollPc.step]
        rcases lt_trichotomy j s.monitors.length with hj | rfl | hj
        · simp only [Alive, hnew, List.getElem?_append_left hj, hj.ne, iff_false]
          exact hno j
        · simp [Alive, hnew]
        · have hlen : (s.monitors ++ [MonitorPc.waiting info]).length ≤ j := by
            simp only [List.length_append, List.length_singleton]
            omega
          simp [Alive, hnew, List.getElem?_eq_none hlen, hj.ne']
      have hcells : (s.pollStep cfg answers).cells = s.cells := by simp [pollStep, hl, PollPc.step]
      refine ⟨?_, fun j _ => by simp [pollStep, hl, PollPc.step], fun j k hj hk => ?_⟩
      · simp [hcells, hflag, halive]
      · rw [(halive j).mp hj, (halive k).mp hk]
    · have hclear : ¬ s.cells.proofMonitorActive = true := by
        intro hf
        obtain hlaunching | ⟨j, hj⟩ := h.flag_iff.mp hf
        · exact hl hlaunching
        · exact hno j hj
      refine poll_of_not_alive hno answers ?_ ?_
      · rw [hlaunched]
        split
        · next info hp => exact absurd ⟨info, hp⟩ hl
        · rfl
      · rw [hlaunching]
        by_cases hset : ∃ info, s.poll = .setProofMonitorActive info
        · obtain ⟨info, hset⟩ := hset
          simp [hset, PollPc.step]
        · rw [PollPc.step_proofMonitorActive (not_exists.mp hset)]
          exact iff_of_false hclear hset

theorem monitor (h : FlagInv s) {i : Nat} (hstep : s.monitorStep i = some t) : FlagInv t := by
  obtain ⟨m, c, m', hm, hs, rfl⟩ := monitorStep_eq_some.mp hstep
  obtain ⟨-, hlive, hexit⟩ := MonitorPc.step_pc hs
  have hi : s.Alive i := ⟨m, hm, hlive⟩
  have hidle := h.poll_idle i hi
  have hlt : i < s.monitors.length := (List.getElem?_eq_some_iff.mp hm).1
  -- monitor `i` is the only one alive before the step
  have halive : ∀ j, Alive { s with cells := c, monitors := s.monitors.set i m' } j ↔
      j = i ∧ m' ≠ .exited := by
    intro j
    by_cases hj : j = i
    · subst hj
      simp [Alive, hlt]
    · have hne : ¬ i = j := fun h => hj h.symm
      simp only [Alive, List.getElem?_set_ne hne, hj, false_and, iff_false]
      exact fun hj' => hj (h.unique j i hj' hi)
  refine ⟨?_, fun _ _ => hidle, fun j k hj hk => ?_⟩
  · have hlaunch : ¬ s.poll.Launching := by
      rintro ⟨info, hl⟩
      rw [hidle] at hl
      cases hl
    have hflag := h.flag_iff.mpr (Or.inr ⟨i, hi⟩)
    simp only [halive, hlaunch, false_or, exists_eq_left]
    by_cases hc : m = .clearActive
    · subst hc
      cases hs
      simp
    · rw [MonitorPc.step_proofMonitorActive hs hc, hflag]
      simp [hexit, hc]
  · rw [((halive j).mp hj).1, ((halive k).mp hk).1]

/-- **Step lemma**. -/
theorem step (h : FlagInv s) (hstep : Sched.step cfg s l = some t) : FlagInv t := by
  cases l with
  | elapse ms | cancel | subscribe | unsubscribe id | receive id | win message =>
    cases hstep
    exact h.congr rfl rfl rfl
  | poll answers =>
    cases hstep
    exact h.poll answers
  | monitor i => exact h.monitor hstep
  | trigger i =>
    obtain ⟨w, c, w', started, -, hs, rfl⟩ := triggerStep_eq_some.mp hstep
    exact h.congr (Trigger.step_proofMonitorActive hs) rfl rfl
  | timer i =>
    obtain ⟨r, c, pc', -, hs, rfl⟩ := timerStep_eq_some.mp hstep
    exact h.congr (TimerPc.step_proofMonitorActive hs) rfl rfl
  | timerDone i =>
    obtain ⟨r, fireAt, -, -, -, rfl⟩ := timerDoneStep_eq_some.mp hstep
    exact h.congr rfl rfl rfl

end FlagInv

/-- **Run lemma**: the flag is right in every reachable state. -/
theorem flagInv_of_reach {ok : Sched → Action → Prop} (h : (system cfg).Reach ok s) :
    FlagInv s := by
  refine h.invariant (I := FlagInv) ?_ fun s l t hs _ hstep => hs.step hstep
  rintro s rfl
  have hno : ∀ j, ¬ Alive {} j := by
    rintro j ⟨m, hm, -⟩
    simp at hm
  refine ⟨?_, fun j hj => absurd hj (hno j), fun j k hj _ => absurd hj (hno j)⟩
  simp [hno, PollPc.Launching]

-- ════════════════════════════════════════════════════════════════════════
-- The GPU while a proof is awaited
-- ════════════════════════════════════════════════════════════════════════

/-- From the decision that will launch a monitor until its wait is over, the GPU is
yielded. -/
def YieldInv (cfg : Config) (s : Sched) : Prop :=
  (s.poll.Committed cfg ∨ ∃ info, .waiting info ∈ s.monitors) → s.Yielded

namespace YieldInv

/-- Steps that leave the GPU state, the poll and the monitors alone. -/
theorem congr (h : YieldInv cfg s) (hc : t.cells.current = s.cells.current)
    (hp : t.poll = s.poll) (hm : t.monitors = s.monitors) : YieldInv cfg t := by
  intro ht
  rw [hp, hm] at ht
  simp only [Yielded, hc]
  exact h ht

theorem alive_of_waiting {info : DeadlineInfo} (h : .waiting info ∈ s.monitors) :
    ∃ j, s.Alive j := by
  obtain ⟨j, hj⟩ := List.mem_iff_getElem?.mp h
  exact ⟨j, _, hj, by simp⟩

theorem poll (hf : FlagInv s) (h : YieldInv cfg s) (answers : LotusAnswers) :
    YieldInv cfg (s.pollStep cfg answers) := by
  rintro (ht | ⟨info, hw⟩)
  · obtain ⟨hcommit, hcur⟩ | hcur := PollPc.committed_step ht
    · have := h (Or.inl hcommit)
      simp only [Yielded, pollStep, hcur]
      exact this
    · exact hcur
  · simp only [pollStep, PollPc.step_launched, List.mem_append] at hw
    obtain hw | hw := hw
    · -- a monitor is waiting: the poll finds its flag
      obtain ⟨j, hj⟩ := alive_of_waiting hw
      have hflag := hf.flag_iff.mpr (Or.inr ⟨j, hj⟩)
      have hy := h (Or.inr ⟨info, hw⟩)
      simp only [Yielded, pollStep, hf.poll_idle j hj, PollPc.step, hflag, if_true]
      exact hy
    · -- the monitor has just been started
      split at hw
      · next info' hp =>
        have hy := h (Or.inl (by rw [hp]; trivial))
        simp only [Yielded, pollStep, hp, PollPc.step]
        exact hy
      · simp at hw

theorem monitor (hf : FlagInv s) {i : Nat} (hstep : s.monitorStep i = some t) :
    YieldInv cfg t := by
  obtain ⟨m, c, m', hm, hs, rfl⟩ := monitorStep_eq_some.mp hstep
  obtain ⟨hwait, hlive, -⟩ := MonitorPc.step_pc hs
  have hi : s.Alive i := ⟨m, hm, hlive⟩
  rintro (hc | ⟨info, hw⟩)
  · rw [show s.poll = .idle from hf.poll_idle i hi] at hc
    exact hc.elim
  · -- no other monitor is alive, and this one does not wait any more
    obtain ⟨j, hj⟩ := List.mem_iff_getElem?.mp hw
    by_cases hij : i = j
    · subst hij
      have hlt := (List.getElem?_eq_some_iff.mp hm).1
      rw [List.getElem?_set_self hlt] at hj
      exact absurd (Option.some.inj hj) (hwait info)
    · rw [List.getElem?_set_ne hij] at hj
      exact absurd (hf.unique i j hi ⟨_, hj, by simp⟩) hij

/-- **Step lemma**. -/
theorem step (hf : FlagInv s) (h : YieldInv cfg s) (hok : FlagHeld cfg s l)
    (hstep : Sched.step cfg s l = some t) : YieldInv cfg t := by
  cases l with
  | elapse ms | cancel | subscribe | unsubscribe id | receive id | win message =>
    cases hstep
    exact h.congr rfl rfl rfl
  | poll answers =>
    cases hstep
    exact h.poll hf answers
  | monitor i => exact monitor hf hstep
  | trigger i =>
    obtain ⟨w, c, w', started, -, hs, rfl⟩ := triggerStep_eq_some.mp hstep
    obtain hcur | hcur := Trigger.step_current hs
    · exact fun _ => Or.inr hcur
    · exact h.congr hcur rfl rfl
  | timer i =>
    obtain ⟨r, c, pc', hr, hs, rfl⟩ := timerStep_eq_some.mp hstep
    by_cases hpc : r.pc = .applying .transition
    · -- the guard: nothing is awaited, and the poll is not committed
      obtain ⟨hflag, hcommit⟩ := hok r ⟨i, rfl, hr, hpc⟩
      rintro (hc | ⟨info, hw⟩)
      · exact absurd hc hcommit
      · have := hf.flag_iff.mpr (Or.inr (alive_of_waiting hw))
        rw [hflag] at this
        cases this
    · exact h.congr (TimerPc.step_current hs hpc) rfl rfl
  | timerDone i =>
    obtain ⟨r, fireAt, -, -, -, rfl⟩ := timerDoneStep_eq_some.mp hstep
    exact h.congr rfl rfl rfl

end YieldInv

/-- **Runs that hold the flag**: when every resume timer that writes AVAILABLE still
finds the flag clear and no poll about to set it, the GPU is yielded whenever a proof
is awaited. -/
theorem yielded_of_reach (cfg : Config) {s : Sched} (h : (system cfg).Reach (FlagHeld cfg) s)
    (ha : s.AwaitsProof) : s.Yielded := by
  have hinv : YieldInv cfg s := by
    refine h.invariant_of (I := YieldInv cfg) (J := FlagInv) (fun s hs => flagInv_of_reach hs) ?_
      fun s l t hf hy hok hstep => hy.step hf hok hstep
    rintro s rfl (hc | ⟨info, hw⟩)
    · exact hc.elim
    · cases hw
  refine hinv (ha.imp ?_ id)
  rintro ⟨info, hl⟩
  rw [hl]
  trivial

/-- A win whose timer writes AVAILABLE, the poll that launches a monitor, and a second win, whose
timer finds the monitor when its delay is over and waits again. -/
def winsAroundMonitor : List Action :=
  firstWin ++ List.replicate 5 (.timer 0) ++ List.replicate 11 (.poll openDeadline) ++
    .win "second" :: List.replicate 5 (.trigger 1) ++ [.timer 1, .elapse 5000, .timer 1, .timer 1]

/-- The first timer has written AVAILABLE before the proof is awaited, the second timer leaves the
GPU in WINNING_POST while it is. -/
theorem yielded_winsAroundMonitor :
    ∃ s, (system defaultConfig).exec {} winsAroundMonitor = some s ∧
      s.timers = [⟨1, .exited⟩, ⟨2, .waiting 15000⟩] ∧ s.AwaitsProof ∧ s.Yielded := by
  have hfinal : ((system defaultConfig).execGuarded (fun s _ =>
        (∀ r ∈ s.timers, r.pc ≠ .applying .transition) ∨
          (s.cells.proofMonitorActive = false ∧ s.poll = .idle)) {} winsAroundMonitor).any
      (fun s => s.timers = [⟨1, .exited⟩, ⟨2, .waiting 15000⟩] ∧
        .waiting (deadline0At 10) ∈ s.monitors) = true := by
    decide +kernel
  obtain ⟨s, hrun, hs⟩ := (Option.any_eq_true _ _).mp hfinal
  obtain ⟨htimers, hwait⟩ := of_decide_eq_true hs
  have hheld : ∀ l ∈ winsAroundMonitor, ∀ u : Sched,
      ((∀ r ∈ u.timers, r.pc ≠ .applying .transition) ∨
        (u.cells.proofMonitorActive = false ∧ u.poll = .idle)) → FlagHeld defaultConfig u l := by
    rintro l - u (hnone | ⟨hflag, hidle⟩) r ⟨i, -, hr, hpc⟩
    · exact absurd hpc (hnone r (List.mem_of_getElem? hr))
    · exact ⟨hflag, fun hc => by simp [hidle, PollPc.Committed] at hc⟩
  obtain ⟨hok, hexec⟩ := System.exec_of_execGuarded hheld hrun
  have hawaits : s.AwaitsProof := Or.inr ⟨deadline0At 10, hwait⟩
  exact ⟨s, hexec, htimers, hawaits,
    yielded_of_reach defaultConfig ((System.Reach.init (system_init _)).exec hok hexec) hawaits⟩

/-- A win lands while the poll waits for Lotus, and its timer passes both checks before
the poll decides. The poll then finds WINNING_POST, launches a monitor all the same,
and the timer writes AVAILABLE under it. -/
theorem winDuringPoll_not_yielded :
    ∃ s, (system defaultConfig).Reach System.anyStep s ∧ s.AwaitsProof ∧
      s.cells.current = .available := by
  let run : List Action :=
    List.replicate 2 (.poll openDeadline) ++ firstWin ++ List.replicate 2 (.timer 0) ++
      List.replicate 8 (.poll openDeadline) ++ [.timer 0]
  let s : Sched :=
    { cells :=
        { current := .available
          latestDecision := some (winningDecision defaultConfig "first")
          winningGen := 1
          proofMonitorActive := true
          sectorCache := (SectorCache.lookAhead defaultPolicy {} (deadline0At 10) fun _ => some 1).2 }
      now := 5000
      monitors := [.waiting (deadline0At 10)]
      triggers := [⟨"first", .returned 1, some 0⟩]
      timers := [⟨1, .applying (.storeLatest true)⟩] }
  have hrun : (system defaultConfig).exec {} run = some s := rfl
  exact ⟨s, System.reach_of_exec (system_init _) hrun,
    Or.inr ⟨deadline0At 10, List.mem_singleton.mpr rfl⟩, rfl⟩

end Sched

end OpenModel.Scheduler
