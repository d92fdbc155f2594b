import OpenModel.Lib.Transition
import OpenModel.Scheduler.CheckWindowPost

/-!
# Goroutines of the scheduler

The scheduler as a labelled transition system. The poll goroutine, the proof
monitors, the calls of `triggerWinningYield` and the resume timers they start each
have a program counter and take one atomic step on the shared cells at a time, in
any order. Lotus and Curio answer anything at any time, and the clock (in
milliseconds) advances between any two steps.

Only the poll goroutine touches the sector cache, so its look-ahead is one step.

## Main results

- `PollPc.run_idle`: the poll's steps, run without interference, are `checkWindowPost`
- `PollPc.step_current`, `MonitorPc.step_current`, `Trigger.step_current`,
  `TimerPc.step_current`: what each goroutine does to the GPU state
-/

namespace OpenModel.Scheduler

/-- The proof of the awaited deadline was detected, or the wait timed out. -/
def proofCompleteDecision : YieldDecision :=
  resumeDecision "proof complete, GPU available for inference"

/-- The resume timer's decision. -/
def winningResumeDecision : YieldDecision :=
  resumeDecision "WinningPoSt complete, GPU available for inference"

/-- The decision of `triggerWinningYield`. -/
def winningDecision (cfg : Config) (message : String) : YieldDecision where
  state := .winningPost
  urgency := .immediate
  reason := .winningPost
  message := "WinningPoSt: " ++ message
  secondsUntilNextChange := cfg.policy.winningPost.resumeDelaySec

-- ════════════════════════════════════════════════════════════════════════
-- The poll goroutine
-- ════════════════════════════════════════════════════════════════════════

/-- The next atomic step of the poll goroutine. -/
inductive PollPc
  /-- between two polls; a poll starts by loading `proofMonitorActive` -/
  | idle
  | loadState
  | getProvingDeadline
  | failSafe (pc : ApplyPc)
  | getSectors (info : DeadlineInfo)
  /-- apply a decision that keeps the GPU AVAILABLE, then end the poll -/
  | stayAvailable (decision : YieldDecision) (pc : ApplyPc)
  /-- `evaluateAndApply`, about to look up the completed proofs -/
  | evaluate (info : DeadlineInfo)
  | loadPrevState (info : DeadlineInfo)
  | applying (info : DeadlineInfo) (prevState : GpuState) (pc : ApplyPc)
  | setProofMonitorActive (info : DeadlineInfo)
  | launchMonitor (info : DeadlineInfo)
  deriving DecidableEq, Repr

namespace PollPc

/-- Where `evaluateAndApply` goes on once the decision is applied. -/
def afterApply (cfg : Config) (info : DeadlineInfo) (prevState : GpuState) : PollPc :=
  if cfg.launchesMonitor (cfg.policy.evaluateWindowPost info) prevState then
    setProofMonitorActive info
  else idle

/-- One atomic step of the poll goroutine, with the deadline for which it launches a
proof monitor. -/
def step (cfg : Config) (answers : LotusAnswers) (c : Cells) :
    PollPc → Cells × PollPc × Option DeadlineInfo
  | idle => if c.proofMonitorActive then (c, idle, none) else (c, loadState, none)
  | loadState =>
    if c.current = .winningPost then (c, idle, none) else (c, getProvingDeadline, none)
  | getProvingDeadline =>
    match answers.deadline with
    | none =>
      if cfg.policy.failSafeOnDisconnect then (c, failSafe .transition, none) else (c, idle, none)
    | some info => (c, getSectors info, none)
  | failSafe pc =>
    let r := pc.step false failSafeDecision c
    (r.1, r.2.elim idle failSafe, none)
  | getSectors info =>
    match c.sectorCache.lookAhead cfg.policy info answers.sectors with
    | (none, cache) =>
      ({ c with sectorCache := cache }, stayAvailable noSectorsDecision .transition, none)
    | (some target, cache) => ({ c with sectorCache := cache }, evaluate target, none)
  | stayAvailable d pc =>
    let r := pc.step true d c
    (r.1, r.2.elim idle (stayAvailable d), none)
  | evaluate info =>
    if skipsYield (cfg.policy.evaluateWindowPost info) c.completedProofs info then
      (c, stayAvailable alreadyCompletedDecision .transition, none)
    else (c, loadPrevState info, none)
  | loadPrevState info => (c, applying info c.current .transition, none)
  | applying info prevState pc =>
    let r := pc.step true (cfg.policy.evaluateWindowPost info) c
    (r.1, r.2.elim (afterApply cfg info prevState) (applying info prevState), none)
  | setProofMonitorActive info =>
    ({ c with proofMonitorActive := true }, launchMonitor info, none)
  | launchMonitor info => (c, idle, some info)

/-- Run the poll to its end without interference. -/
def run (cfg : Config) (answers : LotusAnswers) : Nat → Cells → PollPc → Cells × Option DeadlineInfo
  | 0, c, _ => (c, none)
  | fuel + 1, c, pc =>
    let r := pc.step cfg answers c
    if r.2.1 = idle then (r.1, r.2.2) else run cfg answers fuel r.1 r.2.1

variable {cfg : Config} {answers : LotusAnswers} {c : Cells} {pc : PollPc}

/-- What a step of the poll does to the cells: it leaves them, the cache apart, applies a
decision, which is guarded unless it is the fail-safe's, or sets the flag. -/
theorem step_cells (cfg : Config) (answers : LotusAnswers) (c : Cells) (pc : PollPc) :
    (∃ cache, (pc.step cfg answers c).1 = { c with sectorCache := cache }) ∨
    (∃ guarded d apply, (guarded = false → pc = failSafe apply) ∧
      (pc.step cfg answers c).1 = (apply.step guarded d c).1) ∨
    (∃ info, pc = setProofMonitorActive info ∧
      (pc.step cfg answers c).1 = { c with proofMonitorActive := true }) := by
  cases pc with
  | idle =>
    refine .inl ⟨c.sectorCache, ?_⟩
    simp only [step]
    split <;> rfl
  | loadState =>
    refine .inl ⟨c.sectorCache, ?_⟩
    simp only [step]
    split <;> rfl
  | getProvingDeadline =>
    refine .inl ⟨c.sectorCache, ?_⟩
    simp only [step]
    split <;> [split; skip] <;> rfl
  | getSectors info =>
    refine .inl ⟨(c.sectorCache.lookAhead cfg.policy info answers.sectors).2, ?_⟩
    simp only [step]
    split <;> simp [*]
  | evaluate info =>
    refine .inl ⟨c.sectorCache, ?_⟩
    simp only [step]
    split <;> rfl
  | failSafe pc => exact .inr (.inl ⟨false, failSafeDecision, pc, fun _ => rfl, rfl⟩)
  | stayAvailable d pc => exact .inr (.inl ⟨true, d, pc, nofun, rfl⟩)
  | applying info prev pc =>
    exact .inr (.inl ⟨true, cfg.policy.evaluateWindowPost info, pc, nofun, rfl⟩)
  | setProofMonitorActive info => exact .inr (.inr ⟨info, rfl, rfl⟩)
  | loadPrevState info | launchMonitor info => exact .inl ⟨c.sectorCache, rfl⟩

@[simp] theorem step_winningGen : (pc.step cfg answers c).1.winningGen = c.winningGen := by
  obtain ⟨cache, h⟩ | ⟨guarded, d, apply, -, h⟩ | ⟨info, -, h⟩ := pc.step_cells cfg answers c
  · rw [h]
  · rw [h, ApplyPc.step_winningGen]
  · rw [h]

/-- Only the store of the flag changes it. -/
theorem step_proofMonitorActive (h : ∀ info, pc ≠ setProofMonitorActive info) :
    (pc.step cfg answers c).1.proofMonitorActive = c.proofMonitorActive := by
  obtain ⟨cache, hc⟩ | ⟨guarded, d, apply, -, hc⟩ | ⟨info, hpc, -⟩ := pc.step_cells cfg answers c
  · rw [hc]
  · rw [hc, ApplyPc.step_proofMonitorActive]
  · exact absurd hpc (h info)

/-- A step of the poll other than the fail-safe's write leaves WINNING_POST alone. -/
theorem step_current_of_winningPost (hw : c.current = .winningPost)
    (h : pc ≠ failSafe .transition) : (pc.step cfg answers c).1.current = .winningPost := by
  obtain ⟨cache, hc⟩ | ⟨guarded, d, apply, hguarded, hc⟩ | ⟨info, -, hc⟩ :=
    pc.step_cells cfg answers c
  · rw [hc]
    exact hw
  · rw [hc]
    cases guarded with
    | true => exact ApplyPc.step_current_of_guarded hw
    | false =>
      have hne : apply ≠ .transition := fun heq => h (by rw [hguarded rfl, heq])
      exact (ApplyPc.step_current_of_ne hne).trans hw
  · rw [hc]
    exact hw

/-- A poll that applies a decision goes on after the call with the call's cells. -/
theorem run_apply (k : ApplyPc → PollPc) (next : PollPc) (n : Nat) {guarded : Bool}
    {d : YieldDecision} {R : Cells × Option DeadlineInfo}
    (hk : ∀ c pc, (k pc).step cfg answers c =
      ((pc.step guarded d c).1, (pc.step guarded d c).2.elim next k, none))
    (hidle : ∀ pc, k pc ≠ idle) {f m : Nat} {pc : ApplyPc} (hf : pc.left ≤ f) (hm : n + f ≤ m)
    (hnext : ∀ m, n ≤ m → (if next = idle then (ApplyPc.run guarded d f c pc, none)
      else run cfg answers m (ApplyPc.run guarded d f c pc) next) = R) :
    run cfg answers m c (k pc) = R := by
  induction f generalizing m c pc with
  | zero => exact absurd pc.left_pos (by omega)
  | succ f ih =>
    obtain ⟨m, rfl⟩ : ∃ m', m = m' + 1 := ⟨m - 1, by omega⟩
    rw [run, hk]
    cases hr : (pc.step guarded d c).2 with
    | none =>
      have hrun : ApplyPc.run guarded d (f + 1) c pc = (pc.step guarded d c).1 := by
        simp only [ApplyPc.run]
        split <;> simp_all
      have := hnext m (by omega)
      rw [hrun] at this
      by_cases hn : next = idle <;> simpa [hn] using this
    | some pc' =>
      have hrun : ApplyPc.run guarded d (f + 1) c pc =
          ApplyPc.run guarded d f (pc.step guarded d c).1 pc' := by
        simp only [ApplyPc.run]
        split <;> simp_all
      have hlt := ApplyPc.left_step hr
      simp only [Option.elim_some, hidle, if_false]
      exact ih (by omega) (by omega) fun m hm => hrun ▸ hnext m hm

/-- The last two steps of a poll that launches a monitor. -/
theorem run_setProofMonitorActive (info : DeadlineInfo) (c : Cells) (m : Nat) :
    run cfg answers (m + 2) c (setProofMonitorActive info) =
      ({ c with proofMonitorActive := true }, some info) := by
  simp [run, step]

theorem run_stayAvailable (d : YieldDecision) (c : Cells) (m : Nat) :
    run cfg answers (m + 3) c (stayAvailable d .transition) =
      (c.applyDecisionUnlessWinning d, none) := by
  refine run_apply (stayAvailable d) idle m (f := 3)
    (fun _ _ => rfl) (fun _ => nofun) le_rfl le_rfl fun m _ => ?_
  simp [ApplyPc.run_transition]

/-- The steps of `evaluateAndApply` are the function. -/
theorem run_evaluate (info : DeadlineInfo) (c : Cells) (m : Nat) :
    run cfg answers (m + 7) c (evaluate info) = evaluateAndApply cfg c info := by
  rw [run]
  by_cases hs : skipsYield (cfg.policy.evaluateWindowPost info) c.completedProofs info = true
  · simp only [step, hs, if_true, reduceCtorEq, if_false, evaluateAndApply]
    exact run_stayAvailable _ _ (m + 3)
  · have hs' : skipsYield (cfg.policy.evaluateWindowPost info) c.completedProofs info = false := by
      simpa using hs
    simp only [step, hs', Bool.false_eq_true, reduceCtorEq, if_false, evaluateAndApply]
    rw [run]
    simp only [step, reduceCtorEq, if_false]
    refine run_apply (applying info c.current) _ (m + 2) (f := 3)
      (fun _ _ => rfl) (fun _ => nofun) le_rfl le_rfl fun m' hm => ?_
    obtain ⟨m', rfl⟩ : ∃ i, m' = i + 2 := ⟨m' - 2, by omega⟩
    by_cases hl : cfg.launchesMonitor (cfg.policy.evaluateWindowPost info) c.current = true
    · simp [afterApply, hl, ApplyPc.run_transition, run_setProofMonitorActive]
    · simp [afterApply, hl, ApplyPc.run_transition]

/-- **The poll goroutine refines the poll**: without interference its steps compute
`checkWindowPost`. -/
theorem run_idle (c : Cells) : run cfg answers 11 c idle = checkWindowPost cfg c answers := by
  rw [run]
  by_cases hactive : c.proofMonitorActive = true
  · simp [step, hactive, checkWindowPost]
  simp only [step, checkWindowPost, if_neg hactive, if_false, reduceCtorEq]
  rw [run]
  by_cases hw : c.current = .winningPost
  · simp [step, hw]
  simp only [step, hw, if_false, reduceCtorEq]
  rw [run]
  cases hd : answers.deadline with
  | none =>
    by_cases hf : cfg.policy.failSafeOnDisconnect = true
    · simp only [step, hd, hf, if_true, if_false, reduceCtorEq]
      refine run_apply failSafe idle 5 (f := 3)
        (fun _ _ => rfl) (fun _ => nofun) le_rfl le_rfl fun m _ => ?_
      simp [ApplyPc.run_transition]
    · simp [step, hd, hf]
  | some info =>
    simp only [step, hd, if_false, reduceCtorEq]
    rw [run]
    rcases hl : c.sectorCache.lookAhead cfg.policy info answers.sectors with ⟨target, cache⟩
    cases target with
    | none =>
      simp only [step, hl, if_false, reduceCtorEq]
      exact run_stayAvailable _ _ 4
    | some target =>
      simp only [step, hl, if_false, reduceCtorEq]
      exact run_evaluate _ _ 0

/-- A decision that is to keep the GPU AVAILABLE says so. -/
def Stays : PollPc → Prop
  | stayAvailable d _ => d.state = .available
  | _ => True

theorem stays_step (h : pc.Stays) : (pc.step cfg answers c).2.1.Stays := by
  cases pc with
  | idle | loadState => simp only [step]; split <;> trivial
  | getProvingDeadline => simp only [step]; split <;> [split; skip] <;> trivial
  | getSectors info => simp only [step]; split <;> trivial
  | evaluate info => simp only [step]; split <;> trivial
  | failSafe a =>
    simp only [step]
    cases (a.step false failSafeDecision c).2 <;> trivial
  | stayAvailable d a =>
    simp only [step]
    cases (a.step true d c).2 with
    | none => trivial
    | some a' => exact h
  | applying info prev a =>
    simp only [step]
    cases (a.step true (cfg.policy.evaluateWindowPost info) c).2 with
    | none =>
      show (afterApply cfg info prev).Stays
      unfold afterApply
      split <;> trivial
    | some a' => trivial
  | loadPrevState info | setProofMonitorActive info | launchMonitor info => trivial

end PollPc

-- ════════════════════════════════════════════════════════════════════════
-- Proof monitors
-- ════════════════════════════════════════════════════════════════════════

/-- The next atomic step of `waitForProofAndResume`. -/
inductive MonitorPc
  /-- inside `WaitForProofComplete` -/
  | waiting (info : DeadlineInfo)
  | markCompleted (info : DeadlineInfo)
  | applying (pc : ApplyPc)
  | clearActive
  | exited
  deriving DecidableEq, Repr

/-- One atomic step of a proof monitor. -/
def MonitorPc.step (c : Cells) : MonitorPc → Option (Cells × MonitorPc)
  | waiting info => some (c, markCompleted info)
  | markCompleted info =>
    some ({ c with completedProofs := markProofCompleted c.completedProofs info.proofKey },
      applying .transition)
  | applying pc =>
    let r := pc.step true proofCompleteDecision c
    some (r.1, r.2.elim clearActive applying)
  | clearActive => some ({ c with proofMonitorActive := false }, exited)
  | exited => none

namespace MonitorPc

variable {c c' : Cells} {m m' : MonitorPc}

theorem step_winningGen (h : m.step c = some (c', m')) : c'.winningGen = c.winningGen := by
  cases m <;> simp only [step, Option.some.injEq, Prod.mk.injEq, reduceCtorEq] at h <;>
    obtain ⟨rfl, -⟩ := h <;> simp

/-- Only the end of a monitor changes the flag. -/
theorem step_proofMonitorActive (h : m.step c = some (c', m')) (hm : m ≠ clearActive) :
    c'.proofMonitorActive = c.proofMonitorActive := by
  cases m <;> simp only [step, Option.some.injEq, Prod.mk.injEq, reduceCtorEq] at h <;>
    obtain ⟨rfl, -⟩ := h <;> first | exact absurd rfl hm | simp

/-- A monitor leaves WINNING_POST alone. -/
theorem step_current_of_winningPost (h : m.step c = some (c', m'))
    (hw : c.current = .winningPost) : c'.current = .winningPost := by
  cases m <;> simp only [step, Option.some.injEq, Prod.mk.injEq, reduceCtorEq] at h <;>
    obtain ⟨rfl, -⟩ := h <;> first | exact hw | exact ApplyPc.step_current_of_guarded hw

/-- A monitor never waits again, and exits only at its end. -/
theorem step_pc (h : m.step c = some (c', m')) :
    (∀ info, m' ≠ waiting info) ∧ m ≠ exited ∧ (m' = exited ↔ m = clearActive) := by
  cases m with
  | applying pc =>
    simp only [step, Option.some.injEq, Prod.mk.injEq] at h
    obtain ⟨-, rfl⟩ := h
    cases (pc.step true proofCompleteDecision c).2 <;> simp
  | _ =>
    simp only [step, Option.some.injEq, Prod.mk.injEq, reduceCtorEq] at h
    try obtain ⟨-, rfl⟩ := h
    try simp

end MonitorPc

-- ════════════════════════════════════════════════════════════════════════
-- Win triggers and resume timers
-- ════════════════════════════════════════════════════════════════════════

/-- The next atomic step of `triggerWinningYield`. -/
inductive TriggerPc
  | applying (pc : ApplyPc)
  | bumpGen
  | startTimer (gen : Int)
  | returned (gen : Int)
  deriving DecidableEq, Repr

/-- A call of `triggerWinningYield`. `wroteAt`, which the program does not keep, is the
time of its WINNING_POST write. -/
structure Trigger where
  message : String
  pc : TriggerPc := .applying .transition
  wroteAt : Option Nat := none
  deriving DecidableEq, Repr

namespace Trigger

/-- One atomic step of a trigger, with the generation of the timer it starts. -/
def step (cfg : Config) (now : Nat) (c : Cells) (t : Trigger) :
    Option (Cells × Trigger × Option Int) :=
  match t.pc with
  | .applying pc =>
    let r := pc.step false (winningDecision cfg t.message) c
    let wroteAt := if pc = .transition then some now else t.wroteAt
    some (r.1, { t with pc := r.2.elim .bumpGen .applying, wroteAt := wroteAt }, none)
  | .bumpGen =>
    some ({ c with winningGen := c.winningGen + 1 },
      { t with pc := .startTimer (c.winningGen + 1) }, none)
  | .startTimer gen => some (c, { t with pc := .returned gen }, some gen)
  | .returned _ => none

/-- The generation that the trigger has claimed. -/
def gen? (t : Trigger) : Option Int :=
  match t.pc with
  | .applying _ | .bumpGen => none
  | .startTimer gen | .returned gen => some gen

variable {cfg : Config} {now : Nat} {c c' : Cells} {t t' : Trigger} {started : Option Int}

/-- What a trigger can do next. -/
theorem step_cases (h : t.step cfg now c = some (c', t', started)) :
    (∃ a, t.pc = .applying a ∧ c' = (a.step false (winningDecision cfg t.message) c).1 ∧
      t'.pc = (a.step false (winningDecision cfg t.message) c).2.elim .bumpGen .applying ∧
      t'.wroteAt = (if a = .transition then some now else t.wroteAt) ∧ started = none) ∨
    (t.pc = .bumpGen ∧ c' = { c with winningGen := c.winningGen + 1 } ∧
      t'.pc = .startTimer (c.winningGen + 1) ∧ t'.wroteAt = t.wroteAt ∧ started = none) ∨
    (∃ gen, t.pc = .startTimer gen ∧ c' = c ∧ t'.pc = .returned gen ∧
      t'.wroteAt = t.wroteAt ∧ started = some gen) := by
  simp only [step] at h
  split at h
  · next a ha =>
    cases h
    exact Or.inl ⟨a, ha, rfl, rfl, rfl, rfl⟩
  · next hb =>
    cases h
    exact Or.inr (Or.inl ⟨hb, rfl, rfl, rfl, rfl⟩)
  · next gen hg =>
    cases h
    exact Or.inr (Or.inr ⟨gen, hg, rfl, rfl, rfl, rfl⟩)
  · cases h

theorem step_proofMonitorActive (h : t.step cfg now c = some (c', t', started)) :
    c'.proofMonitorActive = c.proofMonitorActive := by
  obtain ⟨a, -, rfl, -⟩ | ⟨-, rfl, -⟩ | ⟨gen, -, rfl, -⟩ := step_cases h <;> simp

/-- A trigger writes WINNING_POST or leaves the GPU state alone. -/
theorem step_current (h : t.step cfg now c = some (c', t', started)) :
    c'.current = .winningPost ∨ c'.current = c.current := by
  obtain ⟨a, -, rfl, -⟩ | ⟨-, rfl, -⟩ | ⟨gen, -, rfl, -⟩ := step_cases h
  · rw [ApplyPc.step_current]
    split
    · exact Or.inl rfl
    · exact Or.inr rfl
  · exact Or.inr rfl
  · exact Or.inr rfl

end Trigger

/-- The next atomic step of a resume timer's goroutine. -/
inductive TimerPc
  /-- about to create the timer -/
  | newTimer
  /-- waiting until `fireAt`, then about to load `winningGen` -/
  | waiting (fireAt : Nat)
  | loadActive
  | applying (pc : ApplyPc)
  | exited
  deriving DecidableEq, Repr

/-- A resume timer with the generation of its win. -/
structure Timer where
  gen : Int
  pc : TimerPc := .newTimer
  deriving DecidableEq, Repr

/-- One atomic step of a resume timer. A timer that has not fired yet has none. -/
def TimerPc.step (cfg : Config) (now : Nat) (gen : Int) (c : Cells) :
    TimerPc → Option (Cells × TimerPc)
  | newTimer => some (c, waiting (now + cfg.resumeDelay))
  | waiting fireAt =>
    if fireAt ≤ now then
      if c.winningGen ≠ gen then some (c, exited) else some (c, loadActive)
    else none
  | loadActive =>
    if c.proofMonitorActive then some (c, waiting (now + cfg.resumeDelay))
    else some (c, applying .transition)
  | applying pc =>
    let r := pc.step false winningResumeDecision c
    some (r.1, r.2.elim exited applying)
  | exited => none

namespace TimerPc

variable {cfg : Config} {now : Nat} {gen : Int} {c c' : Cells} {pc pc' : TimerPc}

/-- What a timer can do next. -/
theorem step_cases (h : pc.step cfg now gen c = some (c', pc')) :
    (pc = newTimer ∧ c' = c ∧ pc' = waiting (now + cfg.resumeDelay)) ∨
    (∃ fireAt, pc = waiting fireAt ∧ fireAt ≤ now ∧ c' = c ∧
      pc' = if c.winningGen = gen then loadActive else exited) ∨
    (pc = loadActive ∧ c' = c ∧
      pc' = if c.proofMonitorActive then waiting (now + cfg.resumeDelay) else applying .transition) ∨
    (∃ a, pc = applying a ∧ c' = (a.step false winningResumeDecision c).1 ∧
      pc' = (a.step false winningResumeDecision c).2.elim exited applying) := by
  cases pc with
  | newTimer =>
    cases h
    simp
  | waiting fireAt =>
    simp only [step, ne_eq, ite_not] at h
    refine Or.inr (Or.inl ⟨fireAt, rfl, ?_⟩)
    split_ifs at h with hf hg <;> cases h <;> simp [hf, hg]
  | loadActive =>
    simp only [step] at h
    split_ifs at h with ha <;> cases h <;> simp [ha]
  | applying a =>
    cases h
    simp
  | exited => cases h

theorem step_winningGen (h : pc.step cfg now gen c = some (c', pc')) :
    c'.winningGen = c.winningGen := by
  obtain ⟨-, rfl, -⟩ | ⟨f, -, -, rfl, -⟩ | ⟨-, rfl, -⟩ | ⟨a, -, rfl, -⟩ := step_cases h <;> simp

theorem step_proofMonitorActive (h : pc.step cfg now gen c = some (c', pc')) :
    c'.proofMonitorActive = c.proofMonitorActive := by
  obtain ⟨-, rfl, -⟩ | ⟨f, -, -, rfl, -⟩ | ⟨-, rfl, -⟩ | ⟨a, -, rfl, -⟩ := step_cases h <;> simp

/-- Only the write of a timer changes the GPU state. -/
theorem step_current (h : pc.step cfg now gen c = some (c', pc'))
    (hpc : pc ≠ applying .transition) : c'.current = c.current := by
  obtain ⟨-, rfl, -⟩ | ⟨f, -, -, rfl, -⟩ | ⟨-, rfl, -⟩ | ⟨a, rfl, rfl, -⟩ := step_cases h
  · rfl
  · rfl
  · rfl
  · exact ApplyPc.step_current_of_ne fun ha => hpc (by rw [ha])

end TimerPc

-- ════════════════════════════════════════════════════════════════════════
-- The system
-- ════════════════════════════════════════════════════════════════════════

/-- The shared cells, the clock, and the goroutines alive or gone. -/
structure Sched where
  cells : Cells := {}
  now : Nat := 0
  cancelled : Bool := false
  poll : PollPc := .idle
  monitors : List MonitorPc := []
  triggers : List Trigger := []
  timers : List Timer := []

/-- What happens next. -/
inductive Action
  | elapse (ms : Nat)
  | cancel
  | subscribe
  | unsubscribe (id : Nat)
  | receive (id : Nat)
  | poll (answers : LotusAnswers)
  | monitor (i : Nat)
  /-- the log watcher, the DB poll or the debug endpoint calls `triggerWinningYield` -/
  | win (message : String)
  | trigger (i : Nat)
  | timer (i : Nat)
  /-- a waiting timer sees its context cancelled -/
  | timerDone (i : Nat)

namespace Sched

/-- Replace the cells. -/
def setCells (s : Sched) (c : Cells) : Sched := { s with cells := c }

def pollStep (cfg : Config) (s : Sched) (answers : LotusAnswers) : Sched :=
  let r := s.poll.step cfg answers s.cells
  { s with
    cells := r.1
    poll := r.2.1
    monitors := s.monitors ++ r.2.2.toList.map .waiting }

def monitorStep (s : Sched) (i : Nat) : Option Sched :=
  s.monitors[i]?.bind fun m => (m.step s.cells).map fun r =>
    { s with cells := r.1, monitors := s.monitors.set i r.2 }

def triggerStep (cfg : Config) (s : Sched) (i : Nat) : Option Sched :=
  s.triggers[i]?.bind fun t => (t.step cfg s.now s.cells).map fun r =>
    { s with
      cells := r.1
      triggers := s.triggers.set i r.2.1
      timers := s.timers ++ r.2.2.toList.map fun gen => { gen := gen } }

def timerStep (cfg : Config) (s : Sched) (i : Nat) : Option Sched :=
  s.timers[i]?.bind fun t => (t.pc.step cfg s.now t.gen s.cells).map fun r =>
    { s with cells := r.1, timers := s.timers.set i { t with pc := r.2 } }

def timerDoneStep (s : Sched) (i : Nat) : Option Sched :=
  s.timers[i]?.bind fun t =>
    match t.pc with
    | .waiting _ =>
      if s.cancelled then some { s with timers := s.timers.set i { t with pc := .exited } } else none
    | _ => none

/-- An entry of a list is still there after another one was replaced. -/
theorem mem_set_or_eq {α : Type} {xs : List α} {i : Nat} {x y z : α} (hx : xs[i]? = some x)
    (hz : z ∈ xs) : z = x ∨ z ∈ xs.set i y := by
  obtain ⟨j, hj⟩ := List.mem_iff_getElem?.mp hz
  by_cases hij : i = j
  · subst hij
    exact .inl (Option.some.inj (hj.symm.trans hx))
  · refine .inr (List.mem_of_getElem? (i := j) ?_)
    rw [List.getElem?_set_ne hij, hj]

variable {cfg : Config} {s t : Sched} {i : Nat}

theorem monitorStep_eq_some : s.monitorStep i = some t ↔
    ∃ m c m', s.monitors[i]? = some m ∧ m.step s.cells = some (c, m') ∧
      { s with cells := c, monitors := s.monitors.set i m' } = t := by
  simp only [monitorStep, Option.bind_eq_some_iff, Option.map_eq_some_iff, Prod.exists]
  tauto

theorem triggerStep_eq_some : s.triggerStep cfg i = some t ↔
    ∃ w c w' started, s.triggers[i]? = some w ∧ w.step cfg s.now s.cells = some (c, w', started) ∧
      { s with
        cells := c
        triggers := s.triggers.set i w'
        timers := s.timers ++ started.toList.map fun gen => { gen := gen } } = t := by
  simp only [triggerStep, Option.bind_eq_some_iff, Option.map_eq_some_iff, Prod.exists]
  tauto

theorem timerStep_eq_some : s.timerStep cfg i = some t ↔
    ∃ r c pc', s.timers[i]? = some r ∧ r.pc.step cfg s.now r.gen s.cells = some (c, pc') ∧
      { s with cells := c, timers := s.timers.set i { r with pc := pc' } } = t := by
  simp only [timerStep, Option.bind_eq_some_iff, Option.map_eq_some_iff, Prod.exists]
  tauto

theorem timerDoneStep_eq_some : s.timerDoneStep i = some t ↔
    ∃ r fireAt, s.timers[i]? = some r ∧ r.pc = .waiting fireAt ∧ s.cancelled = true ∧
      { s with timers := s.timers.set i { r with pc := .exited } } = t := by
  simp only [timerDoneStep, Option.bind_eq_some_iff]
  constructor
  · rintro ⟨r, hr, h⟩
    split at h
    · next f hf =>
      split_ifs at h with hc
      exact ⟨r, f, hr, hf, hc, Option.some.inj h⟩
    · cases h
  · rintro ⟨r, f, hr, hf, hc, rfl⟩
    exact ⟨r, hr, by simp [hf, hc]⟩

/-- One step of the whole scheduler. -/
def step (cfg : Config) (s : Sched) : Action → Option Sched
  | .elapse ms => some { s with now := s.now + ms }
  | .cancel => some { s with cancelled := true }
  | .subscribe => some (s.setCells s.cells.subscribe)
  | .unsubscribe id => some (s.setCells (s.cells.unsubscribe id))
  | .receive id => some (s.setCells (s.cells.receive id))
  | .poll answers => some (s.pollStep cfg answers)
  | .monitor i => s.monitorStep i
  | .win message => some { s with triggers := s.triggers ++ [{ message := message }] }
  | .trigger i => s.triggerStep cfg i
  | .timer i => s.timerStep cfg i
  | .timerDone i => s.timerDoneStep i

/-- The poll goroutine moves in its own steps only. -/
theorem poll_of_step {l : Action} (hstep : s.step cfg l = some t) (hl : ∀ answers, l ≠ .poll answers) :
    t.poll = s.poll := by
  cases l with
  | poll answers => exact absurd rfl (hl answers)
  | monitor i =>
    obtain ⟨m, c, m', -, -, rfl⟩ := monitorStep_eq_some.mp hstep
    rfl
  | trigger i =>
    obtain ⟨w, c, w', started, -, -, rfl⟩ := triggerStep_eq_some.mp hstep
    rfl
  | timer i =>
    obtain ⟨r, c, pc', -, -, rfl⟩ := timerStep_eq_some.mp hstep
    rfl
  | timerDone i =>
    obtain ⟨r, fireAt, -, -, -, rfl⟩ := timerDoneStep_eq_some.mp hstep
    rfl
  | _ =>
    cases hstep
    rfl

/-- The scheduler from its start on. -/
def system (cfg : Config) : Transition.System Sched Action where
  init s := s = {}
  step := step cfg

theorem system_init (cfg : Config) : (system cfg).init {} := rfl

/-- **Run lemma**: the poll stays AVAILABLE only with such a decision. -/
theorem stays_of_reach {ok : Sched → Action → Prop} (h : (system cfg).Reach ok s) :
    s.poll.Stays := by
  refine h.invariant (I := fun s => s.poll.Stays) ?_ fun s l t hs _ hstep => ?_
  · rintro s rfl
    trivial
  · cases l with
    | poll answers =>
      cases hstep
      exact PollPc.stays_step hs
    | monitor i =>
      obtain ⟨m, c, m', -, -, rfl⟩ := monitorStep_eq_some.mp hstep
      exact hs
    | trigger i =>
      obtain ⟨w, c, w', started, -, -, rfl⟩ := triggerStep_eq_some.mp hstep
      exact hs
    | timer i =>
      obtain ⟨r, c, pc', -, -, rfl⟩ := timerStep_eq_some.mp hstep
      exact hs
    | timerDone i =>
      obtain ⟨r, fireAt, -, -, -, rfl⟩ := timerDoneStep_eq_some.mp hstep
      exact hs
    | _ =>
      cases hstep
      exact hs

end Sched

end OpenModel.Scheduler
