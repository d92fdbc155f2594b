import OpenModel.Scheduler.Goroutines

/-!
# The winning path

Two properties of every interleaving of win triggers, resume timers, polls and
proof monitors. The WindowPoSt side leaves WINNING_POST alone, apart from the
fail-safe, which writes without looking. And a resume timer does not write
AVAILABLE within the resume delay after a win, provided that its generation check
still holds when it writes.

## Main results

- `keepsWin_iff`, `win_kept`: WINNING_POST is left by resume timers only, and by the
  fail-safe's write
- `WinInv`, `winInv_of_reach`: the times of the wins and of the timers that may resume
- `noEarlyResume`: no timer resumes within the delay of a win whose generation it
  has seen
-/

namespace OpenModel.Scheduler

open Transition (System)

/-- The time from which a timer that is past its creation may resume. -/
def TimerPc.ripeAt (now : Nat) : TimerPc → Option Nat
  | newTimer | exited => none
  | waiting fireAt => some fireAt
  | loadActive | applying _ => some now

namespace Sched

variable {cfg : Config} {s t : Sched} {l : Action}

/-- The step does not leave WINNING_POST, unless it is a resume timer's. -/
def KeepsWin (s : Sched) (l : Action) (t : Sched) : Prop :=
  s.cells.current = .winningPost → t.cells.current ≠ .winningPost → ∃ i, l = .timer i

/-- The step is not the fail-safe's write while WINNING_POST is current. -/
def FailSafeSparesWin (s : Sched) (l : Action) : Prop :=
  s.cells.current = .winningPost → (∃ answers, l = .poll answers) → s.poll ≠ .failSafe .transition

/-- **Step lemma**: a step that is no resume timer's and not the fail-safe's write
leaves WINNING_POST alone. -/
theorem current_of_failSafeSparesWin (hstep : step cfg s l = some t) (hok : FailSafeSparesWin s l)
    (hw : s.cells.current = .winningPost) (hl : ∀ i, l ≠ .timer i) :
    t.cells.current = .winningPost := by
  cases l with
  | elapse ms | cancel | subscribe | unsubscribe id | receive id | win message =>
    cases hstep
    exact hw
  | poll answers =>
    cases hstep
    exact PollPc.step_current_of_winningPost hw (hok hw ⟨answers, rfl⟩)
  | monitor i =>
    obtain ⟨m, c, m', -, hm, rfl⟩ := monitorStep_eq_some.mp hstep
    exact MonitorPc.step_current_of_winningPost hm hw
  | trigger i =>
    obtain ⟨w, c, w', started, -, hs, rfl⟩ := triggerStep_eq_some.mp hstep
    exact (Trigger.step_current hs).elim id fun h => h.trans hw
  | timer i => exact absurd rfl (hl i)
  | timerDone i =>
    obtain ⟨r, fireAt, -, -, -, rfl⟩ := timerDoneStep_eq_some.mp hstep
    exact hw

/-- **Exact condition** for one step. -/
theorem keepsWin_iff (hstep : step cfg s l = some t) :
    KeepsWin s l t ↔ FailSafeSparesWin s l := by
  constructor
  · rintro hkeep hw ⟨answers, rfl⟩ hpoll
    have ht : t.cells.current = .windowPost := by
      cases hstep
      simp [pollStep, hpoll, PollPc.step, ApplyPc.step_current, failSafeDecision]
    obtain ⟨i, hi⟩ := hkeep hw (by simp [ht])
    cases hi
  · intro hok hw ht
    by_contra hl
    exact ht (current_of_failSafeSparesWin hstep hok hw (not_exists.mp hl))

/-- **WINNING_POST belongs to the winning path.** A step leaves it exactly when it is
a resume timer's or the fail-safe's write; and in a run in which the fail-safe never
writes over it, it stays until a resume timer takes a step. -/
theorem win_kept (cfg : Config) :
    (∀ s l t, (system cfg).step s l = some t → (KeepsWin s l t ↔ FailSafeSparesWin s l)) ∧
    ∀ s ls t, s.cells.current = .winningPost → (∀ i, Action.timer i ∉ ls) →
      (system cfg).ExecOk FailSafeSparesWin s ls → (system cfg).exec s ls = some t →
      t.cells.current = .winningPost := by
  refine ⟨fun s l t hstep => keepsWin_iff hstep, fun s ls t hw hls hok hexec => ?_⟩
  induction ls generalizing s with
  | nil =>
    cases hexec
    exact hw
  | cons l ls ih =>
    obtain ⟨u, hu, hrest⟩ := Option.bind_eq_some_iff.mp hexec
    have hl : ∀ i, l ≠ .timer i := fun i hi => hls i (hi ▸ List.mem_cons_self)
    have hcur := current_of_failSafeSparesWin hu hok.1 hw hl
    exact ih u hcur (fun i hi => hls i (List.mem_cons_of_mem _ hi)) (hok.2 u hu) hrest

/-- Lotus answers nothing. -/
def noAnswer : LotusAnswers := ⟨none, fun _ => none⟩

/-- A configuration with the fail-safe, a proof monitor and the default delays. -/
def defaultConfig : Config := ⟨defaultPolicy, true, 0⟩

/-- Deadline 0, with sectors, is open. -/
def openDeadline : LotusAnswers := ⟨some (deadline0At 10), fun _ => some 1⟩

/-- The rest of a poll that waits for Lotus while a win lands, the rest of the trigger, a second
win, the whole of the proof monitor, and a poll that finds WINNING_POST. -/
def polledWin : List Action :=
  List.replicate 8 (.poll openDeadline) ++ List.replicate 4 (.trigger 0) ++
    .win "second" :: List.replicate 4 (.trigger 1) ++ List.replicate 5 (.monitor 0) ++
    List.replicate 2 (.poll noAnswer)

/-- Lotus answers the poll, which decides WINDOW_POST and launches a monitor; the monitor decides
AVAILABLE when it is done. WINNING_POST stays. -/
theorem win_kept_polledWin :
    ∃ s t, (system defaultConfig).exec {} [.poll openDeadline, .poll openDeadline, .win "first",
        .trigger 0] = some s ∧ (system defaultConfig).exec s polledWin = some t ∧
      t.monitors = [.exited] ∧ t.timers.length = 2 ∧ t.cells.current = .winningPost := by
  let s : Sched :=
    { cells := { current := .winningPost }
      poll := .getProvingDeadline
      triggers := [⟨"first", .applying (.storeLatest true), some 0⟩] }
  have hfinal : ((system defaultConfig).execGuarded (fun s _ => s.poll ≠ .failSafe .transition) s
      polledWin).any (fun t => t.monitors = [.exited] ∧ t.timers.length = 2) = true := by
    decide +kernel
  obtain ⟨t, hrun, ht⟩ := (Option.any_eq_true _ _).mp hfinal
  obtain ⟨hmonitors, htimers⟩ := of_decide_eq_true ht
  have hspares : ∀ l ∈ polledWin, ∀ s : Sched, s.poll ≠ .failSafe .transition →
      FailSafeSparesWin s l := fun _ _ _ hpoll _ _ => hpoll
  obtain ⟨hok, hexec⟩ := System.exec_of_execGuarded hspares hrun
  refine ⟨s, t, rfl, hexec, hmonitors, htimers, (win_kept defaultConfig).2 s polledWin t rfl ?_ hok
    hexec⟩
  intro i
  simp [polledWin]

/-- A win lands while a poll waits for Lotus; Lotus then fails and the fail-safe
writes WINDOW_POST over WINNING_POST. -/
theorem failSafe_not_keepsWin :
    ∃ s t, (system defaultConfig).Reach System.anyStep s ∧
      (system defaultConfig).step s (.poll noAnswer) = some t ∧ ¬ KeepsWin s (.poll noAnswer) t := by
  let run : List Action :=
    [.poll noAnswer, .poll noAnswer, .win "w", .trigger 0, .poll noAnswer]
  let s : Sched :=
    { cells := { current := .winningPost }
      poll := .failSafe .transition
      triggers := [⟨"w", .applying (.storeLatest true), some 0⟩] }
  have hrun : (system defaultConfig).exec {} run = some s := rfl
  refine ⟨s, s.pollStep defaultConfig noAnswer, System.reach_of_exec (system_init _) hrun, rfl, ?_⟩
  intro hkeep
  obtain ⟨i, hi⟩ := hkeep rfl (by decide)
  cases hi

/-- The step is the AVAILABLE write of resume timer `r`. -/
def Resumes (s : Sched) (l : Action) (r : Timer) : Prop :=
  ∃ i, l = .timer i ∧ s.timers[i]? = some r ∧ r.pc = .applying .transition

/-- The timer's generation check still holds when it writes: its generation is the
current one, and no trigger stands between its WINNING_POST write and its bump. -/
def GenerationHeld (s : Sched) (l : Action) : Prop :=
  ∀ r, Resumes s l r → r.gen = s.cells.winningGen ∧
    ∀ w ∈ s.triggers, w.wroteAt.isSome → w.gen?.isSome

/-- A timer that writes AVAILABLE does so at least the resume delay after every
WINNING_POST write. -/
def NoEarlyResume (cfg : Config) (s : Sched) (l : Action) : Prop :=
  ∀ r, Resumes s l r → ∀ w ∈ s.triggers, ∀ a, w.wroteAt = some a → a + cfg.resumeDelay ≤ s.now

/-- The wins and the timers in time: a timer is ripe no earlier than the resume delay
after every win whose generation is at most its own. -/
structure WinInv (cfg : Config) (s : Sched) : Prop where
  wroteAt_le : ∀ w ∈ s.triggers, ∀ a, w.wroteAt = some a → a ≤ s.now
  gen_le : ∀ w ∈ s.triggers, ∀ g, w.gen? = some g → g ≤ s.cells.winningGen
  timer_gen_le : ∀ r ∈ s.timers, r.gen ≤ s.cells.winningGen
  ripe : ∀ r ∈ s.timers, ∀ ripe, r.pc.ripeAt s.now = some ripe → ∀ w ∈ s.triggers, ∀ g a,
    w.gen? = some g → g ≤ r.gen → w.wroteAt = some a → a + cfg.resumeDelay ≤ ripe

namespace WinInv

/-- Steps that touch neither triggers, timers, generation nor clock. -/
theorem congr (h : WinInv cfg s) (hgen : t.cells.winningGen = s.cells.winningGen)
    (hnow : t.now = s.now) (hw : t.triggers = s.triggers) (hr : t.timers = s.timers) :
    WinInv cfg t where
  wroteAt_le := by rw [hw, hnow]; exact h.wroteAt_le
  gen_le := by rw [hw, hgen]; exact h.gen_le
  timer_gen_le := by rw [hr, hgen]; exact h.timer_gen_le
  ripe := by rw [hr, hw, hnow]; exact h.ripe

theorem elapse (h : WinInv cfg s) (ms : Nat) : WinInv cfg { s with now := s.now + ms } where
  wroteAt_le w hw a ha := (h.wroteAt_le w hw a ha).trans (Nat.le_add_right _ _)
  gen_le := h.gen_le
  timer_gen_le := h.timer_gen_le
  ripe := by
    intro r hr ripe hripe w hw g a hg hle ha
    have hold := h.ripe r hr
    cases hpc : r.pc with
    | newTimer | exited => simp [hpc, TimerPc.ripeAt] at hripe
    | waiting fireAt =>
      simp only [hpc, TimerPc.ripeAt, Option.some.injEq] at hripe hold
      exact hold ripe hripe w hw g a hg hle ha
    | loadActive | applying pc =>
      simp only [hpc, TimerPc.ripeAt, Option.some.injEq] at hripe hold
      have := hold s.now rfl w hw g a hg hle ha
      omega

/-- A trigger that takes a step stays in time if its new claim concerns no timer yet. -/
theorem setTrigger (h : WinInv cfg s) {c : Cells} {i : Nat} {w' : Trigger}
    (hle : s.cells.winningGen ≤ c.winningGen)
    (hwrote : ∀ a, w'.wroteAt = some a → a ≤ s.now)
    (hgen : ∀ g, w'.gen? = some g → g ≤ c.winningGen)
    (hripe : ∀ r ∈ s.timers, ∀ ripe, r.pc.ripeAt s.now = some ripe → ∀ g a,
      w'.gen? = some g → g ≤ r.gen → w'.wroteAt = some a → a + cfg.resumeDelay ≤ ripe) :
    WinInv cfg { s with cells := c, triggers := s.triggers.set i w' } where
  wroteAt_le w hw a ha := by
    rcases List.mem_or_eq_of_mem_set hw with hw | rfl
    · exact h.wroteAt_le w hw a ha
    · exact hwrote a ha
  gen_le w hw g hg := by
    rcases List.mem_or_eq_of_mem_set hw with hw | rfl
    · exact (h.gen_le w hw g hg).trans hle
    · exact hgen g hg
  timer_gen_le r hr := (h.timer_gen_le r hr).trans hle
  ripe r hr ripe hrp w hw g a hg hgr ha := by
    rcases List.mem_or_eq_of_mem_set hw with hw | rfl
    · exact h.ripe r hr ripe hrp w hw g a hg hgr ha
    · exact hripe r hr ripe hrp g a hg hgr ha

theorem addTimer (h : WinInv cfg s) {gen : Int} (hgen : gen ≤ s.cells.winningGen) :
    WinInv cfg { s with timers := s.timers ++ [{ gen := gen }] } where
  wroteAt_le := h.wroteAt_le
  gen_le := h.gen_le
  timer_gen_le r hr := by
    rcases List.mem_append.mp hr with hr | hr
    · exact h.timer_gen_le r hr
    · obtain rfl := List.mem_singleton.mp hr
      exact hgen
  ripe r hr ripe hripe w hw g a hg hgr ha := by
    rcases List.mem_append.mp hr with hr | hr
    · exact h.ripe r hr ripe hripe w hw g a hg hgr ha
    · obtain rfl := List.mem_singleton.mp hr
      simp [TimerPc.ripeAt] at hripe

/-- A timer that takes a step stays in time if it re-arms or was ripe before. -/
theorem setTimer (h : WinInv cfg s) {c : Cells} {i : Nat} {r : Timer} {pc' : TimerPc}
    (hgen : c.winningGen = s.cells.winningGen) (hr : r ∈ s.timers)
    (hripe : ∀ ripe, pc'.ripeAt s.now = some ripe → s.now + cfg.resumeDelay ≤ ripe ∨
      ∃ old, r.pc.ripeAt s.now = some old ∧ old ≤ ripe) :
    WinInv cfg { s with cells := c, timers := s.timers.set i { r with pc := pc' } } where
  wroteAt_le := h.wroteAt_le
  gen_le w hw g hg := hgen ▸ h.gen_le w hw g hg
  timer_gen_le r' hr' := by
    rcases List.mem_or_eq_of_mem_set hr' with hr' | rfl
    · exact hgen ▸ h.timer_gen_le r' hr'
    · exact hgen ▸ h.timer_gen_le r hr
  ripe r' hr' ripe hrp w hw g a hg hgr ha := by
    rcases List.mem_or_eq_of_mem_set hr' with hr' | rfl
    · exact h.ripe r' hr' ripe hrp w hw g a hg hgr ha
    · obtain hnow | ⟨old, hold, hle⟩ := hripe ripe hrp
      · have := h.wroteAt_le w hw a ha
        omega
      · exact (h.ripe r hr old hold w hw g a hg hgr ha).trans hle

theorem trigger (h : WinInv cfg s) {i : Nat} (hstep : s.triggerStep cfg i = some t) :
    WinInv cfg t := by
  obtain ⟨w, c, w', started, hw, hs, rfl⟩ := triggerStep_eq_some.mp hstep
  have hmem := List.mem_of_getElem? hw
  have hold := h.wroteAt_le w hmem
  obtain ⟨a, hpc, rfl, hpc', hwrote, rfl⟩ | ⟨hpc, rfl, hpc', hwrote, rfl⟩ |
    ⟨gen, hpc, rfl, hpc', hwrote, rfl⟩ := Trigger.step_cases hs
  · -- the call of applyDecision: no generation is claimed yet
    have hgen : w'.gen? = none := by
      simp only [Trigger.gen?, hpc']
      cases (a.step false (winningDecision cfg w.message) s.cells).2 <;> rfl
    simp only [Option.toList_none, List.map_nil, List.append_nil]
    refine h.setTrigger (by simp) ?_ (by simp [hgen]) (by simp [hgen])
    intro b hb
    rw [hwrote] at hb
    split_ifs at hb
    · exact (Option.some.inj hb).ge
    · exact hold b hb
  · -- the bump: every timer is of an earlier generation
    have hgen : w'.gen? = some (s.cells.winningGen + 1) := by simp [Trigger.gen?, hpc']
    simp only [Option.toList_none, List.map_nil, List.append_nil]
    have hle : s.cells.winningGen ≤ s.cells.winningGen + 1 := by omega
    refine h.setTrigger hle (hwrote ▸ hold) (by simp [hgen]) ?_
    intro r hr ripe _ g b hg hgr _
    have := h.timer_gen_le r hr
    rw [hgen] at hg
    cases hg
    omega
  · -- the start of the timer
    have hgen : w'.gen? = w.gen? := by simp [Trigger.gen?, hpc', hpc]
    have hset : WinInv cfg { s with triggers := s.triggers.set i w' } := by
      refine h.setTrigger le_rfl (hwrote ▸ hold) (hgen ▸ h.gen_le w hmem) ?_
      intro r hr ripe hripe g b hg hgr hb
      exact h.ripe r hr ripe hripe w hmem g b (hgen ▸ hg) hgr (hwrote ▸ hb)
    exact hset.addTimer (h.gen_le w hmem gen (by simp [Trigger.gen?, hpc]))

theorem timer (h : WinInv cfg s) {i : Nat} (hstep : s.timerStep cfg i = some t) :
    WinInv cfg t := by
  obtain ⟨r, c, pc', hr, hs, rfl⟩ := timerStep_eq_some.mp hstep
  refine h.setTimer (TimerPc.step_winningGen hs) (List.mem_of_getElem? hr) ?_
  intro ripe hripe
  obtain ⟨-, -, rfl⟩ | ⟨fireAt, hpc, hf, -, rfl⟩ | ⟨hpc, -, rfl⟩ | ⟨a, hpc, -, rfl⟩ :=
    TimerPc.step_cases hs
  · exact Or.inl (Option.some.inj hripe).le
  · refine Or.inr ⟨fireAt, by simp [hpc, TimerPc.ripeAt], ?_⟩
    split_ifs at hripe
    · exact hf.trans (Option.some.inj hripe).le
    · cases hripe
  · split_ifs at hripe
    · exact Or.inl (Option.some.inj hripe).le
    · exact Or.inr ⟨s.now, by simp [hpc, TimerPc.ripeAt], (Option.some.inj hripe).le⟩
  · refine Or.inr ⟨s.now, by simp [hpc, TimerPc.ripeAt], ?_⟩
    cases hrest : (a.step false winningResumeDecision s.cells).2 with
    | none => simp [hrest, TimerPc.ripeAt] at hripe
    | some a' => exact (by simpa [hrest, TimerPc.ripeAt] using hripe : s.now = ripe).le

/-- **Step lemma**. -/
theorem step (h : WinInv cfg s) (hstep : Sched.step cfg s l = some t) : WinInv cfg t := by
  cases l with
  | elapse ms =>
    cases hstep
    exact h.elapse ms
  | cancel | subscribe | unsubscribe id | receive id =>
    cases hstep
    exact h.congr rfl rfl rfl rfl
  | win message =>
    cases hstep
    constructor
    · intro w hw a ha
      rcases List.mem_append.mp hw with hw | hw
      · exact h.wroteAt_le w hw a ha
      · obtain rfl := List.mem_singleton.mp hw
        cases ha
    · intro w hw g hg
      rcases List.mem_append.mp hw with hw | hw
      · exact h.gen_le w hw g hg
      · obtain rfl := List.mem_singleton.mp hw
        cases hg
    · exact h.timer_gen_le
    · intro r hr ripe hripe w hw g a hg hgr ha
      rcases List.mem_append.mp hw with hw | hw
      · exact h.ripe r hr ripe hripe w hw g a hg hgr ha
      · obtain rfl := List.mem_singleton.mp hw
        cases hg
  | poll answers =>
    cases hstep
    exact h.congr PollPc.step_winningGen rfl rfl rfl
  | monitor i =>
    obtain ⟨m, c, m', -, hm, rfl⟩ := monitorStep_eq_some.mp hstep
    exact h.congr (MonitorPc.step_winningGen hm) rfl rfl rfl
  | trigger i => exact h.trigger hstep
  | timer i => exact h.timer hstep
  | timerDone i =>
    obtain ⟨r, fireAt, hr, -, -, rfl⟩ := timerDoneStep_eq_some.mp hstep
    exact h.setTimer rfl (List.mem_of_getElem? hr) (by simp [TimerPc.ripeAt])

end WinInv

/-- **Run lemma**: the invariant holds in every reachable state. -/
theorem winInv_of_reach {ok : Sched → Action → Prop} (h : (system cfg).Reach ok s) :
    WinInv cfg s := by
  refine h.invariant (I := WinInv cfg) ?_ fun s l t hs _ hstep => hs.step hstep
  rintro s rfl
  exact ⟨by simp, by simp, by simp, by simp⟩

/-- **The generation guard**: in every run, a timer whose generation check still holds
when it writes AVAILABLE writes no earlier than the resume delay after every win. -/
theorem noEarlyResume (cfg : Config) {s : Sched} {l : Action}
    (h : (system cfg).Reach System.anyStep s) (hok : GenerationHeld s l) :
    NoEarlyResume cfg s l := by
  rintro r hr w hw a ha
  obtain ⟨hgen, hbumped⟩ := hok r hr
  obtain ⟨g, hg⟩ := Option.isSome_iff_exists.mp (hbumped w hw (by simp [ha]))
  have hinv := winInv_of_reach h
  have hle : g ≤ r.gen := hgen ▸ hinv.gen_le w hw g hg
  obtain ⟨i, -, hget, hpc⟩ := hr
  exact hinv.ripe r (List.mem_of_getElem? hget) s.now (by simp [hpc, TimerPc.ripeAt]) w hw g a hg
    hle ha

/-- One win, run up to the moment its resume timer fires. -/
def firstWin : List Action :=
  .win "first" :: List.replicate 5 (.trigger 0) ++ [.timer 0, .elapse 5000]

/-- The cells after one win. -/
def firstWinCells : Cells where
  current := .winningPost
  latestDecision := some (winningDecision defaultConfig "first")
  winningGen := 1

/-- A second win one second after the first, run up to the end of its delay: the first win's timer
finds the generation of the second when it fires, and exits. -/
def overlappingWins : List Action :=
  .win "first" :: List.replicate 5 (.trigger 0) ++ [.timer 0, .elapse 1000, .win "second"] ++
    List.replicate 4 (.trigger 1) ++ [.timer 1, .elapse 4000, .timer 0, .elapse 1000, .timer 1,
      .timer 1]

/-- Of two timers whose delays overlap only the later one resumes, after the delay of both wins. -/
theorem noEarlyResume_overlappingWins :
    ∃ s, (system defaultConfig).exec {} overlappingWins = some s ∧
      Resumes s (.timer 1) ⟨2, .applying .transition⟩ ∧ s.now = 6000 ∧
      NoEarlyResume defaultConfig s (.timer 1) := by
  let s : Sched :=
    { cells :=
        { current := .winningPost
          latestDecision := some (winningDecision defaultConfig "second")
          winningGen := 2 }
      now := 6000
      triggers := [⟨"first", .returned 1, some 0⟩, ⟨"second", .returned 2, some 1000⟩]
      timers := [⟨1, .exited⟩, ⟨2, .applying .transition⟩] }
  have hrun : (system defaultConfig).exec {} overlappingWins = some s := rfl
  refine ⟨s, hrun, ⟨1, rfl, rfl, rfl⟩, rfl, noEarlyResume defaultConfig
    (System.reach_of_exec (system_init _) hrun) ?_⟩
  rintro r ⟨i, hi, hr, -⟩
  cases hi
  cases hr
  exact ⟨rfl, by decide⟩

/-- A second win writes WINNING_POST just before the first win's timer loads the
generation, which the second win bumps only afterwards: the timer resumes at once. -/
theorem secondWin_not_noEarlyResume :
    ∃ s r, (system defaultConfig).Reach System.anyStep s ∧ Resumes s (.timer 0) r ∧
      ¬ NoEarlyResume defaultConfig s (.timer 0) := by
  let s : Sched :=
    { cells := firstWinCells
      now := 5000
      triggers := [⟨"first", .returned 1, some 0⟩, ⟨"second", .applying (.storeLatest false), some 5000⟩]
      timers := [⟨1, .applying .transition⟩] }
  have hrun : (system defaultConfig).exec {}
      (firstWin ++ [.win "second", .trigger 1, .timer 0, .timer 0]) = some s := rfl
  have hres : Resumes s (.timer 0) ⟨1, .applying .transition⟩ := ⟨0, rfl, rfl, rfl⟩
  refine ⟨s, _, System.reach_of_exec (system_init _) hrun, hres, fun hno => ?_⟩
  have := hno _ hres ⟨"second", .applying (.storeLatest false), some 5000⟩ (by decide) 5000 rfl
  revert this
  decide

end Sched

end OpenModel.Scheduler
