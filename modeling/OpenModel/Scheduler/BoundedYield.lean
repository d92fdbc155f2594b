import OpenModel.Curio.ProofTable
import OpenModel.Lib.PollUntil
import OpenModel.Scheduler.MonitorArmed
import OpenModel.Scheduler.Pace

/-!
# A yield for a proof ends

The scheduler beside Curio's table, with `WaitForProofComplete` on the clock: its queries take
some time, its ticker and its timeout fire, and the proof monitor goes on when it has returned.
Without the fail-safe every WINDOW_POST belongs to the poll that is about to launch a monitor or
to the monitor that is alive. So it lasts for one poll and one wait, and it ends soon after the
last row of the deadline has its proof.

## Main results

- `DetectingSched.refines_sched`: the scheduler runs as it does by itself
- `DetectingSched.inv_of_reach`: what backs WINDOW_POST, and since when
- `DetectingSched.windowPost_bounded`: how long it lasts
-/

namespace OpenModel.Scheduler

open Curio (ProofRow AwaitedDeadline)
open PollUntil (Call CallPc Event Limits)
open Transition (System)

/-- What a scheduler with proof detection is set up with. -/
structure Detection where
  cfg : Config
  minerID : Int
  waitCfg : Limits
  proofMonitor : cfg.proofMonitor = true
  enabled : cfg.policy.windowPost.proofDetectionEnabled = true

/-- The deadline that the query asks for; it does not know how many partitions there are. -/
def Detection.awaited (D : Detection) (info : DeadlineInfo) : AwaitedDeadline where
  spID := D.minerID
  periodStart := info.periodStart
  deadline := .ofNat info.index
  partitions := 1
  partitions_pos := Nat.one_pos

/-- The monitor is inside `WaitForProofComplete`. -/
def MonitorPc.isWaiting : MonitorPc → Bool
  | waiting _ => true
  | _ => false

/-- The deadline for which the poll goroutine launches a monitor with its next step. -/
def PollPc.launches : PollPc → Option DeadlineInfo
  | launchMonitor info => some info
  | _ => none

/-- The scheduler, the table, and the wait of the monitor that was launched last. The program
does not keep since when the rows of its deadline are complete, whether a query that began after
that has failed, and since when the state machine says WINDOW_POST. -/
structure DetectingSched where
  paced : PacedSched := {}
  rows : List ProofRow := []
  wait : Option (DeadlineInfo × Call) := none
  completeSince : Option Nat := none
  missed : Bool := false
  yieldedSince : Option Nat := none

inductive DetectingLabel
  | scheduler (action : Action)
  /-- Curio inserts a row -/
  | insert (row : ProofRow)
  /-- Curio writes the proof of row `i` -/
  | prove (i : Nat) (proof : List UInt8)
  /-- `WaitForProofComplete` goes on -/
  | wait (e : Event)

/-- Since when something holds, if it does. -/
def heldSince (holds : Bool) (old : Option Nat) (now : Nat) : Option Nat :=
  if holds then some (old.getD now) else none

theorem isSome_heldSince {holds : Bool} {old : Option Nat} {now : Nat} :
    (heldSince holds old now).isSome = holds := by
  cases holds <;> rfl

/-- It held before, or it begins to hold. -/
theorem heldSince_eq_some {holds : Bool} {old : Option Nat} {now since : Nat}
    (h : heldSince holds old now = some since) :
    holds = true ∧ (old = some since ∨ old = none ∧ since = now) := by
  obtain ⟨hholds, h⟩ := Option.ite_none_right_eq_some.mp h
  refine ⟨hholds, ?_⟩
  cases old with
  | none => exact .inr ⟨rfl, (Option.some.inj h).symm⟩
  | some first => exact .inl h

/-- What a run keeps to: the pace of the polls, the longest query, how often a tick is taken over
the timeout, and the time that a monitor takes once its wait is over. -/
structure Timing where
  pace : Pace
  longest : Nat
  patience : Nat
  slack : Nat

namespace DetectingSched

variable (D : Detection) (T : Timing)

def now (w : DetectingSched) : Nat := w.paced.sched.now

/-- Every row of the awaited deadline has its proof. -/
def complete (rows : List ProofRow) (wait : Option (DeadlineInfo × Call)) : Bool :=
  wait.any fun a => (D.awaited a.1).isProofComplete rows

/-- What is kept of the past, in the next state. -/
def watch (w : DetectingSched) (paced : PacedSched) (rows : List ProofRow)
    (wait : Option (DeadlineInfo × Call)) : DetectingSched where
  paced := paced
  rows := rows
  wait := wait
  completeSince := heldSince (complete D rows wait) w.completeSince paced.sched.now
  missed := complete D rows wait && w.missed
  yieldedSince :=
    heldSince (paced.sched.cells.current == .windowPost) w.yieldedSince paced.sched.now

/-- A monitor goes on when its wait has returned, and a wait sees its context done when it is. -/
def permits (w : DetectingSched) : DetectingLabel → Bool
  | .scheduler (.monitor i) =>
    !(w.paced.sched.monitors[i]?.any MonitorPc.isWaiting) || w.wait.any fun a =>
      match a.2.pc with
      | .returned _ _ => true
      | _ => false
  | .wait .cancel => w.paced.sched.cancelled
  | _ => true

/-- The wait after an action of the scheduler. -/
def nextWait (w : DetectingSched) (action : Action) : Option (DeadlineInfo × Call) :=
  w.wait.map fun a => (a.1, a.2.elapse D.waitCfg w.now action.elapsed)

/-- The wait's next step is to be seen. -/
def note (w : DetectingSched) (c : Call) (e : Event) : DetectingSched :=
  { w with missed := w.missed || !c.answered w.completeSince e }

/-- The scheduler has moved. -/
def afterAction (w : DetectingSched) (action : Action) (paced : PacedSched) : DetectingSched :=
  match if action.isPoll then w.paced.sched.poll.launches else none with
  | some info =>
    { w with completeSince := none, missed := false }.watch D paced w.rows
      (some (info, Call.start paced.sched.now))
  | none => w.watch D paced w.rows (w.nextWait D action)

def step (w : DetectingSched) (l : DetectingLabel) : Option DetectingSched :=
  if w.permits l then
    match l with
    | .scheduler action => (w.paced.step D.cfg action).map (w.afterAction D action)
    | .insert row => some (w.watch D w.paced (w.rows ++ [row]) w.wait)
    | .prove i proof =>
      w.rows[i]?.map fun row =>
        w.watch D w.paced (w.rows.set i { row with proofParams := some proof }) w.wait
    | .wait e =>
      w.wait.bind fun a =>
        (a.2.step D.waitCfg (complete D w.rows w.wait) w.now e).map fun c =>
          (w.note a.2 e).watch D w.paced w.rows (some (a.1, c))
  else none

/-- From the start of the scheduler on, with any rows in the table. -/
def system : System DetectingSched DetectingLabel where
  init w := w = { rows := w.rows }
  step := step D

/-- A monitor whose wait is over exits in time. -/
def finishes (w : DetectingSched) (ms : Nat) (c : Call) : Bool :=
  match c.pc with
  | .returned _ time =>
    w.paced.sched.monitors.all (· == .exited) || decide (w.now + ms ≤ time + T.slack)
  | _ => true

/-- Time passes for the polls, the wait and the monitor as it should. -/
def inTime (w : DetectingSched) : DetectingLabel → Bool
  | .scheduler action =>
    decide (w.paced.OnTime T.pace action) && w.wait.all fun a =>
      a.2.mayElapse D.waitCfg T.longest w.now action.elapsed && w.finishes T action.elapsed a.2
  | .wait e => w.wait.all fun a => a.2.fair D.waitCfg T.patience w.now e
  | _ => true

/-- Such a step, which is not a write of the fail-safe. -/
def Steady (w : DetectingSched) (l : DetectingLabel) : Prop :=
  w.inTime D T l ∧ ∀ action, l = .scheduler action → w.paced.sched.NoFailSafe action

variable {D T} {w v : DetectingSched} {l : DetectingLabel} {action : Action} {c : Call}
  {info : DeadlineInfo}

@[simp] theorem watch_paced (paced : PacedSched) (rows : List ProofRow)
    (wait : Option (DeadlineInfo × Call)) : (w.watch D paced rows wait).paced = paced := rfl

@[simp] theorem afterAction_paced (paced : PacedSched) :
    (w.afterAction D action paced).paced = paced := by
  unfold afterAction
  split <;> rfl

/-- **What a step does**: the scheduler moves and launches a monitor or not, the table grows, or
the wait goes on. -/
theorem step_cases (h : w.step D l = some v) :
    (∃ action paced, l = .scheduler action ∧ w.permits l ∧ w.paced.step D.cfg action = some paced ∧
      v = w.afterAction D action paced) ∨
    (∃ rows, v = w.watch D w.paced rows w.wait) ∨
    ∃ e info c c', l = .wait e ∧ w.wait = some (info, c) ∧
      c.step D.waitCfg (complete D w.rows w.wait) w.now e = some c' ∧
      v = (w.note c e).watch D w.paced w.rows (some (info, c')) := by
  obtain ⟨hpermits, h⟩ := Option.ite_none_right_eq_some.mp h
  cases l with
  | scheduler action =>
    obtain ⟨paced, hpaced, rfl⟩ := Option.map_eq_some_iff.mp h
    exact .inl ⟨action, paced, rfl, hpermits, hpaced, rfl⟩
  | insert row => exact .inr (.inl ⟨_, (Option.some.inj h).symm⟩)
  | prove i proof =>
    obtain ⟨row, -, rfl⟩ := Option.map_eq_some_iff.mp h
    exact .inr (.inl ⟨_, rfl⟩)
  | wait e =>
    obtain ⟨⟨info, c⟩, hwait, h⟩ := Option.bind_eq_some_iff.mp h
    obtain ⟨c', hstep, rfl⟩ := Option.map_eq_some_iff.mp h
    exact .inr (.inr ⟨e, info, c, c', rfl, hwait, hstep, rfl⟩)

/-- **The scheduler alone** runs as it does by itself. -/
theorem refines_sched {ok : DetectingSched → DetectingLabel → Prop} {ok' : Sched → Action → Prop}
    (hok : ∀ w action, ok w (.scheduler action) → ok' w.paced.sched action) :
    (system D).Refines (Sched.system D.cfg) ok ok' fun w => w.paced.sched where
  init w hw := by
    rw [show w = _ from hw]
    rfl
  step w l v hl hstep := by
    obtain ⟨action, paced, rfl, -, hpaced, rfl⟩ | ⟨rows, rfl⟩ | ⟨e, info, c, c', -, -, -, rfl⟩ :=
      step_cases hstep
    · obtain ⟨sched, hsched, rfl⟩ := PacedSched.step_eq_some.mp hpaced
      exact .inr ⟨action, hok w action hl, by rw [afterAction_paced]; exact hsched⟩
    · exact .inl rfl
    · exact .inl rfl

theorem sched_of_reach (h : (system D).Reach (Steady D T) w) :
    (Sched.system D.cfg).Reach Sched.NoFailSafe w.paced.sched :=
  have href : (system D).Refines (Sched.system D.cfg) (Steady D T) Sched.NoFailSafe fun w =>
      w.paced.sched := refines_sched fun _ _ hok => hok.2 _ rfl
  href.reach h

-- ════════════════════════════════════════════════════════════════════════
-- What backs WINDOW_POST
-- ════════════════════════════════════════════════════════════════════════

/-- The wait has returned. -/
def Returned (c : Call) : Prop := ∃ found time, c.pc = .returned found time

/-- The clock, the wait, and what backs WINDOW_POST. -/
structure Inv (D : Detection) (T : Timing) (w : DetectingSched) : Prop where
  inPace : w.paced.InPace T.pace
  yielded : w.yieldedSince.isSome ↔ w.paced.sched.cells.current = .windowPost
  complete : w.completeSince.isSome → complete D w.rows w.wait
  /-- a poll that began in time and will launch a monitor, or one that was launched in time -/
  backed : ∀ since, w.yieldedSince = some since →
    w.paced.sched.poll.Committed D.cfg ∧ w.paced.since ≤ since ∨
      (∃ m ∈ w.paced.sched.monitors, m.backs) ∧
        ∀ info c, w.wait = some (info, c) → c.started ≤ since + T.pace.longest
  /-- a monitor that is alive waits, or its wait has returned -/
  awaits : ∀ m ∈ w.paced.sched.monitors, m ≠ .exited →
    ∃ info c, w.wait = some (info, c) ∧ (m.isWaiting ∨ Returned c)
  limited : ∀ info c, w.wait = some (info, c) →
    c.Limited D.waitCfg T.longest T.patience w.now
  told : w.missed = false → ∀ info c since, w.wait = some (info, c) →
    w.completeSince = some since → c.Told D.waitCfg T.longest since w.now
  finishes : ∀ info c found time, w.wait = some (info, c) → c.pc = .returned found time →
    (∃ m ∈ w.paced.sched.monitors, m ≠ .exited) → w.now ≤ time + T.slack

theorem isSome_watch_yieldedSince {paced : PacedSched} {rows : List ProofRow}
    {wait : Option (DeadlineInfo × Call)} :
    (w.watch D paced rows wait).yieldedSince.isSome ↔ paced.sched.cells.current = .windowPost := by
  unfold watch
  rw [isSome_heldSince, beq_iff_eq]

theorem current_of_watch {paced : PacedSched} {rows : List ProofRow}
    {wait : Option (DeadlineInfo × Call)} {since : Nat}
    (h : (w.watch D paced rows wait).yieldedSince = some since) :
    paced.sched.cells.current = .windowPost :=
  isSome_watch_yieldedSince.mp (Option.isSome_of_eq_some h)

theorem inv_init (rows : List ProofRow) : ({ rows } : DetectingSched).Inv D T where
  inPace := ⟨le_rfl, Nat.zero_le _⟩
  yielded := by simp
  complete h := Bool.noConfusion h
  backed _ h := absurd h (Option.some_ne_none _).symm
  awaits _ h := absurd h List.not_mem_nil
  limited _ _ h := absurd h (Option.some_ne_none _).symm
  told _ _ _ _ h := absurd h (Option.some_ne_none _).symm
  finishes _ _ _ _ h := absurd h (Option.some_ne_none _).symm

/-- Since when the rows are complete, for a wait that was told so far. -/
theorem told_heldSince {old : Option Nat} {complete : Bool} {now since : Nat}
    (htimely : c.Timely T.longest now)
    (hold : old = some since → c.Told D.waitCfg T.longest since now)
    (h : heldSince complete old now = some since) : c.Told D.waitCfg T.longest since now := by
  obtain ⟨-, hsame | ⟨-, hsince⟩⟩ := heldSince_eq_some h
  · exact hold hsame
  · exact Call.told_since htimely (.inl hsince)

/-- Nothing is missed later that was not missed before, while the rows are complete. -/
theorem missed_of_watch {paced : PacedSched} {rows : List ProofRow}
    {wait : Option (DeadlineInfo × Call)} {since : Nat}
    (hmissed : (w.watch D paced rows wait).missed = false)
    (hs : (w.watch D paced rows wait).completeSince = some since) : w.missed = false := by
  have hcomplete := (heldSince_eq_some hs).1
  rw [watch, hcomplete] at hmissed
  exact hmissed

/-- Where WINDOW_POST stays, since when it is on stays too. -/
theorem Inv.yieldedSince_eq (h : w.Inv D T) (hcurrent : w.paced.sched.cells.current = .windowPost)
    {holds : Bool} {now since : Nat} (hs : heldSince holds w.yieldedSince now = some since) :
    w.yieldedSince = some since := by
  obtain ⟨-, hsame | ⟨hnone, -⟩⟩ := heldSince_eq_some hs
  · exact hsame
  · have hsome := h.yielded.mpr hcurrent
    rw [hnone] at hsome
    cases hsome

namespace Inv

/-- The table changes. -/
theorem table (h : w.Inv D T) (rows : List ProofRow) : (w.watch D w.paced rows w.wait).Inv D T where
  inPace := h.inPace
  yielded := isSome_watch_yieldedSince
  complete := fun hs => isSome_heldSince.symm.trans hs
  backed := fun since hs => h.backed since (h.yieldedSince_eq (current_of_watch hs) hs)
  awaits := h.awaits
  limited := h.limited
  told := fun hmissed info c since hwait hs => told_heldSince (h.limited info c hwait).timely
    (h.told (missed_of_watch hmissed hs) info c since hwait) hs
  finishes := h.finishes

/-- The wait goes on. -/
theorem wait (h : w.Inv D T) {e : Event} {c' : Call} (hwait : w.wait = some (info, c))
    (hok : w.inTime D T (.wait e))
    (hstep : c.step D.waitCfg (DetectingSched.complete D w.rows w.wait) w.now e = some c') :
    ((w.note c e).watch D w.paced w.rows (some (info, c'))).Inv D T := by
  have hfair : c.fair D.waitCfg T.patience w.now e := by simpa [inTime, hwait] using hok
  have hlimited := (h.limited info c hwait).step hfair hstep
  refine
    { inPace := h.inPace
      yielded := isSome_watch_yieldedSince
      complete := fun hs => isSome_heldSince.symm.trans hs
      backed := fun since hs => ?_
      awaits := fun m hm hne => ?_
      limited := ?_
      told := ?_
      finishes := ?_ }
  · refine (h.backed since (h.yieldedSince_eq (current_of_watch hs) hs)).imp_right
      fun ⟨hbacks, hstarted⟩ => ⟨hbacks, ?_⟩
    rintro info' d ⟨⟩
    rw [Call.started_of_step hstep]
    exact hstarted info c hwait
  · obtain ⟨info', d, hd, hstate⟩ := h.awaits m hm hne
    obtain ⟨rfl, rfl⟩ : info = info' ∧ c = d := by
      rw [hwait] at hd
      cases hd
      exact ⟨rfl, rfl⟩
    refine ⟨info, c', rfl, .inl (hstate.resolve_right ?_)⟩
    rintro ⟨found, time, hpc⟩
    exact Call.not_returned_of_step hstep found time hpc
  · rintro info' d ⟨⟩
    exact hlimited
  · rintro hmissed info' d since ⟨⟩ hs
    obtain ⟨hold, hanswered⟩ : w.missed = false ∧ c.answered w.completeSince e = true := by
      have hboth := missed_of_watch hmissed hs
      simpa [note] using hboth
    refine told_heldSince hlimited.timely (fun hsame => ?_) hs
    have hsame : w.completeSince = some since := hsame
    have hcomplete := h.complete (Option.isSome_of_eq_some hsame)
    rw [hcomplete] at hstep
    exact (h.told hold info c since hwait hsame).step (by rwa [hsame] at hanswered) hstep
  · rintro info' d found time ⟨⟩ hpc -
    rw [Call.time_of_step hstep hpc]
    exact Nat.le_add_right _ _

/-- The poll launches a monitor, whose wait starts. -/
theorem launch (h : w.Inv D T) (hflag : w.paced.sched.FlagInv) {answers : LotusAnswers}
    {paced : PacedSched} (hpoll : w.paced.sched.poll = .launchMonitor info)
    (hpaced : w.paced.step D.cfg (.poll answers) = some paced) (hinPace : paced.InPace T.pace) :
    (({ w with completeSince := none, missed := false } : DetectingSched).watch D paced w.rows
      (some (info, Call.start paced.sched.now))).Inv D T := by
  have hdead := hflag.not_alive (by rw [hpoll]; nofun)
  obtain ⟨sched, hsched, rfl⟩ := PacedSched.step_eq_some.mp hpaced
  cases hsched
  have hcells : (w.paced.sched.pollStep D.cfg answers).cells = w.paced.sched.cells := by
    simp [Sched.pollStep, hpoll, PollPc.step]
  have hmonitors : (w.paced.sched.pollStep D.cfg answers).monitors =
      w.paced.sched.monitors ++ [.waiting info] := by
    simp [Sched.pollStep, hpoll, PollPc.step]
  refine
    { inPace := hinPace
      yielded := isSome_watch_yieldedSince
      complete := fun hs => isSome_heldSince.symm.trans hs
      backed := fun since hs => .inr ⟨⟨.waiting info, ?_, rfl⟩, ?_⟩
      awaits := fun m hm hne => ?_
      limited := ?_
      told := ?_
      finishes := ?_ }
  · show _ ∈ (w.paced.sched.pollStep D.cfg answers).monitors
    rw [hmonitors]
    exact List.mem_append_right _ (List.mem_singleton_self _)
  · rintro info' c ⟨⟩
    have hcurrent := current_of_watch hs
    rw [hcells] at hcurrent
    show w.paced.sched.now ≤ since + T.pace.longest
    obtain ⟨-, hsince⟩ | ⟨⟨m, hm, hb⟩, -⟩ := h.backed since (h.yieldedSince_eq hcurrent hs)
    · have hnow := h.inPace.2
      rw [hpoll, PacedSched.stay_of_ne_idle (by nofun)] at hnow
      omega
    · obtain ⟨j, hj⟩ := Sched.alive_of_backs hm hb
      exact absurd hj (hdead j)
  · have hm' : m ∈ (w.paced.sched.pollStep D.cfg answers).monitors := hm
    rw [hmonitors, List.mem_append, List.mem_singleton] at hm'
    obtain hold | rfl := hm'
    · obtain ⟨j, hj⟩ := List.mem_iff_getElem?.mp hold
      exact absurd ⟨m, hj, hne⟩ (hdead j)
    · exact ⟨info, _, rfl, .inl rfl⟩
  · rintro info' c ⟨⟩
    exact Call.limited_start
  · rintro - info' c since ⟨⟩ hs
    exact told_heldSince Call.timely_start (fun hsame => by cases hsame) hs
  · rintro info' c found time ⟨⟩ hpc
    cases hpc

end Inv

/-- The monitors after an action that launches none. -/
theorem monitors_of_step {s t : Sched} (hstep : s.step D.cfg action = some t)
    (hno : (if action.isPoll then s.poll.launches else none) = none) :
    t.monitors = s.monitors ∨ ∃ i m c m', action = .monitor i ∧ s.monitors[i]? = some m ∧
      m.step s.cells = some (c, m') ∧ t.monitors = s.monitors.set i m' := by
  cases action with
  | poll answers =>
    cases hstep
    left
    have hlaunched : (s.poll.step D.cfg answers s.cells).2.2 = none := by
      rw [PollPc.step_launched]
      exact hno
    simp [Sched.pollStep, hlaunched]
  | monitor i =>
    obtain ⟨m, c, m', hm, hs, rfl⟩ := Sched.monitorStep_eq_some.mp hstep
    exact .inr ⟨i, m, c, m', rfl, hm, hs, rfl⟩
  | trigger i =>
    obtain ⟨x, c, x', started, -, -, rfl⟩ := Sched.triggerStep_eq_some.mp hstep
    exact .inl rfl
  | timer i =>
    obtain ⟨x, c, pc', -, -, rfl⟩ := Sched.timerStep_eq_some.mp hstep
    exact .inl rfl
  | timerDone i =>
    obtain ⟨x, fireAt, -, -, -, rfl⟩ := Sched.timerDoneStep_eq_some.mp hstep
    exact .inl rfl
  | _ =>
    cases hstep
    exact .inl rfl

namespace Inv

/-- What backs WINDOW_POST after an action that launches no monitor. -/
theorem backed_move (h : w.Inv D T)
    (hknows : w.paced.sched.poll.Knows D.cfg w.paced.sched.cells.current)
    (hsafe : w.paced.sched.NoFailSafe action) {paced : PacedSched}
    (hpaced : w.paced.step D.cfg action = some paced)
    (hno : (if action.isPoll then w.paced.sched.poll.launches else none) = none) {since : Nat}
    (hinPace : paced.InPace T.pace)
    (hs : (w.watch D paced w.rows (w.nextWait D action)).yieldedSince = some since) :
    paced.sched.poll.Committed D.cfg ∧ paced.since ≤ since ∨
      (∃ m ∈ paced.sched.monitors, m.backs) ∧
        ∀ info c, w.nextWait D action = some (info, c) → c.started ≤ since + T.pace.longest := by
  have hcurrent := current_of_watch hs
  obtain ⟨sched, hsched, rfl⟩ := PacedSched.step_eq_some.mp hpaced
  by_cases hold : w.paced.sched.cells.current = .windowPost
  · have hbefore := h.backed since (h.yieldedSince_eq hold hs)
    have hstarted (hall : ∀ info c, w.wait = some (info, c) → c.started ≤ since + T.pace.longest) :
        ∀ info c, w.nextWait D action = some (info, c) → c.started ≤ since + T.pace.longest := by
      intro info c hc
      obtain ⟨⟨info', c'⟩, hwait, hc⟩ := Option.map_eq_some_iff.mp hc
      cases hc
      exact hall info' c' hwait
    cases ha : action.isPoll with
    | false =>
      have hpoll := Action.ne_poll_of_isPoll ha
      obtain ⟨hcommitted, hsince⟩ | ⟨hbacks, hall⟩ := hbefore
      · refine .inl ⟨?_, ?_⟩
        · rw [Sched.poll_of_step hsched hpoll]
          exact hcommitted
        · simpa [PacedSched.marks, ha] using hsince
      · exact .inr ⟨Sched.backs_of_step hsched hpoll hcurrent hbacks, hstarted hall⟩
    | true =>
      obtain ⟨hcommitted, hsince⟩ | ⟨⟨m, hm, hb⟩, hall⟩ := hbefore
      · left
        cases action with
        | poll answers =>
          cases hsched
          obtain hnext | ⟨info, hlaunch⟩ := PollPc.committed_next answers w.paced.sched.cells hcommitted
          · refine ⟨hnext, ?_⟩
            -- a committed poll neither begins nor ends
            have hidle : w.paced.sched.poll ≠ .idle := by
              intro hidle
              rw [hidle] at hcommitted
              exact hcommitted
            have hidle' : (w.paced.sched.pollStep D.cfg answers).poll ≠ .idle := by
              intro hidle'
              have hnext' : (w.paced.sched.pollStep D.cfg answers).poll.Committed D.cfg := hnext
              rw [hidle'] at hnext'
              exact hnext'
            simpa [PacedSched.marks, hidle, hidle'] using hsince
          · rw [hlaunch] at hno
            cases hno
        | _ => cases ha
      · refine .inr ⟨⟨m, ?_, hb⟩, hstarted hall⟩
        obtain hsame | ⟨i, _, _, _, rfl, -⟩ := monitors_of_step hsched hno
        · rw [hsame]
          exact hm
        · cases ha
  · cases action with
    | poll answers =>
      cases hsched
      refine .inl ⟨PollPc.committed_of_write D.proofMonitor D.enabled hknows (hsafe answers rfl) hold
        hcurrent, hinPace.1.trans ?_⟩
      obtain ⟨-, hsame | ⟨-, rfl⟩⟩ := heldSince_eq_some hs
      · exact absurd (h.yielded.mp (Option.isSome_of_eq_some hsame)) hold
      · exact le_rfl
    | _ =>
      exact absurd (Sched.windowPost_of_step hsched (fun _ => Action.noConfusion) hcurrent) hold

/-- The monitors that are alive after an action that launches none were alive before. -/
theorem awaits_move (h : w.Inv D T) (hpermits : w.permits (.scheduler action)) {sched : Sched}
    (hsched : w.paced.sched.step D.cfg action = some sched)
    (hno : (if action.isPoll then w.paced.sched.poll.launches else none) = none) {m : MonitorPc}
    (hm : m ∈ sched.monitors) (hne : m ≠ .exited) :
    (∃ m' ∈ w.paced.sched.monitors, m' ≠ .exited) ∧
      ∃ info c, w.wait = some (info, c) ∧ (m.isWaiting ∨ Returned c) := by
  have hold (hm : m ∈ w.paced.sched.monitors) :
      (∃ m' ∈ w.paced.sched.monitors, m' ≠ .exited) ∧
        ∃ info c, w.wait = some (info, c) ∧ (m.isWaiting ∨ Returned c) :=
    ⟨⟨m, hm, hne⟩, h.awaits m hm hne⟩
  obtain hsame | ⟨i, x, c, m', rfl, hx, hstep, hset⟩ := monitors_of_step hsched hno
  · exact hold (hsame ▸ hm)
  · rw [hset] at hm
    obtain hm | rfl := List.mem_or_eq_of_mem_set hm
    · exact hold hm
    · have hmem := List.mem_of_getElem? hx
      have hlive := (MonitorPc.step_pc hstep).2.1
      obtain ⟨info, d, hwait, hstate⟩ := h.awaits x hmem hlive
      refine ⟨⟨x, hmem, hlive⟩, info, d, hwait, .inr ?_⟩
      obtain hwaits | hreturned := hstate
      · -- the monitor leaves its wait
        unfold Returned
        simp only [permits, hx, hwait, Option.any_some, hwaits, Bool.not_true, Bool.false_or]
          at hpermits
        split at hpermits
        · next found time hpc => exact ⟨found, time, hpc⟩
        · cases hpermits
      · exact hreturned

/-- The scheduler moves and launches no monitor. -/
theorem move (h : w.Inv D T)
    (hknows : w.paced.sched.poll.Knows D.cfg w.paced.sched.cells.current)
    (hok : w.inTime D T (.scheduler action)) (hsafe : w.paced.sched.NoFailSafe action)
    (hpermits : w.permits (.scheduler action)) {paced : PacedSched}
    (hpaced : w.paced.step D.cfg action = some paced) (hinPace : paced.InPace T.pace)
    (hno : (if action.isPoll then w.paced.sched.poll.launches else none) = none) :
    (w.watch D paced w.rows (w.nextWait D action)).Inv D T := by
  obtain ⟨-, hall⟩ := Bool.and_eq_true_iff.mp hok
  obtain ⟨sched, hsched, hsome⟩ := PacedSched.step_eq_some.mp hpaced
  have hnow : paced.sched.now = w.now + action.elapsed := by
    rw [← hsome]
    exact Sched.now_of_step hsched
  have hsched' : w.paced.sched.step D.cfg action = some paced.sched := by
    rw [← hsome]
    exact hsched
  have hlimited {info : DeadlineInfo} {c : Call} (hwait : w.wait = some (info, c)) :
      (c.elapse D.waitCfg w.now action.elapsed).Limited D.waitCfg T.longest T.patience
        (w.now + action.elapsed) := by
    rw [hwait] at hall
    exact (h.limited info c hwait).elapse (Bool.and_eq_true_iff.mp hall).1
  refine
    { inPace := hinPace
      yielded := isSome_watch_yieldedSince
      complete := fun hs => isSome_heldSince.symm.trans hs
      backed := fun since hs => h.backed_move hknows hsafe hpaced hno hinPace hs
      awaits := fun m hm hne => ?_
      limited := fun info c hc => ?_
      told := fun hmissed info c since hc hs => ?_
      finishes := fun info c found time hc hpc halive => ?_ }
  · obtain ⟨-, info, c, hwait, hstate⟩ := h.awaits_move hpermits hsched' hno hm hne
    exact ⟨info, c.elapse D.waitCfg w.now action.elapsed, by rw [watch, nextWait, hwait]; rfl, hstate⟩
  · obtain ⟨⟨info', c'⟩, hwait, hc⟩ := Option.map_eq_some_iff.mp hc
    cases hc
    show Call.Limited _ _ _ paced.sched.now _
    rw [hnow]
    exact hlimited hwait
  · obtain ⟨⟨info', c'⟩, hwait, hc⟩ := Option.map_eq_some_iff.mp hc
    cases hc
    show Call.Told _ _ _ paced.sched.now _
    have htimely := (hlimited hwait).timely
    rw [← hnow] at htimely
    refine told_heldSince htimely (fun hsame => ?_) hs
    rw [hnow]
    rw [hwait] at hall
    exact (h.told (missed_of_watch hmissed hs) info' c' since hwait hsame).elapse
      (Bool.and_eq_true_iff.mp hall).1
  · obtain ⟨⟨info', c'⟩, hwait, hc⟩ := Option.map_eq_some_iff.mp hc
    cases hc
    show paced.sched.now ≤ time + T.slack
    obtain ⟨m, hm, hne⟩ := halive
    obtain ⟨⟨m', hm', hne'⟩, -⟩ := h.awaits_move hpermits hsched' hno hm hne
    rw [hwait] at hall
    have hfinishes := (Bool.and_eq_true_iff.mp hall).2
    have hreturned : c'.pc = .returned found time := hpc
    simp only [DetectingSched.finishes, hreturned, Bool.or_eq_true, List.all_eq_true, beq_iff_eq,
      decide_eq_true_eq] at hfinishes
    rw [hnow]
    exact hfinishes.resolve_left fun hexited => hne' (hexited m' hm')

end Inv

/-- **Step lemma**. -/
theorem Inv.step (h : w.Inv D T) (hflag : w.paced.sched.FlagInv)
    (hknows : w.paced.sched.poll.Knows D.cfg w.paced.sched.cells.current) (hok : w.Steady D T l)
    (hstep : w.step D l = some v) : v.Inv D T := by
  obtain ⟨action, paced, rfl, hpermits, hpaced, rfl⟩ | ⟨rows, rfl⟩ |
    ⟨e, info, c, c', rfl, hwait, hcall, rfl⟩ := step_cases hstep
  · have honTime := of_decide_eq_true (Bool.and_eq_true_iff.mp hok.1).1
    have hinPace := PacedSched.inPace_step h.inPace honTime hpaced
    unfold afterAction
    split
    · next info hlaunches =>
      obtain ⟨ha, hlaunches⟩ := Option.ite_none_right_eq_some.mp hlaunches
      cases action with
      | poll answers =>
        cases hpoll : w.paced.sched.poll with
        | launchMonitor info' =>
          rw [hpoll] at hlaunches
          cases hlaunches
          exact h.launch hflag hpoll hpaced hinPace
        | _ =>
          rw [hpoll] at hlaunches
          cases hlaunches
      | _ => cases ha
    · next hno => exact h.move hknows hok.1 (hok.2 _ rfl) hpermits hpaced hinPace hno
  · exact h.table rows
  · exact h.wait hwait hok.1 hcall

/-- **Run lemma**. -/
theorem inv_of_reach (h : (system D).Reach (Steady D T) w) : w.Inv D T := by
  refine h.invariant_of (I := Inv D T) (J := fun w => (Sched.system D.cfg).Reach Sched.NoFailSafe
    w.paced.sched) (fun _ hw => sched_of_reach hw) (fun w hw => ?_) fun w l v hsched hw hok hstep => ?_
  · rw [show w = _ from hw]
    exact inv_init _
  · exact hw.step (Sched.flagInv_of_reach hsched)
      (Sched.backed_of_reach D.proofMonitor D.enabled hsched).2 hok hstep

/-- **A yield for a proof ends**: in every run without a write of the fail-safe in which polls,
queries and the end of a monitor take no longer than `T` says, WINDOW_POST lasts for one poll, one
wait and the end of the monitor at most, whether queries fail or not. Once every row of the
deadline has its proof, it lasts for one interval, two queries and the end of the monitor, unless a
query that began after that has failed. -/
theorem windowPost_bounded (h : (system D).Reach (Steady D T) w)
    (hcurrent : w.paced.sched.cells.current = .windowPost) :
    ∃ since, w.yieldedSince = some since ∧
      w.now ≤ since + T.pace.longest + D.waitCfg.maxWait + (T.patience + 1) * T.longest + T.slack ∧
      (w.missed = false → ∀ complete, w.completeSince = some complete →
        w.now ≤ max complete (since + T.pace.longest) + D.waitCfg.interval + 2 * T.longest +
          T.slack) := by
  have hinv := inv_of_reach h
  obtain ⟨since, hsince⟩ := Option.isSome_iff_exists.mp (hinv.yielded.mpr hcurrent)
  refine ⟨since, hsince, ?_⟩
  obtain ⟨hcommitted, hle⟩ | ⟨⟨m, hm, hb⟩, hstarted⟩ := hinv.backed since hsince
  · have hnow : w.now ≤ since + T.pace.longest := by
      have hstay := hinv.inPace.2
      rw [PacedSched.stay_of_ne_idle fun hidle => by rw [hidle] at hcommitted; exact hcommitted]
        at hstay
      exact hstay.trans (Nat.add_le_add_right hle _)
    exact ⟨by omega, fun _ complete _ => by omega⟩
  · have hne : m ≠ .exited := by
      rintro rfl
      cases hb
    obtain ⟨info, c, hwait, -⟩ := hinv.awaits m hm hne
    have hstart := hstarted info c hwait
    have hfinish {found : Bool} {time : Nat} (hpc : c.pc = .returned found time) :
        w.now ≤ time + T.slack := hinv.finishes info c found time hwait hpc ⟨m, hm, hne⟩
    refine ⟨?_, fun hmissed complete hcomplete => ?_⟩
    · have hbound : c.lateness D.waitCfg T.longest (T.patience + 1) ≤
          since + T.pace.longest + D.waitCfg.maxWait + (T.patience + 1) * T.longest :=
        Nat.add_le_add_right (Nat.add_le_add_right hstart _) _
      obtain hnow | ⟨found, time, hpc, htime⟩ := (hinv.limited info c hwait).finished
      · omega
      · have := hfinish hpc
        omega
    · obtain hnow | ⟨found, time, hpc, htime⟩ := (hinv.told hmissed info c complete hwait hcomplete).finished
      · omega
      · have := hfinish hpc
        omega

/-- Proof detection by default. -/
def detectionOn : Detection where
  cfg := Sched.defaultConfig
  minerID := 1000
  waitCfg := ⟨5000, 600000, by decide⟩
  proofMonitor := rfl
  enabled := rfl

/-- The poll finds deadline 0 open and launches its monitor; the proof is there when the second
query begins, which takes a second. -/
def provenAfterTick : List DetectingLabel :=
  List.replicate 11 (.scheduler (.poll Sched.openDeadline)) ++
    [.insert ⟨1000, 0, 0, 0, none⟩, .wait .look, .wait .reply, .scheduler (.elapse 5000),
      .prove 0 [1], .wait .tick, .scheduler (.elapse 1000)]

/-- WINDOW_POST is still on, six seconds after its beginning and one after the proof. -/
theorem windowPost_provenAfterTick :
    ∃ w, (system detectionOn).Reach (Steady detectionOn ⟨⟨15000, 0⟩, 1000, 0, 0⟩) w ∧
      w.now = 6000 ∧ w.completeSince = some 5000 ∧
      w.now ≤ max 5000 0 + 5000 + 2 * 1000 + 0 := by
  have hfinal : ((system detectionOn).execGuarded
      (fun w l => w.inTime detectionOn ⟨⟨15000, 0⟩, 1000, 0, 0⟩ l = true ∧
        w.paced.sched.poll ≠ .failSafe .transition) {} provenAfterTick).any (fun w =>
          w.now == 6000 && w.paced.sched.cells.current == .windowPost &&
            w.completeSince == some 5000 && w.yieldedSince == some 0 && !w.missed) = true := by
    decide +kernel
  obtain ⟨w, hrun, hw⟩ := (Option.any_eq_true _ _).mp hfinal
  simp only [Bool.and_eq_true, beq_iff_eq, Bool.not_eq_true'] at hw
  obtain ⟨⟨⟨⟨hnow, hcurrent⟩, hcomplete⟩, hyielded⟩, hmissed⟩ := hw
  have hreach : (system detectionOn).Reach (Steady detectionOn ⟨⟨15000, 0⟩, 1000, 0, 0⟩) w := by
    have hinit : (system detectionOn).init {} := rfl
    refine System.Reach.execGuarded_of (.init hinit) (fun l _ s hs => ⟨hs.1, ?_⟩) hrun
    rintro action - answers -
    exact hs.2
  obtain ⟨since, hsince, -, hbound⟩ := windowPost_bounded hreach hcurrent
  obtain rfl : since = 0 := Option.some.inj (hsince.symm.trans hyielded)
  exact ⟨w, hreach, hnow, hcomplete, hbound hmissed 5000 hcomplete⟩

end DetectingSched

end OpenModel.Scheduler
