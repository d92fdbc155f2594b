import OpenModel.Scheduler.Pace
import OpenModel.Scheduler.ProvingSchedule

/-!
# The hard stop comes in time

The scheduler on its way to the window of a deadline whose proof is not recorded: from an epoch
within the hard-stop threshold on, with the poll goroutine asleep, every win and its timer over and
no proof monitor active. From there on no block is won and no proof monitor takes a step, so that
none detects the proof or reaches its MaxWait. Polls come at their pace and Lotus reports epochs
before the window closes or, with the fail-safe, has no deadline to report; subscribers and the
clock go on as they like. The state machine says WINDOW_POST after one sleep and one poll and says
nothing else in such a run.

## Main results

- `Sched.trueCache_of_reach`: in every run the sector cache holds true counts
- `Approach.Heading.poll_step`: what one step of the poll goroutine does on the way
- `Approach.windowPost_of_reach`: the bound
-/

namespace OpenModel.Scheduler

open Transition (System)

-- ════════════════════════════════════════════════════════════════════════
-- The sector cache in every run
-- ════════════════════════════════════════════════════════════════════════

namespace PollPc

variable {cfg : Config} {answers : LotusAnswers} {c : Cells} {pc : PollPc}

/-- Only the look-ahead writes the sector cache. -/
theorem step_sectorCache (h : ∀ info, pc ≠ getSectors info) :
    (pc.step cfg answers c).1.sectorCache = c.sectorCache := by
  cases pc with
  | getSectors info => exact absurd rfl (h info)
  | idle | loadState | evaluate info =>
    simp only [step]
    split <;> rfl
  | getProvingDeadline =>
    simp only [step]
    split <;> [split; skip] <;> rfl
  | failSafe a | stayAvailable d a | applying info prev a => exact ApplyPc.step_sectorCache
  | loadPrevState info | setProofMonitorActive info | launchMonitor info => rfl

theorem step_getSectors_sectorCache (info : DeadlineInfo) :
    ((getSectors info).step cfg answers c).1.sectorCache =
      (c.sectorCache.lookAhead cfg.policy info answers.sectors).2 := by
  simp only [step]
  split <;> simp [*]

/-- The deadline on whose sectors a poll looks is the one that Lotus reported. -/
theorem step_eq_getSectors {info : DeadlineInfo}
    (h : (pc.step cfg answers c).2.1 = getSectors info) : answers.deadline = some info := by
  cases pc with
  | getProvingDeadline =>
    simp only [step] at h
    cases hd : answers.deadline with
    | none =>
      rw [hd] at h
      dsimp only at h
      split at h <;> cases h
    | some info' =>
      rw [hd] at h
      cases h
      rfl
  | idle | loadState | evaluate info | getSectors info =>
    simp only [step] at h
    split at h <;> cases h
  | failSafe a =>
    simp only [step] at h
    cases hr : (a.step false failSafeDecision c).2 <;> rw [hr] at h <;> cases h
  | stayAvailable d a =>
    simp only [step] at h
    cases hr : (a.step true d c).2 <;> rw [hr] at h <;> cases h
  | applying info prev a =>
    simp only [step] at h
    cases hr : (a.step true (cfg.policy.evaluateWindowPost info) c).2 with
    | none =>
      rw [hr, Option.elim_none, afterApply] at h
      split at h <;> cases h
    | some a' =>
      rw [hr] at h
      cases h
  | loadPrevState info | setProofMonitorActive info | launchMonitor info => cases h

end PollPc

namespace Sched

variable {cfg : Config} {S : ProvingSchedule} {sectors : Nat → Nat} {s t : Sched} {a : Action}

/-- The poll goroutine alone writes the sector cache. -/
theorem sectorCache_of_step (h : s.step cfg a = some t) (ha : ∀ answers, a ≠ .poll answers) :
    t.cells.sectorCache = s.cells.sectorCache := by
  cases a with
  | poll answers => exact absurd rfl (ha answers)
  | monitor i =>
    obtain ⟨m, c, m', -, hm, rfl⟩ := monitorStep_eq_some.mp h
    cases m with
    | applying a =>
      cases hm
      exact ApplyPc.step_sectorCache
    | exited => cases hm
    | _ =>
      cases hm
      rfl
  | trigger i =>
    obtain ⟨w, c, w', started, -, hw, rfl⟩ := triggerStep_eq_some.mp h
    obtain ⟨a, -, rfl, -⟩ | ⟨-, rfl, -⟩ | ⟨gen, -, rfl, -⟩ := Trigger.step_cases hw
    · exact ApplyPc.step_sectorCache
    all_goals rfl
  | timer i =>
    obtain ⟨r, c, pc', -, hr, rfl⟩ := timerStep_eq_some.mp h
    obtain ⟨-, rfl, -⟩ | ⟨f, -, -, rfl, -⟩ | ⟨-, rfl, -⟩ | ⟨a, -, rfl, -⟩ := TimerPc.step_cases hr
    case inr.inr.inr => exact ApplyPc.step_sectorCache
    all_goals rfl
  | timerDone i =>
    obtain ⟨r, fireAt, -, -, -, rfl⟩ := timerDoneStep_eq_some.mp h
    rfl
  | _ =>
    cases h
    rfl

/-- Lotus reports deadlines of the schedule and the sectors that they have, or fails. -/
def FromLotus (S : ProvingSchedule) (sectors : Nat → Nat) (_ : Sched) : Action → Prop
  | .poll answers =>
    (∀ info, answers.deadline = some info → ∃ e, info = S.infoAt e) ∧
      ∀ i k, answers.sectors i = some k → k = sectors i
  | _ => True

/-- The cache holds true counts of deadlines of the period. -/
structure TrueCache (S : ProvingSchedule) (sectors : Nat → Nat) (s : Sched) : Prop where
  keyed : s.cells.sectorCache.Keyed S.deadlines
  truthful : s.cells.sectorCache.Truthful sectors
  reported : ∀ info, s.poll = .getSectors info → ∃ e, info = S.infoAt e

theorem TrueCache.step (h : s.TrueCache S sectors) (hok : FromLotus S sectors s a)
    (hstep : s.step cfg a = some t) : t.TrueCache S sectors := by
  cases ha : a.isPoll with
  | false =>
    have hcache := sectorCache_of_step hstep (Action.ne_poll_of_isPoll ha)
    have hpoll := poll_of_step hstep (Action.ne_poll_of_isPoll ha)
    exact ⟨hcache ▸ h.keyed, hcache ▸ h.truthful, hpoll ▸ h.reported⟩
  | true =>
    cases a with
    | poll answers =>
      cases hstep
      refine ⟨?_, ?_, fun info hinfo => hok.1 info (PollPc.step_eq_getSectors hinfo)⟩
      all_goals
        by_cases hpc : ∃ info, s.poll = .getSectors info
        · obtain ⟨info, hpc⟩ := hpc
          obtain ⟨e, rfl⟩ := h.reported info hpc
          simp only [pollStep, hpc, PollPc.step_getSectors_sectorCache]
          first
          | exact h.keyed.lookAhead (S.onSchedule_infoAt e).onPeriod.numDeadlines_eq
              ProvingSchedule.indexOf_lt
          | exact h.truthful.lookAhead hok.2
        · have hcache : (s.poll.step cfg answers s.cells).1.sectorCache = s.cells.sectorCache :=
            PollPc.step_sectorCache (not_exists.mp hpc)
          simp only [pollStep, hcache]
          first
          | exact h.keyed
          | exact h.truthful
    | _ => cases ha

/-- **Run lemma**. -/
theorem trueCache_of_reach (h : (system cfg).Reach (FromLotus S sectors) s) :
    s.TrueCache S sectors := by
  refine h.invariant (I := TrueCache S sectors) ?_ fun s a t hs hok hstep => hs.step hok hstep
  rintro s rfl
  exact ⟨SectorCache.keyed_empty _ _, fun i e he => by simp at he, nofun⟩

end Sched

-- ════════════════════════════════════════════════════════════════════════
-- On the way to a window
-- ════════════════════════════════════════════════════════════════════════

/-- A window on whose hard stop the scheduler is: seen from epoch `first`, deadline `number` is
the first one with sectors, and its window opens within the hard-stop threshold. -/
structure Approach where
  cfg : Config
  schedule : ProvingSchedule
  sectors : Nat → Nat
  number : Int
  first : Int
  isFirst : schedule.IsFirst sectors (schedule.current first) number
  hardStop : (schedule.deadline number first).secondsUntilOpen ≤
    cfg.policy.windowPost.hardStopThresholdSec

namespace Approach

variable (A : Approach)

/-- The window as Lotus reports it at an epoch. -/
def window (e : Int) : DeadlineInfo := A.schedule.deadline A.number e

/-- From the first epoch on, before the window closes. -/
def Within (e : Int) : Prop := A.first ≤ e ∧ e < (A.window e).closesAt

/-- Lotus answers at such an epoch and counts the sectors; or it has no deadline to report, and
the fail-safe is on. -/
structure Answers (answers : LotusAnswers) : Prop where
  reported : ∀ info, answers.deadline = some info → ∃ e, A.Within e ∧ info = A.schedule.infoAt e
  failSafe : answers.deadline = none → A.cfg.policy.failSafeOnDisconnect
  counted : answers.sectors = fun i => some (A.sectors i)

/-- Nothing but the poll goroutine has something to do. -/
structure Calm (s : Sched) : Prop where
  poll : s.poll = .idle
  triggers : ∀ w ∈ s.triggers, ∃ gen, w.pc = .returned gen
  timers : ∀ r ∈ s.timers, r.pc = .exited
  monitor : s.cells.proofMonitorActive = false
  current : s.cells.current ≠ .winningPost
  proof : (A.window A.first).proofKey ∉ s.cells.completedProofs

/-- Polls come at this pace and are answered. No block is won, and no proof monitor takes a step:
it neither detects the proof nor reaches its MaxWait. -/
def Punctual (p : Pace) (w : PacedSched) (a : Action) : Prop :=
  w.OnTime p a ∧
    match a with
    | .poll answers => A.Answers answers
    | .win _ | .monitor _ => False
    | _ => True

/-- What the poll goroutine has before it. -/
def Ahead : PollPc → Prop
  | .getSectors info => ∃ e, A.Within e ∧ info = A.schedule.infoAt e
  | .evaluate info | .loadPrevState info | .applying info _ _ => ∃ e, A.Within e ∧ info = A.window e
  | .stayAvailable _ _ => False
  | _ => True

/-- The poll in flight has written its decision. -/
def Decided : PollPc → Prop
  | .failSafe pc | .applying _ _ pc => pc ≠ .transition
  | .setProofMonitorActive _ | .launchMonitor _ => True
  | _ => False

/-- The poll goroutine and the cells on the way. -/
structure Heading (c : Cells) (pc : PollPc) : Prop where
  ahead : A.Ahead pc
  keyed : c.sectorCache.Keyed A.schedule.deadlines
  truthful : c.sectorCache.Truthful A.sectors
  proof : (A.window A.first).proofKey ∉ c.completedProofs
  current : c.current ≠ .winningPost
  demanded : Decided pc ∨ c.proofMonitorActive = true → c.current = .windowPost

variable {A} {c : Cells} {pc : PollPc} {e : Int} {answers : LotusAnswers}

/-- At every epoch of the way the policy demands the GPU. -/
theorem decides (h : A.Within e) :
    (A.cfg.policy.evaluateWindowPost (A.window e)).state = .windowPost := by
  by_cases hopen : (A.window e).isOpen = true
  · exact YieldPolicy.evaluateWindowPost_of_isOpen hopen
  · refine YieldPolicy.evaluateWindowPost_of_hardStop ?_
    have hbefore : e < (A.window e).opensAt := by
      by_contra hle
      exact hopen ((DeadlineInfo.isOpen_iff _).mpr ⟨not_lt.mp hle, h.2⟩)
    have hsooner : (A.window e).opensAt - e ≤ (A.window A.first).opensAt - A.first :=
      Int.sub_le_sub_left h.1 _
    have hfirst : A.first ≤ (A.window A.first).opensAt := by
      have : (A.window e).opensAt = (A.window A.first).opensAt := rfl
      have := h.1
      omega
    calc (A.window e).secondsUntilOpen
        = ((A.window e).opensAt - e) * epochDuration :=
          DeadlineInfo.secondsUntilOpen_of_le hbefore.le
      _ ≤ ((A.window A.first).opensAt - A.first) * epochDuration :=
          Int.mul_le_mul_of_nonneg_right hsooner (by decide)
      _ = (A.window A.first).secondsUntilOpen :=
          (DeadlineInfo.secondsUntilOpen_of_le hfirst).symm
      _ ≤ A.cfg.policy.windowPost.hardStopThresholdSec := A.hardStop

/-- At every epoch of the way the window's deadline is the first one with sectors. -/
theorem isFirst_of_within (h : A.Within e) :
    A.schedule.IsFirst A.sectors (A.schedule.current e) A.number := by
  refine A.isFirst.mono (ProvingSchedule.current_mono h.1) ?_
  have hclose : e - A.schedule.start < (A.number + 1) * A.schedule.window := by
    have h2 : e < A.schedule.start + A.number * A.schedule.window + A.schedule.window := h.2
    rw [Int.add_mul, Int.one_mul]
    omega
  exact Int.lt_add_one_iff.mp (Int.ediv_lt_of_lt_mul A.schedule.window_pos hclose)

namespace Heading

/-- Where the state machine says WINDOW_POST, little is left to show. -/
theorem of_windowPost (h : A.Heading c pc) {c' : Cells} {pc' : PollPc}
    (hw : c'.current = .windowPost) (hcache : c'.sectorCache = c.sectorCache)
    (hproofs : c'.completedProofs = c.completedProofs) (hahead : A.Ahead pc') :
    A.Heading c' pc' where
  ahead := hahead
  keyed := hcache ▸ h.keyed
  truthful := hcache ▸ h.truthful
  proof := hproofs ▸ h.proof
  current := by simp [hw]
  demanded := fun _ => hw

/-- The poll goes on and the cells stay. -/
theorem goes_on (h : A.Heading c pc) {pc' : PollPc} (hahead : A.Ahead pc')
    (hdecided : Decided pc' → Decided pc) : A.Heading c pc' :=
  { h with
    ahead := hahead
    demanded := fun hd => h.demanded (hd.imp_left hdecided) }

/-- A decision for WINDOW_POST is written at the first step of its call and stays. -/
theorem apply_windowPost (h : A.Heading c pc) {guarded : Bool} {d : YieldDecision}
    (hd : d.state = .windowPost) {a : ApplyPc} (hpc : a ≠ .transition → Decided pc) :
    (a.step guarded d c).1.current = .windowPost := by
  rw [ApplyPc.step_current]
  split_ifs with ha
  · exact hd
  · by_cases hfirst : a = .transition
    · exact absurd ⟨hfirst, fun hw => h.current hw.2⟩ ha
    · exact h.demanded (.inl (hpc hfirst))

/-- **One step of the poll goroutine** on the way: it ends only in WINDOW_POST and takes the
state machine nowhere else once it is there. -/
theorem poll_step (h : A.Heading c pc) (hans : A.Answers answers) :
    A.Heading (pc.step A.cfg answers c).1 (pc.step A.cfg answers c).2.1 ∧
      ((pc.step A.cfg answers c).2.1 = .idle →
        (pc.step A.cfg answers c).1.current = .windowPost) ∧
      (c.current = .windowPost → (pc.step A.cfg answers c).1.current = .windowPost) := by
  cases pc with
  | idle =>
    simp only [PollPc.step]
    split
    · next hactive => exact ⟨h, fun _ => h.demanded (.inr hactive), id⟩
    · exact ⟨h.goes_on trivial False.elim, PollPc.noConfusion, id⟩
  | loadState =>
    simp only [PollPc.step, h.current, if_false]
    exact ⟨h.goes_on trivial False.elim, PollPc.noConfusion, id⟩
  | getProvingDeadline =>
    cases hd : answers.deadline with
    | none =>
      simp only [PollPc.step, hd, hans.failSafe hd, if_true]
      exact ⟨h.goes_on trivial fun ha => absurd rfl ha, PollPc.noConfusion, id⟩
    | some info =>
      simp only [PollPc.step, hd]
      exact ⟨h.goes_on (hans.reported info hd) False.elim, PollPc.noConfusion, id⟩
  | failSafe a =>
    have hw : (a.step false failSafeDecision c).1.current = .windowPost :=
      h.apply_windowPost rfl (fun ha => ha)
    refine ⟨h.of_windowPost hw (ApplyPc.step_sectorCache) ApplyPc.step_completedProofs ?_,
      fun _ => hw, fun _ => hw⟩
    simp only [PollPc.step]
    cases (a.step false failSafeDecision c).2 <;> trivial
  | getSectors info =>
    obtain ⟨e, he, rfl⟩ := h.ahead
    have hcount : ∀ i k, answers.sectors i = some k → k = A.sectors i := by
      intro i k hk
      rw [hans.counted] at hk
      exact (Option.some.inj hk).symm
    have hkeyed : (c.sectorCache.lookAhead A.cfg.policy (A.schedule.infoAt e)
        answers.sectors).2.Keyed A.schedule.deadlines :=
      h.keyed.lookAhead (A.schedule.onSchedule_infoAt e).onPeriod.numDeadlines_eq
        ProvingSchedule.indexOf_lt
    have htruthful : (c.sectorCache.lookAhead A.cfg.policy (A.schedule.infoAt e)
        answers.sectors).2.Truthful A.sectors :=
      h.truthful.lookAhead hcount
    have hfound : (c.sectorCache.lookAhead A.cfg.policy (A.schedule.infoAt e) answers.sectors).1 =
        some (A.window e) := by
      rw [hans.counted]
      refine ProvingSchedule.lookAhead_eq_deadline h.keyed ?_
      rw [h.truthful.reads_eq]
      exact isFirst_of_within he
    have hcells : PollPc.step A.cfg answers c (.getSectors (A.schedule.infoAt e)) =
        ({ c with sectorCache :=
            (c.sectorCache.lookAhead A.cfg.policy (A.schedule.infoAt e) answers.sectors).2 },
          .evaluate (A.window e), none) := by
      simp only [PollPc.step]
      split <;> simp_all
    rw [hcells]
    refine ⟨⟨⟨e, he, rfl⟩, hkeyed, htruthful, h.proof, h.current, ?_⟩, PollPc.noConfusion, id⟩
    exact fun hd => h.demanded (hd.imp_left False.elim)
  | stayAvailable d a => exact h.ahead.elim
  | evaluate info =>
    obtain ⟨e, he, rfl⟩ := h.ahead
    have hskip : skipsYield (A.cfg.policy.evaluateWindowPost (A.window e)) c.completedProofs
        (A.window e) = false := by
      have hproof : (A.window e).proofKey ∉ c.completedProofs := h.proof
      simp [skipsYield, hproof]
    simp only [PollPc.step, hskip, Bool.false_eq_true, if_false]
    exact ⟨h.goes_on ⟨e, he, rfl⟩ False.elim, PollPc.noConfusion, id⟩
  | loadPrevState info => exact ⟨h.goes_on h.ahead fun hd => absurd rfl hd, PollPc.noConfusion, id⟩
  | applying info prev a =>
    obtain ⟨e, he, rfl⟩ := h.ahead
    have hw : (a.step true (A.cfg.policy.evaluateWindowPost (A.window e)) c).1.current =
        .windowPost :=
      h.apply_windowPost (decides he) (fun ha => ha)
    refine ⟨h.of_windowPost hw ApplyPc.step_sectorCache ApplyPc.step_completedProofs ?_,
      fun _ => hw, fun _ => hw⟩
    simp only [PollPc.step]
    cases (a.step true (A.cfg.policy.evaluateWindowPost (A.window e)) c).2 with
    | none =>
      show A.Ahead (PollPc.afterApply A.cfg (A.window e) prev)
      unfold PollPc.afterApply
      split <;> trivial
    | some a' => exact ⟨e, he, rfl⟩
  | setProofMonitorActive info =>
    have hw := h.demanded (.inl trivial)
    exact ⟨h.of_windowPost hw rfl rfl trivial, PollPc.noConfusion, id⟩
  | launchMonitor info =>
    have hw := h.demanded (.inl trivial)
    exact ⟨h.of_windowPost hw rfl rfl trivial, fun _ => hw, id⟩

end Heading

/-- What else moves on the way touches the subscribers only. -/
theorem others_step {cfg : Config} {s t : Sched} {a : Action}
    (htriggers : ∀ w ∈ s.triggers, ∃ gen, w.pc = .returned gen)
    (htimers : ∀ r ∈ s.timers, r.pc = .exited) (hmonitor : ∀ i, a ≠ .monitor i)
    (hwin : ∀ message, a ≠ .win message) (hpoll : ∀ answers, a ≠ .poll answers)
    (hstep : s.step cfg a = some t) :
    t.triggers = s.triggers ∧ t.timers = s.timers ∧
      ∃ subscribers n, t.cells = { s.cells with subscribers := subscribers, nextSubID := n } := by
  cases a with
  | poll answers => exact absurd rfl (hpoll answers)
  | monitor i => exact absurd rfl (hmonitor i)
  | win message => exact absurd rfl (hwin message)
  | trigger i =>
    obtain ⟨w, c, w', started, hw, hstep, -⟩ := Sched.triggerStep_eq_some.mp hstep
    obtain ⟨gen, hpc⟩ := htriggers w (List.mem_of_getElem? hw)
    simp [Trigger.step, hpc] at hstep
  | timer i =>
    obtain ⟨r, c, pc', hr, hstep, -⟩ := Sched.timerStep_eq_some.mp hstep
    simp [htimers r (List.mem_of_getElem? hr), TimerPc.step] at hstep
  | timerDone i =>
    obtain ⟨r, fireAt, hr, hpc, -⟩ := Sched.timerDoneStep_eq_some.mp hstep
    rw [htimers r (List.mem_of_getElem? hr)] at hpc
    cases hpc
  | _ =>
    cases hstep
    exact ⟨rfl, rfl, _, _, rfl⟩

/-- The scheduler on the way since the time `start`. -/
structure OnWay (A : Approach) (p : Pace) (start : Nat) (w : PacedSched) : Prop where
  heading : A.Heading w.sched.cells w.sched.poll
  triggers : ∀ x ∈ w.sched.triggers, ∃ gen, x.pc = .returned gen
  timers : ∀ r ∈ w.sched.timers, r.pc = .exited
  inPace : w.InPace p
  inTime : w.sched.cells.current = .windowPost ∨
    w.since ≤ start + if w.sched.poll = .idle then 0 else p.interval

variable {p : Pace} {start : Nat} {u w v : PacedSched} {a : Action}

/-- Where the way begins. -/
theorem onWay_start (h : A.Calm u.sched) (hcache : u.sched.TrueCache A.schedule A.sectors)
    (hpace : u.InPace p) : A.OnWay p u.sched.now u where
  heading :=
    { ahead := by simp [h.poll, Ahead]
      keyed := hcache.keyed
      truthful := hcache.truthful
      proof := h.proof
      current := h.current
      demanded := by simp [h.poll, h.monitor, Decided] }
  triggers := h.triggers
  timers := h.timers
  inPace := hpace
  inTime := .inr (hpace.1.trans (Nat.le_add_right _ _))

/-- **Step lemma**: a poll that began in time ends in WINDOW_POST. -/
theorem OnWay.step (h : A.OnWay p start w) (hok : A.Punctual p w a)
    (hstep : w.step A.cfg a = some v) : A.OnWay p start v := by
  have hpace := PacedSched.inPace_step h.inPace hok.1 hstep
  obtain ⟨sched, hsched, rfl⟩ := PacedSched.step_eq_some.mp hstep
  cases ha : a.isPoll with
  | false =>
    have hpoll := Action.ne_poll_of_isPoll ha
    obtain ⟨htriggers, htimers, subscribers, n, hcells⟩ :=
      others_step h.triggers h.timers (by rintro i rfl; exact hok.2)
        (by rintro message rfl; exact hok.2) hpoll hsched
    have hpc := Sched.poll_of_step hsched hpoll
    refine ⟨?_, htriggers ▸ h.triggers, htimers ▸ h.timers, hpace, ?_⟩
    · have hheading := h.heading
      rw [hcells, hpc]
      exact { hheading with }
    · simpa [PacedSched.marks, ha, hpc, hcells] using h.inTime
  | true =>
    cases a with
    | poll answers =>
      cases hsched
      obtain ⟨hheading, hidle, hstays⟩ := h.heading.poll_step hok.2
      refine ⟨hheading, h.triggers, h.timers, hpace, ?_⟩
      by_cases hnext : (w.sched.poll.step A.cfg answers w.sched.cells).2.1 = .idle
      · exact .inl (hidle hnext)
      · obtain hw | hsince := h.inTime
        · exact .inl (hstays hw)
        · -- the poll begins with this step or has begun before
          right
          have hnow := h.inPace.2
          simp only [Sched.pollStep, hnext, if_false]
          by_cases hcur : w.sched.poll = .idle
          · simp only [hcur, if_true, PacedSched.stay] at hsince hnow
            simp only [PacedSched.marks, Action.isPoll, hcur]
            simp only [beq_self_eq_true, Bool.true_or, Bool.and_self, if_true]
            omega
          · simp only [hcur, if_false] at hsince
            simp only [PacedSched.marks, Action.isPoll, beq_iff_eq, hcur, hnext, Bool.true_and,
              Bool.or_eq_true, or_self, if_false]
            exact hsince
    | _ => cases ha

/-- **Run lemma**. -/
theorem onWay_of_reach
    (hu : (Sched.system A.cfg).Reach (Sched.FromLotus A.schedule A.sectors) u.sched)
    (hcalm : A.Calm u.sched) (hpace : u.InPace p)
    (h : ((PacedSched.system A.cfg).startingAt u).Reach (A.Punctual p) w) :
    A.OnWay p u.sched.now w := by
  refine h.invariant (I := A.OnWay p u.sched.now) ?_ fun w a v hw hok hstep => hw.step hok hstep
  rintro w rfl
  exact onWay_start hcalm (Sched.trueCache_of_reach hu) hpace

/-- After one sleep and one poll. -/
theorem OnWay.windowPost (h : A.OnWay p start w)
    (hlate : start + p.interval + p.longest < w.sched.now) :
    w.sched.cells.current = .windowPost := by
  refine h.inTime.resolve_right fun hsince => ?_
  have hnow := h.inPace.2
  cases hidle : decide (w.sched.poll = .idle) with
  | true =>
    rw [decide_eq_true_eq] at hidle
    simp only [hidle, if_true, PacedSched.stay] at hsince hnow
    omega
  | false =>
    rw [decide_eq_false_iff_not] at hidle
    rw [PacedSched.stay_of_ne_idle hidle] at hnow
    rw [if_neg hidle] at hsince
    omega

/-- **Hard stop**: from a reachable calm state within the hard-stop threshold of a window on, the
state machine says WINDOW_POST after one sleep and one poll, and it goes on saying so to the end of
the run, in whatever order the goroutines move, where no block is won, no proof monitor takes a step
and Lotus reports epochs before the window closes (`Punctual`). -/
theorem windowPost_of_reach
    (hu : (Sched.system A.cfg).Reach (Sched.FromLotus A.schedule A.sectors) u.sched)
    (hcalm : A.Calm u.sched) (hpace : u.InPace p)
    (h : ((PacedSched.system A.cfg).startingAt u).Reach (A.Punctual p) w)
    (hlate : u.sched.now + p.interval + p.longest < w.sched.now) :
    w.sched.cells.current = .windowPost :=
  (onWay_of_reach hu hcalm hpace h).windowPost hlate

/-- Two minutes before the second window of deadline 0, which alone has sectors. -/
def secondPeriod : Approach where
  cfg := ⟨defaultPolicy, true, 0⟩
  schedule := .chain
  sectors := fun i => if i = 0 then 8 else 0
  number := 48
  first := 2876
  isFirst := by
    refine ⟨by decide, by decide, fun r hlo hhi => if_neg ?_⟩
    have hcur : ProvingSchedule.chain.current 2876 = 47 := by decide
    show (r % 48).toNat ≠ 0
    omega
  hardStop := by decide

/-- What Lotus answers then. -/
def secondPeriodAnswers : LotusAnswers :=
  ProvingSchedule.chain.answersAt secondPeriod.sectors 2876

theorem answers_secondPeriod : secondPeriod.Answers secondPeriodAnswers where
  reported := fun info hinfo => ⟨2876, by constructor <;> decide, (Option.some.inj hinfo).symm⟩
  failSafe := nofun
  counted := rfl

theorem calm_secondPeriod : secondPeriod.Calm {} := by
  constructor <;> simp

/-- A whole poll at once, and another one ten seconds later. -/
def secondPeriodRun : List Action :=
  List.replicate 11 (.poll secondPeriodAnswers) ++
    [.elapse 10000, .poll secondPeriodAnswers, .elapse 1]

/-- The hard stop for that window. -/
theorem windowPost_secondPeriod :
    ∃ w, ((PacedSched.system secondPeriod.cfg).startingAt {}).Reach
        (secondPeriod.Punctual ⟨10000, 0⟩) w ∧
      w.sched.now = 10001 ∧ w.sched.cells.current = .windowPost := by
  have hfinal : (((PacedSched.system secondPeriod.cfg).startingAt {}).execGuarded
      (PacedSched.OnTime ⟨10000, 0⟩) {} secondPeriodRun).any
      (fun w => w.sched.now = 10001) = true := by
    decide +kernel
  obtain ⟨w, hrun, hnow⟩ := (Option.any_eq_true _ _).mp hfinal
  rw [decide_eq_true_eq] at hnow
  have hreach : ((PacedSched.system secondPeriod.cfg).startingAt {}).Reach
      (secondPeriod.Punctual ⟨10000, 0⟩) w := by
    refine System.Reach.execGuarded_of (.init rfl) (fun l hl u hok => ⟨hok, ?_⟩) hrun
    simp only [secondPeriodRun, List.mem_append, List.mem_replicate, List.mem_cons,
      List.not_mem_nil, or_false] at hl
    obtain ⟨-, rfl⟩ | rfl | rfl | rfl := hl
    · exact answers_secondPeriod
    · trivial
    · exact answers_secondPeriod
    · trivial
  refine ⟨w, hreach, hnow, windowPost_of_reach (u := {}) (.init rfl) calm_secondPeriod
    ⟨le_rfl, Nat.zero_le _⟩ hreach ?_⟩
  show 10000 < w.sched.now
  omega

end Approach

end OpenModel.Scheduler
