import Mathlib.Order.Lattice
import Mathlib.Tactic.SplitIfs

/-!
# Asking until something holds

A call asks at once whether something holds, and again at every tick of a ticker, until it is
told so, until a timeout, or until it is cancelled. A question takes some time and looks at one
moment of it. The ticker fires at fixed times and keeps one tick at most; between two questions
the call waits for the first thing that is ready, and where several are it takes any of them. So
a tick can be taken although the timeout is ready, which is counted.

Time is urgent: a question takes `longest` at most, and what is ready is taken at once.

## Main results

- `Call.Limited.step`, `Call.Limited.finished`: when the call is over
- `Call.Told.step`, `Call.Told.finished`: when it is over once the condition holds
-/

namespace PollUntil

/-- The interval of the ticker and the timeout. A ticker of interval 0 cannot be made. -/
structure Limits where
  interval : Nat
  maxWait : Nat
  interval_pos : 0 < interval

/-- Where a call is. -/
inductive CallPc
  /-- a question began; `seen` is what it has seen, once it has looked -/
  | asking (began : Nat) (seen : Option Bool)
  | selecting
  | returned (found : Bool) (time : Nat)
  deriving DecidableEq, Repr

structure Call where
  started : Nat
  pc : CallPc
  /-- a tick waits to be taken -/
  tick : Bool := false
  /-- how often a tick was taken although the timeout was ready -/
  passedOver : Nat := 0
  deriving DecidableEq, Repr

inductive Event
  /-- the question looks whether it holds -/
  | look
  | reply
  | fail
  /-- a tick is taken, and the next question begins -/
  | tick
  | timeout
  | cancel
  deriving DecidableEq, Repr

namespace Call

/-- A call starts with a question. -/
def start (now : Nat) : Call := { started := now, pc := .asking now none }

variable (lim : Limits) (longest patience : Nat)

def timedOut (now : Nat) (c : Call) : Bool := decide (c.started + lim.maxWait ≤ now)

/-- The number of times the ticker has fired. -/
def fired (now : Nat) (c : Call) : Nat := (now - c.started) / lim.interval

/-- When it fires next. -/
def nextTick (now : Nat) (c : Call) : Nat := c.started + (c.fired lim now + 1) * lim.interval

/-- Time passes. -/
def elapse (now ms : Nat) (c : Call) : Call :=
  { c with tick := c.tick || decide (c.fired lim now < c.fired lim (now + ms)) }

def step (holds : Bool) (now : Nat) (c : Call) : Event → Option Call
  | .look =>
    match c.pc with
    | .asking began none => some { c with pc := .asking began (some holds) }
    | _ => none
  | .reply =>
    match c.pc with
    | .asking _ (some found) =>
      some { c with pc := if found then .returned true now else .selecting }
    | _ => none
  | .fail =>
    match c.pc with
    | .asking _ none => some { c with pc := .selecting }
    | _ => none
  | .tick =>
    if c.pc = .selecting ∧ c.tick then
      some { c with
        pc := .asking now none
        tick := false
        passedOver := if c.timedOut lim now then c.passedOver + 1 else c.passedOver }
    else none
  | .timeout =>
    if c.pc = .selecting ∧ c.timedOut lim now then some { c with pc := .returned false now }
    else none
  | .cancel => if c.pc = .selecting then some { c with pc := .returned false now } else none

/-- So much time may pass: a question is not too long, and nothing that is ready is kept
waiting. -/
def mayElapse (now ms : Nat) (c : Call) : Bool :=
  match c.pc with
  | .asking began _ => decide (now + ms ≤ began + longest)
  | .selecting =>
    ms == 0 ||
      !c.tick && decide (now + ms ≤ c.nextTick lim now) && decide (now + ms ≤ c.started + lim.maxWait)
  | .returned _ _ => true

/-- The timeout is passed over a few times at most. -/
def fair (now : Nat) (c : Call) (e : Event) : Bool :=
  e != .tick || !c.timedOut lim now || decide (c.passedOver < patience)

/-- A question that began when the condition held does not fail. -/
def answered (holdsSince : Option Nat) (c : Call) : Event → Bool
  | .fail =>
    match c.pc with
    | .asking began _ => holdsSince.all fun since => decide (began < since)
    | _ => true
  | _ => true

variable {lim : Limits} {longest patience now ms : Nat} {c d : Call} {e : Event} {holds : Bool}

@[simp] theorem elapse_started : (c.elapse lim now ms).started = c.started := rfl

@[simp] theorem elapse_pc : (c.elapse lim now ms).pc = c.pc := rfl

@[simp] theorem elapse_passedOver : (c.elapse lim now ms).passedOver = c.passedOver := rfl

@[simp] theorem elapse_zero : c.elapse lim now 0 = c := by
  simp [elapse]

/-- **What an event does**. -/
theorem step_cases (h : c.step lim holds now e = some d) :
    (∃ began, e = .look ∧ c.pc = .asking began none ∧
      d = { c with pc := .asking began (some holds) }) ∨
    (∃ began found, e = .reply ∧ c.pc = .asking began (some found) ∧
      d = { c with pc := if found then .returned true now else .selecting }) ∨
    (∃ began, e = .fail ∧ c.pc = .asking began none ∧ d = { c with pc := .selecting }) ∨
    (e = .tick ∧ c.pc = .selecting ∧ c.tick ∧ d = { c with
      pc := .asking now none
      tick := false
      passedOver := if c.timedOut lim now then c.passedOver + 1 else c.passedOver }) ∨
    (c.pc = .selecting ∧ (e = .timeout ∧ c.timedOut lim now ∨ e = .cancel) ∧
      d = { c with pc := .returned false now }) := by
  cases e with
  | look =>
    simp only [step] at h
    split at h
    · next began hpc => exact .inl ⟨began, rfl, hpc, (Option.some.inj h).symm⟩
    · cases h
  | reply =>
    simp only [step] at h
    split at h
    · next began found hpc => exact .inr (.inl ⟨began, found, rfl, hpc, (Option.some.inj h).symm⟩)
    · cases h
  | fail =>
    simp only [step] at h
    split at h
    · next began hpc => exact .inr (.inr (.inl ⟨began, rfl, hpc, (Option.some.inj h).symm⟩))
    · cases h
  | tick =>
    obtain ⟨⟨hpc, htick⟩, hd⟩ := Option.ite_none_right_eq_some.mp h
    exact .inr (.inr (.inr (.inl ⟨rfl, hpc, htick, (Option.some.inj hd).symm⟩)))
  | timeout =>
    obtain ⟨⟨hpc, htimeout⟩, hd⟩ := Option.ite_none_right_eq_some.mp h
    exact .inr (.inr (.inr (.inr ⟨hpc, .inl ⟨rfl, htimeout⟩, (Option.some.inj hd).symm⟩)))
  | cancel =>
    obtain ⟨hpc, hd⟩ := Option.ite_none_right_eq_some.mp h
    exact .inr (.inr (.inr (.inr ⟨hpc, .inr rfl, (Option.some.inj hd).symm⟩)))

/-- A call that has returned does nothing more. -/
theorem not_returned_of_step (h : c.step lim holds now e = some d) (found : Bool) (time : Nat) :
    c.pc ≠ .returned found time := by
  obtain ⟨began, -, hpc, -⟩ | ⟨began, seen, -, hpc, -⟩ | ⟨began, -, hpc, -⟩ | ⟨-, hpc, -, -⟩ |
    ⟨hpc, -, -⟩ := step_cases h <;>
    · rw [hpc]
      nofun

/-- A call returns now. -/
theorem time_of_step (h : c.step lim holds now e = some d) {found : Bool} {time : Nat}
    (hpc : d.pc = .returned found time) : time = now := by
  obtain ⟨began, -, -, rfl⟩ | ⟨began, seen, -, -, rfl⟩ | ⟨began, -, -, rfl⟩ | ⟨-, -, -, rfl⟩ |
    ⟨-, -, rfl⟩ := step_cases h
  · cases hpc
  · dsimp only at hpc
    split_ifs at hpc
    cases hpc
    rfl
  · cases hpc
  · cases hpc
  · cases hpc
    rfl

theorem started_of_step (h : c.step lim holds now e = some d) : d.started = c.started := by
  obtain ⟨_, -, -, rfl⟩ | ⟨_, _, -, -, rfl⟩ | ⟨_, -, -, rfl⟩ | ⟨-, -, -, rfl⟩ | ⟨-, -, rfl⟩ :=
    step_cases h <;> rfl

-- ════════════════════════════════════════════════════════════════════════
-- The ticker
-- ════════════════════════════════════════════════════════════════════════

theorem lt_nextTick (lim : Limits) (hstart : c.started ≤ now) : now < c.nextTick lim now := by
  have h := Nat.lt_mul_div_succ (now - c.started) lim.interval_pos
  rw [Nat.mul_comm] at h
  unfold nextTick fired
  omega

theorem nextTick_le (lim : Limits) (hstart : c.started ≤ now) :
    c.nextTick lim now ≤ now + lim.interval := by
  have h := Nat.div_mul_le_self (now - c.started) lim.interval
  unfold nextTick fired
  rw [Nat.succ_mul]
  omega

/-- Before the next tick the ticker does not fire. -/
theorem fired_eq (hstart : c.started ≤ now) (h : now + ms < c.nextTick lim now) :
    c.fired lim (now + ms) = c.fired lim now := by
  refine le_antisymm ?_ (Nat.div_le_div_right (by omega))
  refine Nat.lt_succ_iff.mp ((Nat.div_lt_iff_lt_mul lim.interval_pos).mpr ?_)
  unfold nextTick at h
  rw [Nat.succ_eq_add_one]
  omega

/-- At the next tick it does. -/
theorem fired_lt (h : now + ms = c.nextTick lim now) : c.fired lim now < c.fired lim (now + ms) := by
  have heq : now + ms - c.started = (c.fired lim now + 1) * lim.interval := by
    unfold nextTick at h
    omega
  show c.fired lim now < (now + ms - c.started) / lim.interval
  rw [heq, Nat.mul_div_cancel _ lim.interval_pos]
  exact Nat.lt_succ_self _

-- ════════════════════════════════════════════════════════════════════════
-- The times of a call
-- ════════════════════════════════════════════════════════════════════════

/-- Nothing lies in the future, and the question that is on is not too long. -/
structure Timely (longest now : Nat) (c : Call) : Prop where
  started : c.started ≤ now
  asking : ∀ began seen, c.pc = .asking began seen → began ≤ now ∧ now ≤ began + longest
  returned : ∀ found time, c.pc = .returned found time → time ≤ now

theorem timely_start : (start now).Timely longest now where
  started := le_rfl
  asking := by
    rintro began seen hpc
    cases hpc
    exact ⟨le_rfl, Nat.le_add_right _ _⟩
  returned := nofun

/-- A question stays within its limit. -/
theorem le_of_mayElapse {began : Nat} {seen : Option Bool} (hpc : c.pc = .asking began seen)
    (hok : c.mayElapse lim longest now ms) : now + ms ≤ began + longest := by
  simpa [mayElapse, hpc] using hok

/-- Between two questions time passes until something is ready. -/
theorem cases_of_mayElapse (hpc : c.pc = .selecting) (hok : c.mayElapse lim longest now ms) :
    ms = 0 ∨ c.tick = false ∧ now + ms ≤ c.nextTick lim now ∧ now + ms ≤ c.started + lim.maxWait := by
  simpa [mayElapse, hpc, and_assoc] using hok

theorem Timely.elapse (h : c.Timely longest now) (hok : c.mayElapse lim longest now ms) :
    (c.elapse lim now ms).Timely longest (now + ms) where
  started := h.started.trans (Nat.le_add_right _ _)
  asking := by
    rintro began seen hpc
    have hbegan := (h.asking began seen hpc).1
    exact ⟨by omega, le_of_mayElapse (c := c) hpc hok⟩
  returned := fun found time hpc => (h.returned found time hpc).trans (Nat.le_add_right _ _)

theorem Timely.step (h : c.Timely longest now) (hstep : c.step lim holds now e = some d) :
    d.Timely longest now := by
  obtain ⟨began, -, hpc, rfl⟩ | ⟨began, found, -, hpc, rfl⟩ | ⟨began, -, hpc, rfl⟩ |
    ⟨-, hpc, -, rfl⟩ | ⟨hpc, -, rfl⟩ := step_cases hstep
  · refine ⟨h.started, ?_, nofun⟩
    rintro began' seen hpc'
    cases hpc'
    exact h.asking began none hpc
  · refine ⟨h.started, fun began' seen hpc' => ?_, fun found' time hpc' => ?_⟩
    · dsimp only at hpc'
      split_ifs at hpc'
    · dsimp only at hpc'
      split_ifs at hpc'
      cases hpc'
      exact le_rfl
  · exact ⟨h.started, nofun, nofun⟩
  · refine ⟨h.started, ?_, nofun⟩
    rintro began' seen hpc'
    cases hpc'
    exact ⟨le_rfl, Nat.le_add_right _ _⟩
  · refine ⟨h.started, nofun, ?_⟩
    rintro found time hpc'
    cases hpc'
    exact le_rfl

-- ════════════════════════════════════════════════════════════════════════
-- The timeout
-- ════════════════════════════════════════════════════════════════════════

/-- When the timeout was passed over so often, it is this late at most. -/
def lateness (lim : Limits) (longest : Nat) (c : Call) (times : Nat) : Nat :=
  c.started + lim.maxWait + times * longest

/-- The call is within its limits. -/
structure Limited (lim : Limits) (longest patience now : Nat) (c : Call) : Prop where
  timely : c.Timely longest now
  patient : c.passedOver ≤ patience
  asking : ∀ began seen, c.pc = .asking began seen → began ≤ c.lateness lim longest c.passedOver
  selecting : c.pc = .selecting → now ≤ c.lateness lim longest (c.passedOver + 1)
  returned : ∀ found time, c.pc = .returned found time →
    time ≤ c.lateness lim longest (patience + 1)

theorem lateness_succ (times : Nat) :
    c.lateness lim longest (times + 1) = c.lateness lim longest times + longest := by
  unfold lateness
  rw [Nat.succ_mul]
  omega

theorem lateness_mono {m n : Nat} (h : m ≤ n) :
    c.lateness lim longest m ≤ c.lateness lim longest n :=
  Nat.add_le_add_left (Nat.mul_le_mul_right _ h) _

theorem le_lateness (times : Nat) : c.started + lim.maxWait ≤ c.lateness lim longest times :=
  Nat.le_add_right _ _

theorem limited_start : (start now).Limited lim longest patience now where
  timely := timely_start
  patient := Nat.zero_le _
  asking := by
    rintro began seen hpc
    cases hpc
    exact (Nat.le_add_right now lim.maxWait).trans (le_lateness (c := start now) 0)
  selecting := nofun
  returned := nofun

namespace Limited

theorem elapse (h : c.Limited lim longest patience now) (hok : c.mayElapse lim longest now ms) :
    (c.elapse lim now ms).Limited lim longest patience (now + ms) where
  timely := h.timely.elapse hok
  patient := h.patient
  asking := h.asking
  selecting := by
    intro hpc
    obtain rfl | ⟨-, -, htimeout⟩ := cases_of_mayElapse (c := c) hpc hok
    · exact h.selecting hpc
    · exact htimeout.trans (le_lateness _)
  returned := h.returned

/-- **Step lemma**. -/
theorem step (h : c.Limited lim longest patience now) (hfair : c.fair lim patience now e)
    (hstep : c.step lim holds now e = some d) : d.Limited lim longest patience now := by
  have htimely := h.timely.step hstep
  obtain ⟨began, -, hpc, rfl⟩ | ⟨began, found, -, hpc, rfl⟩ | ⟨began, -, hpc, rfl⟩ |
    ⟨rfl, hpc, -, rfl⟩ | ⟨hpc, -, rfl⟩ := step_cases hstep
  · refine ⟨htimely, h.patient, ?_, nofun, nofun⟩
    rintro began' seen hpc'
    cases hpc'
    exact h.asking began none hpc
  · have hnow : now ≤ c.lateness lim longest (c.passedOver + 1) := by
      rw [lateness_succ]
      exact (h.timely.asking began _ hpc).2.trans (Nat.add_le_add_right (h.asking began _ hpc) _)
    refine ⟨htimely, h.patient, fun began' seen hpc' => ?_, fun _ => hnow, fun found' time hpc' => ?_⟩
    · dsimp only at hpc'
      split_ifs at hpc'
    · dsimp only at hpc'
      split_ifs at hpc'
      cases hpc'
      exact hnow.trans (lateness_mono (Nat.succ_le_succ h.patient))
  · refine ⟨htimely, h.patient, nofun, fun _ => ?_, nofun⟩
    show now ≤ c.lateness lim longest (c.passedOver + 1)
    rw [lateness_succ]
    exact (h.timely.asking began _ hpc).2.trans (Nat.add_le_add_right (h.asking began _ hpc) _)
  · have hnow := h.selecting hpc
    by_cases ht : c.timedOut lim now
    · simp only [ht, if_true] at htimely ⊢
      have hlt : c.passedOver < patience := by simpa [fair, ht] using hfair
      refine ⟨htimely, hlt, ?_, nofun, nofun⟩
      rintro began seen hpc'
      cases hpc'
      exact hnow
    · simp only [ht, Bool.false_eq_true, if_false] at htimely ⊢
      refine ⟨htimely, h.patient, ?_, nofun, nofun⟩
      rintro began seen hpc'
      cases hpc'
      have hearly : now < c.started + lim.maxWait := by simpa [timedOut] using ht
      exact hearly.le.trans (le_lateness _)
  · refine ⟨htimely, h.patient, nofun, nofun, ?_⟩
    rintro found time hpc'
    cases hpc'
    exact (h.selecting hpc).trans (lateness_mono (Nat.succ_le_succ h.patient))

/-- **The end of a call**: it has returned by then, or it is not later yet. -/
theorem finished (h : c.Limited lim longest patience now) :
    now ≤ c.lateness lim longest (patience + 1) ∨
      ∃ found time, c.pc = .returned found time ∧ time ≤ c.lateness lim longest (patience + 1) := by
  cases hpc : c.pc with
  | asking began seen =>
    left
    have hbegan := (h.asking began seen hpc).trans (lateness_mono h.patient)
    have hnow := (h.timely.asking began seen hpc).2
    rw [lateness_succ]
    omega
  | selecting => exact .inl ((h.selecting hpc).trans (lateness_mono (Nat.succ_le_succ h.patient)))
  | returned found time => exact .inr ⟨found, time, rfl, h.returned found time hpc⟩

end Limited

-- ════════════════════════════════════════════════════════════════════════
-- The condition holds
-- ════════════════════════════════════════════════════════════════════════

/-- The condition holds since the time `since`, and the call finds out. -/
structure Told (lim : Limits) (longest since now : Nat) (c : Call) : Prop where
  timely : c.Timely longest now
  /-- a question that has seen nothing began before -/
  seen : ∀ began, c.pc = .asking began (some false) → began ≤ max since c.started
  asking : ∀ began seen, c.pc = .asking began seen →
    began ≤ max since c.started + lim.interval + longest
  selecting : c.pc = .selecting →
    (c.tick ∧ now ≤ max since c.started + lim.interval + longest) ∨
      c.nextTick lim now ≤ max since c.started + lim.interval + longest
  returned : ∀ found time, c.pc = .returned found time →
    time ≤ max since c.started + lim.interval + 2 * longest

/-- The condition begins to hold, or the call starts when it does. -/
theorem told_since (h : c.Timely longest now) {since : Nat}
    (hsince : since = now ∨ c = start now) : c.Told lim longest since now := by
  have hnow : now ≤ max since c.started := by
    obtain rfl | rfl := hsince
    · exact le_max_left _ _
    · exact le_max_right _ _
  refine ⟨h, fun began hpc => ?_, fun began seen hpc => ?_, fun _ => .inr ?_, fun found time hpc => ?_⟩
  · exact (h.asking began _ hpc).1.trans hnow
  · have := (h.asking began _ hpc).1
    omega
  · have := nextTick_le lim h.started
    omega
  · have := h.returned found time hpc
    omega

namespace Told

variable {since : Nat}

theorem elapse (h : c.Told lim longest since now) (hok : c.mayElapse lim longest now ms) :
    (c.elapse lim now ms).Told lim longest since (now + ms) where
  timely := h.timely.elapse hok
  seen := h.seen
  asking := h.asking
  selecting := by
    intro hpc
    obtain rfl | ⟨htick, hle, -⟩ := cases_of_mayElapse (c := c) hpc hok
    · rw [elapse_zero]
      exact h.selecting hpc
    · have hnext := (h.selecting hpc).resolve_left fun ht => by simp [htick] at ht
      obtain hlt | heq := lt_or_eq_of_le hle
      · right
        show c.started + (c.fired lim (now + ms) + 1) * lim.interval ≤ _
        rw [fired_eq h.timely.started hlt]
        exact hnext
      · left
        refine ⟨?_, hle.trans hnext⟩
        show (c.tick || decide _) = true
        rw [decide_eq_true (fired_lt heq), Bool.or_true]
  returned := h.returned

/-- **Step lemma**: a question that looks sees the condition hold. -/
theorem step (h : c.Told lim longest since now) (hanswered : c.answered (some since) e)
    (hstep : c.step lim true now e = some d) : d.Told lim longest since now := by
  have htimely := h.timely.step hstep
  have hstarted := h.timely.started
  obtain ⟨began, -, hpc, rfl⟩ | ⟨began, found, -, hpc, rfl⟩ | ⟨began, rfl, hpc, rfl⟩ |
    ⟨-, hpc, -, rfl⟩ | ⟨hpc, -, rfl⟩ := step_cases hstep
  · refine ⟨htimely, nofun, ?_, nofun, nofun⟩
    rintro began' seen hpc'
    cases hpc'
    exact h.asking began none hpc
  · have hnow := (h.timely.asking began _ hpc).2
    cases found with
    | true =>
      refine ⟨htimely, nofun, nofun, nofun, ?_⟩
      rintro found time hpc'
      cases hpc'
      have := h.asking began _ hpc
      show now ≤ _
      dsimp only
      omega
    | false =>
      refine ⟨htimely, nofun, nofun, fun _ => .inr ?_, nofun⟩
      have hseen := h.seen began hpc
      have hnext := nextTick_le lim hstarted
      show c.nextTick lim now ≤ _
      dsimp only
      omega
  · refine ⟨htimely, nofun, nofun, fun _ => .inr ?_, nofun⟩
    have hbegan : began < since := by simpa [answered, hpc] using hanswered
    have hnow := (h.timely.asking began _ hpc).2
    have hnext := nextTick_le lim hstarted
    show c.nextTick lim now ≤ _
    dsimp only
    omega
  · refine ⟨htimely, nofun, ?_, nofun, nofun⟩
    rintro began seen hpc'
    cases hpc'
    obtain ⟨-, hle⟩ | hle := h.selecting hpc
    · exact hle
    · exact (lt_nextTick lim hstarted).le.trans hle
  · refine ⟨htimely, nofun, nofun, nofun, ?_⟩
    rintro found time hpc'
    cases hpc'
    have hlt := lt_nextTick lim hstarted
    have hsel := h.selecting hpc
    show now ≤ _
    dsimp only
    omega

/-- **Found out**: the call has returned by then, or it is not later yet. -/
theorem finished (h : c.Told lim longest since now) :
    now ≤ max since c.started + lim.interval + 2 * longest ∨
      ∃ found time, c.pc = .returned found time ∧
        time ≤ max since c.started + lim.interval + 2 * longest := by
  cases hpc : c.pc with
  | asking began seen =>
    left
    have := h.asking began seen hpc
    have := (h.timely.asking began seen hpc).2
    omega
  | selecting =>
    left
    have hlt := lt_nextTick lim h.timely.started
    have hsel := h.selecting hpc
    omega
  | returned found time => exact .inr ⟨found, time, rfl, h.returned found time hpc⟩

end Told

end Call

end PollUntil
