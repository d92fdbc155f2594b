import OpenModel.Scheduler.WinningPost
import Mathlib.Data.List.Nodup

/-!
# The monitor of block wins

`monitorWinningPost` hears of a win from the Curio log and, later, from its row in
`mining_tasks`. A signal of the log does not say which win it is for; a row is taken for a
win that the log has reported when the GPU is WINNING_POST at that moment. Here every
line, signal and row carries the epoch of its win, which only the rows do in the program.

The log watcher forwards a line whenever it reads it, and the rows appear at any time and
in any order. The monitor is in its `select` unless a call of `triggerWinningYield` has not
returned.

## Main results

- `Sched.OwnGenerations.step`: each trigger has its own generation and timer
- `WinMonitor.exactlyOnce_of_reach`: the runs in which each win yields exactly once
- `WinMonitor.Attributed.confused`: what a step that these runs do not take leads to
-/

namespace OpenModel.Scheduler

open Transition (System)

-- ════════════════════════════════════════════════════════════════════════
-- The monitor
-- ════════════════════════════════════════════════════════════════════════

/-- `CheckWinningPost`: the newest row after `sinceEpoch`. -/
def checkWinningPost (rows : List Int) (sinceEpoch : Int) : Option Int :=
  (rows.filter (sinceEpoch < ·)).max?

inductive WinMonitorPc
  | select
  /-- the poll returned this win, whose epoch is recorded; about to load the GPU state -/
  | loadState (epoch : Int)
  deriving DecidableEq, Repr

/-- The scheduler with the win monitor. The wins, the signals that the monitor has received
and the wins that were triggered, in order, are not kept by the program. -/
structure WinMonitor where
  sched : Sched := {}
  pc : WinMonitorPc := .select
  lastCheckedEpoch : Int
  /-- lines of the Curio log that the watcher has not read -/
  lines : List Int := []
  logWinCh : List Int := []
  /-- the won rows of `mining_tasks` -/
  rows : List Int := []
  wins : List Int := []
  received : List Int := []
  triggered : List Int := []

inductive WinLabel
  | sched (action : Action)
  /-- a win, with or without its line in the log -/
  | win (epoch : Int) (logged : Bool)
  /-- the watcher reads a line -/
  | watch
  /-- a row appears -/
  | row (epoch : Int)
  /-- the monitor receives from `logWinCh` -/
  | receive
  /-- the ticker fires; `answered` says whether the query succeeds -/
  | checkDb (answered : Bool)
  /-- the monitor goes on with the answer of the query -/
  | confirm

/-- The generation of a trigger that has returned. -/
def Trigger.returned? (w : Trigger) : Option Int :=
  match w.pc with
  | .returned gen => some gen
  | _ => none

namespace WinMonitor

/-- The call of `triggerWinningYield` for the win at `epoch`. -/
def triggerWinningYield (s : WinMonitor) (message : String) (epoch : Int) : WinMonitor :=
  { s with
    sched := { s.sched with triggers := s.sched.triggers ++ [{ message }] }
    pc := .select
    triggered := s.triggered ++ [epoch] }

/-- The watcher reads a line about this win; a full channel drops its signal. -/
def signal (s : WinMonitor) (epoch : Int) : List Int :=
  if s.logWinCh.length < 4 then s.logWinCh ++ [epoch] else s.logWinCh

/-- The monitor is in its `select`: its last call has returned. -/
def selects (s : WinMonitor) : Bool :=
  s.pc == .select && s.sched.triggers.all (·.returned?.isSome)

/-- The DB poll, up to its look at the GPU state. -/
def checkDb (s : WinMonitor) : WinMonitor :=
  match checkWinningPost s.rows s.lastCheckedEpoch with
  | none => s
  | some epoch => { s with lastCheckedEpoch := epoch, pc := .loadState epoch }

/-- Trigger unless the GPU is WINNING_POST, when the log watcher is taken to have caught
this win first. -/
def confirm (s : WinMonitor) (epoch : Int) : WinMonitor :=
  if s.sched.cells.current = .winningPost then { s with pc := .select }
  else s.triggerWinningYield "detected via Curio DB after proof computation" epoch

def step (cfg : Config) (s : WinMonitor) : WinLabel → Option WinMonitor
  | .sched (.win _) => none
  | .sched action => (s.sched.step cfg action).map fun sched => { s with sched }
  | .win epoch logged =>
    if epoch ∈ s.wins then none
    else some { s with
      wins := s.wins ++ [epoch]
      lines := if logged then s.lines ++ [epoch] else s.lines }
  | .watch =>
    match s.lines with
    | [] => none
    | epoch :: lines => some { s with lines, logWinCh := s.signal epoch }
  | .row epoch =>
    if epoch ∈ s.wins ∧ epoch ∉ s.rows then some { s with rows := s.rows ++ [epoch] } else none
  | .receive =>
    match s.logWinCh with
    | [] => none
    | epoch :: logWinCh =>
      if s.selects then
        some ({ s with logWinCh, received := s.received ++ [epoch] }.triggerWinningYield
          "detected via Curio log before proof computation" epoch)
      else none
  | .checkDb answered => if s.selects then some (if answered then s.checkDb else s) else none
  | .confirm =>
    match s.pc with
    | .select => none
    | .loadState epoch => some (s.confirm epoch)

/-- The monitor from the epoch that Lotus gave it. -/
def system (cfg : Config) : System WinMonitor WinLabel where
  init s := ∃ lastCheckedEpoch, s = { lastCheckedEpoch }
  step := step cfg

end WinMonitor

-- ════════════════════════════════════════════════════════════════════════
-- Generations and timers
-- ════════════════════════════════════════════════════════════════════════

/-- An entry whose value does not change. -/
theorem filterMap_set_of_eq {α β : Type} {f : α → Option β} {xs : List α} {i : Nat} {x y : α}
    (hx : xs[i]? = some x) (hf : f y = f x) : (xs.set i y).filterMap f = xs.filterMap f := by
  obtain ⟨hlt, rfl⟩ := List.getElem?_eq_some_iff.mp hx
  rw [List.set_eq_take_cons_drop _ hlt]
  conv_rhs => rw [← List.take_append_drop i xs, List.drop_eq_getElem_cons hlt]
  simp only [List.filterMap_append, List.filterMap_cons, hf]

/-- An entry that gets a value. -/
theorem filterMap_set_perm {α β : Type} {f : α → Option β} {xs : List α} {i : Nat} {x y : α} {b : β}
    (hx : xs[i]? = some x) (hnone : f x = none) (hsome : f y = some b) :
    ((xs.set i y).filterMap f).Perm (b :: xs.filterMap f) := by
  obtain ⟨hlt, rfl⟩ := List.getElem?_eq_some_iff.mp hx
  rw [List.set_eq_take_cons_drop _ hlt]
  conv_rhs => rw [← List.take_append_drop i xs, List.drop_eq_getElem_cons hlt]
  simp only [List.filterMap_append, List.filterMap_cons, hnone, hsome]
  exact List.perm_middle

namespace Sched

variable {cfg : Config} {s t : Sched} {l : Action}

/-- The triggers have claimed different generations, and each that has returned has started
the one timer of its generation. -/
structure OwnGenerations (s : Sched) : Prop where
  bounded : ∀ gen ∈ s.triggers.filterMap Trigger.gen?, gen ≤ s.cells.winningGen
  distinct : (s.triggers.filterMap Trigger.gen?).Nodup
  timers : (s.timers.map Timer.gen).Perm (s.triggers.filterMap Trigger.returned?)

namespace OwnGenerations

/-- Steps that touch neither triggers nor generations. -/
theorem congr (h : s.OwnGenerations) (hgen : t.cells.winningGen = s.cells.winningGen)
    (htriggers : t.triggers = s.triggers) (htimers : t.timers.map Timer.gen = s.timers.map Timer.gen) :
    t.OwnGenerations := by
  refine ⟨?_, ?_, ?_⟩
  · rw [hgen, htriggers]
    exact h.bounded
  · rw [htriggers]
    exact h.distinct
  · rw [htriggers, htimers]
    exact h.timers

theorem win (h : s.OwnGenerations) (message : String) :
    ({ s with triggers := s.triggers ++ [{ message }] } : Sched).OwnGenerations := by
  have hgen : (s.triggers ++ [({ message } : Trigger)]).filterMap Trigger.gen? =
      s.triggers.filterMap Trigger.gen? := by
    simp [Trigger.gen?]
  have hreturned : (s.triggers ++ [({ message } : Trigger)]).filterMap Trigger.returned? =
      s.triggers.filterMap Trigger.returned? := by
    simp [Trigger.returned?]
  refine ⟨?_, ?_, ?_⟩
  · simpa only [hgen] using h.bounded
  · simpa only [hgen] using h.distinct
  · simpa only [hreturned] using h.timers

theorem trigger (h : s.OwnGenerations) {i : Nat} (hstep : s.triggerStep cfg i = some t) :
    t.OwnGenerations := by
  obtain ⟨w, c, w', started, hw, hs, rfl⟩ := triggerStep_eq_some.mp hstep
  obtain ⟨a, hpc, rfl, hpc', -, rfl⟩ | ⟨hpc, rfl, hpc', -, rfl⟩ | ⟨gen, hpc, rfl, hpc', -, rfl⟩ :=
    Trigger.step_cases hs
  · have hnone : w'.gen? = none ∧ w'.returned? = none := by
      cases hrest : (a.step false (winningDecision cfg w.message) s.cells).2 <;>
        simp [Trigger.gen?, Trigger.returned?, hpc', hrest]
    have hgen : w'.gen? = w.gen? := by
      rw [hnone.1]
      simp [Trigger.gen?, hpc]
    have hreturned : w'.returned? = w.returned? := by
      rw [hnone.2]
      simp [Trigger.returned?, hpc]
    refine ⟨?_, ?_, ?_⟩
    · simpa [filterMap_set_of_eq hw hgen] using h.bounded
    · simpa [filterMap_set_of_eq hw hgen] using h.distinct
    · simpa [filterMap_set_of_eq hw hreturned] using h.timers
  · -- the bump: its generation is greater than every other
    have hgen := filterMap_set_perm (f := Trigger.gen?) (y := w') hw
      (by simp [Trigger.gen?, hpc]) (by simp [Trigger.gen?, hpc']; rfl)
    have hreturned : w'.returned? = w.returned? := by simp [Trigger.returned?, hpc, hpc']
    refine ⟨?_, ?_, ?_⟩
    · intro gen hmem
      obtain rfl | hmem := List.mem_cons.mp (hgen.mem_iff.mp hmem)
      · exact le_rfl
      · have := h.bounded gen hmem
        show gen ≤ s.cells.winningGen + 1
        omega
    · apply hgen.nodup_iff.mpr
      refine List.nodup_cons.mpr ⟨fun hmem => ?_, h.distinct⟩
      have := h.bounded _ hmem
      omega
    · simpa [filterMap_set_of_eq hw hreturned] using h.timers
  · -- its timer starts
    have hgen : w'.gen? = w.gen? := by simp [Trigger.gen?, hpc, hpc']
    have hreturned := filterMap_set_perm (f := Trigger.returned?) (y := w') hw
      (by simp [Trigger.returned?, hpc]) (by simp [Trigger.returned?, hpc']; rfl)
    refine ⟨?_, ?_, ?_⟩
    · simpa [filterMap_set_of_eq hw hgen] using h.bounded
    · simpa [filterMap_set_of_eq hw hgen] using h.distinct
    · refine .trans ?_ hreturned.symm
      simp only [Option.toList_some, List.map_cons, List.map_nil, List.map_append]
      exact (List.perm_append_singleton gen _).trans (h.timers.cons gen)

theorem setTimer (h : s.OwnGenerations) {c : Cells} {i : Nat} {r : Timer} {pc : TimerPc}
    (hgen : c.winningGen = s.cells.winningGen) (hr : s.timers[i]? = some r) :
    ({ s with cells := c, timers := s.timers.set i { r with pc } } : Sched).OwnGenerations := by
  refine h.congr hgen rfl ?_
  apply List.ext_getElem?
  intro j
  by_cases hij : i = j
  · subst hij
    obtain ⟨hlt, rfl⟩ := List.getElem?_eq_some_iff.mp hr
    simp [hlt]
  · simp [List.getElem?_set_ne hij]

/-- **Step lemma**. -/
theorem step (h : s.OwnGenerations) (hstep : Sched.step cfg s l = some t) : t.OwnGenerations := by
  cases l with
  | elapse ms | cancel | subscribe | unsubscribe sub | receive sub =>
    cases hstep
    exact h.congr rfl rfl rfl
  | win message =>
    cases hstep
    exact h.win message
  | poll answers =>
    cases hstep
    exact h.congr PollPc.step_winningGen rfl rfl
  | monitor i =>
    obtain ⟨m, c, m', -, hm, rfl⟩ := monitorStep_eq_some.mp hstep
    exact h.congr (MonitorPc.step_winningGen hm) rfl rfl
  | trigger i => exact h.trigger hstep
  | timer i =>
    obtain ⟨r, c, pc', hr, hs, rfl⟩ := timerStep_eq_some.mp hstep
    exact h.setTimer (TimerPc.step_winningGen hs) hr
  | timerDone i =>
    obtain ⟨r, fireAt, hr, -, -, rfl⟩ := timerDoneStep_eq_some.mp hstep
    exact h.setTimer rfl hr

end OwnGenerations

end Sched

-- ════════════════════════════════════════════════════════════════════════
-- One trigger for each win
-- ════════════════════════════════════════════════════════════════════════

namespace WinMonitor

variable {cfg : Config} {s t : WinMonitor} {l : WinLabel} {epoch : Int}

/-- A line about this win is on its way to the monitor. -/
def Signalled (s : WinMonitor) (epoch : Int) : Prop := epoch ∈ s.lines ∨ epoch ∈ s.logWinCh

/-- This win was triggered, or the log or the DB can still tell the monitor of it. -/
def Covered (s : WinMonitor) (epoch : Int) : Prop :=
  epoch ∈ s.triggered ∨ s.Signalled epoch ∨ s.lastCheckedEpoch < epoch ∨ s.pc = .loadState epoch

/-- The monitor has triggered no win twice and has lost none, and each of its triggers has
its own generation and timer. -/
structure ExactlyOnce (s : WinMonitor) : Prop where
  atMostOnce : s.triggered.Nodup
  atLeastOnce : ∀ epoch ∈ s.wins, s.Covered epoch
  onlyWins : s.triggered ⊆ s.wins
  calls : s.triggered.length = s.sched.triggers.length
  generations : s.sched.OwnGenerations

/-- The log has told the monitor of this win, or a line about it is on its way. -/
def Reported (s : WinMonitor) (epoch : Int) : Prop := epoch ∈ s.received ∨ s.Signalled epoch

instance (s : WinMonitor) (epoch : Int) : Decidable (s.Signalled epoch) :=
  inferInstanceAs (Decidable (_ ∨ _))

instance (s : WinMonitor) (epoch : Int) : Decidable (s.Reported epoch) :=
  inferInstanceAs (Decidable (_ ∨ _))

/-- The timing by which the two detectors know the wins apart. A row is compared while the GPU
is WINNING_POST exactly if the log reports its win. A poll passes over the wins that the log
reports only. A win without a line comes after the last one polled, and so does one whose
signal is dropped, unless it is about to be compared. -/
def TellsApart (s : WinMonitor) : WinLabel → Prop
  | .win epoch logged => logged = true ∨ s.lastCheckedEpoch < epoch
  | .watch => ∀ epoch ∈ s.lines.head?,
      s.logWinCh.length < 4 ∨ s.lastCheckedEpoch < epoch ∨ s.pc = .loadState epoch
  | .checkDb answered => answered = true →
      ∀ newest ∈ checkWinningPost s.rows s.lastCheckedEpoch, ∀ epoch ∈ s.wins,
        s.lastCheckedEpoch < epoch → epoch < newest → s.Reported epoch
  | .confirm =>
    match s.pc with
    | .select => True
    | .loadState epoch => s.sched.cells.current = .winningPost ↔ s.Reported epoch
  | _ => True

instance (s : WinMonitor) (l : WinLabel) : Decidable (s.TellsApart l) :=
  match l with
  | .win epoch logged => inferInstanceAs (Decidable (logged = true ∨ s.lastCheckedEpoch < epoch))
  | .watch => inferInstanceAs (Decidable (∀ epoch ∈ s.lines.head?,
      s.logWinCh.length < 4 ∨ s.lastCheckedEpoch < epoch ∨ s.pc = .loadState epoch))
  | .checkDb answered => inferInstanceAs (Decidable (answered = true →
      ∀ newest ∈ checkWinningPost s.rows s.lastCheckedEpoch, ∀ epoch ∈ s.wins,
        s.lastCheckedEpoch < epoch → epoch < newest → s.Reported epoch))
  | .confirm =>
    match hpc : s.pc with
    | .select => .isTrue (by simp [TellsApart, hpc])
    | .loadState epoch =>
      decidable_of_iff (s.sched.cells.current = .winningPost ↔ s.Reported epoch)
        (by simp [TellsApart, hpc])
  | .sched _ | .row _ | .receive => .isTrue trivial

/-- What the monitor knows are wins. -/
structure Known (s : WinMonitor) : Prop where
  lines : s.lines ⊆ s.wins
  logWinCh : s.logWinCh ⊆ s.wins
  rows : s.rows ⊆ s.wins
  triggered : s.triggered ⊆ s.wins
  pc : ∀ epoch, s.pc = .loadState epoch → epoch ∈ s.wins ∧ s.lastCheckedEpoch = epoch
  calls : s.triggered.length = s.sched.triggers.length
  generations : s.sched.OwnGenerations

theorem checkWinningPost_eq_some {rows : List Int} {since newest : Int}
    (h : checkWinningPost rows since = some newest) : newest ∈ rows ∧ since < newest := by
  have hmem := (List.max?_eq_some_iff.mp h).1
  simpa using hmem

/-- The steps, with what their guards say. -/
inductive Move (cfg : Config) (s : WinMonitor) : WinLabel → WinMonitor → Prop
  | sched {a : Action} {x : Sched} : s.sched.step cfg a = some x →
      x.triggers.length = s.sched.triggers.length → Move cfg s (.sched a) { s with sched := x }
  | win {e : Int} {logged : Bool} : e ∉ s.wins →
      Move cfg s (.win e logged) { s with
        wins := s.wins ++ [e]
        lines := if logged then s.lines ++ [e] else s.lines }
  | watch {e : Int} {lines : List Int} : s.lines = e :: lines →
      Move cfg s .watch { s with lines, logWinCh := s.signal e }
  | row {e : Int} : e ∈ s.wins → Move cfg s (.row e) { s with rows := s.rows ++ [e] }
  | receive {e : Int} {logWinCh : List Int} {message : String} : s.logWinCh = e :: logWinCh →
      s.pc = .select → Move cfg s .receive
        ({ s with logWinCh, received := s.received ++ [e] }.triggerWinningYield message e)
  | checkDb {answered : Bool} : s.pc = .select →
      Move cfg s (.checkDb answered) (if answered then s.checkDb else s)
  | confirm {e : Int} : s.pc = .loadState e → Move cfg s .confirm (s.confirm e)

theorem triggers_length {x y : Sched} {a : Action} (h : x.step cfg a = some y)
    (ha : ∀ message, a ≠ .win message) : y.triggers.length = x.triggers.length := by
  cases a with
  | win message => exact absurd rfl (ha message)
  | monitor i =>
    obtain ⟨m, c, m', -, -, rfl⟩ := Sched.monitorStep_eq_some.mp h
    rfl
  | trigger i =>
    obtain ⟨w, c, w', started, -, -, rfl⟩ := Sched.triggerStep_eq_some.mp h
    exact List.length_set
  | timer i =>
    obtain ⟨r, c, pc', -, -, rfl⟩ := Sched.timerStep_eq_some.mp h
    rfl
  | timerDone i =>
    obtain ⟨r, fireAt, -, -, -, rfl⟩ := Sched.timerDoneStep_eq_some.mp h
    rfl
  | _ =>
    cases h
    rfl

theorem select_of_selects (h : s.selects) : s.pc = .select := by
  simp only [selects, Bool.and_eq_true, beq_iff_eq] at h
  exact h.1

theorem move_of_step (h : s.step cfg l = some t) : Move cfg s l t := by
  cases l with
  | sched a =>
    cases a with
    | win message => cases h
    | _ =>
      simp only [step, Option.map_eq_some_iff] at h
      obtain ⟨x, hx, rfl⟩ := h
      exact .sched hx (triggers_length hx fun _ => Action.noConfusion)
  | win epoch logged =>
    simp only [step, Option.ite_none_left_eq_some, Option.some.injEq] at h
    obtain ⟨hnew, rfl⟩ := h
    exact .win hnew
  | watch =>
    simp only [step] at h
    split at h
    · cases h
    · next epoch lines hlines =>
      cases h
      exact .watch hlines
  | row epoch =>
    simp only [step, Option.ite_none_right_eq_some, Option.some.injEq] at h
    obtain ⟨hrow, rfl⟩ := h
    exact .row hrow.1
  | receive =>
    simp only [step] at h
    split at h
    · cases h
    · next epoch logWinCh hch =>
      simp only [Option.ite_none_right_eq_some, Option.some.injEq] at h
      obtain ⟨hsel, rfl⟩ := h
      exact .receive hch (select_of_selects hsel)
  | checkDb answered =>
    simp only [step, Option.ite_none_right_eq_some, Option.some.injEq] at h
    obtain ⟨hsel, rfl⟩ := h
    exact .checkDb (select_of_selects hsel)
  | confirm =>
    simp only [step] at h
    split at h
    · cases h
    · next epoch hpc =>
      cases h
      exact .confirm hpc

/-- The call of `triggerWinningYield` for a win. -/
theorem Known.triggerWinningYield (h : s.Known) (hwin : epoch ∈ s.wins) (message : String) :
    (s.triggerWinningYield message epoch).Known where
  lines := h.lines
  logWinCh := h.logWinCh
  rows := h.rows
  triggered := List.append_subset.mpr ⟨h.triggered, List.cons_subset.mpr ⟨hwin, List.nil_subset _⟩⟩
  pc := fun _ hpc => WinMonitorPc.noConfusion hpc
  calls := by simp [WinMonitor.triggerWinningYield, h.calls]
  generations := h.generations.win message

/-- **Step lemma**. -/
theorem Known.move (h : s.Known) (hmove : Move cfg s l t) : t.Known := by
  cases hmove with
  | sched hx hlen => exact { h with calls := h.calls.trans hlen.symm, generations := h.generations.step hx }
  | @win epoch logged hnew =>
    have hgrow : s.wins ⊆ s.wins ++ [epoch] := List.subset_append_left _ _
    refine { h with
      lines := ?_
      logWinCh := List.Subset.trans h.logWinCh hgrow
      rows := List.Subset.trans h.rows hgrow
      triggered := List.Subset.trans h.triggered hgrow
      pc := fun e hpc => ⟨hgrow (h.pc e hpc).1, (h.pc e hpc).2⟩ }
    cases logged
    · exact List.Subset.trans h.lines hgrow
    · exact List.append_subset.mpr ⟨List.Subset.trans h.lines hgrow, List.subset_append_right _ _⟩
  | @watch epoch lines hlines =>
    have hsub : epoch :: lines ⊆ s.wins := hlines ▸ h.lines
    refine { h with lines := fun _ he => hsub (List.mem_cons_of_mem _ he), logWinCh := ?_ }
    show s.signal epoch ⊆ s.wins
    unfold signal
    split
    · exact List.append_subset.mpr ⟨h.logWinCh, by simpa using hsub List.mem_cons_self⟩
    · exact h.logWinCh
  | row hwin => exact { h with rows := List.append_subset.mpr ⟨h.rows, by simpa using hwin⟩ }
  | @receive e logWinCh message hch hpc =>
    have hsub : e :: logWinCh ⊆ s.wins := hch ▸ h.logWinCh
    have hknown : ({ s with logWinCh, received := s.received ++ [e] } : WinMonitor).Known :=
      { h with logWinCh := fun _ he => hsub (List.mem_cons_of_mem _ he) }
    exact hknown.triggerWinningYield (hsub List.mem_cons_self) _
  | @checkDb answered hpc =>
    cases answered
    · exact h
    · show s.checkDb.Known
      unfold checkDb
      split
      · exact h
      · next newest hnewest =>
        have hrow := h.rows (checkWinningPost_eq_some hnewest).1
        refine { h with pc := ?_ }
        rintro e ⟨⟩
        exact ⟨hrow, rfl⟩
  | confirm hpc =>
    unfold WinMonitor.confirm
    split
    · exact { h with pc := fun _ hpc => WinMonitorPc.noConfusion hpc }
    · exact h.triggerWinningYield (h.pc _ hpc).1 _

/-- **Run lemma**. -/
theorem known_of_reach {ok : WinMonitor → WinLabel → Prop} (h : (system cfg).Reach ok s) :
    s.Known := by
  refine h.invariant (fun s hs => ?_) fun s l t hs _ hstep => hs.move (move_of_step hstep)
  obtain ⟨since, rfl⟩ := hs
  exact ⟨by simp, by simp, by simp, by simp, by simp, rfl, ⟨by simp, by simp, by simp⟩⟩

-- ════════════════════════════════════════════════════════════════════════
-- Which detector a win is left to
-- ════════════════════════════════════════════════════════════════════════

/-- Every win is left to one detector. A win whose line is on its way was not triggered; one
that was triggered without the log has been polled, and compared. -/
structure Attributed (s : WinMonitor) : Prop where
  atMostOnce : s.triggered.Nodup
  atLeastOnce : ∀ epoch ∈ s.wins, s.Covered epoch
  received : s.received ⊆ s.triggered
  onTheWay : ∀ epoch, s.Signalled epoch → epoch ∉ s.triggered
  oneLine : (s.logWinCh ++ s.lines).Nodup
  polled : ∀ epoch ∈ s.triggered, epoch ∈ s.received ∨
    epoch ≤ s.lastCheckedEpoch ∧ s.pc ≠ .loadState epoch

theorem Attributed.exactlyOnce (h : s.Attributed) (hk : s.Known) : s.ExactlyOnce :=
  ⟨h.atMostOnce, h.atLeastOnce, hk.triggered, hk.calls, hk.generations⟩

theorem Attributed.of_reported (h : s.Attributed) (hr : s.Reported epoch) :
    epoch ∈ s.triggered ∨ s.Signalled epoch :=
  hr.imp_left fun he => h.received he

/-- A win that is reported by the DB alone and was not compared is still to be triggered. -/
theorem Attributed.not_triggered (h : s.Attributed) (hr : epoch ∉ s.received)
    (hlate : s.lastCheckedEpoch < epoch ∨ s.pc = .loadState epoch) : epoch ∉ s.triggered := by
  intro htrig
  obtain hrec | ⟨hle, hpc⟩ := h.polled epoch htrig
  · exact hr hrec
  · obtain hlt | hload := hlate
    · omega
    · exact hpc hload

theorem Attributed.win (h : s.Attributed) (hk : s.Known) {logged : Bool} (hnew : epoch ∉ s.wins)
    (hok : s.TellsApart (.win epoch logged)) :
    ({ s with
        wins := s.wins ++ [epoch]
        lines := if logged then s.lines ++ [epoch] else s.lines } : WinMonitor).Attributed := by
  have hfresh : epoch ∉ s.triggered := fun htrig => hnew (hk.triggered htrig)
  have hold (e : Int) (he : e ∈ s.lines) :
      e ∈ (if logged then s.lines ++ [epoch] else s.lines) := by
    split
    · exact List.mem_append_left _ he
    · exact he
  refine { h with atLeastOnce := fun e he => ?_, onTheWay := fun e hs => ?_, oneLine := ?_ }
  · rcases List.mem_append.mp he with he | he
    · exact (h.atLeastOnce e he).imp_right (.imp_left (.imp_left (hold e)))
    · obtain rfl := List.mem_singleton.mp he
      obtain rfl | hlate := hok
      · exact .inr (.inl (.inl (List.mem_append_right _ (List.mem_singleton_self _))))
      · exact .inr (.inr (.inl hlate))
  · cases logged with
    | false => exact h.onTheWay e hs
    | true =>
      obtain hline | hch := hs
      · obtain hline | he := List.mem_append.mp hline
        · exact h.onTheWay e (.inl hline)
        · exact List.mem_singleton.mp he ▸ hfresh
      · exact h.onTheWay e (.inr hch)
  · cases logged with
    | false => exact h.oneLine
    | true =>
      show (s.logWinCh ++ (s.lines ++ [epoch])).Nodup
      rw [← List.append_assoc]
      refine List.nodup_append.mpr ⟨h.oneLine, List.nodup_singleton _, ?_⟩
      rintro e he e' he' rfl
      obtain rfl := List.mem_singleton.mp he'
      obtain hch | hline := List.mem_append.mp he
      · exact hnew (hk.logWinCh hch)
      · exact hnew (hk.lines hline)

theorem Attributed.watch (h : s.Attributed) {lines : List Int} (hlines : s.lines = epoch :: lines)
    (hok : s.TellsApart .watch) :
    ({ s with lines, logWinCh := s.signal epoch } : WinMonitor).Attributed := by
  by_cases hroom : s.logWinCh.length < 4
  · have hsignal : s.signal epoch = s.logWinCh ++ [epoch] := if_pos hroom
    have hmem (e : Int) : e ∈ lines ∨ e ∈ s.signal epoch ↔ s.Signalled e := by
      simp only [Signalled, hsignal, hlines, List.mem_append, List.mem_cons, List.not_mem_nil,
        or_false]
      tauto
    refine { h with
      atLeastOnce := fun e he => ?_
      onTheWay := fun e hs => h.onTheWay e ((hmem e).mp hs)
      oneLine := ?_ }
    · exact (h.atLeastOnce e he).imp_right (.imp_left (hmem e).mpr)
    · show (s.signal epoch ++ lines).Nodup
      have hline := h.oneLine
      rwa [hlines, List.append_cons, ← hsignal] at hline
  · -- the signal is dropped, and the win is left to the DB
    have hsignal : s.signal epoch = s.logWinCh := if_neg hroom
    have hsub (e : Int) (hs : e ∈ lines ∨ e ∈ s.signal epoch) : s.Signalled e := by
      rw [hsignal] at hs
      exact hs.imp_left fun he => hlines ▸ List.mem_cons_of_mem _ he
    refine { h with
      atLeastOnce := fun e he => ?_
      onTheWay := fun e hs => h.onTheWay e (hsub e hs)
      oneLine := ?_ }
    · obtain htrig | (hline | hch) | hrest := h.atLeastOnce e he
      · exact .inl htrig
      · obtain rfl | hline := List.mem_cons.mp (hlines ▸ hline)
        · have hhead : e ∈ s.lines.head? := by rw [hlines, List.head?_cons, Option.mem_def]
          exact .inr (.inr ((hok e hhead).resolve_left hroom))
        · exact .inr (.inl (.inl hline))
      · exact .inr (.inl (.inr (hsignal.symm ▸ hch)))
      · exact .inr (.inr hrest)
    · show (s.signal epoch ++ lines).Nodup
      rw [hsignal]
      refine h.oneLine.sublist ?_
      rw [hlines]
      exact (List.sublist_cons_self epoch lines).append_left _

theorem Attributed.receive (h : s.Attributed) (hpc : s.pc = .select)
    {logWinCh : List Int} (hch : s.logWinCh = epoch :: logWinCh) (message : String) :
    ({ s with logWinCh, received := s.received ++ [epoch] }.triggerWinningYield message
      epoch).Attributed := by
  have hfresh : epoch ∉ s.triggered :=
    h.onTheWay epoch (.inr (hch ▸ List.mem_cons_self))
  have hone : epoch ∉ logWinCh ++ s.lines ∧ (logWinCh ++ s.lines).Nodup := by
    have hone := h.oneLine
    rw [hch, List.cons_append, List.nodup_cons] at hone
    exact hone
  have hsub (e : Int) (hs : e ∈ s.lines ∨ e ∈ logWinCh) : s.Signalled e :=
    hs.imp_right fun he => hch ▸ List.mem_cons_of_mem _ he
  refine ⟨?_, fun e he => ?_, ?_, fun e hs htrig => ?_, hone.2, fun e htrig => ?_⟩
  · exact List.nodup_append.mpr ⟨h.atMostOnce, List.nodup_singleton _,
      fun e he e' he' heq => hfresh (List.mem_singleton.mp he' ▸ heq ▸ he)⟩
  · obtain htrig | (hline | hsig) | hlt | hload := h.atLeastOnce e he
    · exact .inl (List.mem_append_left _ htrig)
    · exact .inr (.inl (.inl hline))
    · obtain rfl | hsig := List.mem_cons.mp (hch ▸ hsig)
      · exact .inl (List.mem_append_right _ (List.mem_singleton_self _))
      · exact .inr (.inl (.inr hsig))
    · exact .inr (.inr (.inl hlt))
    · cases hpc.symm.trans hload
  · exact List.append_subset.mpr ⟨List.Subset.trans h.received (List.subset_append_left _ _),
      List.subset_append_right _ _⟩
  · obtain htrig | he := List.mem_append.mp htrig
    · exact h.onTheWay e (hsub e hs) htrig
    · obtain rfl := List.mem_singleton.mp he
      exact hone.1 (List.mem_append.mpr (Or.symm hs))
  · obtain htrig | he := List.mem_append.mp htrig
    · exact (h.polled e htrig).imp (List.mem_append_left _) fun hle =>
        ⟨hle.1, WinMonitorPc.noConfusion⟩
    · exact .inl (List.mem_append_right _ he)

theorem Attributed.checkDb (h : s.Attributed) (hpc : s.pc = .select) {newest : Int}
    (hnewest : newest ∈ checkWinningPost s.rows s.lastCheckedEpoch)
    (hok : ∀ e ∈ s.wins, s.lastCheckedEpoch < e → e < newest → s.Reported e) :
    ({ s with lastCheckedEpoch := newest, pc := .loadState newest } : WinMonitor).Attributed := by
  have hlater := (checkWinningPost_eq_some hnewest).2
  refine { h with atLeastOnce := fun e he => ?_, polled := fun e htrig => ?_ }
  · obtain htrig | hsig | hlt | hload := h.atLeastOnce e he
    · exact .inl htrig
    · exact .inr (.inl hsig)
    · obtain hskip | rfl | hafter := lt_trichotomy e newest
      · exact (h.of_reported (hok e he hlt hskip)).imp_right .inl
      · exact .inr (.inr (.inr rfl))
      · exact .inr (.inr (.inl hafter))
    · cases hpc.symm.trans hload
  · refine (h.polled e htrig).imp_right fun hle => ?_
    have hle := hle.1
    refine ⟨show e ≤ newest by omega, ?_⟩
    rintro ⟨⟩
    omega

theorem Attributed.confirm (h : s.Attributed) (hk : s.Known) (hpc : s.pc = .loadState epoch)
    (hok : s.sched.cells.current = .winningPost ↔ s.Reported epoch) :
    (s.confirm epoch).Attributed := by
  have hother (e : Int) (hload : s.pc = .loadState e) : e = epoch :=
    WinMonitorPc.loadState.inj (hload.symm.trans hpc)
  unfold WinMonitor.confirm
  split_ifs with hwinning
  · refine { h with atLeastOnce := fun e he => ?_, polled := fun e htrig => ?_ }
    · obtain htrig | hsig | hlt | hload := h.atLeastOnce e he
      · exact .inl htrig
      · exact .inr (.inl hsig)
      · exact .inr (.inr (.inl hlt))
      · obtain rfl := hother e hload
        exact (h.of_reported (hok.mp hwinning)).imp_right .inl
    · exact (h.polled e htrig).imp_right fun hle => ⟨hle.1, WinMonitorPc.noConfusion⟩
  · -- the log does not report this win, and it is triggered here
    have hno : ¬ s.Reported epoch := fun hr => hwinning (hok.mpr hr)
    have hfresh := h.not_triggered (fun hr => hno (.inl hr)) (.inr hpc)
    refine ⟨?_, fun e he => ?_, ?_, fun e hs htrig => ?_, h.oneLine, fun e htrig => ?_⟩
    · exact List.nodup_append.mpr ⟨h.atMostOnce, List.nodup_singleton _,
        fun e he e' he' heq => hfresh (List.mem_singleton.mp he' ▸ heq ▸ he)⟩
    · obtain htrig | hsig | hlt | hload := h.atLeastOnce e he
      · exact .inl (List.mem_append_left _ htrig)
      · exact .inr (.inl hsig)
      · exact .inr (.inr (.inl hlt))
      · exact .inl (List.mem_append_right _ (hother e hload ▸ List.mem_singleton_self _))
    · exact List.Subset.trans h.received (List.subset_append_left _ _)
    · obtain htrig | he := List.mem_append.mp htrig
      · exact h.onTheWay e hs htrig
      · exact hno (.inr (List.mem_singleton.mp he ▸ hs))
    · obtain htrig | he := List.mem_append.mp htrig
      · exact (h.polled e htrig).imp_right fun hle => ⟨hle.1, WinMonitorPc.noConfusion⟩
      · obtain rfl := List.mem_singleton.mp he
        exact .inr ⟨(hk.pc e hpc).2.ge, WinMonitorPc.noConfusion⟩

/-- **Step lemma**. -/
theorem Attributed.move (h : s.Attributed) (hk : s.Known) (hmove : Move cfg s l t)
    (hok : s.TellsApart l) : t.Attributed := by
  cases hmove with
  | sched hx hlen => exact { h with }
  | win hnew => exact h.win hk hnew hok
  | watch hlines => exact h.watch hlines hok
  | row hwin => exact { h with }
  | receive hch hpc => exact h.receive hpc hch _
  | @checkDb answered hpc =>
    cases answered with
    | false => exact h
    | true =>
      show s.checkDb.Attributed
      unfold WinMonitor.checkDb
      split
      · exact h
      · next newest hnewest => exact h.checkDb hpc hnewest (hok rfl newest hnewest)
  | confirm hpc =>
    refine h.confirm hk hpc ?_
    simpa only [TellsApart, hpc] using hok

/-- **Each win yields exactly once** in every run in which a row is compared during a window
exactly if the log reports its win, and no win is left to a detector that has passed it. -/
theorem exactlyOnce_of_reach (cfg : Config) {s : WinMonitor}
    (h : (system cfg).Reach TellsApart s) : s.ExactlyOnce := by
  suffices hs : s.Attributed from hs.exactlyOnce (known_of_reach h)
  refine h.invariant_of (fun _ => known_of_reach) (fun s hs => ?_)
    fun s l t hk hs hok hstep => hs.move hk (move_of_step hstep) hok
  obtain ⟨since, rfl⟩ := hs
  exact ⟨List.nodup_nil, by simp, by simp, by simp, List.nodup_nil, by simp⟩

theorem Known.lost_of_win (hk : s.Known) (hnew : epoch ∉ s.wins) {logged : Bool}
    (hno : ¬ s.TellsApart (.win epoch logged)) :
    ¬ ExactlyOnce { s with
      wins := s.wins ++ [epoch]
      lines := if logged then s.lines ++ [epoch] else s.lines } := by
  obtain ⟨hline, hlate⟩ := not_or.mp hno
  obtain rfl : logged = false := by simpa using hline
  intro ho
  obtain htrig | (hline | hch) | hlt | hload :=
    ho.atLeastOnce epoch (List.mem_append_right _ (List.mem_singleton_self _))
  · exact hnew (hk.triggered htrig)
  · exact hnew (hk.lines hline)
  · exact hnew (hk.logWinCh hch)
  · exact hlate hlt
  · exact hnew (hk.pc epoch hload).1

/-- The signal is dropped, and the DB poll has passed over the win. -/
theorem Attributed.lost_of_watch (h : s.Attributed) (hk : s.Known) {lines : List Int}
    (hlines : s.lines = epoch :: lines) (hno : ¬ s.TellsApart .watch) :
    ¬ ExactlyOnce { s with lines, logWinCh := s.signal epoch } := by
  have hdrop : ¬ (s.logWinCh.length < 4 ∨ s.lastCheckedEpoch < epoch ∨ s.pc = .loadState epoch) := by
    intro hok
    refine hno fun e he => ?_
    rw [hlines, List.head?_cons, Option.mem_some_iff] at he
    exact he ▸ hok
  obtain ⟨hroom, hlate⟩ := not_or.mp hdrop
  have hsignal : s.signal epoch = s.logWinCh := if_neg hroom
  have hline : epoch ∈ s.lines := hlines ▸ List.mem_cons_self
  have hone := h.oneLine
  rw [hlines, List.nodup_middle, List.nodup_cons, List.mem_append, not_or] at hone
  intro ho
  obtain htrig | (hl | hch) | hrest := ho.atLeastOnce epoch (hk.lines hline)
  · exact h.onTheWay epoch (.inl hline) htrig
  · exact hone.1.2 hl
  · exact hone.1.1 (hsignal ▸ hch)
  · exact hlate hrest

/-- The DB poll passes over a win that the log does not report. -/
theorem Attributed.lost_of_checkDb (h : s.Attributed) (hno : ¬ s.TellsApart (.checkDb true)) :
    ¬ s.checkDb.ExactlyOnce := by
  cases hrows : checkWinningPost s.rows s.lastCheckedEpoch with
  | none => exact absurd (by simp [TellsApart, hrows]) hno
  | some newest =>
    obtain ⟨epoch, hwin, hlate, hskip, hr⟩ : ∃ epoch ∈ s.wins, s.lastCheckedEpoch < epoch ∧
        epoch < newest ∧ ¬ s.Reported epoch := by
      simpa [TellsApart, hrows] using hno
    have hnew := h.not_triggered (fun hrec => hr (.inl hrec)) (.inl hlate)
    rw [WinMonitor.checkDb, hrows]
    intro ho
    obtain htrig | hsig | hlt | hload := ho.atLeastOnce epoch hwin
    · exact hnew htrig
    · exact hr (.inr hsig)
    · exact absurd (hskip.trans hlt) (lt_irrefl _)
    · cases hload
      exact lt_irrefl _ hskip

/-- A row is taken for another win, or for a new one that the log reports too. -/
theorem Attributed.confused_of_confirm (h : s.Attributed) (hk : s.Known)
    (hpc : s.pc = .loadState epoch)
    (hno : ¬ (s.sched.cells.current = .winningPost ↔ s.Reported epoch)) :
    ¬ (s.confirm epoch).ExactlyOnce ∨
      ∃ e ∈ (s.confirm epoch).triggered, (s.confirm epoch).Signalled e := by
  obtain ⟨hwin, hlast⟩ := hk.pc epoch hpc
  unfold WinMonitor.confirm
  split_ifs with hwinning
  · have hr : ¬ s.Reported epoch := fun hr => hno (iff_of_true hwinning hr)
    have hnew := h.not_triggered (fun hrec => hr (.inl hrec)) (.inr hpc)
    refine .inl fun ho => ?_
    obtain htrig | hsig | hlt | hload := ho.atLeastOnce epoch hwin
    · exact hnew htrig
    · exact hr (.inr hsig)
    · exact absurd (hlast ▸ hlt) (lt_irrefl _)
    · cases hload
  · have hr : s.Reported epoch := by
      by_contra hr
      exact hno (iff_of_false hwinning hr)
    obtain hrec | hsig := hr
    · refine .inl fun ho => ?_
      have hnodup := ho.atMostOnce
      exact List.disjoint_of_nodup_append hnodup (h.received hrec) (List.mem_singleton_self _)
    · exact .inr ⟨epoch, List.mem_append_right _ (List.mem_singleton_self _), hsig⟩

/-- **The other steps**: after one of them a win was triggered twice or is lost, or a line about
a win that was triggered is on its way. -/
theorem Attributed.confused (h : s.Attributed) (hk : s.Known) (hmove : Move cfg s l t)
    (hno : ¬ s.TellsApart l) : ¬ t.ExactlyOnce ∨ ∃ epoch ∈ t.triggered, t.Signalled epoch := by
  cases hmove with
  | sched | row | receive => exact absurd trivial hno
  | win hnew => exact .inl (hk.lost_of_win hnew hno)
  | watch hlines => exact .inl (h.lost_of_watch hk hlines hno)
  | @checkDb answered hpc =>
    cases answered with
    | false => exact absurd Bool.noConfusion hno
    | true => exact .inl (h.lost_of_checkDb hno)
  | confirm hpc =>
    refine h.confused_of_confirm hk hpc ?_
    simpa only [TellsApart, hpc] using hno

/-- The log reports a win, whose row is polled within its window. After the resume the row of a
win without a line is polled. -/
def loggedThenPolled : List WinLabel :=
  [.win 10 true, .watch, .receive] ++ List.replicate 5 (.sched (.trigger 0)) ++
    [.row 10, .checkDb true, .confirm, .sched (.timer 0), .sched (.elapse 5000)] ++
    List.replicate 3 (.sched (.timer 0)) ++
    [.win 20 false, .row 20, .checkDb true, .confirm] ++
    List.replicate 5 (.sched (.trigger 1))

/-- Two detectors, and one yield for each win. -/
theorem exactlyOnce_loggedThenPolled :
    ∃ s, (system Sched.defaultConfig).execGuarded TellsApart { lastCheckedEpoch := 0 }
        loggedThenPolled = some s ∧
      s.rows = [10, 20] ∧ s.triggered = [10, 20] ∧ s.received = [10] ∧
      s.sched.cells.current = .winningPost ∧ s.ExactlyOnce := by
  have hfinal : ((system Sched.defaultConfig).execGuarded TellsApart { lastCheckedEpoch := 0 }
      loggedThenPolled).any (fun s => s.rows = [10, 20] ∧ s.triggered = [10, 20] ∧
        s.received = [10] ∧ s.sched.cells.current = .winningPost) = true := by decide +kernel
  obtain ⟨s, hrun, hs⟩ := (Option.any_eq_true _ _).mp hfinal
  obtain ⟨hrows, htriggered, hreceived, hcurrent⟩ := of_decide_eq_true hs
  have hreach : (system Sched.defaultConfig).Reach TellsApart s :=
    .execGuarded (.init ⟨0, rfl⟩) hrun
  exact ⟨s, hrun, hrows, htriggered, hreceived, hcurrent, exactlyOnce_of_reach _ hreach⟩

/-- The row of a win that the log reported is polled after its resume. -/
def lateRow : List WinLabel :=
  [.win 10 true, .watch, .receive] ++ List.replicate 5 (.sched (.trigger 0)) ++
    [.sched (.timer 0), .row 10, .sched (.elapse 5000)] ++ List.replicate 3 (.sched (.timer 0)) ++
    [.checkDb true, .confirm]

/-- One win yields twice when the DB is polled after its window. -/
theorem lateRow_not_exactlyOnce :
    ∃ s, (system Sched.defaultConfig).Reach System.anyStep s ∧ s.wins = [10] ∧
      s.triggered = [10, 10] ∧ ¬ s.ExactlyOnce := by
  obtain ⟨s, hexec, hwins, htriggered⟩ : ∃ s,
      (system Sched.defaultConfig).exec { lastCheckedEpoch := 0 } lateRow = some s ∧
        s.wins = [10] ∧ s.triggered = [10, 10] := ⟨_, rfl, rfl, rfl⟩
  refine ⟨s, System.reach_of_exec ⟨0, rfl⟩ hexec, hwins, htriggered, fun h => ?_⟩
  have hnodup := h.atMostOnce
  rw [htriggered] at hnodup
  exact absurd hnodup (by decide)

end WinMonitor

end OpenModel.Scheduler
