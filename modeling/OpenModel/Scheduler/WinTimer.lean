import OpenModel.Scheduler.WinningPost

/-!
# The timer that owns a win

A win's yield ends by the AVAILABLE write of a resume timer. Timers of earlier wins exit
when they find a newer generation, so the newest generation has to belong to a timer that
still runs. It does: from its WINNING_POST write until its timer runs, a trigger that has
not been overtaken owes that timer (`Trigger.Owes`), and a timer of the newest generation
gives up only by writing AVAILABLE.

## Main results

- `Sched.owned_of_reach`: WINNING_POST is owed a timer, or has one
- `Sched.notStranded_of_reach`: with no trigger under way it has one
-/

namespace OpenModel.Scheduler

open Transition (System)

namespace Trigger

/-- Between its WINNING_POST write and the start of its timer. -/
def Underway (w : Trigger) : Prop := w.pc ≠ .applying .transition ∧ ∀ gen, w.pc ≠ .returned gen

/-- Under way, and not overtaken by a bump of the generation after its own. -/
def Owes (gen : Int) (w : Trigger) : Prop :=
  match w.pc with
  | .applying pc => pc ≠ .transition
  | .bumpGen => True
  | .startTimer g => g = gen
  | .returned _ => False

theorem Owes.underway {gen : Int} {w : Trigger} (h : w.Owes gen) : w.Underway := by
  unfold Owes at h
  refine ⟨fun hpc => ?_, fun g hpc => ?_⟩ <;> simp [hpc] at h

/-- What remains of the call of `applyDecision` is followed by the bump. -/
theorem owes_of_applying {cfg : Config} {c : Cells} {a : ApplyPc} {gen : Int} {w w' : Trigger}
    (h : w'.pc = (a.step false (winningDecision cfg w.message) c).2.elim .bumpGen .applying) :
    w'.Owes gen := by
  rw [Owes, h]
  cases hrest : (a.step false (winningDecision cfg w.message) c).2 with
  | none => trivial
  | some a' => exact ApplyPc.step_ne_transition hrest

end Trigger

/-- The final AVAILABLE write is still to come. -/
def TimerPc.pending : TimerPc → Bool
  | .applying pc => pc == .transition
  | .exited => false
  | _ => true

theorem ApplyPc.winningPost_of_step {guarded : Bool} {d : YieldDecision} {c : Cells} {pc : ApplyPc}
    (hd : d.state ≠ .winningPost) (h : (pc.step guarded d c).1.current = .winningPost) :
    c.current = .winningPost := by
  rw [step_current] at h
  split at h
  · exact absurd h hd
  · exact h

theorem PollPc.winningPost_of_step {cfg : Config} {answers : LotusAnswers} {c : Cells} {pc : PollPc}
    (hstays : pc.Stays) (h : (pc.step cfg answers c).1.current = .winningPost) :
    c.current = .winningPost := by
  cases pc with
  | idle | loadState | evaluate info =>
    simp only [step] at h
    split at h <;> exact h
  | getProvingDeadline =>
    simp only [step] at h
    split at h <;> [split at h; skip] <;> exact h
  | getSectors info =>
    simp only [step] at h
    split at h <;> exact h
  | failSafe a => exact ApplyPc.winningPost_of_step (by decide) h
  | stayAvailable d a =>
    apply ApplyPc.winningPost_of_step _ h
    rw [show d.state = .available from hstays]
    decide
  | applying info prev a =>
    exact ApplyPc.winningPost_of_step (cfg.policy.evaluateWindowPost_state_ne_winningPost info) h
  | loadPrevState info | setProofMonitorActive info | launchMonitor info => exact h

theorem MonitorPc.winningPost_of_step {c c' : Cells} {m m' : MonitorPc}
    (hs : m.step c = some (c', m')) (h : c'.current = .winningPost) : c.current = .winningPost := by
  cases m <;> simp only [step, Option.some.injEq, Prod.mk.injEq, reduceCtorEq] at hs <;>
    obtain ⟨rfl, -⟩ := hs
  case applying a => exact ApplyPc.winningPost_of_step (by decide) h
  all_goals exact h

namespace Sched

variable {cfg : Config} {s t : Sched} {l : Action}

/-- A trigger owes the newest generation a timer, or a timer of it still runs. -/
def HasOwner (s : Sched) : Prop :=
  (∃ w ∈ s.triggers, w.Owes s.cells.winningGen) ∨
    ∃ r ∈ s.timers, r.gen = s.cells.winningGen ∧ r.pc.pending

/-- WINNING_POST has an owner until the context is cancelled. -/
def Owned (s : Sched) : Prop :=
  s.cancelled = false → s.cells.current = .winningPost → s.HasOwner

/-- WINNING_POST with no trigger under way has a timer of the newest generation whose
final write is still to come. -/
def NotStranded (s : Sched) : Prop :=
  s.cells.current = .winningPost → (∀ w ∈ s.triggers, ¬ w.Underway) →
    ∃ r ∈ s.timers, r.gen = s.cells.winningGen ∧ r.pc.pending

/-- The triggers and the timers of `s` are in `t`, for the same newest generation. -/
theorem HasOwner.mono (h : s.HasOwner) (hgen : t.cells.winningGen = s.cells.winningGen)
    (hw : ∀ w ∈ s.triggers, w ∈ t.triggers) (hr : ∀ r ∈ s.timers, r ∈ t.timers) : t.HasOwner := by
  rw [HasOwner, hgen]
  rcases h with ⟨w, hmem, howes⟩ | ⟨r, hmem, hrun⟩
  · exact .inl ⟨w, hw w hmem, howes⟩
  · exact .inr ⟨r, hr r hmem, hrun⟩

namespace Owned

/-- Steps that touch neither triggers nor timers. -/
theorem congr (h : s.Owned) (hgen : t.cells.winningGen = s.cells.winningGen)
    (hcancel : t.cancelled = false → s.cancelled = false)
    (hcur : t.cells.current = .winningPost → s.cells.current = .winningPost)
    (hw : ∀ w ∈ s.triggers, w ∈ t.triggers) (hr : ∀ r ∈ s.timers, r ∈ t.timers) : t.Owned := by
  intro hlive hwin
  apply (h (hcancel hlive) (hcur hwin)).mono hgen hw hr

theorem trigger (h : s.Owned) {i : Nat} (hstep : s.triggerStep cfg i = some t) : t.Owned := by
  obtain ⟨w, c, w', started, hw, hs, rfl⟩ := triggerStep_eq_some.mp hstep
  have hself : w' ∈ s.triggers.set i w' := List.mem_set (List.getElem?_eq_some_iff.mp hw).1 w'
  intro hlive hwin
  obtain ⟨a, -, -, hpc', -⟩ | ⟨-, rfl, hpc', -⟩ | ⟨gen, hpc, rfl, -, -, rfl⟩ :=
    Trigger.step_cases hs
  · exact .inl ⟨w', hself, Trigger.owes_of_applying hpc'⟩
  · -- the bump: the newest generation is this trigger's
    refine .inl ⟨w', hself, ?_⟩
    simp [Trigger.Owes, hpc']
  · by_cases hgen : gen = s.cells.winningGen
    · -- the timer it starts is of the newest generation
      exact .inr ⟨{ gen := gen }, by simp, hgen, rfl⟩
    · rcases h hlive hwin with ⟨v, hv, howes⟩ | ⟨r, hr, hrun⟩
      · rcases mem_set_or_eq hw hv with rfl | hv
        · exact absurd (by simpa [Trigger.Owes, hpc] using howes) hgen
        · exact .inl ⟨v, hv, howes⟩
      · exact .inr ⟨r, List.mem_append_left _ hr, hrun⟩

/-- A timer of the newest generation runs until it has written AVAILABLE. -/
theorem pending_of_step {now : Nat} {gen : Int} {c c' : Cells} {pc pc' : TimerPc}
    (hs : pc.step cfg now gen c = some (c', pc')) (hgen : gen = c.winningGen) (hrun : pc.pending)
    (hwin : c'.current = .winningPost) : pc'.pending := by
  obtain ⟨-, -, rfl⟩ | ⟨fireAt, -, -, -, rfl⟩ | ⟨-, -, rfl⟩ | ⟨a, rfl, rfl, -⟩ :=
    TimerPc.step_cases hs
  · rfl
  · simp [hgen, TimerPc.pending]
  · split_ifs <;> rfl
  · obtain rfl : a = .transition := by simpa [TimerPc.pending] using hrun
    simp [ApplyPc.step_current, winningResumeDecision, resumeDecision] at hwin

theorem timer (h : s.Owned) {i : Nat} (hstep : s.timerStep cfg i = some t) : t.Owned := by
  obtain ⟨r, c, pc', hr, hs, rfl⟩ := timerStep_eq_some.mp hstep
  have hgen := TimerPc.step_winningGen hs
  have hself : { r with pc := pc' } ∈ s.timers.set i { r with pc := pc' } :=
    List.mem_set (List.getElem?_eq_some_iff.mp hr).1 _
  intro hlive hwin
  have hcur : s.cells.current = .winningPost := by
    by_cases ha : r.pc = .applying .transition
    · rw [ha] at hs
      cases hs
      exact ApplyPc.winningPost_of_step (by decide) hwin
    · exact TimerPc.step_current hs ha ▸ hwin
  rcases h hlive hcur with ⟨w, hw, howes⟩ | ⟨x, hx, hxgen, hrun⟩
  · exact .inl ⟨w, hw, by simpa [hgen] using howes⟩
  · rcases mem_set_or_eq hr hx with rfl | hx
    · refine .inr ⟨_, hself, by simpa [hgen] using hxgen, ?_⟩
      exact pending_of_step hs hxgen hrun hwin
    · exact .inr ⟨x, hx, by simpa [hgen] using hxgen, hrun⟩

/-- **Step lemma**. -/
theorem step (h : s.Owned) (hstays : s.poll.Stays) (hstep : Sched.step cfg s l = some t) :
    t.Owned := by
  cases l with
  | elapse ms | subscribe | unsubscribe sub | receive sub =>
    cases hstep
    exact h.congr rfl id id (fun _ => id) fun _ => id
  | cancel =>
    cases hstep
    intro hlive
    cases hlive
  | win message =>
    cases hstep
    exact h.congr rfl id id (fun _ => List.mem_append_left _) fun _ => id
  | poll answers =>
    cases hstep
    have hcur := @PollPc.winningPost_of_step cfg answers s.cells s.poll hstays
    exact h.congr PollPc.step_winningGen id hcur (fun _ => id) fun _ => id
  | monitor i =>
    obtain ⟨m, c, m', -, hm, rfl⟩ := monitorStep_eq_some.mp hstep
    exact h.congr (MonitorPc.step_winningGen hm) id (MonitorPc.winningPost_of_step hm)
      (fun _ => id) fun _ => id
  | trigger i => exact h.trigger hstep
  | timer i => exact h.timer hstep
  | timerDone i =>
    obtain ⟨r, fireAt, -, -, hcancel, rfl⟩ := timerDoneStep_eq_some.mp hstep
    intro hlive
    exact absurd (hcancel.symm.trans hlive) (by decide)

end Owned

/-- **Run lemma**: in every reachable state WINNING_POST has an owner. -/
theorem owned_of_reach {ok : Sched → Action → Prop} (h : (system cfg).Reach ok s) : s.Owned := by
  refine h.invariant_of (fun _ => stays_of_reach) ?_ fun s l t hstays hs _ hstep =>
    hs.step hstays hstep
  rintro s rfl hlive hwin
  cases hwin

/-- **WINNING_POST is never stranded**: in every run, as long as the context is not
cancelled. -/
theorem notStranded_of_reach (cfg : Config) {s : Sched} (h : (system cfg).Reach System.anyStep s)
    (hlive : s.cancelled = false) : s.NotStranded := by
  intro hwin hnone
  apply (owned_of_reach h hlive hwin).resolve_left
  rintro ⟨w, hw, howes⟩
  exact hnone w hw howes.underway

/-- The timer of a win that has just returned. -/
theorem notStranded_firstWin :
    ∃ s, (system defaultConfig).exec {} firstWin = some s ∧ s.cells.current = .winningPost ∧
      s.NotStranded := by
  let s : Sched :=
    { cells := firstWinCells
      now := 5000
      triggers := [⟨"first", .returned 1, some 0⟩]
      timers := [⟨1, .waiting 5000⟩] }
  have hrun : (system defaultConfig).exec {} firstWin = some s := rfl
  exact ⟨s, hrun, rfl, notStranded_of_reach defaultConfig
    (System.reach_of_exec (system_init _) hrun) rfl⟩

end Sched

end OpenModel.Scheduler
