import OpenModel.Inference.Gate
import OpenModel.Inference.NamedWeights
import OpenModel.Sidecar.Resume
import OpenModel.Sidecar.Worker

/-!
# Back to inference

The worker when mining is over. Polls keep their pace and are answered, and every pause that a
poll waits for succeeds. Cores are created and torn down without errors, none is reported dead, and
nobody calls `start`, `stop` or `switch_model`. Requests come meanwhile.

A poll that waits for a pause dispatches nothing before the pause has returned, so that no pause
is left to disturb the resume behind it. Only a pause that found the engine loading returns before
it has taken effect: a resume that looks at this load is lost. Otherwise, when the scheduler is
AVAILABLE for longer than one sleep and two polls, an engine at rest takes requests again.

## Main results

- `Worker.Serves.step`: what a step leaves of the pauses and the last resume
- `Worker.available_of_resumed`: the engine at rest is RUNNING and accepts requests
-/

namespace OpenModel

open Inference (EngineSys Op Pc Label VLLMEngine Thread Caller Command)
open SchedulerClient
open Transition (System)

-- ════════════════════════════════════════════════════════════════════════
-- The engine
-- ════════════════════════════════════════════════════════════════════════

namespace Inference.EngineSys

variable {s t : EngineSys} {k : Nat} {m : Label} {th : Thread} {op : Op}

/-- The resume that looks at the engine finds no load that a pause is waiting for. -/
def heeds (s : EngineSys) (k : Nat) : Bool :=
  (s.pcAt k).all fun pc =>
    !(pc.look == some .resume && s.engine.state.isLoading && s.engine.pendingPause.isSome)

/-- The steps of an engine that serves: it is not started, stopped or switched, and its cores
come, live and go without errors. -/
def Serving (s : EngineSys) : Label → Prop
  | .spawn op | .call op => op.mining ∧ op.isStart = false
  | .run k o => Succeeds o ∧ s.heeds k

instance (s : EngineSys) (l : Label) : Decidable (s.Serving l) := by
  cases l <;> unfold Serving <;> infer_instance

/-- Only a pause that has not ended can undo a resume. -/
theorem Working.undoes_eq_false (h : s.Working) (hth : s.threads[k]? = some th)
    (hpause : th.op.command = some .pause → th.pc.isFinished) :
    th.pc.undoes s.engine.state = false := by
  have hbelongs := h.sound.belongs th (List.mem_of_getElem? hth)
  have hcaller {c : Caller} (hc : c.inPause th.op) : th.op.command = some .pause := by
    cases c with
    | external =>
      cases hop : th.op with
      | pause u => rfl
      | _ =>
        rw [hop] at hc
        cases hc
    | switchModel new =>
      have hns := noSwitch h.sound hth new
      cases hop : th.op with
      | switchModel new' =>
        rw [hop] at hc hns
        exact absurd (by rw [eq_of_beq hc]) hns
      | _ =>
        rw [hop] at hc
        cases hc
  cases hpc : th.pc with
  | lock block =>
    rw [hpc] at hbelongs hpause
    cases block with
    | pauseLook u c => cases hpause (hcaller hbelongs)
    | pauseTakeover c => cases hpause (hcaller hbelongs)
    | _ => rfl
  | _ => rfl

theorem Working.serve (h : s.Working) (hok : s.Serving m) (hstep : s.step m = some t) :
    t.Working := by
  obtain ⟨op, -, rfl, rfl⟩ | ⟨op, -, rfl, -⟩ | ⟨j, o, rfl, -⟩ := step_cases hstep
  · exact h.spawn hok.1 hok.2
  · exact h.call hok.1 hok.2 hstep
  · exact h.run hok.1 hstep

theorem Working.started_of_serve (h : s.Working) (hok : s.Serving m)
    (hstarted : s.engine.state ≠ .stopped) (hstep : s.step m = some t) :
    t.engine.state ≠ .stopped := by
  obtain ⟨op, -, rfl, rfl⟩ | ⟨op, -, rfl, -⟩ | ⟨j, o, rfl, -⟩ := step_cases hstep
  · exact hstarted
  · rw [state_of_call hstep]
    exact hstarted
  · exact fun hstopped => hstarted (h.stopped_of_run hok.1 hstep hstopped)

theorem Gated.serve (h : s.Gated) (hw : s.Working) (hok : s.Serving m)
    (hstep : s.step m = some t) : t.Gated := by
  obtain ⟨op, -, rfl, rfl⟩ | ⟨op, -, rfl, -⟩ | ⟨j, o, rfl, -⟩ := step_cases hstep
  · exact h.spawn
  · exact h.call hw hok.1 hok.2 hstep
  · exact h.run hw hok.1 hstep

/-- The resume comes through, when nothing undoes it. -/
theorem Wakes.serve (h : s.Wakes k) (hw : s.Working) (hok : s.Serving m)
    (hsafe : ∀ j pc, s.pcAt j = some pc → pc.undoes s.engine.state = false)
    (hstep : s.step m = some t) : t.Wakes k := by
  obtain ⟨op, -, rfl, rfl⟩ | ⟨op, -, rfl, -⟩ | ⟨j, o, rfl, -⟩ := step_cases hstep
  · exact h.spawn
  · exact h.call hw hok.1 hok.2 hstep
  · refine h.run hw hok.1 (fun _ pc hpc => hsafe j pc hpc) (fun _ pc hpc hlook hloading => ?_) hstep
    have hheed := hok.2
    simpa [heeds, hpc, hlook, hloading] using hheed

/-- The pauses after a step that begins none. -/
theorem pause_of_step (hop : m.op.bind Op.command = none) (hok : s.Serving m)
    (hstep : s.step m = some t) (hth : t.threads[k]? = some th)
    (hpause : th.op.command = some .pause) :
    ∃ x, s.threads[k]? = some x ∧ x.op = th.op ∧ (x.pc.isFinished → th.pc.isFinished) := by
  obtain ⟨op, -, rfl, rfl⟩ | ⟨op, -, rfl, -⟩ | ⟨j, o, rfl, hrun⟩ := step_cases hstep
  · obtain hold | ⟨-, rfl⟩ := thread_of_spawn hth
    · exact ⟨th, hold, rfl, id⟩
    · cases hop.symm.trans hpause
  · obtain ⟨slice, hth', hslice, rfl⟩ := thread_of_call hstep
    have hspawn := VLLMEngine.runPc_spawn Outcome.noConfusion hslice
    obtain ⟨-, hth'', -⟩ | ⟨-, hth''⟩ := thread_of_settle hth' hspawn hth
    · cases hop.symm.trans (hth'' ▸ hpause)
    · obtain hold | ⟨-, rfl⟩ := thread_of_spawn hth''
      · exact ⟨th, hold, rfl, id⟩
      · cases hop.symm.trans hpause
  · obtain ⟨x, slice, hx, hslice, rfl⟩ := runThread_eq_some.mp hrun
    have hspawn := VLLMEngine.runPc_spawn hok.1.1 hslice
    obtain ⟨rfl, hop', -⟩ | ⟨-, hold⟩ := thread_of_settle hx hspawn hth
    · refine ⟨x, hx, hop'.symm, fun hfinished => ?_⟩
      cases hfinished.symm.trans (not_finished_of_runPc hslice)
    · exact ⟨th, hold, rfl, id⟩

end Inference.EngineSys

/-- A poll that ends was answered, and its pause has succeeded. -/
theorem Sidecar.succeeded_of_sleeping {cfg : Scheduler.Config} {failsafeTimeout : Nat} {p : Pace}
    {s t : Sidecar} {l : SidecarLabel} (hok : s.Prompt p l)
    (hstep : s.step cfg failsafeTimeout l = some t) (hphase : s.phase ≠ .sleeping)
    (hsleeping : t.phase = .sleeping) : l = .answer .succeeded := by
  obtain ⟨action, sched, rfl, -, rfl⟩ | ⟨i, ok, inference, rfl, -, rfl⟩ | ⟨rfl, hp, rfl⟩ |
    ⟨rfl, -, rfl⟩ | ⟨answer, a, -, ⟨g, rfl, -, -⟩ | ⟨rfl, -, -⟩⟩ := Sidecar.step_cases hstep
  · exact absurd ((Sidecar.watch_phase s sched).symm.trans hsleeping) hphase
  · exact absurd hsleeping hphase
  · exact absurd hp hphase
  · cases hsleeping
  · exact congrArg _ hok
  · exact hok.elim

-- ════════════════════════════════════════════════════════════════════════
-- The worker
-- ════════════════════════════════════════════════════════════════════════

namespace Worker

variable {cfg : Scheduler.Config} {failsafeTimeout : Nat} {p : Pace} {x y d d' : Worker}
  {l : WorkerLabel}

/-- Polls keep the pace `p` and are answered, their pauses succeed, and the engine serves. -/
def Serving (p : Pace) (d : Worker) : WorkerLabel → Prop
  | .sidecar l => d.sidecar.sidecar.Prompt p l
  | .dispatch failed => failed = false
  | .engine l => d.engine.Serving l

instance (p : Pace) (d : Worker) : (l : WorkerLabel) → Decidable (Serving p d l)
  | .sidecar l => inferInstanceAs (Decidable (d.sidecar.sidecar.Prompt p l))
  | .dispatch failed => inferInstanceAs (Decidable (failed = false))
  | .engine l => inferInstanceAs (Decidable (d.engine.Serving l))

/-- `main` has started the engine, or left it PAUSED, and starts the listener. -/
structure Started (d : Worker) : Prop where
  fresh : d = { engine := d.engine }
  leaves : ∃ up : Inference.Pool.StartUp, up ≠ .constructed ∧
    up.Leaves .tensorParallel 0 d.engine

/-- Thread `k` is the pause that the poll in flight waits for. -/
def Awaits (d : Worker) (k : Nat) : Prop :=
  d.tasks.getLast? = some k ∧ ∃ answer u, d.received = some (answer, some (.pause u))

/-- What is known of the engine and of the commands that it was given. -/
structure Serves (d : Worker) : Prop where
  working : d.engine.Working
  gated : d.engine.Gated
  started : d.engine.engine.state ≠ .stopped
  /-- every pause is over, unless a poll waits for it -/
  paused : ∀ (k : Nat) (th : Thread), d.engine.threads[k]? = some th →
    th.op.command = some .pause → th.pc.isFinished ∨ d.Awaits k
  answered : ∀ answer command, d.received = some (answer, command) → answer.isSome
  resumes : ∀ c, d.received = some (some gpuStateAvailable, some c) → c = .resume
  wakes : d.engine.issued.getLast? = some .resume → ∃ k, d.engine.Wakes k

/-- While no poll waits for a pause, nothing undoes a resume. -/
theorem Serves.undoes_eq_false (h : d.Serves) (hlinked : d.Linked failsafeTimeout)
    (hlast : d.engine.issued.getLast? = some .resume) {k : Nat} {pc : Pc}
    (hpc : d.engine.pcAt k = some pc) : pc.undoes d.engine.engine.state = false := by
  obtain ⟨th, hth, rfl⟩ := Option.map_eq_some_iff.mp hpc
  refine h.working.undoes_eq_false hth fun hop => (h.paused k th hth hop).resolve_right ?_
  rintro ⟨-, answer, u, hreceived⟩
  rw [hlinked.issued, hreceived] at hlast
  simp [EngineCommand.kind] at hlast

/-- The engine runs. -/
theorem Serves.engine (h : d.Serves) (hlinked : d.Linked failsafeTimeout) {m : Label}
    {engine : EngineSys} (hop : m.op.bind Op.command = none) (hok : d.engine.Serving m)
    (hengine : d.engine.step m = some engine) : ({ d with engine } : Worker).Serves := by
  have hissued : engine.issued = d.engine.issued := by
    rw [EngineSys.issued_of_step hengine, hop, Option.toList_none, List.append_nil]
  have hpaused (k : Nat) (th : Thread) (hth : engine.threads[k]? = some th)
      (hpause : th.op.command = some .pause) : th.pc.isFinished ∨ d.Awaits k := by
    obtain ⟨x, hx, hxop, hfinished⟩ := EngineSys.pause_of_step hop hok hengine hth hpause
    exact (h.paused k x hx (hxop ▸ hpause)).imp_left hfinished
  refine ⟨h.working.serve hok hengine, h.gated.serve h.working hok hengine,
    h.working.started_of_serve hok h.started hengine, hpaused, h.answered, h.resumes,
    fun hlast => ?_⟩
  have hlast : d.engine.issued.getLast? = some .resume := hissued ▸ hlast
  obtain ⟨k, hk⟩ := h.wakes hlast
  exact ⟨k, hk.serve h.working hok (fun _ _ hpc => h.undoes_eq_false hlinked hlast hpc) hengine⟩

/-- A pause that the poll in flight waited for has ended. -/
theorem isFinished_of_ends {failed : Bool} {k : Nat} {th : Thread}
    (hends : d.ends failsafeTimeout failed .succeeded) (hk : d.Awaits k)
    (hth : d.engine.threads[k]? = some th) : th.pc.isFinished := by
  obtain ⟨hlast, answer, u, hreceived⟩ := hk
  simp only [ends, hreceived, Bool.and_eq_true, beq_iff_eq] at hends
  have hresult := hends.2
  simp only [lastResult, hlast, Option.bind_some, EngineSys.pcAt_of_threads hth] at hresult
  cases hpc : th.pc with
  | finished result => rfl
  | _ => simp [hpc] at hresult

/-- The two processes move. -/
theorem Serves.sidecar (h : d.Serves) (hlinked : d.Linked failsafeTimeout) {m : SidecarLabel}
    {sidecar : PacedSidecar} (hok : d.sidecar.sidecar.Prompt p m)
    (hpermits : d.permits failsafeTimeout m)
    (hsidecar : d.sidecar.step cfg failsafeTimeout m = some sidecar) :
    ({ d with
      sidecar
      received := if sidecar.sidecar.phase = .sleeping then none else d.received } :
        Worker).Serves := by
  have hreceived {r : Option ScheduleState × Option EngineCommand}
      (hr : (if sidecar.sidecar.phase = .sleeping then none else d.received) = some r) :
      d.received = some r := by
    split_ifs at hr
    exact hr
  refine ⟨h.working, h.gated, h.started, fun k th hth hpause => ?_,
    fun answer command hr => h.answered answer command (hreceived hr),
    fun c hr => h.resumes c (hreceived hr), h.wakes⟩
  obtain hfinished | ⟨hlast, answer, u, hr⟩ := h.paused k th hth hpause
  · exact .inl hfinished
  by_cases hsleeping : sidecar.sidecar.phase = .sleeping
  · -- the poll ends, so that its pause has returned
    have hpolling := hlinked.polling (by rw [hr]; rfl)
    obtain ⟨moved, hmoved, rfl⟩ := PacedSidecar.step_eq_some.mp hsidecar
    have hsucceeded := Sidecar.succeeded_of_sleeping hok hmoved hpolling hsleeping
    rw [hsucceeded] at hpermits
    exact .inl (isFinished_of_ends hpermits ⟨hlast, answer, u, hr⟩ hth)
  · exact .inr ⟨hlast, answer, u, (if_neg hsleeping).trans hr⟩

/-- No poll waits for a pause. -/
theorem Serves.isFinished (h : d.Serves) (hnone : d.received = none) {k : Nat} {th : Thread}
    (hth : d.engine.threads[k]? = some th) (hpause : th.op.command = some .pause) :
    th.pc.isFinished := by
  refine (h.paused k th hth hpause).resolve_right ?_
  rintro ⟨-, answer, u, hr⟩
  cases hnone.symm.trans hr

/-- The call of a poll returns. -/
theorem isSome_of_answer {answer : Option ScheduleState} (h : d.answer false = some answer) :
    answer.isSome := by
  unfold Worker.answer at h
  split at h <;> cases h
  rfl

/-- The listener hands its command over. -/
theorem Serves.handOver (h : d.Serves) (hnone : d.received = none)
    {answer : Option ScheduleState} {c : EngineCommand} (hanswer : answer.isSome)
    (hc : d.node.command failsafeTimeout answer = some c)
    (hengine : d.engine.step (.spawn c.op) = some (d.engine.spawn c.op)) :
    ({ d with
      engine := d.engine.spawn c.op
      received := some (answer, some c)
      tasks := d.tasks ++ [d.engine.threads.length] } : Worker).Serves where
  working := h.working.spawn (by cases c <;> rfl) (by cases c <;> rfl)
  gated := h.gated.spawn
  started := h.started
  paused k th hth hpause := by
    obtain hold | ⟨rfl, rfl⟩ := EngineSys.thread_of_spawn hth
    · exact .inl (h.isFinished hnone hold hpause)
    · cases c with
      | pause u => exact .inr ⟨List.getLast?_concat, answer, u, rfl⟩
      | resume => cases hpause
  answered answer' command hr := by
    cases hr
    exact hanswer
  resumes c' hr := by
    cases hr
    simp only [Node.command, if_true] at hc
    exact (Option.some.inj (Option.ite_none_left_eq_some.mp hc).2).symm
  wakes hlast := by
    have hissued : (d.engine.spawn c.op).issued = d.engine.issued ++ [c.kind] := by
      rw [EngineSys.issued_of_step hengine]
      simp [Label.op]
    rw [hissued, List.getLast?_concat] at hlast
    cases c with
    | pause u => cases hlast
    | resume => exact ⟨_, EngineSys.wakes_of_spawn⟩

/-- **Step lemma**. -/
theorem Serves.step (h : d.Serves) (hlinked : d.Linked failsafeTimeout) (hok : d.Serving p l)
    (hstep : d.step cfg failsafeTimeout l = some d') : d'.Serves := by
  obtain ⟨m, sidecar, rfl, hpermits, hsidecar, rfl⟩ |
    ⟨failed, answer, rfl, hnone, hanswer, hcommand⟩ | ⟨m, engine, rfl, hop, hengine, rfl⟩ :=
      step_cases hstep
  · exact h.sidecar hlinked hok hpermits hsidecar
  · obtain rfl : failed = false := hok
    have hsome := isSome_of_answer hanswer
    obtain ⟨-, rfl⟩ | ⟨c, hc, hengine, rfl⟩ := hcommand
    · refine ⟨h.working, h.gated, h.started, fun k th hth hpause => ?_, fun answer' command hr => ?_,
        fun c hr => ?_, h.wakes⟩
      · exact .inl (h.isFinished hnone hth hpause)
      · cases hr
        exact hsome
      · cases hr
    · exact h.handOver hnone hsome hc hengine
  · exact h.engine hlinked hop hok hengine

theorem Started.threads (h : Started d) : d.engine.threads = [] := by
  obtain ⟨up, -, hup⟩ := h.leaves
  exact Inference.Pool.threads_of_leaves hup

theorem Started.issued (h : Started d) : d.engine.issued = [] := by
  simp [EngineSys.issued, EngineSys.ops, h.threads]

theorem Started.linked (h : Started d) : d.Linked failsafeTimeout := by
  have hissued := h.issued
  rw [h.fresh]
  refine ⟨hissued, fun hsome => ?_, fun state command hr => ?_, fun answer c hr => ?_⟩
  · cases hsome
  · cases hr
  · cases hr

theorem Started.serves (h : Started d) : d.Serves := by
  obtain ⟨up, hup, hleaves⟩ := h.leaves
  have hreceived : d.received = none := by rw [h.fresh]
  have hengine : d.engine.engine.accepting = true ∧ d.engine.engine.state ≠ .stopped := by
    cases up with
    | constructed => exact absurd rfl hup
    | started model path =>
      obtain ⟨pids, he⟩ := hleaves
      rw [he]
      exact ⟨rfl, Inference.EngineState.noConfusion⟩
    | startedPaused model path =>
      rw [show d.engine = _ from hleaves]
      exact ⟨rfl, Inference.EngineState.noConfusion⟩
  refine ⟨Inference.Pool.working_of_leaves hleaves, .accepting hengine.1, hengine.2,
    fun k th hth => ?_, fun answer command hr => ?_, fun c hr => ?_, fun hlast => ?_⟩
  · rw [h.threads] at hth
    cases hth
  · cases hreceived.symm.trans hr
  · cases hreceived.symm.trans hr
  · rw [h.issued] at hlast
    cases hlast

/-- **Run lemma**. -/
theorem serves_of_reach (hx : Started x)
    (h : ((system cfg failsafeTimeout).startingAt x).Reach (Serving p) d) :
    d.Linked failsafeTimeout ∧ d.Serves := by
  refine h.invariant (I := fun d => d.Linked failsafeTimeout ∧ d.Serves) ?_
    fun d l d' hd hok hstep => ⟨hd.1.step hstep, hd.2.step hd.1 hok hstep⟩
  rintro d rfl
  exact ⟨hx.linked, hx.serves⟩

-- ════════════════════════════════════════════════════════════════════════
-- The engine comes back
-- ════════════════════════════════════════════════════════════════════════

/-- A poll that read AVAILABLE was heard: the last command is a resume, the one of the poll in
flight included. -/
theorem Serves.resumed (h : d.Serves) (hlinked : d.Linked failsafeTimeout) {w : Resuming}
    (hw : w.sidecar = d.sidecar.sidecar) (hinv : w.Inv) (hresumes : w.Resumes)
    (hheard : w.heard) : d.engine.issued.getLast? = some .resume := by
  rw [hlinked.issued]
  cases hpending : d.received.bind Prod.snd with
  | none =>
    have hlast := hresumes.resumed hheard
    rw [hw] at hlast
    rw [Option.toList_none, List.append_nil, List.getLast?_map,
      show d.node.commands.getLast? = some .resume from hlast]
    rfl
  | some c =>
    obtain ⟨⟨answer, command⟩, hreceived, rfl⟩ := Option.bind_eq_some_iff.mp hpending
    obtain ⟨state, rfl⟩ := Option.isSome_iff_exists.mp (h.answered answer _ hreceived)
    obtain ⟨g, hg, rfl⟩ := hlinked.answered state _ hreceived
    rw [← hw] at hg
    obtain rfl := hinv.read g hg (hinv.next hheard (by rw [hg]; exact RpcPhase.noConfusion))
    obtain rfl := h.resumes c hreceived
    rw [Option.toList_some, List.map_append, List.map_singleton, List.getLast?_concat]
    rfl

/-- An engine at rest behind a resume. -/
theorem Serves.available_of_quiet (h : d.Serves)
    (hlast : d.engine.issued.getLast? = some .resume) (hquiet : d.engine.Quiet) :
    d.engine.engine.isAvailable := by
  obtain ⟨k, hk⟩ := h.wakes hlast
  obtain ⟨th, hth, -⟩ := hk.isResume
  have hresumed := hk.resumed (EngineSys.hasLooked_of_quiet hquiet ⟨th, hth⟩)
  have hrunning := hresumed.running_of_quiet h.working hquiet h.started
  have haccepting := h.gated.accepting_of_quiet hquiet
  simp [VLLMEngine.isAvailable, hrunning, haccepting]

/-- The two processes by themselves. -/
theorem sidecar_of_serving {ok : Worker → WorkerLabel → Prop} {ok' : Sidecar → SidecarLabel → Prop}
    (hok : ∀ d l, ok d (.sidecar l) → ok' d.sidecar.sidecar l)
    (h : ((system cfg failsafeTimeout).startingAt x).Reach ok d) :
    ((Sidecar.system cfg failsafeTimeout).startingAt x.sidecar.sidecar).Reach ok'
      d.sidecar.sidecar := by
  have hpaced : ((PacedSidecar.system cfg failsafeTimeout).startingAt x.sidecar).Reach
      (fun j l => ok' j.sidecar l) d.sidecar := ((refines_sidecar hok).startingAt x).reach h
  exact ((PacedSidecar.refines_sidecar fun _ _ hok => hok).startingAt x.sidecar).reach hpaced

/-- **The engine comes back**: in a run in which no core dies and nobody starts, stops or switches
the engine (`Serving`), the scheduler is AVAILABLE for longer than one sleep and two polls of the
listener. The last command of the engine is a resume, and at rest the engine is RUNNING and accepts
requests. -/
theorem available_of_resumed (hx : Started x)
    (hy : ((system cfg failsafeTimeout).startingAt x).Reach (Serving p) y)
    (h : ((system cfg failsafeTimeout).startingAt y).Reach
      (fun d l => d.Serving p l ∧ d.sidecar.sidecar.isAvailable) d)
    (hd : d.sidecar.sidecar.isAvailable)
    (hlong : y.sidecar.sidecar.scheduler.now + p.interval + 2 * p.longest <
      d.sidecar.sidecar.scheduler.now) :
    d.engine.issued.getLast? = some .resume ∧
      (d.engine.Quiet → d.engine.engine.isAvailable) := by
  obtain ⟨hlinked, hserves⟩ := serves_of_reach hx (hy.trans (fun _ _ hok => hok.1) h)
  have hbefore : (Sidecar.system cfg failsafeTimeout).Reach (Sidecar.Prompt p)
      y.sidecar.sidecar := by
    have hstart : ((Sidecar.system cfg failsafeTimeout).startingAt x.sidecar.sidecar).Reach
        (Sidecar.Prompt p) y.sidecar.sidecar := sidecar_of_serving (fun _ _ hok => hok) hy
    rw [hx.fresh] at hstart
    exact hstart
  have hafter : ((Sidecar.system cfg failsafeTimeout).startingAt y.sidecar.sidecar).Reach
      (fun s l => s.Prompt p l ∧ s.isAvailable) d.sidecar.sidecar :=
    sidecar_of_serving (fun _ _ hok => hok) h
  obtain ⟨w, hw, hsame, hsince⟩ := Resuming.exists_of_available hafter
  have hany := hbefore.mono fun _ _ _ => trivial
  have hheard : w.heard := by
    refine Resuming.heard_of_prompt hany (Sidecar.inPace_of_reach hbefore) hw (hsince hd) ?_
    rw [hsame, max_self]
    exact hlong
  have hresumes := Resuming.resumes_of_prompt hany (Sidecar.recalls_of_reach hbefore) hw
  have hlast := hserves.resumed hlinked hsame (Resuming.inv_of_reach hw) hresumes hheard
  exact ⟨hlast, hserves.available_of_quiet hlast⟩

/-- A worker whose engine `main` has started. -/
def startedUp : Worker :=
  { engine :=
      { engine :=
          { state := .running, core := some ⟨"m"⟩, model := "m", childPids := [1], live := [1],
            loads := 1 } } }

theorem started_startedUp : Started startedUp where
  fresh := rfl
  leaves := ⟨.started "m" "m", Inference.Pool.StartUp.noConfusion, [1], rfl⟩

/-- A block is won while a request is served. A poll takes the engine down, and after a second the
resume timer of the win says AVAILABLE. -/
def wonBlock : List WorkerLabel :=
  schedules (List.replicate 7 (.poll ⟨some (Scheduler.deadline0At 0), fun _ => some 0⟩)) ++
    [.engine (.call (.generate "m"))] ++
    schedules ([.win "won"] ++ List.replicate 5 (.trigger 0) ++ [.timer 0]) ++ pausingPoll ++
    [.engine (.run 0 .failed)] ++ schedules ([.elapse 1000] ++ List.replicate 3 (.timer 0))

/-- The next poll resumes the engine, which loads its model; another one finds it applied. -/
def resumingPolls : List WorkerLabel :=
  [.sidecar .request, .sidecar .read, .dispatch false, .engine (.run 2 .go), .engine (.run 2 .go),
    .engine (.run 2 (.created [2])), .engine (.run 2 .go), .sidecar (.answer .succeeded)] ++
    schedules [.elapse 1000] ++ idlePoll ++ schedules [.elapse 1]

/-- A second and a moment after the block the engine is available again. -/
theorem available_wonBlock :
    ∃ d, ((system ⟨Scheduler.defaultPolicy, true, 1000⟩ 60000).startingAt startedUp).Reach
        (Serving ⟨1000, 0⟩) d ∧
      d.sidecar.sidecar.scheduler.now = 2001 ∧
      d.engine.issued = [Command.pause, Command.resume] ∧ d.engine.engine.isAvailable := by
  let M := system ⟨Scheduler.defaultPolicy, true, 1000⟩ 60000
  have hfinal : ((M.startingAt startedUp).execGuarded (Serving ⟨1000, 0⟩) startedUp wonBlock).any
      (fun y => y.sidecar.sidecar.scheduler.now == 1000 && y.engine.engine.state == .paused &&
        ((M.startingAt y).execGuarded
          (fun d l => d.Serving ⟨1000, 0⟩ l ∧ d.sidecar.sidecar.isAvailable) y resumingPolls).any
          fun d => d.sidecar.sidecar.isAvailable && d.sidecar.sidecar.scheduler.now == 2001 &&
            d.engine.issued == [Command.pause, Command.resume] &&
            d.engine.threads.all fun th => th.pc.isFinished) = true := by
    decide +kernel
  obtain ⟨y, hy, hlater⟩ := (Option.any_eq_true _ _).mp hfinal
  simp only [Bool.and_eq_true, beq_iff_eq] at hlater
  obtain ⟨⟨hstart, -⟩, hlater⟩ := hlater
  obtain ⟨d, hd, hend⟩ := (Option.any_eq_true _ _).mp hlater
  simp only [Bool.and_eq_true, beq_iff_eq] at hend
  obtain ⟨⟨⟨hav, hnow⟩, hissued⟩, hended⟩ := hend
  have hyreach := System.Reach.execGuarded (.init rfl) hy
  have hdreach := System.Reach.execGuarded (.init rfl) hd
  have hlong : y.sidecar.sidecar.scheduler.now + 1000 + 2 * 0 <
      d.sidecar.sidecar.scheduler.now := by omega
  have hboth := available_of_resumed started_startedUp hyreach hdreach hav hlong
  exact ⟨d, hyreach.trans (fun _ _ hok => hok.1) hdreach, hnow, hissued,
    hboth.2 (EngineSys.quiet_of_finished hended)⟩

end Worker

end OpenModel
