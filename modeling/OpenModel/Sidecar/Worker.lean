import OpenModel.Inference.CommandOrder
import OpenModel.Sidecar.Window

/-!
# From the state machine to the GPU

A worker as a whole: the scheduler, the listener, and the engine with all its coroutines. When
the call of a poll is over, the listener hands the command that follows from it to the event
loop, where it begins behind the commands before it; the poll ends when a pause that it waits for
returns, raises, or takes too long. Requests come, cores die and teardowns go on meanwhile, within
the steps that are safe against crashes (`Worker.Safe`).

So a demand that the listener has heard is the last command of the engine, and an engine that
comes to rest then holds nothing.

## Main results

- `SchedulerClient.Node.poll_commands`: the command of a poll
- `Worker.refines_sidecar`, `Worker.refines_engine`: the parts run as they do by themselves
- `Worker.free_of_heard`: a demand that was heard frees the GPU
- `Worker.free_of_window`: the GPU is free when a window is near, and until it closes
-/

namespace OpenModel

open Inference (EngineSys Op Pc Result Command Label)
open SchedulerClient
open Transition (System)

-- ════════════════════════════════════════════════════════════════════════
-- The command of a poll
-- ════════════════════════════════════════════════════════════════════════

namespace SchedulerClient

/-- The method of the engine that is called. -/
def EngineCommand.op : EngineCommand → Op
  | .pause urgency => .pause urgency
  | .resume => .resume

/-- The command as the engine counts it. -/
def EngineCommand.kind : EngineCommand → Command
  | .pause _ => .pause
  | .resume => .resume

@[simp] theorem EngineCommand.op_command (c : EngineCommand) : c.op.command = some c.kind := by
  cases c <;> rfl

theorem EngineCommand.kind_eq_pause {c : EngineCommand} : c.kind = .pause ↔ c.isPause := by
  cases c <;> simp [kind, isPause]

namespace Node

/-- The command that a poll dispatches. -/
def command (failsafeTimeout : Nat) (s : Node) : Option ScheduleState → Option EngineCommand
  | none =>
    if s.listener.failsafeTriggered = false ∧ failsafeTimeout ≤ s.now - s.outageStart then
      some (.pause .immediate)
    else none
  | some state =>
    if some state = s.settled.lastState then none
    else if state = gpuStateAvailable then some .resume
    else if state ∈ yieldStates then some (.pause (urgency state))
    else none

/-- The commands that were dispatched. -/
def commands (s : Node) : List EngineCommand := s.dispatched.map Dispatch.command

variable {s : Node} {failsafeTimeout : Nat} {answer : Option ScheduleState} {a : Attempt}

theorem command_of_due (h : s.FailsafeDue failsafeTimeout) :
    s.command failsafeTimeout none = some (.pause .immediate) := if_pos h

theorem command_of_not_due (h : ¬ s.FailsafeDue failsafeTimeout) :
    s.command failsafeTimeout none = none := if_neg h

/-- **One poll** dispatches its command and no other. -/
theorem poll_commands (s : Node) (failsafeTimeout : Nat) (answer : Option ScheduleState)
    (a : Attempt) :
    (s.poll failsafeTimeout answer a).commands =
      s.commands ++ (s.command failsafeTimeout answer).toList := by
  cases answer with
  | none =>
    by_cases hdue : s.FailsafeDue failsafeTimeout
    · have hpoll : s.poll failsafeTimeout none a = _ := pollFailed_of_due hdue
      rw [hpoll, command_of_due hdue]
      simp [commands]
    · have hpoll : s.poll failsafeTimeout none a = _ := pollFailed_of_not_due hdue
      rw [hpoll, command_of_not_due hdue]
      simp [commands]
  | some state =>
    show (s.pollAnswered state a).commands = _
    simp only [pollAnswered, command]
    split_ifs with hstored hav hy
    · simp [commands]
    · obtain ⟨-, heq⟩ | ⟨hy, -⟩ | ⟨hne, -⟩ := applyThen_cases { s with listener := s.settled } state
        a fun l => { l with lastState := some state }
      · simp [commands, heq]
      · exact absurd (hav ▸ hy) available_not_mem_yieldStates
      · exact absurd hav hne
    · rw [applyThen_of_yield hy]
      simp [commands]
    · obtain ⟨hav', -⟩ | ⟨hy', -⟩ | ⟨-, -, heq⟩ :=
        applyThen_cases { s with listener := s.settled } state a
          fun l => { l with lastState := some state }
      · exact absurd hav' hav
      · exact absurd hy' hy
      · simp [commands, heq]

/-- A poll that does not receive AVAILABLE dispatches no resume. -/
theorem isPause_of_command {c : EngineCommand} (hanswer : answer ≠ some gpuStateAvailable)
    (h : s.command failsafeTimeout answer = some c) : c.isPause := by
  cases answer with
  | none =>
    obtain ⟨-, hc⟩ := Option.ite_none_right_eq_some.mp h
    rw [← Option.some.inj hc]
    rfl
  | some state =>
    simp only [command] at h
    split_ifs at h with hstored hav
    · exact absurd (congrArg some hav) hanswer
    · rw [← Option.some.inj h]
      rfl

end Node

end SchedulerClient

-- ════════════════════════════════════════════════════════════════════════
-- The worker
-- ════════════════════════════════════════════════════════════════════════

/-- Scheduler, listener and engine. Once the call of the poll in flight is over, `received` is
what it got and the command that it dispatched; `tasks` are the coroutines of the commands, in
the order in which they were dispatched. -/
structure Worker where
  sidecar : PacedSidecar := {}
  engine : EngineSys := {}
  received : Option (Option ScheduleState × Option EngineCommand) := none
  tasks : List Nat := []

/-- What happens next. -/
inductive WorkerLabel
  | sidecar (l : SidecarLabel)
  /-- the call of the poll in flight fails or returns, and its command is handed over -/
  | dispatch (failed : Bool)
  /-- anything else on the event loop -/
  | engine (l : Label)

namespace Worker

/-- The listener in the poll in flight. -/
def node (d : Worker) : Node := d.sidecar.sidecar.inference.node

/-- What the call of the poll in flight gets. -/
def answer (d : Worker) (failed : Bool) : Option (Option ScheduleState) :=
  match d.sidecar.sidecar.phase with
  | .sleeping => none
  | .requested => if failed then some none else none
  | .answered g => some (if failed then none else some g.number)

/-- How the coroutine of the last command ended, if it did. -/
def lastResult (d : Worker) : Option Result :=
  (d.tasks.getLast?.bind d.engine.pcAt).bind fun pc =>
    match pc with
    | .finished result => some result
    | _ => none

/-- The poll in flight can end so: the pause that it waits for returned, raised, or takes too
long. -/
def ends (d : Worker) (failsafeTimeout : Nat) (failed : Bool) (a : Attempt) : Bool :=
  match d.received with
  | some (answer, command) =>
    answer.isNone == failed && command == d.node.command failsafeTimeout answer &&
      match command, a with
      | some (.pause _), .succeeded => d.lastResult == some .returned
      | some (.pause _), .raised => d.lastResult == some .raised
      | _, _ => true
  | none => false

/-- What the engine has to do with a step of the other two. -/
def permits (failsafeTimeout : Nat) (d : Worker) : SidecarLabel → Bool
  | .scheduler _ | .request => true
  | .read => d.received.isNone
  | .finish i ok =>
    -- it is noticed by the next poll
    d.received.isNone && d.tasks[i]?.bind d.engine.pcAt ==
      some (.finished (if ok then .returned else .raised))
  | .answer a => d.ends failsafeTimeout false a
  | .fail a => d.ends failsafeTimeout true a

/-- The command is handed to the event loop. -/
def handOver (d : Worker) : Option EngineCommand → Option Worker
  | none => some d
  | some c => (d.engine.step (.spawn c.op)).map fun engine =>
    { d with engine, tasks := d.tasks ++ [d.engine.threads.length] }

def step (cfg : Scheduler.Config) (failsafeTimeout : Nat) (d : Worker) :
    WorkerLabel → Option Worker
  | .sidecar l =>
    if d.permits failsafeTimeout l then
      (d.sidecar.step cfg failsafeTimeout l).map fun sidecar =>
        { d with sidecar, received := if sidecar.sidecar.phase = .sleeping then none else d.received }
    else none
  | .dispatch failed =>
    if d.received.isNone then
      (d.answer failed).bind fun answer =>
        let command := d.node.command failsafeTimeout answer
        (d.handOver command).map fun d => { d with received := some (answer, command) }
    else none
  | .engine l =>
    if l.op.bind Op.command = none then
      (d.engine.step l).map fun engine => { d with engine }
    else none

/-- Both processes from their start on. -/
def system (cfg : Scheduler.Config) (failsafeTimeout : Nat) : System Worker WorkerLabel where
  init d := d.engine.init ∧ d = { engine := d.engine }
  step := step cfg failsafeTimeout

/-- The engine's steps are safe against crashes (`EngineSys.crashSafe`), and its commands begin in
their order. -/
def Safe (d : Worker) : WorkerLabel → Prop
  | .engine l => d.engine.crashSafe l ∧ d.engine.beginsInOrder l
  | _ => True

variable {cfg : Scheduler.Config} {failsafeTimeout : Nat} {d d' : Worker} {l : WorkerLabel}

/-- **What a step does**: one of the three moves, or the listener hands a command over. -/
theorem step_cases (h : d.step cfg failsafeTimeout l = some d') :
    (∃ m sidecar, l = .sidecar m ∧ d.permits failsafeTimeout m ∧
      d.sidecar.step cfg failsafeTimeout m = some sidecar ∧
      d' = { d with
        sidecar
        received := if sidecar.sidecar.phase = .sleeping then none else d.received }) ∨
    (∃ failed answer, l = .dispatch failed ∧ d.received = none ∧ d.answer failed = some answer ∧
      ((d.node.command failsafeTimeout answer = none ∧
          d' = { d with received := some (answer, none) }) ∨
        ∃ c, d.node.command failsafeTimeout answer = some c ∧
          d.engine.step (.spawn c.op) = some (d.engine.spawn c.op) ∧
          d' = { d with
            engine := d.engine.spawn c.op
            received := some (answer, some c)
            tasks := d.tasks ++ [d.engine.threads.length] })) ∨
    ∃ m engine, l = .engine m ∧ m.op.bind Op.command = none ∧ d.engine.step m = some engine ∧
      d' = { d with engine } := by
  cases l with
  | sidecar m =>
    obtain ⟨hpermits, h⟩ := Option.ite_none_right_eq_some.mp h
    obtain ⟨sidecar, hsidecar, rfl⟩ := Option.map_eq_some_iff.mp h
    exact .inl ⟨m, sidecar, rfl, hpermits, hsidecar, rfl⟩
  | dispatch failed =>
    obtain ⟨hreceived, h⟩ := Option.ite_none_right_eq_some.mp h
    obtain ⟨answer, hanswer, h⟩ := Option.bind_eq_some_iff.mp h
    obtain ⟨e, he, rfl⟩ := Option.map_eq_some_iff.mp h
    refine .inr (.inl ⟨failed, answer, rfl, Option.isNone_iff_eq_none.mp hreceived, hanswer, ?_⟩)
    cases hc : d.node.command failsafeTimeout answer with
    | none =>
      rw [hc] at he
      cases he
      exact .inl ⟨rfl, rfl⟩
    | some c =>
      rw [hc] at he
      obtain ⟨engine, hengine, rfl⟩ := Option.map_eq_some_iff.mp he
      have hspawn : d.engine.spawn c.op = engine :=
        Option.some.inj (Option.ite_none_right_eq_some.mp hengine).2
      rw [← hspawn] at hengine ⊢
      exact .inr ⟨c, rfl, hengine, rfl⟩
  | engine m =>
    obtain ⟨hop, h⟩ := Option.ite_none_right_eq_some.mp h
    obtain ⟨engine, hengine, rfl⟩ := Option.map_eq_some_iff.mp h
    exact .inr (.inr ⟨m, engine, rfl, hop, hengine, rfl⟩)

/-- **The sidecar alone** runs as it does by itself. -/
theorem refines_sidecar {ok : Worker → WorkerLabel → Prop}
    {ok' : PacedSidecar → SidecarLabel → Prop}
    (hok : ∀ d l, ok d (.sidecar l) → ok' d.sidecar l) :
    (system cfg failsafeTimeout).Refines (PacedSidecar.system cfg failsafeTimeout) ok ok'
      Worker.sidecar where
  init := by
    rintro d ⟨-, hd⟩
    rw [hd]
    rfl
  step d l d' hl hstep := by
    obtain ⟨m, sidecar, rfl, -, hsidecar, rfl⟩ |
      ⟨failed, answer, -, -, -, ⟨-, rfl⟩ | ⟨c, -, -, rfl⟩⟩ | ⟨m, engine, -, -, -, rfl⟩ :=
        step_cases hstep
    · exact .inr ⟨m, hok d m hl, hsidecar⟩
    all_goals exact .inl rfl

/-- **The engine alone** runs as it does by itself; the listener's commands are new tasks. -/
theorem refines_engine {ok : Worker → WorkerLabel → Prop} {ok' : EngineSys → Label → Prop}
    (hok : ∀ d l, ok d (.engine l) → ok' d.engine l)
    (hspawn : ∀ e (c : EngineCommand), ok' e (.spawn c.op)) :
    (system cfg failsafeTimeout).Refines EngineSys.system ok ok' Worker.engine where
  init _ h := h.1
  step d l d' hl hstep := by
    obtain ⟨m, sidecar, -, -, -, rfl⟩ |
      ⟨failed, answer, -, -, -, ⟨-, rfl⟩ | ⟨c, -, hengine, rfl⟩⟩ |
        ⟨m, engine, rfl, -, hengine, rfl⟩ := step_cases hstep
    · exact .inl rfl
    · exact .inl rfl
    · exact .inr ⟨.spawn c.op, hspawn _ c, hengine⟩
    · exact .inr ⟨m, hok d m hl, hengine⟩

-- ════════════════════════════════════════════════════════════════════════
-- The engine has the listener's commands
-- ════════════════════════════════════════════════════════════════════════

/-- The commands of the engine are those of the listener, the one of the poll in flight
included. -/
structure Linked (failsafeTimeout : Nat) (d : Worker) : Prop where
  issued : d.engine.issued =
    (d.node.commands ++ (d.received.bind Prod.snd).toList).map EngineCommand.kind
  polling : d.received.isSome → d.sidecar.sidecar.phase ≠ .sleeping
  answered : ∀ state command, d.received = some (some state, command) →
    ∃ g, d.sidecar.sidecar.phase = .answered g ∧ state = g.number
  pauses : ∀ answer c, d.received = some (answer, some c) →
    answer ≠ some gpuStateAvailable → c.isPause

theorem linked_init (h : d.engine.init) (hd : d = { engine := d.engine }) :
    d.Linked failsafeTimeout := by
  have hissued : d.engine.issued = [] := by
    obtain hinit | ⟨path, hinit⟩ := h <;> rw [hinit] <;> rfl
  rw [hd]
  exact ⟨hissued, nofun, nofun, nofun⟩

/-- Between two polls nothing was received. -/
theorem Linked.received_of_sleeping (h : d.Linked failsafeTimeout)
    (hphase : d.sidecar.sidecar.phase = .sleeping) : d.received = none := by
  by_contra hne
  exact h.polling (Option.isSome_iff_ne_none.mpr hne) hphase

/-- A step of the sidecar that leaves the commands and what was received alone. -/
theorem Linked.sidecar_of_commands (h : d.Linked failsafeTimeout) {sidecar : PacedSidecar}
    (hcommands : sidecar.sidecar.inference.node.commands = d.node.commands)
    (hphase : d.received.isSome → sidecar.sidecar.phase = d.sidecar.sidecar.phase) :
    ({ d with
      sidecar
      received := if sidecar.sidecar.phase = .sleeping then none else d.received } :
        Worker).Linked failsafeTimeout := by
  have hreceived : (if sidecar.sidecar.phase = .sleeping then none else d.received) =
      d.received := by
    split_ifs with hsleeping
    · by_contra hne
      have hsome := Option.isSome_iff_ne_none.mpr (Ne.symm hne)
      exact h.polling hsome ((hphase hsome).symm.trans hsleeping)
    · rfl
  rw [hreceived]
  refine ⟨?_, fun hsome => ?_, fun state command hs => ?_, h.pauses⟩
  · show d.engine.issued = (sidecar.sidecar.inference.node.commands ++ _).map _
    rw [hcommands]
    exact h.issued
  · show sidecar.sidecar.phase ≠ .sleeping
    rw [hphase hsome]
    exact h.polling hsome
  · obtain ⟨g, hg, hstate⟩ := h.answered state command hs
    exact ⟨g, (hphase (by simp [show d.received = _ from hs])).trans hg, hstate⟩

/-- The poll in flight ends with the command that was handed over. -/
theorem Linked.endPoll (h : d.Linked failsafeTimeout) {answer : Option ScheduleState}
    {a : Attempt} {polledAt : Nat}
    (hreceived : d.received = some (answer, d.node.command failsafeTimeout answer)) :
    ({ d with
      sidecar := ⟨d.sidecar.sidecar.endPoll failsafeTimeout answer a, polledAt⟩
      received := none } : Worker).Linked failsafeTimeout := by
  refine ⟨?_, nofun, nofun, nofun⟩
  have hissued := h.issued
  rw [hreceived] at hissued
  show d.engine.issued = ((d.node.poll failsafeTimeout answer a).commands ++ []).map _
  rw [Node.poll_commands, List.append_nil]
  exact hissued

/-- What a poll in flight received, when it can end. -/
theorem received_of_ends {failed : Bool} {a : Attempt}
    (hends : d.ends failsafeTimeout failed a) :
    ∃ answer, d.received = some (answer, d.node.command failsafeTimeout answer) ∧
      answer.isNone = failed := by
  unfold ends at hends
  split at hends
  · next answer command hreceived =>
    simp only [Bool.and_eq_true, beq_iff_eq] at hends
    obtain ⟨⟨hfailed, rfl⟩, -⟩ := hends
    exact ⟨answer, hreceived, hfailed⟩
  · cases hends

/-- **Step lemma**. -/
theorem Linked.step (h : d.Linked failsafeTimeout)
    (hstep : d.step cfg failsafeTimeout l = some d') : d'.Linked failsafeTimeout := by
  obtain ⟨m, sidecar, rfl, hpermits, hsidecar, rfl⟩ |
    ⟨failed, answer, -, hnone, hanswer, hcommand⟩ | ⟨m, engine, rfl, hop, hengine, rfl⟩ :=
      step_cases hstep
  · obtain ⟨moved, hmoved, rfl⟩ := PacedSidecar.step_eq_some.mp hsidecar
    obtain ⟨action, sched, rfl, -, rfl⟩ | ⟨i, ok, inference, rfl, hrun, rfl⟩ |
      ⟨rfl, hphase, rfl⟩ | ⟨rfl, hphase, rfl⟩ | ⟨answer, a, rfl, hend⟩ := Sidecar.step_cases hmoved
    · exact h.sidecar_of_commands rfl fun _ => Sidecar.watch_phase _ _
    · obtain ⟨x, hx, -, rfl⟩ := ListenerRun.finish_eq_some.mp hrun
      refine h.sidecar_of_commands ?_ fun _ => rfl
      have hset : (d.node.dispatched.set i { x with ended := some ok }).map Dispatch.command =
          d.node.dispatched.map Dispatch.command := by
        rw [List.map_set]
        refine List.ext_getElem? fun j => ?_
        by_cases hj : i = j
        · subst hj
          have hi := (List.getElem?_eq_some_iff.mp hx).1
          rw [List.getElem?_set_self (by rw [List.length_map]; exact hi), List.getElem?_map]
          exact congrArg (Option.map Dispatch.command) hx.symm
        · rw [List.getElem?_set_ne hj]
      exact hset
    · have hnone := h.received_of_sleeping hphase
      exact h.sidecar_of_commands rfl fun hsome => by simp [hnone] at hsome
    · have hnone : d.received = none := by simpa [permits] using hpermits
      exact h.sidecar_of_commands rfl fun hsome => by simp [hnone] at hsome
    · obtain ⟨g, rfl, hphase, rfl⟩ | ⟨rfl, -, rfl⟩ := hend
      · obtain ⟨answer, hreceived, hfailed⟩ := received_of_ends hpermits
        cases answer with
        | none => cases hfailed
        | some state =>
          obtain ⟨g', hg', rfl⟩ := h.answered state _ hreceived
          obtain rfl := RpcPhase.answered.inj (hphase.symm.trans hg')
          exact h.endPoll hreceived
      · obtain ⟨answer, hreceived, hfailed⟩ := received_of_ends hpermits
        obtain rfl := Option.isNone_iff_eq_none.mp hfailed
        exact h.endPoll hreceived
  · have hphase : d.sidecar.sidecar.phase ≠ .sleeping ∧
        ∀ state, answer = some state → ∃ g, d.sidecar.sidecar.phase = .answered g ∧
          state = g.number := by
      unfold Worker.answer at hanswer
      cases hp : d.sidecar.sidecar.phase with
      | sleeping =>
        rw [hp] at hanswer
        cases hanswer
      | requested =>
        rw [hp] at hanswer
        cases failed <;> cases hanswer
        exact ⟨nofun, nofun⟩
      | answered g =>
        rw [hp] at hanswer
        cases failed <;> cases hanswer
        · exact ⟨nofun, fun state hs => ⟨g, rfl, (Option.some.inj hs).symm⟩⟩
        · exact ⟨nofun, nofun⟩
    have hissued := h.issued
    rw [hnone] at hissued
    obtain ⟨-, rfl⟩ | ⟨c, hc, hengine, rfl⟩ := hcommand
    · refine ⟨hissued, fun _ => hphase.1, fun state command hs => ?_, fun answer' c hs => ?_⟩
      · cases hs
        exact hphase.2 state rfl
      · cases hs
    · refine ⟨?_, fun _ => hphase.1, fun state command hs => ?_, fun answer' c' hs hne => ?_⟩
      · show (d.engine.spawn c.op).issued = (d.node.commands ++ [c]).map _
        rw [EngineSys.issued_of_step hengine, hissued]
        simp [Label.op]
      · cases hs
        exact hphase.2 state rfl
      · cases hs
        exact Node.isPause_of_command hne hc
  · refine ⟨?_, h.polling, h.answered, h.pauses⟩
    show engine.issued = _
    rw [EngineSys.issued_of_step hengine, hop, Option.toList_none, List.append_nil]
    exact h.issued

/-- **Run lemma**. -/
theorem linked_of_reach {ok : Worker → WorkerLabel → Prop}
    (h : (system cfg failsafeTimeout).Reach ok d) : d.Linked failsafeTimeout := by
  refine h.invariant (I := Linked failsafeTimeout) ?_ fun _ _ _ hd _ hstep => hd.step hstep
  rintro d ⟨hengine, hd⟩
  exact linked_init hengine hd

-- ════════════════════════════════════════════════════════════════════════
-- The GPU is free
-- ════════════════════════════════════════════════════════════════════════

/-- After an applied pause come pauses only. -/
theorem isPause_getLast_of_applied {ds : List Dispatch} (h : Applied ds) :
    ∃ c, (ds.map Dispatch.command).getLast? = some c ∧ c.isPause := by
  obtain ⟨i, u, hi, hafter⟩ := h
  have hne : ds ≠ [] := by
    rintro rfl
    cases hi
  refine ⟨(ds.getLast hne).command, by rw [List.getLast?_map, List.getLast?_eq_some_getLast hne]; rfl,
    ?_⟩
  have hlast : ds[ds.length - 1]? = some (ds.getLast hne) := by
    rw [← List.getLast?_eq_getElem?, List.getLast?_eq_some_getLast hne]
  obtain hlt | heq := lt_or_eq_of_le
    (show i ≤ ds.length - 1 by have := (List.getElem?_eq_some_iff.mp hi).1; omega)
  · exact hafter _ _ hlt hlast
  · rw [← heq, hi] at hlast
    rw [← Option.some.inj hlast]
    rfl

/-- **The last command** of a demand that was heard is a pause. -/
theorem Linked.issued_getLast (h : d.Linked failsafeTimeout) (hinv : d.sidecar.sidecar.Inv)
    (hheard : d.sidecar.sidecar.heard) : d.engine.issued.getLast? = some .pause := by
  obtain ⟨c, hc, hpause⟩ := isPause_getLast_of_applied (hinv.heard hheard).2
  rw [h.issued]
  cases hpending : d.received.bind Prod.snd with
  | none =>
    rw [Option.toList_none, List.append_nil, List.getLast?_map]
    rw [show d.node.commands.getLast? = some c from hc]
    exact congrArg some (EngineCommand.kind_eq_pause.mpr hpause)
  | some c' =>
    obtain ⟨⟨answer, command⟩, hreceived, rfl⟩ := Option.bind_eq_some_iff.mp hpending
    have hphase := h.polling (by simp [hreceived])
    have hne : answer ≠ some gpuStateAvailable := by
      rintro rfl
      obtain ⟨g, hg, hstate⟩ := h.answered _ _ hreceived
      have hdemands := hinv.read g hg (hinv.next hheard hphase)
      have hyield := Scheduler.GpuState.number_mem_yieldStates.mpr hdemands
      exact Node.available_not_mem_yieldStates (hstate ▸ hyield)
    rw [Option.toList_some, List.map_append, List.map_singleton, List.getLast?_concat]
    exact congrArg some (EngineCommand.kind_eq_pause.mpr (h.pauses _ _ hreceived hne))

/-- The engine by itself. -/
theorem engine_of_reach (h : (system cfg failsafeTimeout).Reach Safe d) :
    EngineSys.system.Reach (fun s l => s.crashSafe l ∧ s.beginsInOrder l) d.engine :=
  (refines_engine (fun _ _ hok => hok) fun _ c => by cases c <;> exact ⟨rfl, rfl⟩).reach h

/-- The sidecar by itself. -/
theorem sidecar_of_reach {ok : Worker → WorkerLabel → Prop}
    (h : (system cfg failsafeTimeout).Reach ok d) :
    (Sidecar.system cfg failsafeTimeout).Reach System.anyStep d.sidecar.sidecar :=
  have hpaced : (PacedSidecar.system cfg failsafeTimeout).Reach System.anyStep d.sidecar :=
    System.Refines.reach (refines_sidecar fun _ _ _ => trivial) h
  System.Refines.reach (PacedSidecar.refines_sidecar fun _ _ _ => trivial) hpaced

/-- An engine at rest in a demand that was heard. -/
theorem empty_of_heard (h : (system cfg failsafeTimeout).Reach Safe d)
    (hheard : d.sidecar.sidecar.heard) (hquiet : d.engine.Quiet) :
    d.engine.engine.state ≠ .running ∧ d.engine.engine.core = none := by
  have hengine := engine_of_reach h
  have hinv := Sidecar.inv_of_reach (sidecar_of_reach h)
  obtain ⟨n, horder⟩ := EngineSys.inOrder_of_reach (fun _ _ hok => hok.2) hengine
  exact horder.empty_of_pause (hengine.mono fun _ _ hok => hok.1) hquiet
    ((linked_of_reach h).issued_getLast hinv hheard)

/-- **A demand that was heard frees the GPU**: while the scheduler demands the GPU and a poll has
heard of it, an engine at rest is not RUNNING and holds no core, however requests, core deaths,
loads, teardowns and the two processes interleave. -/
theorem free_of_heard (h : (system cfg failsafeTimeout).Reach Safe d)
    (hheard : d.sidecar.sidecar.heard) :
    d.sidecar.sidecar.scheduler.cells.current.demands ∧
      (d.engine.Quiet → d.engine.engine.state ≠ .running ∧ d.engine.engine.core = none) := by
  have hinv := Sidecar.inv_of_reach (sidecar_of_reach h)
  exact ⟨hinv.demanded ▸ (hinv.heard hheard).1, empty_of_heard h hheard⟩

/-- An engine that was not started. -/
theorem init_empty : (system cfg failsafeTimeout).init {} := ⟨.inl rfl, rfl⟩

instance (d : Worker) (l : WorkerLabel) : Decidable (Safe d l) := by
  cases l <;> unfold Safe <;> infer_instance

/-- The engine loads its model. -/
def loads : List WorkerLabel :=
  [.engine (.call (.start "m")), .engine (.run 0 .go), .engine (.run 0 (.created [1])),
    .engine (.run 0 .go)]

/-- A poll whose pause takes the engine down. -/
def pausingPoll : List WorkerLabel :=
  [.sidecar .request, .sidecar .read, .dispatch false] ++ List.replicate 7 (.engine (.run 1 .go)) ++
    [.sidecar (.answer .succeeded)]

/-- The steps of the scheduler. -/
def schedules (actions : List Scheduler.Action) : List WorkerLabel :=
  actions.map fun action => .sidecar (.scheduler action)

/-- A block is won while the engine is RUNNING. -/
theorem free_wonBlock :
    ∃ d, (system ⟨Scheduler.defaultPolicy, true, 0⟩ 60000).Reach Safe d ∧
      d.sidecar.sidecar.heard ∧ d.engine.engine.state ≠ .running ∧ d.engine.engine.core = none := by
  have hfinal : ((system ⟨Scheduler.defaultPolicy, true, 0⟩ 60000).execGuarded Safe {}
      (loads ++ schedules [.win "won", .trigger 0] ++ pausingPoll)).any (fun d =>
        d.sidecar.sidecar.heard && d.engine.threads.all fun th => th.pc.isFinished) = true := by
    decide +kernel
  obtain ⟨d, hrun, hd⟩ := (Option.any_eq_true _ _).mp hfinal
  obtain ⟨hheard, hended⟩ := Bool.and_eq_true_iff.mp hd
  have hreach := System.Reach.execGuarded (.init init_empty) hrun
  exact ⟨d, hreach, hheard,
    (free_of_heard hreach hheard).2 (EngineSys.quiet_of_finished hended)⟩

/-- Lotus reports one schedule and its sectors, or fails; the engine's steps are safe. -/
def FromLotus (S : Scheduler.ProvingSchedule) (sectors : Nat → Nat) (d : Worker) :
    WorkerLabel → Prop
  | .sidecar l => PacedSidecar.FromLotus S sectors d.sidecar.sidecar l
  | l => d.Safe l

/-- Both pollers are punctual, no block is won and no proof monitor takes a step, the listener is
answered and its pauses succeed, and the engine's steps are safe. -/
def Punctual (A : Scheduler.Approach) (q p : Pace) (d : Worker) : WorkerLabel → Prop
  | .sidecar l => d.sidecar.Punctual A q p l
  | l => d.Safe l

theorem safe_of_fromLotus {S : Scheduler.ProvingSchedule} {sectors : Nat → Nat}
    (h : FromLotus S sectors d l) : d.Safe l := by
  cases l with
  | sidecar m => trivial
  | dispatch failed | engine m => exact h

theorem safe_of_punctual {A : Scheduler.Approach} {q p : Pace} (h : Punctual A q p d l) :
    d.Safe l := by
  cases l with
  | sidecar m => trivial
  | dispatch failed | engine m => exact h

/-- **The GPU is free for the window**: the scheduler approaches the window of a deadline whose
proof is not recorded, and no block, no proof monitor, no failed pause and no unsafe step of the
engine comes between (`Punctual`). One sleep and one poll of the scheduler and one sleep and two
polls of the listener after the hard stop, and from then on while Lotus reports epochs before the
window closes, the state machine says WINDOW_POST, and an engine at rest is not RUNNING and holds
no core. -/
theorem free_of_window {A : Scheduler.Approach} {q p : Pace} {x : Worker}
    (hx : (system A.cfg failsafeTimeout).Reach (FromLotus A.schedule A.sectors) x)
    (hcalm : A.Calm x.sidecar.sidecar.scheduler) (hpaced : x.sidecar.paced.InPace q)
    (hinPace : x.sidecar.sidecar.InPace p)
    (h : ((system A.cfg failsafeTimeout).startingAt x).Reach (Punctual A q p) d)
    (hlate : x.sidecar.sidecar.scheduler.now + q.interval + q.longest + p.interval +
      2 * p.longest < d.sidecar.sidecar.scheduler.now) :
    d.sidecar.sidecar.scheduler.cells.current = .windowPost ∧
      (d.engine.Quiet → d.engine.engine.state ≠ .running ∧ d.engine.engine.core = none) := by
  have hbefore : (PacedSidecar.system A.cfg failsafeTimeout).Reach
      (fun j l => PacedSidecar.FromLotus A.schedule A.sectors j.sidecar l) x.sidecar :=
    System.Refines.reach (refines_sidecar fun _ _ hok => hok) hx
  have hjourney : PacedSidecar.Journey A q p failsafeTimeout x.sidecar d.sidecar :=
    { before := (PacedSidecar.refines_sidecar fun _ _ hok => hok).reach hbefore
      calm := hcalm
      paced := hpaced
      inPace := hinPace
      run := ((refines_sidecar fun _ _ hok => hok).startingAt x).reach h }
  have hsafe : (system A.cfg failsafeTimeout).Reach Safe d :=
    (hx.mono fun _ _ => safe_of_fromLotus).trans (fun _ _ hok => hok)
      (h.mono fun _ _ => safe_of_punctual)
  obtain ⟨hw, hheard⟩ := hjourney.heard_of_late hlate
  exact ⟨hw, empty_of_heard hsafe hheard⟩

/-- A poll that finds the state applied. -/
def idlePoll : List WorkerLabel :=
  [.sidecar .request, .sidecar .read, .dispatch false, .sidecar (.answer .succeeded)]

/-- The scheduler polls, the engine is taken down, and both pollers go on. -/
def secondPeriodPolls : List WorkerLabel :=
  loads ++ schedules (List.replicate 11 (.poll Scheduler.Approach.secondPeriodAnswers)) ++
    pausingPoll ++ schedules [.elapse 10000, .poll Scheduler.Approach.secondPeriodAnswers] ++
    idlePoll ++ schedules [.elapse 10000, .poll Scheduler.Approach.secondPeriodAnswers] ++
    idlePoll ++ schedules [.elapse 1]

/-- What can be decided of a punctual step. -/
def checked (p q : Pace) (d : Worker) : WorkerLabel → Bool
  | .sidecar l => d.sidecar.checked p q l
  | .engine l => d.engine.crashSafe l && d.engine.beginsInOrder l
  | .dispatch _ => true

/-- Two minutes before the second window of deadline 0, with a RUNNING engine. -/
theorem free_secondPeriod :
    ∃ d, ((system Scheduler.Approach.secondPeriod.cfg 60000).startingAt {}).Reach
        (Punctual .secondPeriod ⟨10000, 0⟩ ⟨10000, 0⟩) d ∧
      d.sidecar.sidecar.scheduler.now = 20001 ∧
      d.sidecar.sidecar.scheduler.cells.current = .windowPost ∧
      d.engine.engine.state ≠ .running ∧ d.engine.engine.core = none := by
  have hfinal : (((system Scheduler.Approach.secondPeriod.cfg 60000).startingAt {}).execGuarded
      (fun d l => checked ⟨10000, 0⟩ ⟨10000, 0⟩ d l = true) {} secondPeriodPolls).any (fun d =>
        d.sidecar.sidecar.scheduler.now == 20001 &&
          d.engine.threads.all fun th => th.pc.isFinished) = true := by
    decide +kernel
  obtain ⟨d, hrun, hd⟩ := (Option.any_eq_true _ _).mp hfinal
  obtain ⟨hnow, hended⟩ := Bool.and_eq_true_iff.mp hd
  rw [beq_iff_eq] at hnow
  have hallowed : ∀ action, .sidecar (.scheduler action) ∈ secondPeriodPolls →
      action = .poll Scheduler.Approach.secondPeriodAnswers ∨ ∃ ms, action = .elapse ms := by
    intro action hl
    simp only [secondPeriodPolls, loads, pausingPoll, idlePoll, schedules, List.mem_append,
      List.mem_map, List.mem_replicate, List.mem_cons, List.not_mem_nil, or_false, reduceCtorEq,
      false_or, and_false, WorkerLabel.sidecar.injEq, SidecarLabel.scheduler.injEq] at hl
    obtain ((⟨b, ⟨-, rfl⟩, rfl⟩ | ⟨b, rfl | rfl, rfl⟩) | ⟨b, rfl | rfl, rfl⟩) | ⟨b, rfl, rfl⟩ := hl
    · exact .inl rfl
    · exact .inr ⟨_, rfl⟩
    · exact .inl rfl
    · exact .inr ⟨_, rfl⟩
    · exact .inl rfl
    · exact .inr ⟨_, rfl⟩
  have hreach : ((system Scheduler.Approach.secondPeriod.cfg 60000).startingAt {}).Reach
      (Punctual .secondPeriod ⟨10000, 0⟩ ⟨10000, 0⟩) d := by
    refine System.Reach.execGuarded_of (.init rfl) (fun l hl u hok => ?_) hrun
    cases l with
    | sidecar m =>
      exact PacedSidecar.punctual_of_checked hok fun action hm => hallowed action (hm ▸ hl)
    | dispatch failed => trivial
    | engine m => exact Bool.and_eq_true_iff.mp hok
  obtain ⟨hw, hfree⟩ := free_of_window (.init init_empty)
    Scheduler.Approach.calm_secondPeriod ⟨le_rfl, Nat.zero_le _⟩ (Nat.zero_le _) hreach
    (show 20000 < d.sidecar.sidecar.scheduler.now by omega)
  exact ⟨d, hreach, hnow, hw, hfree (EngineSys.quiet_of_finished hended)⟩

end Worker

end OpenModel
