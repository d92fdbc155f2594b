import OpenModel.Scheduler.Goroutines

/-!
# Publication of the decisions

How a change of the GPU state reaches the readers of the scheduler. A call of
`applyDecision` or `applyDecisionUnlessWinning` writes the state machine, then stores
`latestDecision`, then broadcasts; each of the three has its own lock, and the broadcast
holds only the read lock of `subscribers`, so that two of them serve the channels side by
side. `SubscribeScheduleEvents` runs one handler for each stream: it registers a channel,
reads the state and the decision for its first event, and then forwards the channel.

Any goroutine may begin a call with any decision at any time. `ApplyPc.step` is the part of
a call before the broadcast; `Cells.foldl_offer` shows that an undisturbed broadcast is
`Cells.broadcastEvent`.

## Main results

- `Publisher.callStep_cases`: what a call does next
- `Publisher.sendStep_eq_some`, `Publisher.streamStep_cases`: the sends and the handlers
-/

namespace OpenModel.Scheduler

/-- The event that `broadcastEvent` builds from a decision. -/
def YieldDecision.event (d : YieldDecision) : ScheduleEvent :=
  ⟨d.state, d.urgency, d.secondsUntilNextChange, d.reason, d.message⟩

@[simp] theorem YieldDecision.event_state (d : YieldDecision) : d.event.state = d.state := rfl

/-- The first event of a stream. -/
def initialEvent (state : GpuState) (decision : Option YieldDecision) : ScheduleEvent :=
  match decision with
  | none => ⟨state, .normal, 0, .resume, "initial state"⟩
  | some d => { d.event with state := state }

@[simp] theorem initialEvent_state (g : GpuState) (d : Option YieldDecision) :
    (initialEvent g d).state = g := by
  cases d <;> rfl

namespace Cells

/-- One `select` of `broadcastEvent`: the channel gets the event if it has room. -/
def offer (c : Cells) (id : Nat) (event : ScheduleEvent) : Cells :=
  { c with subscribers := c.subscribers.map fun sub =>
      if sub.id = id ∧ sub.buffer.length < 32 then { sub with buffer := sub.buffer ++ [event] }
      else sub }

/-- The channel of a subscriber has no room. -/
def full (c : Cells) (id : Nat) : Bool :=
  c.subscribers.any fun sub => sub.id = id && 32 ≤ sub.buffer.length

/-- The oldest event in the channel of a subscriber. -/
def oldest (c : Cells) (id : Nat) : Option ScheduleEvent :=
  (c.subscribers.find? fun sub => sub.id = id).bind fun sub => sub.buffer.head?

theorem foldl_offer_subscribers (e : ScheduleEvent) (ids : List Nat) (hids : ids.Nodup)
    (c : Cells) :
    (ids.foldl (fun c id => c.offer id e) c) =
      { c with subscribers := c.subscribers.map fun sub =>
          if sub.id ∈ ids ∧ sub.buffer.length < 32 then { sub with buffer := sub.buffer ++ [e] }
          else sub } := by
  induction ids generalizing c with
  | nil => simp
  | cons id ids ih =>
    rw [List.nodup_cons] at hids
    rw [List.foldl_cons, ih hids.2]
    simp only [offer, List.map_map, Cells.mk.injEq, true_and, and_true]
    apply List.map_congr_left
    intro sub _
    by_cases h : sub.id = id
    · by_cases hr : sub.buffer.length < 32 <;> simp [h, hr, hids.1]
    · simp [h]

/-- **The sends of a broadcast**: one after the other, in any order of the map, they do
what `broadcastEvent` does at once. -/
theorem foldl_offer (c : Cells) (d : YieldDecision) (ids : List Nat) (hids : ids.Nodup)
    (hmem : ∀ sub ∈ c.subscribers, sub.id ∈ ids) :
    ids.foldl (fun c id => c.offer id d.event) c = c.broadcastEvent d := by
  rw [foldl_offer_subscribers _ _ hids]
  simp only [broadcastEvent, Cells.mk.injEq, true_and, and_true]
  apply List.map_congr_left
  intro sub hsub
  simp [hmem sub hsub, YieldDecision.event]

end Cells

/-- Where a call that applies a decision stands. -/
inductive PublishPc
  /-- before the broadcast's read lock is taken -/
  | applying (pc : ApplyPc)
  /-- inside the broadcast, with the channels that are still to be served -/
  | sending (rest : List Nat)
  | returned
  deriving DecidableEq, Repr

/-- A call of `applyDecision` or, when `guarded`, of `applyDecisionUnlessWinning`.
`version`, which the program does not keep, is the number of state changes made when the
call left the state machine, its own included. -/
structure ApplyCall where
  guarded : Bool
  decision : YieldDecision
  pc : PublishPc := .applying .transition
  version : Nat := 0
  deriving DecidableEq, Repr

/-- The call holds the read lock of `subscribers`. -/
def ApplyCall.reads (call : ApplyCall) : Bool :=
  match call.pc with
  | .sending _ => true
  | _ => false

/-- Where the handler of a stream stands. -/
inductive StreamPc
  | readState
  | readDecision (state : GpuState)
  | sendInitial (event : ScheduleEvent)
  | streaming
  | ended
  deriving DecidableEq, Repr

/-- The handler of one `SubscribeScheduleEvents`, whose subscriber identifier is its place
in the list of all handlers. The client has been sent `initial` and then `received`. The
program keeps none of the last three: whether an event for this stream was dropped, the
number of state changes made before it subscribed, and the newest one it was offered or,
at first, that was broadcast before it subscribed. -/
structure Stream where
  pc : StreamPc := .readState
  initial : Option ScheduleEvent := none
  received : List ScheduleEvent := []
  dropped : Bool := false
  since : Nat
  newest : Nat
  deriving DecidableEq, Repr

/-- The shared cells, the calls and the handlers so far. The rest is not kept by the
program: the decisions that changed the state, in order, and the newest version whose
broadcast has begun. -/
structure Publisher where
  cells : Cells := {}
  calls : List ApplyCall := []
  streams : List Stream := []
  changes : List YieldDecision := []
  announced : Nat := 0

/-- What happens next. -/
inductive PublishAction
  /-- a goroutine calls `applyDecision` or `applyDecisionUnlessWinning` -/
  | call (guarded : Bool) (decision : YieldDecision)
  | step (i : Nat)
  /-- a broadcast serves one of its channels -/
  | send (i id : Nat)
  | subscribe
  | stream (id : Nat)
  | disconnect (id : Nat)
  deriving DecidableEq, Repr

namespace Publisher

/-- A call takes a step before its broadcast. -/
def applyStep (s : Publisher) (i : Nat) (call : ApplyCall) (pc : ApplyPc) : Publisher :=
  let r := pc.step call.guarded call.decision s.cells
  let changes := if r.1.current = s.cells.current then s.changes else s.changes ++ [call.decision]
  { s with
    cells := r.1
    changes := changes
    calls := s.calls.set i
      { call with
        pc := r.2.elim .returned .applying
        version := if pc = .transition then changes.length else call.version } }

/-- The next step of a call that is not a send. -/
def callStep (s : Publisher) (i : Nat) : Option Publisher :=
  s.calls[i]?.bind fun call =>
    match call.pc with
    | .applying .broadcast =>
      -- subMu.RLock(): no channel comes or goes until the call is through
      some { s with
        calls := s.calls.set i { call with pc := .sending (s.cells.subscribers.map (·.id)) }
        announced := max s.announced call.version }
    | .applying pc => some (s.applyStep i call pc)
    | .sending [] => some { s with calls := s.calls.set i { call with pc := .returned } }
    | _ => none

/-- A broadcast serves the channel `id`, which may be any of those left. -/
def sendStep (s : Publisher) (i id : Nat) : Option Publisher :=
  s.calls[i]?.bind fun call =>
    match call.pc with
    | .sending rest =>
      if id ∈ rest then
        some { s with
          cells := s.cells.offer id call.decision.event
          calls := s.calls.set i { call with pc := .sending (rest.erase id) }
          streams := s.streams.modify id fun stream =>
            { stream with
              dropped := stream.dropped || s.cells.full id
              newest := call.version } }
      else none
    | _ => none

/-- The write lock of `subscribers` can be taken. -/
def unread (s : Publisher) : Bool := s.calls.all fun call => !call.reads

/-- The next step of the handler of a stream. -/
def streamStep (s : Publisher) (id : Nat) : Option Publisher :=
  s.streams[id]?.bind fun stream =>
    match stream.pc with
    | .readState =>
      some { s with
        streams := s.streams.set id { stream with pc := .readDecision s.cells.current } }
    | .readDecision state =>
      some { s with
        streams := s.streams.set id
          { stream with pc := .sendInitial (initialEvent state s.cells.latestDecision) } }
    | .sendInitial event =>
      some { s with
        streams := s.streams.set id { stream with pc := .streaming, initial := some event } }
    | .streaming =>
      (s.cells.oldest id).map fun event =>
        { s with
          cells := s.cells.receive id
          streams := s.streams.set id { stream with received := stream.received ++ [event] } }
    | .ended => none

/-- The client of a stream is gone: its handler returns, and unsubscribes as it does. -/
def disconnectStep (s : Publisher) (id : Nat) : Option Publisher :=
  s.streams[id]?.bind fun stream =>
    match stream.pc with
    | .sendInitial _ | .streaming =>
      if s.unread then
        some { s with
          cells := s.cells.unsubscribe id
          streams := s.streams.set id { stream with pc := .ended } }
      else none
    | _ => none

def step (s : Publisher) : PublishAction → Option Publisher
  | .call guarded decision =>
    some { s with calls := s.calls ++ [{ guarded := guarded, decision := decision }] }
  | .step i => s.callStep i
  | .send i id => s.sendStep i id
  | .subscribe =>
    if s.unread then
      some { s with
        cells := s.cells.subscribe
        streams := s.streams ++ [{ since := s.changes.length, newest := s.announced }] }
    else none
  | .stream id => s.streamStep id
  | .disconnect id => s.disconnectStep id

/-- The scheduler from its start on. -/
def system : Transition.System Publisher PublishAction where
  init s := s = {}
  step := step

variable {s t : Publisher} {i id : Nat}

/-- What a call does next: change the state, leave it, give way to WINNING_POST, go on after
the second look, store its decision, begin its broadcast, or return from it. -/
theorem callStep_cases (h : s.callStep i = some t) : ∃ call, s.calls[i]? = some call ∧
    ((call.pc = .applying .transition ∧ s.cells.current ≠ call.decision.state ∧
        t = { s with
          cells := { s.cells with current := call.decision.state }
          changes := s.changes ++ [call.decision]
          calls := s.calls.set i
            { call with pc := .applying (.storeLatest true), version := s.changes.length + 1 } }) ∨
      (call.pc = .applying .transition ∧ ∃ pc,
        (pc = .storeLatest false ∧ s.cells.current = call.decision.state ∨
          pc = .recheck ∧
            (s.cells.current = .winningPost ∨ s.cells.current = call.decision.state)) ∧
        t = { s with
          calls := s.calls.set i
            { call with pc := .applying pc, version := s.changes.length } }) ∨
      (call.pc = .applying .recheck ∧ s.cells.current = .winningPost ∧
        t = { s with calls := s.calls.set i { call with pc := .returned } }) ∨
      (call.pc = .applying .recheck ∧ s.cells.current ≠ .winningPost ∧
        t = { s with
          calls := s.calls.set i { call with pc := .applying (.storeLatest false) } }) ∨
      (∃ changed, call.pc = .applying (.storeLatest changed) ∧
        t = { s with
          cells := { s.cells with latestDecision := some call.decision }
          calls := s.calls.set i
            { call with pc := if changed then .applying .broadcast else .returned } }) ∨
      (call.pc = .applying .broadcast ∧
        t = { s with
          calls := s.calls.set i { call with pc := .sending (s.cells.subscribers.map (·.id)) }
          announced := max s.announced call.version }) ∨
      (call.pc = .sending [] ∧
        t = { s with calls := s.calls.set i { call with pc := .returned } })) := by
  obtain ⟨call, hcall, h⟩ := Option.bind_eq_some_iff.mp h
  refine ⟨call, hcall, ?_⟩
  split at h
  · next hpc => simp_all
  · next pc hb hpc =>
    cases h
    cases pc with
    | transition =>
      cases hg : call.guarded with
      | false =>
        by_cases hs : s.cells.current = call.decision.state
        · simp [applyStep, ApplyPc.step, Cells.transition, hg, hs, hpc]
        · simp [applyStep, ApplyPc.step, Cells.transition, hg, hs, hpc, Ne.symm hs]
      | true =>
        by_cases hw : s.cells.current = .winningPost
        · simp [applyStep, ApplyPc.step, Cells.transitionUnless, hg, hw, hpc]
        · by_cases hs : s.cells.current = call.decision.state
          · simp_all [applyStep, ApplyPc.step, Cells.transitionUnless]
          · simp [applyStep, ApplyPc.step, Cells.transitionUnless, hg, hw, hs, hpc, Ne.symm hs]
    | recheck =>
      by_cases hw : s.cells.current = .winningPost <;> simp [applyStep, ApplyPc.step, hw, hpc]
    | storeLatest changed => cases changed <;> simp [applyStep, ApplyPc.step, hpc]
    | broadcast => exact absurd rfl hb
  · next hpc => simp_all
  · cases h

theorem sendStep_eq_some : s.sendStep i id = some t ↔ ∃ call rest, s.calls[i]? = some call ∧
    call.pc = .sending rest ∧ id ∈ rest ∧
      { s with
        cells := s.cells.offer id call.decision.event
        calls := s.calls.set i { call with pc := .sending (rest.erase id) }
        streams := s.streams.modify id fun stream =>
          { stream with
            dropped := stream.dropped || s.cells.full id
            newest := call.version } } = t := by
  simp only [sendStep, Option.bind_eq_some_iff]
  constructor
  · rintro ⟨call, hcall, h⟩
    split at h
    · next rest hpc =>
      split_ifs at h with hid
      exact ⟨call, rest, hcall, hpc, hid, Option.some.inj h⟩
    · cases h
  · rintro ⟨call, rest, hcall, hpc, hid, rfl⟩
    exact ⟨call, hcall, by simp [hpc, hid]⟩

/-- What the handler of a stream does next. -/
theorem streamStep_cases (h : s.streamStep id = some t) : ∃ stream, s.streams[id]? = some stream ∧
    ((stream.pc = .readState ∧
        t = { s with
          streams := s.streams.set id { stream with pc := .readDecision s.cells.current } }) ∨
      (∃ state, stream.pc = .readDecision state ∧
        t = { s with
          streams := s.streams.set id
            { stream with pc := .sendInitial (initialEvent state s.cells.latestDecision) } }) ∨
      (∃ event, stream.pc = .sendInitial event ∧
        t = { s with
          streams := s.streams.set id { stream with pc := .streaming, initial := some event } }) ∨
      (∃ event, stream.pc = .streaming ∧ s.cells.oldest id = some event ∧
        t = { s with
          cells := s.cells.receive id
          streams := s.streams.set id { stream with received := stream.received ++ [event] } })) := by
  obtain ⟨stream, hstream, h⟩ := Option.bind_eq_some_iff.mp h
  refine ⟨stream, hstream, ?_⟩
  split at h
  · next hpc => simp_all
  · next hpc => simp_all
  · next hpc => simp_all
  · next hpc =>
    obtain ⟨event, he, rfl⟩ := Option.map_eq_some_iff.mp h
    simp_all
  · cases h

theorem disconnectStep_cases (h : s.disconnectStep id = some t) : ∃ stream,
    s.streams[id]? = some stream ∧ s.unread = true ∧
      t = { s with
        cells := s.cells.unsubscribe id
        streams := s.streams.set id { stream with pc := .ended } } := by
  obtain ⟨stream, hstream, h⟩ := Option.bind_eq_some_iff.mp h
  refine ⟨stream, hstream, ?_⟩
  split at h
  · split_ifs at h with hu
    exact ⟨hu, (Option.some.inj h).symm⟩
  · split_ifs at h with hu
    exact ⟨hu, (Option.some.inj h).symm⟩
  · cases h

end Publisher

end OpenModel.Scheduler
