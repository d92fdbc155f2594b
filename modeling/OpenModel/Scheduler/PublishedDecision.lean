import OpenModel.Scheduler.Publish
import OpenModel.Scheduler.WinningPost

/-!
# Published decisions agree with the state

The three critical sections of a call are not ordered alike: a call that changed the state
first may store its decision, or serve a channel, after a call that changed it later. Then
`latestDecision` keeps a decision that is no longer the state's, and the last event of a
stream announces a state that was left.

In a run without overtaking the last of several calls that are about to store a decision
stores one of the current state, no channel is served by a call before one that changed the
state earlier, and no stream subscribes between the broadcasts of two changes that come in
the wrong order. Then, whenever no call is in progress, the stored decision, the events of
every stream that lost none, and the state agree.

## Main results

- `Publisher.publishes_of_reach`: agreement in every state of a run without overtaking
- `Publisher.overtaken_not_publishes`: a run in which it fails
-/

namespace OpenModel.Scheduler

namespace PublishPc

/-- The call has changed the state and not begun its broadcast. -/
def Unannounced : PublishPc → Prop
  | applying (.storeLatest true) | applying .broadcast => True
  | _ => False

/-- The call has changed the state and not served the channel `id`. -/
def Owes (id : Nat) : PublishPc → Prop
  | applying (.storeLatest true) | applying .broadcast => True
  | sending rest => id ∈ rest
  | _ => False

theorem Unannounced.owes {pc : PublishPc} {id : Nat} (h : pc.Unannounced) : pc.Owes id := by
  revert h
  cases pc with
  | applying pc =>
    cases pc with
    | storeLatest changed => cases changed <;> exact fun h => h
    | _ => exact fun h => h
  | _ => exact False.elim

/-- The call is about to store its decision. -/
def Storing : PublishPc → Prop
  | applying (.storeLatest _) => True
  | _ => False

/-- The call has changed the state and not returned. -/
def Changed : PublishPc → Prop
  | applying (.storeLatest true) | applying .broadcast | sending _ => True
  | _ => False

/-- The call is past its store, if it has one. -/
def Past : PublishPc → Prop
  | applying .broadcast | sending _ | returned => True
  | _ => False

theorem Owes.changed {pc : PublishPc} {id : Nat} (h : pc.Owes id) : pc.Changed := by
  revert h
  cases pc with
  | applying pc =>
    cases pc with
    | storeLatest changed => cases changed <;> exact fun h => h
    | _ => exact fun h => h
  | sending rest => exact fun _ => trivial
  | returned => exact False.elim

/-- Outside of a broadcast, what is owed is not announced. -/
theorem Owes.unannounced_of_unread {pc : PublishPc} {id : Nat} (h : pc.Owes id)
    (hpc : ∀ rest, pc ≠ sending rest) : pc.Unannounced := by
  revert h
  cases pc with
  | applying pc =>
    cases pc with
    | storeLatest changed => cases changed <;> exact fun h => h
    | _ => exact fun h => h
  | sending rest => exact absurd rfl (hpc rest)
  | returned => exact False.elim

instance (pc : PublishPc) : Decidable pc.Unannounced :=
  match pc with
  | applying (.storeLatest true) | applying .broadcast => .isTrue trivial
  | applying (.storeLatest false) | applying .transition | applying .recheck => .isFalse id
  | sending _ | returned => .isFalse id

instance (pc : PublishPc) (id : Nat) : Decidable (pc.Owes id) :=
  match pc with
  | applying (.storeLatest true) | applying .broadcast => .isTrue trivial
  | applying (.storeLatest false) | applying .transition | applying .recheck => .isFalse fun h => h
  | sending rest => inferInstanceAs (Decidable (id ∈ rest))
  | returned => .isFalse fun h => h

instance (pc : PublishPc) : Decidable pc.Storing :=
  match pc with
  | applying (.storeLatest _) => .isTrue trivial
  | applying .transition | applying .recheck | applying .broadcast => .isFalse id
  | sending _ | returned => .isFalse id

end PublishPc

namespace Publisher

/-- No call is in progress. -/
def Quiet (s : Publisher) : Prop := ∀ call ∈ s.calls, call.pc = .returned

instance (s : Publisher) : Decidable s.Quiet :=
  inferInstanceAs (Decidable (∀ call ∈ s.calls, call.pc = .returned))

/-- What has been published agrees with the state machine. -/
structure Published (s : Publisher) : Prop where
  /-- once a decision was applied, the stored one has the current state -/
  latest : s.calls ≠ [] → ∃ d, s.cells.latestDecision = some d ∧ d.state = s.cells.current
  /-- a subscriber was sent the state changes, in order, since it subscribed at the latest -/
  sent : ∀ sub ∈ s.cells.subscribers, ∀ stream, s.streams[sub.id]? = some stream →
    stream.dropped = false → ∃ k ≤ stream.since,
      stream.received ++ sub.buffer = (s.changes.drop k).map YieldDecision.event
  /-- the last event that its client receives has the current state -/
  last : ∀ sub ∈ s.cells.subscribers, ∀ stream, s.streams[sub.id]? = some stream →
    stream.dropped = false → ∀ e, stream.initial = some e →
      ((stream.received ++ sub.buffer).getLast?.getD e).state = s.cells.current

/-- No call overtakes another one. A decision that is stored is of the current state, or
another call is about to store its own. A channel that has lost no event is served after
every call that changed the state earlier has served it. A stream does not subscribe while a
change has yet to be broadcast although the broadcast of a later one has begun. -/
def InOrder (s : Publisher) : PublishAction → Prop
  | .step i => ∀ call ∈ s.calls[i]?, call.pc.Storing → call.decision.state = s.cells.current ∨
      ∃ other ∈ s.calls.eraseIdx i, other.pc.Storing
  | .send i id => ∀ call ∈ s.calls[i]?, ∀ stream ∈ s.streams[id]?, stream.dropped = false →
      s.cells.full id = false → ∀ other ∈ s.calls, other.version < call.version →
        ¬ other.pc.Owes id
  | .subscribe => ∀ call ∈ s.calls, call.pc.Unannounced → s.announced < call.version
  | _ => True

instance (s : Publisher) (a : PublishAction) : Decidable (InOrder s a) :=
  match a with
  | .step i => inferInstanceAs (Decidable (∀ call ∈ s.calls[i]?, call.pc.Storing →
      call.decision.state = s.cells.current ∨ ∃ other ∈ s.calls.eraseIdx i, other.pc.Storing))
  | .send i id => inferInstanceAs (Decidable (∀ call ∈ s.calls[i]?, ∀ stream ∈ s.streams[id]?,
      stream.dropped = false → s.cells.full id = false → ∀ other ∈ s.calls,
        other.version < call.version → ¬ other.pc.Owes id))
  | .subscribe =>
    inferInstanceAs (Decidable (∀ call ∈ s.calls, call.pc.Unannounced → s.announced < call.version))
  | .call _ _ | .stream _ | .disconnect _ => .isTrue trivial

-- ════════════════════════════════════════════════════════════════════════
-- The stored decision
-- ════════════════════════════════════════════════════════════════════════

/-- The state is that of the last change, and a decision of it is stored or a call is about to
store one. -/
structure Stored (s : Publisher) : Prop where
  current_eq : s.cells.current = (s.changes.getLast?.map (·.state)).getD .unknown
  past : s.changes = [] → ∀ call ∈ s.calls, call.pc.Past → s.cells.latestDecision ≠ none
  latest : (∃ d, s.cells.latestDecision = some d ∧ d.state = s.cells.current) ∨
    (∃ call ∈ s.calls, call.pc.Storing) ∨ (s.changes = [] ∧ s.cells.latestDecision = none)

variable {s t : Publisher} {i : Nat} {call call' : ApplyCall}

theorem forall_set {P : ApplyCall → Prop} {calls : List ApplyCall} (h : ∀ c ∈ calls, P c)
    (h' : P call') : ∀ c ∈ calls.set i call', P c := by
  intro c hc
  rcases List.mem_or_eq_of_mem_set hc with hc | rfl
  · exact h c hc
  · exact h'

/-- A call that has the property is still there after another one took a step. -/
theorem exists_set {P : ApplyCall → Prop} {calls : List ApplyCall} (hi : calls[i]? = some call)
    (h : ∃ c ∈ calls, P c) (hP : P call → P call') : ∃ c ∈ calls.set i call', P c := by
  obtain ⟨c, hc, hPc⟩ := h
  rcases Sched.mem_set_or_eq (y := call') hi hc with rfl | hmem
  · exact ⟨call', List.mem_set (List.getElem?_eq_some_iff.mp hi).1 call', hP hPc⟩
  · exact ⟨c, hmem, hPc⟩

theorem Stored.congr (h : Stored s) (hc : t.cells.current = s.cells.current)
    (hd : t.cells.latestDecision = s.cells.latestDecision) (hcalls : t.calls = s.calls)
    (hchanges : t.changes = s.changes) : Stored t := by
  constructor
  · rw [hc, hchanges, h.current_eq]
  · rw [hcalls, hchanges, hd]
    exact h.past
  · rw [hcalls, hchanges, hc, hd]
    exact h.latest

/-- A call that is not about to store a decision takes a step of its own. -/
theorem Stored.set (h : Stored s) (hi : s.calls[i]? = some call)
    (hcalls : t.calls = s.calls.set i call') (hpc : ¬ call.pc.Storing)
    (hpast : s.changes = [] → call'.pc.Past → s.cells.latestDecision ≠ none)
    (hc : t.cells.current = s.cells.current)
    (hd : t.cells.latestDecision = s.cells.latestDecision) (hchanges : t.changes = s.changes) :
    Stored t := by
  constructor
  · rw [hc, hchanges, h.current_eq]
  · rw [hcalls, hchanges, hd]
    exact fun hnil => forall_set (h.past hnil) (hpast hnil)
  · rw [hcalls, hchanges, hc, hd]
    exact h.latest.imp_right (Or.imp_left fun hex => exists_set hi hex fun hp => absurd hp hpc)

/-- A call that is past its store goes on to its broadcast or returns. -/
theorem Stored.set_past (h : Stored s) (hi : s.calls[i]? = some call) (hpast : call.pc.Past)
    (hpc : ¬ call.pc.Storing) (hcalls : t.calls = s.calls.set i call')
    (hc : t.cells.current = s.cells.current)
    (hd : t.cells.latestDecision = s.cells.latestDecision) (hchanges : t.changes = s.changes) :
    Stored t :=
  h.set hi hcalls hpc (fun hnil _ => h.past hnil call (List.mem_of_getElem? hi) hpast) hc hd
    hchanges

theorem current_ne_winningPost_of_changes (h : Stored s) (hnil : s.changes = []) :
    s.cells.current = .unknown := by
  simp [h.current_eq, hnil]

theorem Stored.callStep (h : Stored s) (hok : InOrder s (.step i)) (hstep : s.callStep i = some t) :
    Stored t := by
  obtain ⟨call, hi, ⟨hpc, hne, rfl⟩ | ⟨hpc, pc, hcase, rfl⟩ | ⟨hpc, hw, rfl⟩ | ⟨hpc, hw, rfl⟩ |
    ⟨changed, hpc, rfl⟩ | ⟨hpc, rfl⟩ | ⟨hpc, rfl⟩⟩ := callStep_cases hstep
  · refine ⟨by simp, by simp, .inr (.inl ?_)⟩
    exact ⟨_, List.mem_set (List.getElem?_eq_some_iff.mp hi).1 _, trivial⟩
  · refine h.set hi rfl (by simp [hpc, PublishPc.Storing]) ?_ rfl rfl rfl
    rcases hcase with ⟨rfl, -⟩ | ⟨rfl, -⟩ <;> simp [PublishPc.Past]
  · refine h.set hi rfl (by simp [hpc, PublishPc.Storing]) (fun hnil _ => ?_) rfl rfl rfl
    rw [current_ne_winningPost_of_changes h hnil] at hw
    cases hw
  · exact h.set hi rfl (by simp [hpc, PublishPc.Storing]) (by simp [PublishPc.Past]) rfl rfl rfl
  · refine ⟨h.current_eq, fun _ _ _ _ => by simp, ?_⟩
    -- the decision is of the current state, or that of another call is still to come
    obtain hcur | ⟨other, hother, hs⟩ := hok call hi (by rw [hpc]; trivial)
    · exact .inl ⟨_, rfl, hcur⟩
    · obtain ⟨j, hj, hget⟩ := List.mem_eraseIdx_iff_getElem?.mp hother
      refine .inr (.inl ⟨other, List.mem_of_getElem? (i := j) ?_, hs⟩)
      rwa [List.getElem?_set_ne (Ne.symm hj)]
  · exact h.set_past hi (by rw [hpc]; trivial) (by simp [hpc, PublishPc.Storing]) rfl rfl rfl rfl
  · exact h.set_past hi (by rw [hpc]; trivial) (by simp [hpc, PublishPc.Storing]) rfl rfl rfl rfl

/-- **Step lemma**: a step without overtaking keeps the stored decision up to date. -/
theorem Stored.step {a : PublishAction} (h : Stored s) (hok : InOrder s a)
    (hstep : s.step a = some t) : Stored t := by
  cases a with
  | call guarded decision =>
    cases hstep
    refine ⟨h.current_eq, ?_, ?_⟩
    · simpa [or_imp, forall_and, PublishPc.Past] using h.past
    · refine h.latest.imp_right (Or.imp_left ?_)
      rintro ⟨c, hc, hpc⟩
      exact ⟨c, List.mem_append_left _ hc, hpc⟩
  | step i => exact h.callStep hok hstep
  | send i id =>
    obtain ⟨call, rest, hi, hpc, -, rfl⟩ := sendStep_eq_some.mp hstep
    exact h.set_past hi (by rw [hpc]; trivial) (by simp [hpc, PublishPc.Storing]) rfl rfl rfl rfl
  | subscribe =>
    simp only [Publisher.step, Option.ite_none_right_eq_some, Option.some.injEq] at hstep
    obtain ⟨-, rfl⟩ := hstep
    exact h.congr rfl rfl rfl rfl
  | stream id =>
    obtain ⟨stream, -, ⟨-, rfl⟩ | ⟨g, -, rfl⟩ | ⟨e, -, rfl⟩ | ⟨e, -, -, rfl⟩⟩ :=
      streamStep_cases hstep <;> exact h.congr rfl rfl rfl rfl
  | disconnect id =>
    obtain ⟨stream, -, -, rfl⟩ := disconnectStep_cases hstep
    exact h.congr rfl rfl rfl rfl

-- ════════════════════════════════════════════════════════════════════════
-- The subscribers
-- ════════════════════════════════════════════════════════════════════════

/-- Subscribers have names of their own, and a handler each. -/
structure Registered (s : Publisher) : Prop where
  nodup : (s.cells.subscribers.map (·.id)).Nodup
  lt : ∀ sub ∈ s.cells.subscribers, sub.id < s.streams.length
  next : s.cells.nextSubID = s.streams.length

theorem Registered.congr (h : Registered s)
    (hids : t.cells.subscribers.map (·.id) = s.cells.subscribers.map (·.id))
    (hn : t.cells.nextSubID = s.cells.nextSubID) (hlen : t.streams.length = s.streams.length) :
    Registered t := by
  refine ⟨hids ▸ h.nodup, fun sub hsub => ?_, by rw [hn, hlen, h.next]⟩
  have hmem : sub.id ∈ s.cells.subscribers.map (·.id) := hids ▸ List.mem_map_of_mem hsub
  obtain ⟨sub', hsub', hid⟩ := List.mem_map.mp hmem
  rw [hlen, ← hid]
  exact h.lt sub' hsub'

theorem offer_ids (c : Cells) (id : Nat) (e : ScheduleEvent) :
    (c.offer id e).subscribers.map (·.id) = c.subscribers.map (·.id) := by
  simp only [Cells.offer, List.map_map]
  apply List.map_congr_left
  intro sub _
  simp only [Function.comp]
  split <;> rfl

theorem receive_ids (c : Cells) (id : Nat) :
    (c.receive id).subscribers.map (·.id) = c.subscribers.map (·.id) := by
  simp only [Cells.receive, List.map_map]
  apply List.map_congr_left
  intro sub _
  simp only [Function.comp]
  split <;> rfl

theorem Registered.step {a : PublishAction} (h : Registered s) (hstep : s.step a = some t) :
    Registered t := by
  cases a with
  | call guarded decision =>
    cases hstep
    exact h.congr rfl rfl rfl
  | step i =>
    obtain ⟨call, -, ⟨-, -, rfl⟩ | ⟨-, pc, -, rfl⟩ | ⟨-, -, rfl⟩ | ⟨-, -, rfl⟩ | ⟨b, -, rfl⟩ |
      ⟨-, rfl⟩ | ⟨-, rfl⟩⟩ := callStep_cases hstep <;> exact h.congr rfl rfl rfl
  | send i id =>
    obtain ⟨call, rest, -, -, -, rfl⟩ := sendStep_eq_some.mp hstep
    exact h.congr (offer_ids _ _ _) rfl (List.length_modify _ _ _)
  | subscribe =>
    simp only [Publisher.step, Option.ite_none_right_eq_some, Option.some.injEq] at hstep
    obtain ⟨-, rfl⟩ := hstep
    have hlt : ∀ id ∈ s.cells.subscribers.map (·.id), id < s.streams.length := by
      simpa using h.lt
    refine ⟨?_, ?_, ?_⟩
    · simp only [Cells.subscribe, List.map_append, List.map_cons, List.map_nil, h.next]
      refine List.nodup_append.mpr ⟨h.nodup, List.nodup_singleton _, ?_⟩
      intro id hid id' hid'
      have := hlt id hid
      rw [List.mem_singleton.mp hid']
      omega
    · intro sub hsub
      simp only [Cells.subscribe, List.mem_append, List.mem_singleton] at hsub
      simp only [List.length_append, List.length_singleton]
      rcases hsub with hsub | rfl
      · exact Nat.lt_succ_of_lt (h.lt sub hsub)
      · exact Nat.lt_succ_of_le h.next.le
    · simp [Cells.subscribe, h.next]
  | stream id =>
    obtain ⟨stream, -, ⟨-, rfl⟩ | ⟨g, -, rfl⟩ | ⟨e, -, rfl⟩ | ⟨e, -, -, rfl⟩⟩ :=
      streamStep_cases hstep
    · exact h.congr rfl rfl (List.length_set ..)
    · exact h.congr rfl rfl (List.length_set ..)
    · exact h.congr rfl rfl (List.length_set ..)
    · exact h.congr (receive_ids _ _) rfl (List.length_set ..)
  | disconnect id =>
    obtain ⟨stream, -, -, rfl⟩ := disconnectStep_cases hstep
    have hsub : ((s.cells.unsubscribe id).subscribers).Sublist s.cells.subscribers :=
      List.filter_sublist
    refine ⟨h.nodup.sublist (hsub.map _), fun sub hmem => ?_, ?_⟩
    · simpa using h.lt sub (hsub.subset hmem)
    · simpa [Cells.unsubscribe] using h.next

-- ════════════════════════════════════════════════════════════════════════
-- The broadcasts
-- ════════════════════════════════════════════════════════════════════════

/-- Every call that changed the state knows its place among the changes, and the changes
behind the newest one broadcast are those of calls that have not begun theirs. -/
structure Announced (s : Publisher) : Prop where
  version_le : ∀ call ∈ s.calls, call.version ≤ s.changes.length
  change : ∀ call ∈ s.calls, call.pc.Changed →
    ∃ v, call.version = v + 1 ∧ s.changes[v]? = some call.decision
  unique : ∀ (j k : Nat) (c c' : ApplyCall), s.calls[j]? = some c → s.calls[k]? = some c' →
    c.pc.Changed → c'.pc.Changed → c.version = c'.version → j = k
  nodup : ∀ call ∈ s.calls, ∀ rest, call.pc = .sending rest → rest.Nodup
  announced_le : s.announced ≤ s.changes.length
  unannounced : ∀ v, s.announced < v → v ≤ s.changes.length →
    ∃ call ∈ s.calls, call.version = v ∧ call.pc.Unannounced

theorem Announced.congr (h : Announced s) (hcalls : t.calls = s.calls)
    (hchanges : t.changes = s.changes) (ha : t.announced = s.announced) : Announced t := by
  constructor
  · rw [hcalls, hchanges]
    exact h.version_le
  · rw [hcalls, hchanges]
    exact h.change
  · rw [hcalls]
    exact h.unique
  · rw [hcalls]
    exact h.nodup
  · rw [ha, hchanges]
    exact h.announced_le
  · rw [hcalls, hchanges, ha]
    exact h.unannounced

/-- The calls that changed the state still have places of their own. -/
theorem Announced.unique_set (h : Announced s) (hi : s.calls[i]? = some call)
    (hnew : call'.pc.Changed → ∀ (k : Nat) (c : ApplyCall), s.calls[k]? = some c → k ≠ i →
      c.pc.Changed → c.version ≠ call'.version) (j k : Nat) (c c' : ApplyCall)
    (hj : (s.calls.set i call')[j]? = some c) (hk : (s.calls.set i call')[k]? = some c')
    (hc : c.pc.Changed) (hc' : c'.pc.Changed) (hv : c.version = c'.version) : j = k := by
  have hself : (s.calls.set i call')[i]? = some call' :=
    List.getElem?_set_self (List.getElem?_eq_some_iff.mp hi).1
  by_cases hji : j = i
  · obtain rfl : call' = c := Option.some.inj (hself.symm.trans (hji ▸ hj))
    by_contra hne
    have hki : k ≠ i := fun heq => hne (hji.trans heq.symm)
    rw [List.getElem?_set_ne (Ne.symm hki)] at hk
    exact hnew hc k c' hk hki hc' hv.symm
  · rw [List.getElem?_set_ne (Ne.symm hji)] at hj
    by_cases hki : k = i
    · obtain rfl : call' = c' := Option.some.inj (hself.symm.trans (hki ▸ hk))
      exact absurd hv (hnew hc' j c hj hji hc)
    · rw [List.getElem?_set_ne (Ne.symm hki)] at hk
      exact h.unique j k c c' hj hk hc hc' hv

/-- A call takes a step of its own. -/
theorem Announced.set (h : Announced s) (hi : s.calls[i]? = some call)
    (hcalls : t.calls = s.calls.set i call') (hdec : call'.decision = call.decision)
    (hle : call'.version ≤ s.changes.length)
    (hversion : call'.pc.Changed → call'.version = call.version)
    (hchanged : call'.pc.Changed → call.pc.Changed)
    (hrest : ∀ rest, call'.pc = .sending rest → rest.Nodup)
    (hun : call.pc.Unannounced → call'.pc.Unannounced ∧ call'.version = call.version)
    (hchanges : t.changes = s.changes) (ha : t.announced = s.announced) : Announced t := by
  constructor
  · rw [hcalls, hchanges]
    exact forall_set h.version_le hle
  · rw [hcalls, hchanges]
    refine forall_set h.change fun hp => ?_
    rw [hdec, hversion hp]
    exact h.change call (List.mem_of_getElem? hi) (hchanged hp)
  · rw [hcalls]
    refine h.unique_set hi fun hp k c hk hki hc hv => hki ?_
    exact h.unique k i c call hk hi hc (hchanged hp) (hv.trans (hversion hp))
  · rw [hcalls]
    exact forall_set h.nodup hrest
  · rw [ha, hchanges]
    exact h.announced_le
  · rw [hcalls, hchanges, ha]
    intro v hlt hle
    refine exists_set hi (h.unannounced v hlt hle) ?_
    rintro ⟨hv, hp⟩
    obtain ⟨hp', hv'⟩ := hun hp
    exact ⟨hv'.trans hv, hp'⟩

theorem Announced.callStep (h : Announced s) (hr : Registered s) (hstep : s.callStep i = some t) :
    Announced t := by
  obtain ⟨call, hi, ⟨hpc, -, rfl⟩ | ⟨hpc, pc, hcase, rfl⟩ | ⟨hpc, -, rfl⟩ | ⟨hpc, -, rfl⟩ |
    ⟨changed, hpc, rfl⟩ | ⟨hpc, rfl⟩ | ⟨hpc, rfl⟩⟩ := callStep_cases hstep <;>
    have hmem := List.mem_of_getElem? hi
  · have hold : ∀ c ∈ s.calls, c.version ≠ s.changes.length + 1 := fun c hc => by
      have := h.version_le c hc
      omega
    refine ⟨?_, forall_set (fun c hc hp => ?_) fun _ => ?_,
      h.unique_set hi fun _ k c hk _ _ => hold c (List.mem_of_getElem? hk),
      forall_set h.nodup (by simp), ?_, ?_⟩
    · simp only [List.length_append, List.length_singleton]
      exact forall_set (fun c hc => Nat.le_succ_of_le (h.version_le c hc)) le_rfl
    · obtain ⟨v, hv, hd⟩ := h.change c hc hp
      exact ⟨v, hv, by rw [List.getElem?_append_left (List.getElem?_eq_some_iff.mp hd).1, hd]⟩
    · exact ⟨s.changes.length, rfl, by simp⟩
    · have := h.announced_le
      simp only [List.length_append, List.length_singleton]
      omega
    · intro v hlt hle
      simp only [List.length_append, List.length_singleton] at hle
      rcases Nat.lt_or_eq_of_le hle with hv | rfl
      · exact exists_set hi (h.unannounced v hlt (by omega)) fun hp => by
          simp [hpc, PublishPc.Unannounced] at hp
      · exact ⟨_, List.mem_set (List.getElem?_eq_some_iff.mp hi).1 _, rfl, trivial⟩
  · refine h.set hi rfl rfl le_rfl ?_ ?_ (by simp) (by simp [hpc, PublishPc.Unannounced]) rfl rfl <;>
      rcases hcase with ⟨rfl, -⟩ | ⟨rfl, -⟩ <;> simp [PublishPc.Changed]
  · exact h.set hi rfl rfl (h.version_le call hmem) (fun _ => rfl) (by simp [PublishPc.Changed])
      (by simp) (by simp [hpc, PublishPc.Unannounced]) rfl rfl
  · exact h.set hi rfl rfl (h.version_le call hmem) (fun _ => rfl) (by simp [PublishPc.Changed])
      (by simp) (by simp [hpc, PublishPc.Unannounced]) rfl rfl
  · refine h.set hi rfl rfl (h.version_le call hmem) (fun _ => rfl) ?_ ?_ ?_ rfl rfl
    · cases changed <;> simp [hpc, PublishPc.Changed]
    · cases changed <;> simp
    · cases changed <;> simp [hpc, PublishPc.Unannounced]
  · have hpast := h.change call hmem (by simp [hpc, PublishPc.Changed])
    refine ⟨forall_set h.version_le (h.version_le call hmem), forall_set h.change fun _ => hpast,
      h.unique_set hi fun _ k c hk hki hc hv => hki ?_, forall_set h.nodup ?_, ?_, ?_⟩
    · exact h.unique k i c call hk hi hc (by simp [hpc, PublishPc.Changed]) hv
    · rintro rest ⟨rfl⟩
      exact hr.nodup
    · have := h.announced_le
      have := h.version_le call hmem
      show max s.announced call.version ≤ s.changes.length
      omega
    · intro v hlt hle
      have hlt : s.announced < v ∧ call.version < v := by
        have : max s.announced call.version < v := hlt
        omega
      exact exists_set hi (h.unannounced v hlt.1 hle) fun hp => absurd hp.1 (by omega)
  · exact h.set hi rfl rfl (h.version_le call hmem) (fun _ => rfl) (by simp [PublishPc.Changed])
      (by simp) (by simp [hpc, PublishPc.Unannounced]) rfl rfl

theorem Announced.step {a : PublishAction} (h : Announced s) (hr : Registered s)
    (hstep : s.step a = some t) : Announced t := by
  cases a with
  | call guarded decision =>
    cases hstep
    refine ⟨?_, ?_, ?_, ?_, h.announced_le, ?_⟩
    · simpa [or_imp, forall_and] using h.version_le
    · simpa [or_imp, forall_and, PublishPc.Changed] using h.change
    · have hold (j : Nat) (c : ApplyCall)
          (hj : (s.calls ++ [{ guarded := guarded, decision := decision }])[j]? = some c)
          (hc : c.pc.Changed) : s.calls[j]? = some c := by
        rw [List.getElem?_append] at hj
        split_ifs at hj with hlt
        · exact hj
        · rw [List.getElem?_singleton, Option.ite_none_right_eq_some, Option.some.injEq] at hj
          obtain ⟨-, rfl⟩ := hj
          exact absurd hc id
      intro j k c c' hj hk hc hc' hv
      exact h.unique j k c c' (hold j c hj hc) (hold k c' hk hc') hc hc' hv
    · simpa [or_imp, forall_and] using h.nodup
    · intro v hlt hle
      obtain ⟨c, hc, hv⟩ := h.unannounced v hlt hle
      exact ⟨c, List.mem_append_left _ hc, hv⟩
  | step i => exact h.callStep hr hstep
  | send i id =>
    obtain ⟨call, rest, hi, hpc, hid, rfl⟩ := sendStep_eq_some.mp hstep
    have hmem := List.mem_of_getElem? hi
    refine h.set hi rfl rfl (h.version_le call hmem) (fun _ => rfl)
      (by simp [hpc, PublishPc.Changed]) ?_ (by simp [hpc, PublishPc.Unannounced]) rfl rfl
    rintro rest' ⟨rfl⟩
    exact (h.nodup call hmem rest hpc).erase id
  | subscribe =>
    simp only [Publisher.step, Option.ite_none_right_eq_some, Option.some.injEq] at hstep
    obtain ⟨-, rfl⟩ := hstep
    exact h.congr rfl rfl rfl
  | stream id =>
    obtain ⟨stream, -, ⟨-, rfl⟩ | ⟨g, -, rfl⟩ | ⟨e, -, rfl⟩ | ⟨e, -, -, rfl⟩⟩ :=
      streamStep_cases hstep <;> exact h.congr rfl rfl rfl
  | disconnect id =>
    obtain ⟨stream, -, -, rfl⟩ := disconnectStep_cases hstep
    exact h.congr rfl rfl rfl

-- ════════════════════════════════════════════════════════════════════════
-- The streams
-- ════════════════════════════════════════════════════════════════════════

/-- A subscriber has been sent the changes up to the newest one offered, from one made
before it subscribed on; the others are still owed by their calls, and no call owes it an
older one. -/
structure Served (s : Publisher) (sub : Subscriber) (stream : Stream) : Prop where
  newest_le : stream.newest ≤ s.changes.length
  sent : ∃ k, k ≤ stream.since ∧ k ≤ stream.newest ∧
    stream.received ++ sub.buffer =
      ((s.changes.take stream.newest).drop k).map YieldDecision.event
  owed : ∀ v, stream.newest < v → v ≤ s.changes.length →
    ∃ call ∈ s.calls, call.version = v ∧ call.pc.Owes sub.id
  ahead : ∀ call ∈ s.calls, call.pc.Owes sub.id → stream.newest < call.version

/-- Every subscriber that lost no event is served. -/
def Delivered (s : Publisher) : Prop :=
  ∀ sub ∈ s.cells.subscribers, ∀ stream, s.streams[sub.id]? = some stream →
    stream.dropped = false → Served s sub stream

variable {sub sub' : Subscriber} {stream stream' : Stream}

/-- A call takes a step of its own that serves nobody. -/
theorem Served.set (h : Served s sub stream) (hi : s.calls[i]? = some call)
    (hcalls : t.calls = s.calls.set i call') (hchanges : t.changes = s.changes)
    (howes : call'.pc.Owes sub.id ↔ call.pc.Owes sub.id)
    (hversion : call.pc.Owes sub.id → call'.version = call.version) :
    Served t sub stream := by
  refine ⟨hchanges ▸ h.newest_le, hchanges ▸ h.sent, fun v hlt hle => ?_, ?_⟩
  · rw [hchanges] at hle
    rw [hcalls]
    refine exists_set hi (h.owed v hlt hle) ?_
    rintro ⟨hv, hp⟩
    exact ⟨(hversion hp).trans hv, howes.mpr hp⟩
  · rw [hcalls]
    refine forall_set h.ahead fun hp => ?_
    rw [hversion (howes.mp hp)]
    exact h.ahead call (List.mem_of_getElem? hi) (howes.mp hp)

/-- The events may move from the channel to the client. -/
theorem Served.congr (h : Served s sub stream) (hcalls : t.calls = s.calls)
    (hchanges : t.changes = s.changes) (hid : sub'.id = sub.id)
    (hnewest : stream'.newest = stream.newest) (hsince : stream'.since = stream.since)
    (hsent : stream'.received ++ sub'.buffer = stream.received ++ sub.buffer) :
    Served t sub' stream' := by
  constructor
  · rw [hnewest, hchanges]
    exact h.newest_le
  · rw [hnewest, hchanges, hsince, hsent]
    exact h.sent
  · rw [hnewest, hchanges, hcalls, hid]
    exact h.owed
  · rw [hnewest, hcalls, hid]
    exact h.ahead

theorem Delivered.callStep (h : Delivered s) (hstep : s.callStep i = some t) : Delivered t := by
  obtain ⟨call, hi, ⟨hpc, -, rfl⟩ | ⟨hpc, pc, hcase, rfl⟩ | ⟨hpc, -, rfl⟩ | ⟨hpc, -, rfl⟩ |
    ⟨changed, hpc, rfl⟩ | ⟨hpc, rfl⟩ | ⟨hpc, rfl⟩⟩ := callStep_cases hstep <;>
    intro sub hsub stream hst hd <;> have hs := h sub hsub stream hst hd
  · refine ⟨?_, ?_, fun v hlt hle => ?_, forall_set hs.ahead fun _ => ?_⟩
    · have := hs.newest_le
      simp only [List.length_append, List.length_singleton]
      omega
    · obtain ⟨k, hk, hkn, hsent⟩ := hs.sent
      exact ⟨k, hk, hkn, by rw [hsent, List.take_append_of_le_length hs.newest_le]⟩
    · simp only [List.length_append, List.length_singleton] at hle
      rcases Nat.lt_or_eq_of_le hle with hv | rfl
      · exact exists_set hi (hs.owed v hlt (by omega)) fun hp => by
          simp [hpc, PublishPc.Owes] at hp
      · exact ⟨_, List.mem_set (List.getElem?_eq_some_iff.mp hi).1 _, rfl, trivial⟩
    · exact Nat.lt_succ_of_le hs.newest_le
  · refine hs.set hi rfl rfl ?_ (by simp [hpc, PublishPc.Owes])
    rcases hcase with ⟨rfl, -⟩ | ⟨rfl, -⟩ <;> simp [hpc, PublishPc.Owes]
  · exact hs.set hi rfl rfl (by simp [hpc, PublishPc.Owes]) (fun _ => rfl)
  · exact hs.set hi rfl rfl (by simp [hpc, PublishPc.Owes]) (fun _ => rfl)
  · refine hs.set hi rfl rfl ?_ (fun _ => rfl)
    cases changed <;> simp [hpc, PublishPc.Owes]
  · refine hs.set hi rfl rfl ⟨fun _ => ?_, fun _ => ?_⟩ (fun _ => rfl)
    · rw [hpc]
      trivial
    · exact List.mem_map_of_mem hsub
  · exact hs.set hi rfl rfl (by simp [hpc, PublishPc.Owes]) (fun _ => rfl)

/-- A subscriber is known by its name. -/
theorem Registered.eq_of_id (h : Registered s) (hsub : sub ∈ s.cells.subscribers)
    (hsub' : sub' ∈ s.cells.subscribers) (hid : sub'.id = sub.id) : sub' = sub :=
  List.inj_on_of_nodup_map h.nodup hsub' hsub hid

theorem Registered.full_eq_false (h : Registered s) (hsub : sub ∈ s.cells.subscribers)
    (hroom : sub.buffer.length < 32) : s.cells.full sub.id = false := by
  rw [Cells.full, List.any_eq_false]
  intro sub' hsub' hfull
  simp only [Bool.and_eq_true, decide_eq_true_eq] at hfull
  rw [h.eq_of_id hsub hsub' hfull.1] at hfull
  omega

/-- Without overtaking, the call that serves a channel has made the next change. -/
theorem Served.next (h : Served s sub stream) (ha : Announced s)
    (hi : s.calls[i]? = some call) (howes : call.pc.Owes sub.id)
    (hfirst : ∀ other ∈ s.calls, other.version < call.version → ¬ other.pc.Owes sub.id) :
    call.version = stream.newest + 1 := by
  have hmem := List.mem_of_getElem? hi
  have hlt := h.ahead call hmem howes
  by_contra hne
  obtain ⟨other, hother, hv, howes'⟩ := h.owed (stream.newest + 1) (Nat.lt_succ_self _) (by
    have := ha.version_le call hmem
    omega)
  exact hfirst other hother (by omega) howes'

/-- The call that has made the next change serves the channel. -/
theorem Served.send (h : Served s sub stream) (ha : Announced s) {rest : List Nat}
    (hi : s.calls[i]? = some call) (hpc : call.pc = .sending rest) (hid : sub.id ∈ rest)
    (hfirst : ∀ other ∈ s.calls, other.version < call.version → ¬ other.pc.Owes sub.id)
    (hcalls : t.calls = s.calls.set i { call with pc := .sending (rest.erase sub.id) })
    (hchanges : t.changes = s.changes) (hid' : sub'.id = sub.id)
    (hnewest : stream'.newest = call.version) (hsince : stream'.since = stream.since)
    (hsent : stream'.received ++ sub'.buffer =
      stream.received ++ sub.buffer ++ [call.decision.event]) : Served t sub' stream' := by
  have hmem := List.mem_of_getElem? hi
  have howes : call.pc.Owes sub.id := by
    rw [hpc]
    exact hid
  have hnext := h.next ha hi howes hfirst
  obtain ⟨v, hv, hdec⟩ := ha.change call hmem howes.changed
  obtain rfl : v = stream.newest := by omega
  have hlt := (List.getElem?_eq_some_iff.mp hdec).1
  obtain ⟨k, hk, hkn, hold⟩ := h.sent
  constructor
  · rw [hnewest, hchanges]
    omega
  · refine ⟨k, hsince ▸ hk, by omega, ?_⟩
    have hlen : k ≤ (s.changes.take stream.newest).length := by
      rw [List.length_take]
      omega
    rw [hsent, hchanges, hnewest, hv, List.take_add_one, hdec, List.drop_append_of_le_length hlen]
    simp [← hold]
  · intro v hlt hle
    rw [hchanges] at hle
    rw [hcalls, hid']
    refine exists_set hi (h.owed v (by omega) hle) fun hp => ?_
    exact absurd hp.1 (by omega)
  · rw [hcalls, hid', hnewest]
    intro other hother howes'
    obtain ⟨j, hj⟩ := List.mem_iff_getElem?.mp hother
    by_cases hji : j = i
    · -- the call does not owe it to the channel any more
      rw [hji, List.getElem?_set_self (List.getElem?_eq_some_iff.mp hi).1] at hj
      cases hj
      exact absurd howes' (ha.nodup call hmem rest hpc).not_mem_erase
    · rw [List.getElem?_set_ne (Ne.symm hji)] at hj
      refine lt_of_le_of_ne (Nat.not_lt.mp fun hlt => ?_) fun heq => hji ?_
      · exact hfirst other (List.mem_of_getElem? hj) hlt howes'
      · exact ha.unique j i other call hj hi howes'.changed howes.changed heq.symm

/-- A channel with room gets the next change. -/
theorem Delivered.sendStep {id : Nat} (h : Delivered s) (ha : Announced s) (hr : Registered s)
    (hok : InOrder s (.send i id)) (hstep : s.sendStep i id = some t) : Delivered t := by
  obtain ⟨call, rest, hi, hpc, hid, rfl⟩ := sendStep_eq_some.mp hstep
  intro sub' hsub' stream' hst' hd'
  obtain ⟨sub, hsub, rfl⟩ := List.mem_map.mp hsub'
  by_cases hsid : sub.id = id
  · subst hsid
    by_cases hroom : sub.buffer.length < 32
    · simp only [hroom, and_self, if_true, List.getElem?_modify, Option.map_eq_map,
        Option.map_eq_some_iff] at hst'
      obtain ⟨stream, hst, rfl⟩ := hst'
      have hd : stream.dropped = false := by
        simp only [Bool.or_eq_false_iff] at hd'
        exact hd'.1
      have hfirst := hok call hi stream hst hd (hr.full_eq_false hsub hroom)
      rw [if_pos ⟨rfl, hroom⟩]
      exact (h sub hsub stream hst hd).send ha hi hpc hid hfirst rfl rfl rfl rfl rfl
        (List.append_assoc _ _ _).symm
    · have hfull : s.cells.full sub.id = true := by
        simp only [Cells.full, List.any_eq_true, Bool.and_eq_true, decide_eq_true_eq]
        exact ⟨sub, hsub, rfl, by omega⟩
      simp only [hroom, and_false, if_false, List.getElem?_modify, if_true, Option.map_eq_map,
        Option.map_eq_some_iff] at hst'
      obtain ⟨stream, -, rfl⟩ := hst'
      simp [hfull] at hd'
  · simp only [hsid, false_and, if_false] at hst' ⊢
    rw [List.getElem?_modify_ne _ _ (Ne.symm hsid)] at hst'
    refine (h sub hsub stream' hst' hd').set hi rfl rfl ?_ (fun _ => rfl)
    rw [hpc]
    exact List.mem_erase_of_ne hsid

/-- The oldest event of a subscriber is the head of its channel. -/
theorem Registered.oldest (h : Registered s) (hsub : sub ∈ s.cells.subscribers) :
    s.cells.oldest sub.id = sub.buffer.head? := by
  have hfind : s.cells.subscribers.find? (fun sub' => sub'.id = sub.id) = some sub := by
    obtain ⟨sub', hsub'⟩ : ∃ sub', s.cells.subscribers.find? (fun sub' => sub'.id = sub.id) =
        some sub' := by
      rw [← Option.isSome_iff_exists, List.find?_isSome]
      exact ⟨sub, hsub, by simp⟩
    have hid : sub'.id = sub.id := by simpa using List.find?_some hsub'
    rw [hsub', h.eq_of_id hsub (List.mem_of_find?_eq_some hsub') hid]
  simp [Cells.oldest, hfind]

theorem Delivered.streamStep {id : Nat} (h : Delivered s) (hr : Registered s)
    (hstep : s.streamStep id = some t) : Delivered t := by
  -- a step that moves no event
  have hstay : ∀ stream stream' : Stream, s.streams[id]? = some stream →
      t.streams = s.streams.set id stream' → stream'.dropped = stream.dropped →
      stream'.newest = stream.newest → stream'.since = stream.since →
      stream'.received = stream.received → t.cells = s.cells → t.calls = s.calls →
      t.changes = s.changes → Delivered t := by
    intro stream stream' hst hstreams hdr hn hsi hre hcells hcalls hchanges sub hsub st hst' hd
    rw [hcells] at hsub
    rw [hstreams] at hst'
    by_cases hid : id = sub.id
    · subst hid
      rw [List.getElem?_set_self (List.getElem?_eq_some_iff.mp hst).1] at hst'
      cases hst'
      exact (h sub hsub stream hst (hdr ▸ hd)).congr hcalls hchanges rfl hn hsi (by rw [hre])
    · rw [List.getElem?_set_ne hid] at hst'
      exact (h sub hsub st hst' hd).congr hcalls hchanges rfl rfl rfl rfl
  obtain ⟨stream, hst, ⟨-, rfl⟩ | ⟨g, -, rfl⟩ | ⟨e, -, rfl⟩ | ⟨e, -, he, rfl⟩⟩ :=
    streamStep_cases hstep
  · exact hstay stream _ hst rfl rfl rfl rfl rfl rfl rfl rfl
  · exact hstay stream _ hst rfl rfl rfl rfl rfl rfl rfl rfl
  · exact hstay stream _ hst rfl rfl rfl rfl rfl rfl rfl rfl
  · intro sub' hsub' st hst' hd
    obtain ⟨sub, hsub, rfl⟩ := List.mem_map.mp hsub'
    by_cases hid : sub.id = id
    · subst hid
      simp only [if_true] at hst' ⊢
      rw [List.getElem?_set_self (List.getElem?_eq_some_iff.mp hst).1] at hst'
      cases hst'
      refine (h sub hsub stream hst hd).congr rfl rfl rfl rfl rfl ?_
      rw [hr.oldest hsub] at he
      obtain ⟨rest, hb⟩ : ∃ rest, sub.buffer = e :: rest := by
        cases hb : sub.buffer with
        | nil => simp [hb] at he
        | cons e' rest =>
          rw [hb, List.head?_cons] at he
          exact ⟨rest, by rw [Option.some.inj he]⟩
      simp [hb]
    · simp only [hid, if_false] at hst' ⊢
      rw [List.getElem?_set_ne (Ne.symm hid)] at hst'
      exact (h sub hsub st hst' hd).congr rfl rfl rfl rfl rfl rfl

/-- **Step lemma**: a step without overtaking keeps the subscribers served. -/
theorem Delivered.step {a : PublishAction} (h : Delivered s) (ha : Announced s)
    (hr : Registered s) (hok : InOrder s a) (hstep : s.step a = some t) : Delivered t := by
  cases a with
  | call guarded decision =>
    cases hstep
    intro sub hsub stream hst hd
    have hs := h sub hsub stream hst hd
    refine ⟨hs.newest_le, hs.sent, fun v hlt hle => ?_, ?_⟩
    · obtain ⟨c, hc, hv⟩ := hs.owed v hlt hle
      exact ⟨c, List.mem_append_left _ hc, hv⟩
    · simpa [or_imp, forall_and, PublishPc.Owes] using hs.ahead
  | step i => exact h.callStep hstep
  | send i id => exact h.sendStep ha hr hok hstep
  | subscribe =>
    simp only [Publisher.step, Option.ite_none_right_eq_some, Option.some.injEq] at hstep
    obtain ⟨hunread, rfl⟩ := hstep
    intro sub hsub stream hst hd
    simp only [Cells.subscribe, List.mem_append, List.mem_singleton] at hsub
    rcases hsub with hsub | rfl
    · rw [List.getElem?_append_left (hr.lt sub hsub)] at hst
      exact (h sub hsub stream hst hd).congr rfl rfl rfl rfl rfl rfl
    · simp only [hr.next, List.getElem?_concat_length, Option.some.injEq] at hst
      subst hst
      refine ⟨ha.announced_le, ⟨s.announced, ha.announced_le, le_rfl, ?_⟩, fun v hlt hle => ?_,
        fun call hcall howes => ?_⟩
      · show [] = ((s.changes.take s.announced).drop s.announced).map _
        simp
      · obtain ⟨c, hc, hv, hp⟩ := ha.unannounced v hlt hle
        exact ⟨c, hc, hv, hp.owes⟩
      · -- no broadcast is under way, so what the call owes it has not begun to broadcast
        refine hok call hcall (howes.unannounced_of_unread fun rest hpc => ?_)
        have hreads := List.all_eq_true.mp hunread call hcall
        simp [ApplyCall.reads, hpc] at hreads
  | stream id => exact h.streamStep hr hstep
  | disconnect id =>
    obtain ⟨stream, -, -, rfl⟩ := disconnectStep_cases hstep
    intro sub hsub st hst hd
    obtain ⟨hsub, hid⟩ := List.mem_filter.mp hsub
    rw [List.getElem?_set_ne (by simpa using Ne.symm (by simpa using hid))] at hst
    exact (h sub hsub st hst hd).congr rfl rfl rfl rfl rfl rfl

/-- A handler that has read the state before any change since it subscribed has the current
one. -/
structure Told (s : Publisher) (stream : Stream) : Prop where
  since_le : stream.since ≤ s.changes.length
  of_read : stream.since = s.changes.length → ∀ g, stream.pc = .readDecision g → g = s.cells.current
  of_send : stream.since = s.changes.length → ∀ e, stream.pc = .sendInitial e →
    e.state = s.cells.current
  of_initial : stream.since = s.changes.length → ∀ e, stream.initial = some e →
    e.state = s.cells.current

theorem Told.congr (h : Told s stream) (hchanges : t.changes = s.changes)
    (hc : t.cells.current = s.cells.current) (hpc : stream'.pc = stream.pc)
    (hinitial : stream'.initial = stream.initial) (hsince : stream'.since = stream.since) :
    Told t stream' := by
  constructor
  · rw [hsince, hchanges]
    exact h.since_le
  · rw [hsince, hchanges, hpc, hc]
    exact h.of_read
  · rw [hsince, hchanges, hpc, hc]
    exact h.of_send
  · rw [hsince, hchanges, hinitial, hc]
    exact h.of_initial

theorem told_step {a : PublishAction} (h : ∀ stream ∈ s.streams, Told s stream)
    (hstep : s.step a = some t) : ∀ stream ∈ t.streams, Told t stream := by
  cases a with
  | call guarded decision =>
    cases hstep
    intro stream hst
    exact (h stream hst).congr rfl rfl rfl rfl rfl
  | step i =>
    obtain ⟨call, -, ⟨-, -, rfl⟩ | ⟨-, pc, -, rfl⟩ | ⟨-, -, rfl⟩ | ⟨-, -, rfl⟩ | ⟨b, -, rfl⟩ |
      ⟨-, rfl⟩ | ⟨-, rfl⟩⟩ := callStep_cases hstep <;> intro stream hst
    · have hle := (h stream hst).since_le
      have hne : stream.since ≠ s.changes.length + 1 := by omega
      refine ⟨?_, ?_, ?_, ?_⟩ <;> simp only [List.length_append, List.length_singleton]
      · omega
      · exact fun hs => absurd hs hne
      · exact fun hs => absurd hs hne
      · exact fun hs => absurd hs hne
    all_goals exact (h stream hst).congr rfl rfl rfl rfl rfl
  | send i id =>
    obtain ⟨call, rest, -, -, -, rfl⟩ := sendStep_eq_some.mp hstep
    intro stream' hmem
    obtain ⟨j, hj⟩ := List.mem_iff_getElem?.mp hmem
    rw [List.getElem?_modify] at hj
    obtain ⟨stream, hst, rfl⟩ := Option.map_eq_some_iff.mp hj
    have hs := h stream (List.mem_of_getElem? hst)
    by_cases hid : id = j
    · rw [if_pos hid]
      exact hs.congr rfl rfl rfl rfl rfl
    · rw [if_neg hid]
      exact hs.congr rfl rfl rfl rfl rfl
  | subscribe =>
    simp only [Publisher.step, Option.ite_none_right_eq_some, Option.some.injEq] at hstep
    obtain ⟨-, rfl⟩ := hstep
    intro stream hst
    rcases List.mem_append.mp hst with hst | hst
    · exact (h stream hst).congr rfl rfl rfl rfl rfl
    · rw [List.mem_singleton] at hst
      subst hst
      exact ⟨le_rfl, by simp, by simp, by simp⟩
  | stream id =>
    obtain ⟨stream, hst, ⟨hpc, rfl⟩ | ⟨g, hpc, rfl⟩ | ⟨e, hpc, rfl⟩ | ⟨e, hpc, -, rfl⟩⟩ :=
      streamStep_cases hstep <;> have hs := h stream (List.mem_of_getElem? hst) <;>
      intro st hmem <;> rcases List.mem_or_eq_of_mem_set hmem with hmem | rfl
    · exact (h st hmem).congr rfl rfl rfl rfl rfl
    · exact ⟨hs.since_le, by simp, by simp, hs.of_initial⟩
    · exact (h st hmem).congr rfl rfl rfl rfl rfl
    · refine ⟨hs.since_le, by simp, ?_, hs.of_initial⟩
      intro hsince e he
      cases he
      rw [initialEvent_state]
      exact hs.of_read hsince g hpc
    · exact (h st hmem).congr rfl rfl rfl rfl rfl
    · refine ⟨hs.since_le, by simp, by simp, ?_⟩
      intro hsince e' he
      cases he
      exact hs.of_send hsince e hpc
    · exact (h st hmem).congr rfl rfl rfl rfl rfl
    · exact hs.congr rfl rfl rfl rfl rfl
  | disconnect id =>
    obtain ⟨stream, hst, -, rfl⟩ := disconnectStep_cases hstep
    intro st hmem
    rcases List.mem_or_eq_of_mem_set hmem with hmem | rfl
    · exact (h st hmem).congr rfl rfl rfl rfl rfl
    · have hs := h stream (List.mem_of_getElem? hst)
      exact ⟨hs.since_le, by simp, by simp, hs.of_initial⟩

-- ════════════════════════════════════════════════════════════════════════
-- Runs
-- ════════════════════════════════════════════════════════════════════════

/-- The invariant of a run without overtaking. -/
structure Consistent (s : Publisher) : Prop where
  stored : Stored s
  announced : Announced s
  registered : Registered s
  delivered : Delivered s
  told : ∀ stream ∈ s.streams, Told s stream

theorem consistent_init : Consistent {} where
  stored := ⟨rfl, by simp, Or.inr (Or.inr ⟨rfl, rfl⟩)⟩
  announced := ⟨by simp, by simp, by simp, by simp, le_rfl,
    fun v hlt hle => absurd (Nat.lt_of_lt_of_le hlt hle) (by simp)⟩
  registered := ⟨List.nodup_nil, by simp, rfl⟩
  delivered := by
    intro sub hsub
    simp at hsub
  told := by simp

/-- **Run lemma**: a run without overtaking keeps the invariant. -/
theorem consistent_of_reach (h : system.Reach InOrder s) : Consistent s := by
  refine h.invariant (I := Consistent) ?_ ?_
  · rintro s rfl
    exact consistent_init
  · intro s a t hs hok hstep
    exact ⟨hs.stored.step hok hstep, hs.announced.step hs.registered hstep,
      hs.registered.step hstep,
      hs.delivered.step hs.announced hs.registered hok hstep, told_step hs.told hstep⟩

/-- With no call in progress every change has been sent. -/
theorem Served.newest_eq (h : Served s sub stream) (hq : s.Quiet) :
    stream.newest = s.changes.length := by
  by_contra hne
  have hlt : stream.newest < s.changes.length := lt_of_le_of_ne h.newest_le hne
  obtain ⟨call, hc, -, howes⟩ := h.owed _ hlt le_rfl
  simp [hq call hc, PublishPc.Owes] at howes

theorem Consistent.latest (h : Consistent s) (hq : s.Quiet) (hcalls : s.calls ≠ []) :
    ∃ d, s.cells.latestDecision = some d ∧ d.state = s.cells.current := by
  rcases h.stored.latest with hd | ⟨call, hc, hpc⟩ | ⟨hnil, hnone⟩
  · exact hd
  · simp [hq call hc, PublishPc.Storing] at hpc
  · obtain ⟨call, hc⟩ := List.exists_mem_of_ne_nil _ hcalls
    exact absurd hnone (h.stored.past hnil call hc (by simp [hq call hc, PublishPc.Past]))

/-- **Published decisions agree with the state** in every quiet state of a run without
overtaking. -/
theorem publishes_of_reach (h : system.Reach InOrder s) (hq : s.Quiet) : s.Published := by
  have hc := consistent_of_reach h
  have hsent : ∀ sub ∈ s.cells.subscribers, ∀ stream, s.streams[sub.id]? = some stream →
      stream.dropped = false → ∃ k ≤ stream.since,
        stream.received ++ sub.buffer = (s.changes.drop k).map YieldDecision.event := by
    intro sub hsub stream hst hd
    have hs := hc.delivered sub hsub stream hst hd
    obtain ⟨k, hk, -, hsent⟩ := hs.sent
    rw [hs.newest_eq hq, List.take_length] at hsent
    exact ⟨k, hk, hsent⟩
  refine ⟨hc.latest hq, hsent, ?_⟩
  intro sub hsub stream hst hd e he
  obtain ⟨k, hk, heq⟩ := hsent sub hsub stream hst hd
  have htold := hc.told stream (List.mem_of_getElem? hst)
  rw [heq]
  by_cases hlt : k < s.changes.length
  · -- the last event is that of the last change
    have hne : s.changes.drop k ≠ [] := by simpa using hlt
    rw [hc.stored.current_eq, List.getLast?_map, List.getLast?_drop, if_neg (by omega)]
    cases hl : s.changes.getLast? with
    | none => simp [List.getLast?_eq_none_iff.mp hl] at hne
    | some d => rfl
  · have hsince : stream.since = s.changes.length := by
      have := htold.since_le
      omega
    rw [List.drop_eq_nil_of_le (by omega)]
    exact htold.of_initial hsince e he

/-- A WINDOW_POST that one stream has been told of, and a proof monitor that resumes. -/
def resumeUnderway : List PublishAction :=
  [.call false failSafeDecision, .step 0, .step 0, .step 0, .step 0,
    .subscribe, .stream 0, .stream 0, .stream 0,
    .call true proofCompleteDecision, .step 1]

/-- The resume is published, and then a win. -/
def winAfterResume : List PublishAction :=
  [.step 1, .step 1, .send 1 0, .step 1, .stream 0,
    .call false (winningDecision Sched.defaultConfig "block"), .step 2, .step 2, .step 2,
    .send 2 0, .step 2, .stream 0]

/-- A run in order whose last event is the win. -/
theorem publishes_winAfterResume :
    ∃ s, system.execGuarded InOrder {} (resumeUnderway ++ winAfterResume) = some s ∧
      s.cells.current = .winningPost ∧ s.Published := by
  have hfinal : (system.execGuarded InOrder {} (resumeUnderway ++ winAfterResume)).any
      (fun s => s.Quiet ∧ s.cells.current = .winningPost) = true := by decide +kernel
  obtain ⟨s, hrun, hs⟩ := (Option.any_eq_true _ _).mp hfinal
  obtain ⟨hquiet, hcur⟩ := of_decide_eq_true hs
  exact ⟨s, hrun, hcur, publishes_of_reach (.execGuarded (.init rfl) hrun) hquiet⟩

/-- The win is published while the resume has only changed the state. -/
def winOvertakesResume : List PublishAction :=
  [.call false (winningDecision Sched.defaultConfig "block"), .step 2, .step 2, .step 2,
    .send 2 0, .step 2, .step 1, .step 1, .send 1 0, .step 1, .stream 0, .stream 0]

/-- The GPU is in WINNING_POST, and both the stored decision and the last event that the
client of the stream received, which lost none, say AVAILABLE. -/
theorem overtaken_not_publishes :
    ∃ s, system.Reach Transition.System.anyStep s ∧ s.Quiet ∧
      s.cells.current = .winningPost ∧ s.cells.latestDecision = some proofCompleteDecision ∧
      s.streams.map (fun stream => (stream.dropped, stream.received.getLast?)) =
        [(false, some proofCompleteDecision.event)] ∧ ¬ s.Published := by
  have hfinal : (system.exec {} (resumeUnderway ++ winOvertakesResume)).any
      (fun s => s.Quiet ∧ s.calls ≠ [] ∧ s.cells.current = .winningPost ∧
        s.cells.latestDecision = some proofCompleteDecision ∧
        s.streams.map (fun stream => (stream.dropped, stream.received.getLast?)) =
          [(false, some proofCompleteDecision.event)]) = true := by decide +kernel
  obtain ⟨s, hrun, hs⟩ := (Option.any_eq_true _ _).mp hfinal
  obtain ⟨hquiet, hcalls, hwin, hlatest, hstream⟩ := of_decide_eq_true hs
  refine ⟨s, Transition.System.reach_of_exec rfl hrun, hquiet, hwin, hlatest, hstream, ?_⟩
  intro hp
  obtain ⟨d, hd, hcur⟩ := hp.latest hcalls
  rw [hlatest, Option.some.injEq] at hd
  subst hd
  rw [hwin] at hcur
  cases hcur

end Publisher

end OpenModel.Scheduler
